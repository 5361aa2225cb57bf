/-
  The check of the blocks of an uploaded tree (`server/http-server.c`, `fileserver/sync_api.go`).
  Both servers walk the tree of the commit's base against the uploaded one and look for the blocks
  of the files that differ. A check that passes has seen every file whose blocks the base does not
  vouch for.
-/
import CloudFile.Sync.SendList

namespace CloudFile

open SortedWalk List Option

variable {Id : Type} [ObjectId Id] [DecidableEq Id]

/-! ## The model -/

/-- `check_file_blocks`: a file is listed at its first block that does not exist. -/
def checkFileBlocks (add : List Name → Name → List Name) (st : FsStore Id)
    (blockExists : Id → Bool) (files : Row Id) (fileList : List Name) : Option (List Name) :=
  match files with
  | [file1, some file2] =>
    if file2.id = emptySha1 || file1.any (fun file1 => file1.id = file2.id) then some fileList
    else (st.getSeafile file2.id).map fun blocks =>
      if blocks.any (fun blockId => !blockExists blockId) then add fileList file2.name
      else fileList
  | [_, none] => some fileList
  | _ => none

/-- `check_dir_cb`: whether the walk goes on below. -/
def checkDirCb (dirs : Row Id) : Option Bool :=
  match dirs with
  | [none, some dir2] => some (dir2.id ≠ emptySha1)
  | [some _, none] => some false
  | [some dir1, some dir2] =>
    -- a directory on both sides: `recurse` is TRUE unless the callback clears it
    some (!(dir1.id = dir2.id || dir2.id = emptySha1))
  | _ => none

def checking (add : List Name → Name → List Name) (st : FsStore Id) (blockExists : Id → Bool) :
    DiffOptions Id (List Name) where
  fileCb _ files fileList := checkFileBlocks add st blockExists files fileList
  dirCb _ dirs fileList := (checkDirCb dirs).map fun recurse => (fileList, recurse)

namespace Server

def addFile (fileList : List Name) (name : Name) : List Name := name :: fileList

/-- `check_blocks`, for the roots of the two commits: the names it reports, `none` if the diff
    fails. -/
def checkBlocks (st : FsStore Id) (blockExists : Id → Bool) (fuel : ℕ) (baseRoot remoteRoot : Id) :
    Option (List Name) :=
  diffTrees treeWalk st (checking addFile st blockExists) fuel [baseRoot, remoteRoot] []

end Server

namespace Fileserver

def addFile (fileList : List Name) (name : Name) : List Name := fileList ++ [name]

/-- `checkFileBlocks` and `checkDirCB`: both give up when the request is cancelled. -/
def checkOptions (stop : Name → Row Id → List Name → Bool) (st : FsStore Id)
    (blockExists : Id → Bool) : DiffOptions Id (List Name) where
  fileCb baseDir files fileList :=
    if stop baseDir files fileList then none
    else checkFileBlocks addFile st blockExists files fileList
  dirCb baseDir dirs fileList :=
    if stop baseDir dirs fileList then none
    else (checkDirCb dirs).map fun recurse => (fileList, recurse)

def checkBlocks (stop : Name → Row Id → List Name → Bool) (st : FsStore Id)
    (blockExists : Id → Bool) (fuel : ℕ) (baseRoot remoteRoot : Id) : Option (List Name) :=
  diffTrees treeWalk st (checkOptions stop st blockExists) fuel [baseRoot, remoteRoot] []

end Fileserver

/-! ## What a check has to find -/

def MissesBlock (st : FsStore Id) (blockExists : Id → Bool) (d : Dirent Id) : Prop :=
  ∃ blocks, st.getSeafile d.id = some blocks ∧ ∃ blockId ∈ blocks, blockExists blockId = false

/-- Every non-empty file of the tree has its blocks. -/
def BlocksExist (st : FsStore Id) (blockExists : Id → Bool) (root : Id) : Prop :=
  ∀ path d, entryAt st root path = some d → d.isReg = true → d.id ≠ emptySha1 →
    ∀ blocks, st.getSeafile d.id = some blocks → ∀ blockId ∈ blocks, blockExists blockId = true

/-- Every non-empty file of the tree can be read. -/
def FilesRead (st : FsStore Id) (root : Id) : Prop :=
  ∀ path d, entryAt st root path = some d → d.isReg = true → d.id ≠ emptySha1 →
    ∃ blocks, st.getSeafile d.id = some blocks

/-- What the reported names say about the uploaded tree. -/
structure Verifies (st : FsStore Id) (blockExists : Id → Bool) (baseRoot remoteRoot : Id)
    (files : List Name) : Prop where
  passes : files = [] → BlocksExist st blockExists baseRoot →
    BlocksExist st blockExists remoteRoot
  reported : ∀ name ∈ files, ∃ path d, entryAt st remoteRoot path = some d ∧ d.name = name ∧
    d.isReg = true ∧ MissesBlock st blockExists d

/-! ## What the walk emits -/

section

variable {st : FsStore Id} {blockExists : Id → Bool} {d : Dirent Id} {k : ℕ}

/-- What the callback puts for a file: its name, or none where it cannot be read. -/
def checkedFile (st : FsStore Id) (blockExists : Id → Bool) (o n : Option (Dirent Id)) :
    List (Option Name) :=
  match n with
  | none => []
  | some d =>
    if d.id = emptySha1 || o.any (fun d' => d'.id = d.id) then []
    else match st.getSeafile d.id with
      | none => [none]
      | some blocks =>
        if blocks.any (fun blockId => !blockExists blockId) then [some d.name] else []

/-- Whether the callbacks leave the walk to go on below two directories. -/
def checkedBelow (o n : Option (Dirent Id)) : Bool :=
  n.any (fun d => d.id ≠ emptySha1 && !o.any (fun d' => d'.id = d.id))

/-- The callbacks as an emitter. -/
def checker (st : FsStore Id) (blockExists : Id → Bool) : Emitter Id (Option Name) where
  file _ := checkedFile st blockExists
  dir _ o n := ([], checkedBelow o n)
  file_none _ := rfl
  dir_none _ := rfl

theorem checking_emits (add : List Name → Name → List Name) (st : FsStore Id)
    (blockExists : Id → Bool) :
    (checking add st blockExists).Emits (checker st blockExists)
      fun fileList name => name.map (add fileList) where
  fileCb parent o n s _ := by
    cases n with
    | none => rfl
    | some d =>
      simp only [checking, checkFileBlocks, checker, checkedFile]
      split
      · rfl
      cases st.getSeafile d.id with
      | none => rfl
      | some blocks =>
        simp only [map_some]
        split <;> rfl
  dirCb parent o n s hsome := by
    cases o with
    | none =>
      cases n with
      | none => exact absurd ⟨rfl, rfl⟩ hsome
      | some d => simp [checking, checkDirCb, checker, checkedBelow]
    | some d' =>
      cases n with
      | none => rfl
      | some d => simp [checking, checkDirCb, checker, checkedBelow, Bool.and_comm]

/-- A file of the uploaded tree has its blocks, or is a file of the base. -/
def Accounted (st : FsStore Id) (blockExists : Id → Bool) (o : List (Dirent Id)) (d : Dirent Id) :
    Prop :=
  (∃ blocks, st.getSeafile d.id = some blocks ∧ ∀ blockId ∈ blocks, blockExists blockId = true) ∨
    StandsIn st o d

theorem accounted_of_checkedFile {o : List (Dirent Id)} {path : List Name}
    (h : checkedFile st blockExists ((entryIn st o path).filter Dirent.isReg) (some d) = [])
    (hreg : d.isReg = true) (hne : d.id ≠ emptySha1) : Accounted st blockExists o d := by
  simp only [checkedFile] at h
  split at h
  next hskip =>
    cases hfile : (entryIn st o path).filter Dirent.isReg with
    | none => simp [hfile, hne] at hskip
    | some d' => exact .inr (.of_reg hfile (by simpa [hfile, hne] using hskip) hreg)
  next =>
    split at h
    · cases h
    next blocks hblocks =>
      split at h
      · cases h
      next hall => exact .inl ⟨blocks, hblocks, by simpa using hall⟩

theorem not_checkedBelow {o : Option (Dirent Id)} (h : checkedBelow o (some d) = false)
    (hne : d.id ≠ emptySha1) : ∃ d', o = some d' ∧ d'.id = d.id := by
  cases o with
  | none => simp [checkedBelow, hne] at h
  | some d' => exact ⟨d', rfl, by simpa [checkedBelow, hne] using h⟩

theorem mem_checkedFile {o n : Option (Dirent Id)} {x : Option Name}
    (h : x ∈ checkedFile st blockExists o n) :
    ∃ d, n = some d ∧ d.id ≠ emptySha1 ∧
      (x = some d.name ∧ MissesBlock st blockExists d ∨ x = none ∧ st.getSeafile d.id = none) := by
  cases n with
  | none => cases h
  | some d =>
    simp only [checkedFile] at h
    split at h
    · cases h
    next hskip =>
      refine ⟨d, rfl, fun hempty => hskip (by simp [hempty]), ?_⟩
      split at h
      next hread => exact .inr ⟨mem_singleton.mp h, hread⟩
      next blocks hblocks =>
        split at h
        next hmiss => exact .inl ⟨mem_singleton.mp h, blocks, hblocks, by simpa using hmiss⟩
        · cases h

variable {o n : List (Dirent Id)} {parent path : List Name}

theorem checker_sound {x : Option Name} (h : x ∈ (checker st blockExists).walk st k parent o n) :
    ∃ path d, entryIn st n path = some d ∧ d.isReg = true ∧ d.id ≠ emptySha1 ∧
      (x = some d.name ∧ MissesBlock st blockExists d ∨ x = none ∧ st.getSeafile d.id = none) := by
  obtain ⟨pre, m, hx⟩ := Emitter.mem_items_of_mem_walk h
  simp only [Emitter.items, checker, append_nil] at hx
  obtain ⟨d, hd, hrest⟩ := mem_checkedFile hx
  obtain ⟨hd, hreg⟩ := filter_eq_some_iff.mp hd
  exact ⟨_, d, hd, hreg, hrest⟩

variable (hsubo : SubTrees (Desc Dirent.name) st k o) (hsubn : SubTrees (Desc Dirent.name) st k n)

include hsubo hsubn

theorem checker_complete (h : (checker st blockExists).walk st (k + 1) [] o n = [])
    (hd : entryIn st n path = some d) (hreg : d.isReg = true) (hne : d.id ≠ emptySha1) :
    Accounted st blockExists o d := by
  obtain ⟨pre, m, rfl⟩ := exists_concat_of_entryIn hd
  rcases (checker st blockExists).items_subset_or_stops hsubo hsubn .nil [] pre m with
    hsub | ⟨above, below, heq, habove, hsame | ⟨hbelow, parent, hgo⟩⟩
  · rw [h, subset_nil, hd] at hsub
    have hfiles := (append_eq_nil_iff.mp hsub).1
    rw [filter_isReg_some hreg] at hfiles
    exact accounted_of_checkedFile hfiles hreg hne
  · obtain ⟨a, b, ha, hb, hid, hmode, -⟩ := rowSame_iff.mp hsame
    rw [heq] at hd
    exact .inr (.of_above ha hb hid (congrArg sIsDir hmode) (congrArg sIsReg hmode) habove hd)
  · rw [heq] at hd
    obtain ⟨e, he, hdir⟩ := entryIn_above habove hbelow hd
    -- an empty directory has no entries, so the base has the directory
    have hfull : e.id ≠ emptySha1 := by
      intro hempty
      rw [entryIn_append habove hbelow, he] at hd
      simp [subEntries, hdir, hempty] at hd
    rw [Emitter.goes, he, filter_isDir_some hdir] at hgo
    obtain ⟨a, ha, hid⟩ := not_checkedBelow hgo hfull
    obtain ⟨ha, hdira⟩ := filter_eq_some_iff.mp ha
    exact .inr (.of_above ha he hid (hdira.trans hdir.symm)
      (by rw [Dirent.isReg_of_isDir hdira, Dirent.isReg_of_isDir hdir]) habove hd)

/-! ## The checks of the two servers -/

variable {baseRoot remoteRoot : Id} (ho : st.getSeafdir baseRoot = some o)
  (hn : st.getSeafdir remoteRoot = some n)

include ho hn

theorem verifies_of_walk {files : List Name}
    (hfiles : ∀ name, name ∈ files ↔
      some name ∈ (checker st blockExists).walk st (k + 1) [] o n)
    (hread : none ∉ (checker st blockExists).walk st (k + 1) [] o n) :
    Verifies st blockExists baseRoot remoteRoot files where
  passes hnil hbase path d hd hreg hne blocks hblocks := by
    have hwalk : (checker st blockExists).walk st (k + 1) [] o n = [] := by
      refine eq_nil_iff_forall_not_mem.mpr fun x hx => ?_
      cases x with
      | none => exact hread hx
      | some name => simpa [hnil] using (hfiles name).mpr hx
    rw [entryAt_eq hn] at hd
    rcases checker_complete hsubo hsubn hwalk hd hreg hne with ⟨blocks', hblocks', hall⟩ | hstands
    · cases hblocks.symm.trans hblocks'
      exact hall
    · obtain ⟨path', d', hd', hid, -, hreg'⟩ := hstands
      rw [← entryAt_eq ho] at hd'
      exact hbase path' d' hd' (hreg'.trans hreg) (hid ▸ hne) blocks (hid ▸ hblocks)
  reported name hname := by
    obtain ⟨path, d, hd, hreg, -, ⟨hdname, hmiss⟩ | ⟨hnone, -⟩⟩ :=
      checker_sound ((hfiles name).mp hname)
    · exact ⟨path, d, by rw [entryAt_eq hn, hd], (Option.some.inj hdname).symm, hreg, hmiss⟩
    · cases hnone

omit hsubo hsubn ho in
theorem none_notMem_walk (hread : FilesRead st remoteRoot) :
    none ∉ (checker st blockExists).walk st k parent o n := by
  intro h
  obtain ⟨path, d, hd, hreg, hne, ⟨hnone, -⟩ | ⟨-, hnone⟩⟩ := checker_sound h
  · cases hnone
  · obtain ⟨blocks, hblocks⟩ := hread path d (by rw [entryAt_eq hn, hd]) hreg hne
    cases hnone.symm.trans hblocks

end

section

variable {add : List Name → Name → List Name} {st : FsStore Id} {blockExists : Id → Bool}
  {baseRoot remoteRoot : Id}

theorem foldlM_add (hadd : Pushes add) (l : List (Option Name)) (s : List Name) :
    (none ∈ l ∧ l.foldlM (fun fileList name => name.map (add fileList)) s = none) ∨
      none ∉ l ∧ ∃ files, l.foldlM (fun fileList name => name.map (add fileList)) s = some files ∧
        ∀ name, name ∈ files ↔ name ∈ s ∨ some name ∈ l := by
  induction l generalizing s with
  | nil => exact .inr ⟨not_mem_nil, s, rfl, by simp⟩
  | cons x l ih =>
    cases x with
    | none => exact .inl ⟨mem_cons_self, rfl⟩
    | some name =>
      refine (ih (add s name)).imp (fun ⟨hnone, hrun⟩ => ⟨mem_cons_of_mem _ hnone, hrun⟩) ?_
      rintro ⟨hnone, files, hrun, hfiles⟩
      refine ⟨by simpa using hnone, files, hrun, fun name' => ?_⟩
      rw [hfiles, hadd, mem_cons, Option.some.injEq]
      tauto

theorem diffTrees_verifies (blockExists : Id → Bool) (hadd : Pushes add)
    {treeWalk : List (List (Dirent Id)) → List (Row Id)}
    (hwalk : ∀ trees, treeWalk trees = Server.treeWalk trees) {fuel : ℕ}
    (hbase : Tree (Desc Dirent.name) st fuel baseRoot)
    (hremote : Tree (Desc Dirent.name) st fuel remoteRoot) :
    (∀ files, diffTrees treeWalk st (checking add st blockExists) fuel [baseRoot, remoteRoot] [] =
      some files → Verifies st blockExists baseRoot remoteRoot files) ∧
    (FilesRead st remoteRoot → ∃ files, diffTrees treeWalk st (checking add st blockExists) fuel
      [baseRoot, remoteRoot] [] = some files) := by
  obtain ⟨k, rfl⟩ := hbase.exists_succ
  obtain ⟨o, ho, hsubo⟩ := hbase.subTrees
  obtain ⟨n, hn, hsubn⟩ := hremote.subTrees
  rw [diffTrees_emits (checking_emits add st blockExists) hwalk ho hn hsubo hsubn]
  rcases foldlM_add hadd ((checker st blockExists).walk st (k + 1) [] o n) [] with
    ⟨hnone, hrun⟩ | ⟨hnone, files, hrun, hfiles⟩ <;> rw [hrun]
  · refine ⟨fun _ h => ?_, fun hread => absurd hnone (none_notMem_walk hn hread)⟩
    cases h
  · refine ⟨fun files' h => ?_, fun _ => ⟨files, rfl⟩⟩
    cases h
    exact verifies_of_walk hsubo hsubn ho hn (fun name => by simpa using hfiles name) hnone

theorem Fileserver.checkOptions_le (stop : Name → Row Id → List Name → Bool) :
    (Fileserver.checkOptions stop st blockExists).Le
      (checking Fileserver.addFile st blockExists) where
  fileCb baseDir files fileList r h := by
    simp only [checkOptions] at h
    split at h
    · cases h
    · exact h
  dirCb baseDir dirs fileList r h := by
    simp only [checkOptions] at h
    split at h
    · cases h
    · exact h

theorem Server.pushes_addFile : Pushes Server.addFile := fun fileList name name' => by
  rw [addFile, mem_cons, or_comm]

theorem Fileserver.pushes_addFile : Pushes Fileserver.addFile := fun fileList name name' => by
  rw [addFile, mem_append, mem_singleton]

/-- **The block check is sound**: when the base has its blocks and nothing is reported, the
    uploaded tree has its blocks; and what is reported lacks one. -/
theorem checkBlocks_verified (blockExists : Id → Bool) {fuel : ℕ}
    (hbase : Tree (Desc Dirent.name) st fuel baseRoot)
    (hremote : Tree (Desc Dirent.name) st fuel remoteRoot) :
    (∀ files, Server.checkBlocks st blockExists fuel baseRoot remoteRoot = some files →
      Verifies st blockExists baseRoot remoteRoot files) ∧
    (∀ stop files, Fileserver.checkBlocks stop st blockExists fuel baseRoot remoteRoot =
      some files → Verifies st blockExists baseRoot remoteRoot files) ∧
    (FilesRead st remoteRoot →
      (∃ files, Server.checkBlocks st blockExists fuel baseRoot remoteRoot = some files) ∧
      ∃ files, Fileserver.checkBlocks (fun _ _ _ => false) st blockExists fuel baseRoot
        remoteRoot = some files) := by
  have hserver := diffTrees_verifies blockExists Server.pushes_addFile
    (fun _ => rfl) hbase hremote
  have hgo := diffTrees_verifies blockExists Fileserver.pushes_addFile
    Fileserver.treeWalk_eq hbase hremote
  refine ⟨hserver.1, ?_, fun hread => ⟨hserver.2 hread, ?_⟩⟩
  · intro stop files hfiles
    obtain ⟨trees, htrees, hrun⟩ := bind_eq_some_iff.mp hfiles
    refine hgo.1 files ?_
    rw [diffTrees, htrees]
    exact diffTreesRecursive_le (Fileserver.checkOptions_le stop) hrun
  · obtain ⟨files, hfiles⟩ := hgo.2 hread
    refine ⟨files, ?_⟩
    rw [← hfiles]
    simp [Fileserver.checkBlocks, Fileserver.checkOptions, checking]

end

/-- With the block of the new file the check passes, without it the file is reported. -/
theorem checkBlocks_second_file :
    (Server.checkBlocks secondStore (fun _ => true) 2 sentRoot secondRoot = some [] ∧
      Verifies secondStore (fun _ => true) sentRoot secondRoot []) ∧
    Server.checkBlocks secondStore (fun blockId => blockId = 5) 2 sentRoot secondRoot =
        some [['g']] ∧
      Verifies secondStore (fun blockId => blockId = 5) sentRoot secondRoot [['g']] := by
  have hbase : Tree (Desc Dirent.name) secondStore 2 sentRoot := by decide +kernel
  have hremote : Tree (Desc Dirent.name) secondStore 2 secondRoot := by decide +kernel
  have hpass : Server.checkBlocks secondStore (fun _ => true) 2 sentRoot secondRoot = some [] := by
    decide +kernel
  have hmiss : Server.checkBlocks secondStore (fun blockId => blockId = 5) 2 sentRoot secondRoot =
      some [['g']] := by
    decide +kernel
  exact ⟨⟨hpass, (checkBlocks_verified _ hbase hremote).1 _ hpass⟩,
    hmiss, (checkBlocks_verified _ hbase hremote).1 _ hmiss⟩

end CloudFile
