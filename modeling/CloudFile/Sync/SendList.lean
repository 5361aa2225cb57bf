/-
  The object ids that a client downloads (`server/http-server.c`, `fileserver/sync_api.go`). Both
  servers walk the tree of their head against that of the client's. The list holds only ids of the
  server's tree, and with what the client has, all of them (`sendObjectList_exact`).
-/
import CloudFile.Diff.Walk

namespace CloudFile

open SortedWalk List

variable {Id : Type} [ObjectId Id] [DecidableEq Id]

/-! ## The model -/

/-- The id of the first entry, where the second is not the same object. -/
def differingId : Option (Dirent Id) → Option (Dirent Id) → List Id
  | none, _ => []
  | some d1, d2 =>
    if d2.all (fun d2 => d1.id ≠ d2.id) && d1.id ≠ emptySha1 then [d1.id] else []

/-- `collect_file_ids` and `collect_dir_ids`; `push` is the end of the list that a server uses. -/
def collectIds (push : List Id → Id → List Id) (dents : Row Id) (results : List Id) :
    Option (List Id) :=
  match dents with
  | [dent1, dent2] => some ((differingId dent1 dent2).foldl push results)
  | _ => none

/-- The callbacks: `collect_file_ids` or `collect_file_ids_nop`, and `collect_dir_ids`, which leaves
    the walk to go on. -/
def collecting (push : List Id → Id → List Id) (dirOnly : Bool) : DiffOptions Id (List Id) where
  fileCb _ files results := if dirOnly then some results else collectIds push files results
  dirCb _ dirs results := (collectIds push dirs results).map fun results => (results, true)

/-- The list before the walk: the diff does not visit the roots. -/
def rootIds (masterRoot remoteRoot : Id) : List Id :=
  if remoteRoot ≠ masterRoot ∧ masterRoot ≠ emptySha1 then [masterRoot] else []

namespace Server

def pushId (results : List Id) (id : Id) : List Id := id :: results

/-- `calculate_send_object_list`, for the roots of the two commits; the client may have none. -/
def calculateSendObjectList (st : FsStore Id) (fuel : ℕ) (masterRoot : Id)
    (clientRoot : Option Id) (dirOnly : Bool) : Option (List Id) :=
  diffTrees treeWalk st (collecting pushId dirOnly) fuel
    [masterRoot, clientRoot.getD emptySha1] (rootIds masterRoot (clientRoot.getD emptySha1))

end Server

namespace Fileserver

def pushId (results : List Id) (id : Id) : List Id := results ++ [id]

/-- When a callback gives up: the request is cancelled, or, for a directory, it has timed out. -/
structure Interrupts (Id : Type) where
  file : Name → Row Id → List Id → Bool
  dir : Name → Row Id → List Id → Bool

/-- `collectFileIDs` or `collectFileIDsNOp`, and `collectDirIDs` -/
def collectOptions (stop : Interrupts Id) (dirOnly : Bool) : DiffOptions Id (List Id) where
  fileCb baseDir files results :=
    if dirOnly then some results
    else if stop.file baseDir files results then none
    else collectIds pushId files results
  dirCb baseDir dirs results :=
    if stop.dir baseDir dirs results then none
    else (collectIds pushId dirs results).map fun results => (results, true)

/-- `calculateSendObjectList`, for the roots of the two commits. -/
def calculateSendObjectList (stop : Interrupts Id) (st : FsStore Id) (fuel : ℕ) (masterRoot : Id)
    (clientRoot : Option Id) (dirOnly : Bool) : Option (List Id) :=
  diffTrees treeWalk st (collectOptions stop dirOnly) fuel
    [masterRoot, clientRoot.getD emptySha1] (rootIds masterRoot (clientRoot.getD emptySha1))

end Fileserver

/-! ## What has to be in the list -/

def IsDirOf (st : FsStore Id) (root id : Id) : Prop :=
  id = root ∨ ∃ path d, entryAt st root path = some d ∧ d.isDir = true ∧ d.id = id

def IsFileOf (st : FsStore Id) (root id : Id) : Prop :=
  ∃ path d, entryAt st root path = some d ∧ d.isReg = true ∧ d.id = id

/-- The ids that bring a client with the tree of `client` to the tree of `master`. -/
structure Sends (st : FsStore Id) (master client : Id) (dirOnly : Bool) (ids : List Id) : Prop where
  sound : ∀ id ∈ ids, id ≠ emptySha1 ∧
    (IsDirOf st master id ∨ dirOnly = false ∧ IsFileOf st master id)
  dirs : ∀ id, IsDirOf st master id → id ∈ ids ∨ id = emptySha1 ∨ IsDirOf st client id
  files : dirOnly = false → ∀ id, IsFileOf st master id →
    id ∈ ids ∨ id = emptySha1 ∨ IsFileOf st client id

/-! ## What the walk emits -/

/-- The callbacks as an emitter. -/
def collector (dirOnly : Bool) : Emitter Id Id where
  file _ o n := if dirOnly then [] else differingId o n
  dir _ o n := (differingId o n, o.isSome || n.isSome)
  file_none _ := ite_self _
  dir_none _ := rfl

theorem collecting_emits (push : List Id → Id → List Id) (dirOnly : Bool) :
    (collecting push dirOnly).Emits (collector dirOnly) fun s id => some (push s id) where
  fileCb parent o n s _ := by
    cases dirOnly with
    | true => rfl
    | false => exact (foldlM_pure (m := Option)).symm
  dirCb parent o n s hsome := by
    have hgo : (o.isSome || n.isSome) = true := by
      cases o <;> cases n <;> simp_all
    have hids : (differingId o n).foldlM (fun s id => some (push s id)) s =
      some ((differingId o n).foldl push s) := foldlM_pure
    simp only [collecting, collectIds, collector, hgo, hids, Option.map_some]

theorem mem_differingId {o n : Option (Dirent Id)} {id : Id} (h : id ∈ differingId o n) :
    id ≠ emptySha1 ∧ ∃ d, o = some d ∧ d.id = id := by
  cases o with
  | none => cases h
  | some d =>
    simp only [differingId] at h
    split at h
    next hc =>
      rw [mem_singleton] at h
      subst h
      exact ⟨by simpa using (Bool.and_eq_true_iff.mp hc).2, d, rfl, rfl⟩
    · cases h

theorem differingId_of_some {d : Dirent Id} (n : Option (Dirent Id)) (hne : d.id ≠ emptySha1) :
    d.id ∈ differingId (some d) n ∨ ∃ d', n = some d' ∧ d'.id = d.id := by
  cases n with
  | none => exact Or.inl (by simp [differingId, hne])
  | some d' =>
    by_cases heq : d.id = d'.id
    · exact Or.inr ⟨d', rfl, heq.symm⟩
    · exact Or.inl (by simp [differingId, hne, heq])

section

variable {st : FsStore Id} {dirOnly : Bool} {k : ℕ} {o n : List (Dirent Id)} {d : Dirent Id}
  {path parent above below : List Name}

/-- The entries whose ids are collected. -/
def Wanted (dirOnly : Bool) (d : Dirent Id) : Prop :=
  d.isDir = true ∨ dirOnly = false ∧ d.isReg = true

theorem collector_sound {id : Id} (hid : id ∈ (collector dirOnly).walk st k parent o n) :
    id ≠ emptySha1 ∧ ∃ path d, entryIn st o path = some d ∧ d.id = id ∧ Wanted dirOnly d := by
  obtain ⟨pre, m, hid⟩ := Emitter.mem_items_of_mem_walk hid
  rcases mem_append.mp hid with hid | hid
  · cases dirOnly with
    | true => cases hid
    | false =>
      obtain ⟨hne, d, hd, rfl⟩ := mem_differingId hid
      obtain ⟨hd, hreg⟩ := Option.filter_eq_some_iff.mp hd
      exact ⟨hne, _, d, hd, rfl, .inr ⟨rfl, hreg⟩⟩
  · obtain ⟨hne, d, hd, rfl⟩ := mem_differingId hid
    obtain ⟨hd, hdir⟩ := Option.filter_eq_some_iff.mp hd
    exact ⟨hne, _, d, hd, rfl, .inl hdir⟩

/-- The same file or directory stands in the other tree. -/
def StandsIn (st : FsStore Id) (n : List (Dirent Id)) (d : Dirent Id) : Prop :=
  ∃ path d', entryIn st n path = some d' ∧ d'.id = d.id ∧ d'.isDir = d.isDir ∧ d'.isReg = d.isReg

theorem StandsIn.of_dir {d' : Dirent Id} (hd' : (entryIn st n path).filter Dirent.isDir = some d')
    (hid : d'.id = d.id) (hdir : d.isDir = true) : StandsIn st n d := by
  obtain ⟨hd', hdir'⟩ := Option.filter_eq_some_iff.mp hd'
  refine ⟨path, d', hd', hid, hdir'.trans hdir.symm, ?_⟩
  rw [Dirent.isReg_of_isDir hdir', Dirent.isReg_of_isDir hdir]

theorem StandsIn.of_reg {d' : Dirent Id} (hd' : (entryIn st n path).filter Dirent.isReg = some d')
    (hid : d'.id = d.id) (hreg : d.isReg = true) : StandsIn st n d := by
  obtain ⟨hd', hreg'⟩ := Option.filter_eq_some_iff.mp hd'
  refine ⟨path, d', hd', hid, ?_, hreg'.trans hreg.symm⟩
  rw [Dirent.isDir_of_isReg hreg', Dirent.isDir_of_isReg hreg]

/-- Below one directory the trees have the same entries. -/
theorem StandsIn.of_above {a e : Dirent Id} (ha : entryIn st n above = some a)
    (he : entryIn st o above = some e) (hid : a.id = e.id) (hdir : a.isDir = e.isDir)
    (hreg : a.isReg = e.isReg) (hne : above ≠ [])
    (hd : entryIn st o (above ++ below) = some d) : StandsIn st n d := by
  by_cases hbelow : below = []
  · rw [hbelow, append_nil, he] at hd
    cases hd
    exact ⟨above, a, ha, hid, hdir, hreg⟩
  · have hsub : subEntries st (some a) = subEntries st (some e) := by
      simp only [subEntries, hid, hdir]
    refine ⟨above ++ below, d, ?_, rfl, rfl, rfl⟩
    rwa [entryIn_append hne hbelow, ha, hsub, ← he, ← entryIn_append hne hbelow]

theorem collector_items (hd : entryIn st o path = some d) (hne : d.id ≠ emptySha1)
    (hwanted : Wanted dirOnly d) :
    d.id ∈ (collector dirOnly).items parent (entryIn st o path) (entryIn st n path) ∨
      StandsIn st n d := by
  rw [hd]
  rcases hwanted with hdir | ⟨rfl, hreg⟩
  · rcases differingId_of_some ((entryIn st n path).filter Dirent.isDir) hne with hin |
      ⟨d', hd', hid⟩
    · refine .inl (mem_append_right _ ?_)
      rwa [filter_isDir_some hdir]
    · exact .inr (.of_dir hd' hid hdir)
  · rcases differingId_of_some ((entryIn st n path).filter Dirent.isReg) hne with hin |
      ⟨d', hd', hid⟩
    · refine .inl (mem_append_left _ ?_)
      rwa [filter_isReg_some hreg]
    · exact .inr (.of_reg hd' hid hreg)

/-! ## The lists of the two servers -/

/-- A list that an element is put on, at either end. -/
def Pushes (push : List Id → Id → List Id) : Prop :=
  ∀ results id id', id' ∈ push results id ↔ id' ∈ results ∨ id' = id

variable {push : List Id → Id → List Id} {master client : Id}

omit [ObjectId Id] [DecidableEq Id] in
theorem Pushes.mem_foldl (h : Pushes push) (ids results : List Id) (id : Id) :
    id ∈ ids.foldl push results ↔ id ∈ results ∨ id ∈ ids := by
  induction ids generalizing results with
  | nil => simp
  | cons x ids ih => rw [foldl_cons, ih, h, mem_cons, or_assoc]

theorem mem_rootIds {master client id : Id} :
    id ∈ rootIds master client ↔ id = master ∧ client ≠ master ∧ master ≠ emptySha1 := by
  unfold rootIds
  split
  next hc => simp [hc]
  next hc => simpa using fun _ h => by simpa [h] using hc

section Walk

variable (hsubo : SubTrees (Desc Dirent.name) st k o) (hsubn : SubTrees (Desc Dirent.name) st k n)

include hsubo hsubn

theorem collector_complete (hd : entryIn st o path = some d) (hne : d.id ≠ emptySha1)
    (hwanted : Wanted dirOnly d) :
    d.id ∈ (collector dirOnly).walk st (k + 1) [] o n ∨ StandsIn st n d := by
  obtain ⟨pre, m, rfl⟩ := exists_concat_of_entryIn hd
  rcases (collector dirOnly).items_subset_or_stops hsubo hsubn .nil [] pre m with
    hsub | ⟨above, below, heq, habove, hsame | ⟨hbelow, parent, hgo⟩⟩
  · exact (collector_items hd hne hwanted).imp_left fun hin => hsub hin
  · obtain ⟨a, b, ha, hb, hid, hmode, -⟩ := rowSame_iff.mp hsame
    rw [heq] at hd
    exact .inr (.of_above hb ha hid.symm (congrArg sIsDir hmode.symm)
      (congrArg sIsReg hmode.symm) habove hd)
  · -- below a directory the walk goes on, whatever the other side is
    rw [heq] at hd
    obtain ⟨e, he, hdir⟩ := entryIn_above habove hbelow hd
    simp [Emitter.goes, collector, he, filter_isDir_some hdir] at hgo

theorem sends_of_walk (hpush : Pushes push) (ho : st.getSeafdir master = some o)
    (hn : st.getSeafdir client = some n) :
    Sends st master client dirOnly
      (((collector dirOnly).walk st (k + 1) [] o n).foldl push (rootIds master client)) where
  sound id hid := by
    rcases (hpush.mem_foldl _ _ id).mp hid with hroot | hid
    · obtain ⟨rfl, -, hne⟩ := mem_rootIds.mp hroot
      exact ⟨hne, Or.inl (Or.inl rfl)⟩
    · obtain ⟨hne, path, d, hd, rfl, hwanted⟩ := collector_sound hid
      rw [← entryAt_eq ho] at hd
      refine ⟨hne, hwanted.imp (fun hdir => Or.inr ⟨path, d, hd, hdir, rfl⟩) fun hfile => ?_⟩
      exact ⟨hfile.1, path, d, hd, hfile.2, rfl⟩
  dirs id hid := by
    by_cases hne : id = emptySha1
    · exact Or.inr (Or.inl hne)
    rcases hid with rfl | ⟨path, d, hd, hdir, rfl⟩
    · by_cases hsame : client = id
      · exact Or.inr (Or.inr (Or.inl hsame.symm))
      · exact Or.inl ((hpush.mem_foldl _ _ id).mpr (Or.inl (mem_rootIds.mpr ⟨rfl, hsame, hne⟩)))
    · rw [entryAt_eq ho] at hd
      rcases collector_complete hsubo hsubn hd hne (Or.inl hdir) with
        hin | ⟨path', d', hd', heq, hdir', -⟩
      · exact Or.inl ((hpush.mem_foldl _ _ d.id).mpr (Or.inr hin))
      · rw [← entryAt_eq hn] at hd'
        exact Or.inr (Or.inr (Or.inr ⟨path', d', hd', hdir'.trans hdir, heq⟩))
  files hfiles id hid := by
    by_cases hne : id = emptySha1
    · exact Or.inr (Or.inl hne)
    obtain ⟨path, d, hd, hreg, rfl⟩ := hid
    rw [entryAt_eq ho] at hd
    rcases collector_complete hsubo hsubn hd hne (Or.inr ⟨hfiles, hreg⟩) with
      hin | ⟨path', d', hd', heq, -, hreg'⟩
    · exact Or.inl ((hpush.mem_foldl _ _ d.id).mpr (Or.inr hin))
    · rw [← entryAt_eq hn] at hd'
      exact Or.inr (Or.inr ⟨path', d', hd', hreg'.trans hreg, heq⟩)

end Walk

theorem diffTrees_sends (hpush : Pushes push) {treeWalk : List (List (Dirent Id)) → List (Row Id)}
    (hwalk : ∀ trees, treeWalk trees = Server.treeWalk trees) {fuel : ℕ}
    (hmaster : Tree (Desc Dirent.name) st fuel master)
    (hclient : Tree (Desc Dirent.name) st fuel client) :
    ∃ ids, diffTrees treeWalk st (collecting push dirOnly) fuel [master, client]
      (rootIds master client) = some ids ∧ Sends st master client dirOnly ids := by
  obtain ⟨k, rfl⟩ := hmaster.exists_succ
  obtain ⟨o, ho, hsubo⟩ := hmaster.subTrees
  obtain ⟨n, hn, hsubn⟩ := hclient.subTrees
  exact ⟨_, (diffTrees_emits (collecting_emits push dirOnly) hwalk ho hn hsubo hsubn _).trans
    foldlM_pure, sends_of_walk hsubo hsubn hpush ho hn⟩

theorem Fileserver.collectOptions_le (stop : Fileserver.Interrupts Id) :
    (Fileserver.collectOptions stop dirOnly).Le (collecting Fileserver.pushId dirOnly) where
  fileCb baseDir files results r h := by
    simp only [collectOptions, collecting] at h ⊢
    split at h
    next hdir => rw [if_pos hdir, h]
    next hdir =>
      rw [if_neg hdir]
      split at h
      · cases h
      · exact h
  dirCb baseDir dirs results r h := by
    simp only [collectOptions, collecting] at h ⊢
    split at h
    · cases h
    · exact h

/-- **The ids a client is sent** are ids of the server's tree, never the empty one, and with the
    client's own tree all of them. The Go server sends the same or gives up. -/
theorem sendObjectList_exact {fuel : ℕ} {clientRoot : Option Id}
    (hmaster : Tree (Desc Dirent.name) st fuel master)
    (hclient : Tree (Desc Dirent.name) st fuel (clientRoot.getD emptySha1)) (dirOnly : Bool) :
    (∃ ids, Server.calculateSendObjectList st fuel master clientRoot dirOnly = some ids ∧
      Sends st master (clientRoot.getD emptySha1) dirOnly ids) ∧
    (∀ stop ids, Fileserver.calculateSendObjectList stop st fuel master clientRoot dirOnly =
      some ids → Sends st master (clientRoot.getD emptySha1) dirOnly ids) ∧
    (∃ ids, Fileserver.calculateSendObjectList ⟨fun _ _ _ => false, fun _ _ _ => false⟩ st fuel
      master clientRoot dirOnly = some ids) := by
  have hserver : Pushes (Server.pushId : List Id → Id → List Id) := fun results id id' => by
    rw [Server.pushId, mem_cons, or_comm]
  have hgo : Pushes (Fileserver.pushId : List Id → Id → List Id) := fun results id id' => by
    rw [Fileserver.pushId, mem_append, mem_singleton]
  obtain ⟨ids, hids, hsends⟩ : ∃ ids, diffTrees Fileserver.treeWalk st
      (collecting Fileserver.pushId dirOnly) fuel [master, clientRoot.getD emptySha1]
      (rootIds master (clientRoot.getD emptySha1)) = some ids ∧ _ :=
    diffTrees_sends hgo Fileserver.treeWalk_eq hmaster hclient
  refine ⟨diffTrees_sends hserver (fun _ => rfl) hmaster hclient, ?_, ?_⟩
  · intro stop ids' hids'
    obtain ⟨trees, htrees, hrun⟩ := Option.bind_eq_some_iff.mp hids'
    have hall := diffTreesRecursive_le (Fileserver.collectOptions_le stop) hrun
    have heq : some ids' = some ids := by
      rw [← hids, diffTrees, htrees]
      exact hall.symm
    cases heq
    exact hsends
  · refine ⟨ids, ?_⟩
    rw [← hids]
    simp [Fileserver.calculateSendObjectList, Fileserver.collectOptions, collecting]

end

/-! A library with one file of one block, and the same with a second file. -/

/-- The file `f`. -/
def sentFile : Dirent ℕ := .new 0o100644 (sha1 (.file [5] 1)) ['f'] 0 ['u'] 1

/-- The file `g`. -/
def secondFile : Dirent ℕ := .new 0o100644 (sha1 (.file [6] 1)) ['g'] 0 ['u'] 1

theorem nonempty_blocks (b : ℕ) : (FsObj.file [b] 1).Nonempty := cons_ne_nil _ _

theorem nonempty_dir (d : Dirent ℕ) (ds : List (Dirent ℕ)) : (FsObj.dir (d :: ds)).Nonempty :=
  cons_ne_nil _ _

/-- The store with both trees. -/
def secondStore : FsStore ℕ :=
  (((FsStore.empty.insert (.file [5] 1) (nonempty_blocks 5)).insert (.dir [sentFile])
    (nonempty_dir _ _)).insert (.file [6] 1) (nonempty_blocks 6)).insert
    (.dir [secondFile, sentFile]) (nonempty_dir _ _)

/-- The tree with `f`. -/
def sentRoot : ℕ := seafDirId [sentFile]

/-- The tree with `f` and `g`. -/
def secondRoot : ℕ := seafDirId [secondFile, sentFile]

/-- A client that has `f` is sent the new root and `g`. -/
theorem sendObjectList_second_file :
    Tree (SortedWalk.Desc Dirent.name) secondStore 2 secondRoot ∧
    Tree (SortedWalk.Desc Dirent.name) secondStore 2 sentRoot ∧
    Server.calculateSendObjectList secondStore 2 secondRoot (some sentRoot) false =
      some [secondFile.id, secondRoot] ∧
    Sends secondStore secondRoot sentRoot false [secondFile.id, secondRoot] := by
  have hmaster : Tree (SortedWalk.Desc Dirent.name) secondStore 2 secondRoot := by decide +kernel
  have hclient : Tree (SortedWalk.Desc Dirent.name) secondStore 2
      ((some sentRoot).getD emptySha1) := by decide +kernel
  have hids : Server.calculateSendObjectList secondStore 2 secondRoot (some sentRoot) false =
      some [secondFile.id, secondRoot] := by decide +kernel
  obtain ⟨ids, hsent, hsends⟩ := (sendObjectList_exact hmaster hclient false).1
  rw [hids] at hsent
  exact ⟨hmaster, hclient, hids, Option.some.inj hsent ▸ hsends⟩

end CloudFile
