/-
  The entries that a commit deleted (`server/repo-op.c`: `find_deleted`), from which the trash of
  a library is listed. The directories of child and parent are walked together, by descending
  names; an entry of the parent is reported if the child has none of its name, or one of another
  kind (`Reports`).
-/
import CloudFile.Delete.Subjects
import CloudFile.Diff.Exact
import CloudFile.Gc.TraverseCommits

namespace CloudFile

open SortedWalk GoPath List
open Option hiding map_map mem_map

variable {Id : Type} [ObjectId Id] [DecidableEq Id]

/-! ## The model -/

/-- `SeafileDeletedEntry` -/
structure DeletedEntry (Id : Type) where
  commitId : Id
  objId : Id
  objName : Name
  basedir : Name
  mode : UInt32
  deleteTime : UInt64
  fileSize : ℤ
deriving DecidableEq

abbrev DeletedTable (Id : Type) := List (Name × DeletedEntry Id)

def FsStore.fileSize (st : FsStore Id) (id : Id) : Option ℤ :=
  if id = emptySha1 then some 0
  else match st.obj id with
    | some (.file _ size) => some size
    | _ => none

def Dirent.kind (d : Dirent Id) : UInt32 := d.mode &&& sIfmt

namespace Server

/-- The entry that is put into the table, with the size of a regular file. -/
def deletedEntry (child parent : Commit Id) (base : Name) (dent : Dirent Id) (size : ℤ) :
    DeletedEntry Id where
  commitId := parent.commitId
  objId := dent.id
  objName := dent.name
  basedir := base
  mode := dent.mode
  deleteTime := child.ctime
  fileSize := size

def addDeletedEntry (st : FsStore Id) (child parent : Commit Id) (base : Name)
    (entries : DeletedTable Id) (dent : Dirent Id) : DeletedTable Id :=
  let path := base ++ dent.name
  if (entries.lookup path).isSome then entries
  else if dent.isReg then
    (st.fileSize dent.id).elim entries fun size =>
      (path, deletedEntry child parent base dent size) :: entries
  else (path, deletedEntry child parent base dent 0) :: entries

/-- The loop of `find_deleted_recursive` over the entries of the child and of the parent; `recurse`
    walks two directories below. -/
def findDeletedLoop (st : FsStore Id) (child parent : Commit Id) (base : Name)
    (recurse : List (Dirent Id) → List (Dirent Id) → Name → DeletedTable Id →
      Option (DeletedTable Id)) :
    List (Dirent Id) → List (Dirent Id) → DeletedTable Id → Option (DeletedTable Id)
  | dent1 :: p1, dent2 :: p2, entries =>
    if dent1.name < dent2.name then
      findDeletedLoop st child parent base recurse (dent1 :: p1) p2
        (addDeletedEntry st child parent base entries dent2)
    else if dent1.name = dent2.name then
      if dent1.kind ≠ dent2.kind then
        findDeletedLoop st child parent base recurse p1 p2
          (addDeletedEntry st child parent base entries dent2)
      else if dent1.isDir ∧ dent1.id ≠ dent2.id then
        (getSeafdirSorted st dent1.id).bind fun n1 =>
        (getSeafdirSorted st dent2.id).bind fun n2 =>
        (recurse n1 n2 (base ++ dent1.name ++ ['/']) entries).bind
          (findDeletedLoop st child parent base recurse p1 p2)
      else findDeletedLoop st child parent base recurse p1 p2 entries
    else findDeletedLoop st child parent base recurse p1 (dent2 :: p2) entries
  | [], p2, entries => some (p2.foldl (addDeletedEntry st child parent base) entries)
  | _ :: _, [], entries => some entries
termination_by p1 p2 => p1.length + p2.length

/-- `find_deleted_recursive`; `depth` bounds the depth of the trees. -/
def findDeletedRecursive (st : FsStore Id) (child parent : Commit Id) :
    ℕ → List (Dirent Id) → List (Dirent Id) → Name → DeletedTable Id → Option (DeletedTable Id)
  | 0, _, _, _, _ => none
  | depth + 1, d1, d2, base, entries =>
    findDeletedLoop st child parent base (findDeletedRecursive st child parent depth) d1 d2 entries

/-- `seaf_fs_manager_get_seafdir_sorted_by_path` -/
def getSeafdirSortedByPath (st : FsStore Id) (rootId : Id) (path : Name) :
    Option (List (Dirent Id)) :=
  (getSeafdirByPath st rootId path).toOption.map fun dir => sortDirents dir.entries

def findDeleted (st : FsStore Id) (depth : ℕ) (child parent : Commit Id) (base : Name)
    (entries : DeletedTable Id) : Option (DeletedTable Id) :=
  (getSeafdirSortedByPath st child.rootId base).elim (some entries) fun d1 =>
  (getSeafdirSortedByPath st parent.rootId base).elim (some entries) fun d2 =>
  findDeletedRecursive st child parent depth d1 d2 base entries

end Server

/-! ## What is deleted -/

/-- The parent has the entry `d` at the path, the directory that contains it is in both commits,
    and the child has no entry of its kind there. -/
structure IsDeletedAt (st : FsStore Id) (childRoot parentRoot : Id) (path : List Name)
    (d : Dirent Id) : Prop where
  parent : entryAt st parentRoot path = some d
  inParent : Resolvable st parentRoot path.dropLast
  inChild : Resolvable st childRoot path.dropLast
  child : ∀ d', entryAt st childRoot path = some d' → d'.kind ≠ d.kind

/-- The same below two lists of entries, name by name. -/
def DeletedIn (st : FsStore Id) : List (Dirent Id) → List (Dirent Id) → List Name → Dirent Id → Prop
  | _, _, [], _ => False
  | es1, es2, [n], d => findDirent n es2 = some d ∧
      ∀ d1, findDirent n es1 = some d1 → d1.kind ≠ d.kind
  | es1, es2, n :: m :: path, d => ∃ d1 d2, findDirent n es1 = some d1 ∧
      findDirent n es2 = some d2 ∧ d1.isDir = true ∧ d2.isDir = true ∧
      DeletedIn st (subEntries st (some d1)) (subEntries st (some d2)) (m :: path) d

variable {st : FsStore Id} {es1 es2 : List (Dirent Id)} {n : Name}

theorem deletedIn_congr {es1' es2' : List (Dirent Id)} (h1 : findDirent n es1 = findDirent n es1')
    (h2 : findDirent n es2 = findDirent n es2') (path : List Name) (d : Dirent Id) :
    DeletedIn st es1 es2 (n :: path) d ↔ DeletedIn st es1' es2' (n :: path) d := by
  cases path with
  | nil => rw [DeletedIn, DeletedIn, h1, h2]
  | cons m path => rw [DeletedIn, DeletedIn, h1, h2]

theorem not_deletedIn (h : findDirent n es2 = none) (path : List Name) (d : Dirent Id) :
    ¬ DeletedIn st es1 es2 (n :: path) d := by
  cases path with
  | nil => rw [DeletedIn, h]; simp
  | cons m path => rw [DeletedIn, h]; simp

theorem deletedIn_of_none (h : findDirent n es1 = none) (path : List Name) (d : Dirent Id) :
    DeletedIn st es1 es2 (n :: path) d ↔ path = [] ∧ findDirent n es2 = some d := by
  cases path with
  | nil => rw [DeletedIn, h]; simp
  | cons m path => rw [DeletedIn, h]; simp

omit [ObjectId Id] [DecidableEq Id] in
theorem isDir_of_kind_eq {d d' : Dirent Id} (h : d.kind = d'.kind) : d.isDir = d'.isDir := by
  unfold Dirent.kind at h
  rw [Dirent.isDir, Dirent.isDir, sIsDir, sIsDir, h]

/-! ## The walk -/

namespace Server

variable {st : FsStore Id} {child parent : Commit Id} {es1 es2 es1' es2' es : List (Dirent Id)}
  {recurse : List (Dirent Id) → List (Dirent Id) → Name → DeletedTable Id →
    Option (DeletedTable Id)}
  {L : List (List Name × Dirent Id)}
  {walk walk' : Name → DeletedTable Id → Option (DeletedTable Id)} {d2 d : Dirent Id} {k : ℕ}

def addReport (st : FsStore Id) (child parent : Commit Id) (base : Name)
    (entries : DeletedTable Id) (r : List Name × Dirent Id) : DeletedTable Id :=
  addDeletedEntry st child parent (base ++ basedirOf r.1.dropLast) entries r.2

/-- A walk puts the reports `L` into the table: what is deleted, each path once. -/
structure Reports (st : FsStore Id) (child parent : Commit Id) (es1 es2 : List (Dirent Id))
    (walk : Name → DeletedTable Id → Option (DeletedTable Id))
    (L : List (List Name × Dirent Id)) : Prop where
  walks : ∀ base entries, walk base entries =
    some (L.foldl (addReport st child parent base) entries)
  mem : ∀ path d, (path, d) ∈ L ↔ DeletedIn st es1 es2 path d
  nodup : (L.map Prod.fst).Nodup

def reportOf (d : Dirent Id) : List Name × Dirent Id := ([d.name], d)

theorem addReport_reportOf (base : Name) (entries : DeletedTable Id) (d : Dirent Id) :
    addReport st child parent base entries (reportOf d) =
      addDeletedEntry st child parent base entries d := by
  simp [addReport, reportOf, basedirOf]

theorem reports_nil (hu : UniqueKeys Dirent.name es2) :
    Reports st child parent [] es2 (fun base entries => findDeletedLoop st child parent base recurse
      [] es2 entries) (es2.map reportOf) := by
  refine ⟨fun base entries => ?_, fun path d => ?_, ?_⟩
  · rw [findDeletedLoop, foldl_map]
    simp only [addReport_reportOf]
  · cases path with
    | nil => simp [DeletedIn, reportOf]
    | cons n path =>
      rw [deletedIn_of_none rfl, findDirent_some hu, mem_map]
      constructor
      · rintro ⟨d', hd', heq⟩
        cases heq
        exact ⟨rfl, hd', rfl⟩
      · rintro ⟨rfl, hd, rfl⟩
        exact ⟨d, hd, rfl⟩
  · rw [map_map]
    have hinj : Function.Injective fun n : Name => [n] := fun _ _ h => List.cons.inj h |>.1
    have hnames := hu.map hinj
    rwa [map_map] at hnames

theorem Reports.report (h : Reports st child parent es1' es2 walk' L)
    (hkeep : ∀ n, n ≠ d2.name → findDirent n es1 = findDirent n es1')
    (hnew : findDirent d2.name es2 = none)
    (hkind : ∀ d1, findDirent d2.name es1 = some d1 → d1.kind ≠ d2.kind)
    (hwalk : ∀ base entries,
      walk base entries = walk' base (addDeletedEntry st child parent base entries d2)) :
    Reports st child parent es1 (d2 :: es2) walk (reportOf d2 :: L) := by
  have hself : findDirent d2.name (d2 :: es2) = some d2 := by rw [findDirent_cons, if_pos rfl]
  refine ⟨fun base entries => ?_, fun path d => ?_, ?_⟩
  · rw [hwalk, h.walks, foldl_cons, addReport_reportOf]
  · rw [mem_cons, h.mem]
    cases path with
    | nil => simp [DeletedIn, reportOf]
    | cons n path =>
      by_cases hn : n = d2.name
      · subst hn
        have hL : ¬ DeletedIn st es1' es2 (d2.name :: path) d := not_deletedIn hnew path d
        cases path with
        | nil =>
          rw [or_iff_left hL, DeletedIn, hself]
          constructor
          · intro heq
            cases heq
            exact ⟨rfl, hkind⟩
          · rintro ⟨heq, -⟩
            cases heq
            rfl
        | cons m path =>
          -- two directories are of the same kind
          have hno : ¬ DeletedIn st es1 (d2 :: es2) (d2.name :: m :: path) d := by
            rintro ⟨d1, d2', h1, h2, hdir1, hdir2, -⟩
            obtain rfl := mem_unique hself h2
            refine hkind d1 h1 ?_
            rw [Dirent.isDir, sIsDir, beq_iff_eq] at hdir1 hdir2
            rw [Dirent.kind, Dirent.kind, hdir1, hdir2]
          simp [hno, hL, reportOf]
      · have hne : (n :: path, d) ≠ reportOf d2 := fun heq => hn (by cases heq; rfl)
        have hcons : findDirent n (d2 :: es2) = findDirent n es2 := by
          rw [findDirent_cons, if_neg (Ne.symm hn)]
        rw [deletedIn_congr (hkeep n hn) hcons]
        simp [hne]
  · rw [map_cons, nodup_cons]
    refine ⟨fun hmem => ?_, h.nodup⟩
    obtain ⟨⟨path, d⟩, hr, hpath⟩ := mem_map.1 hmem
    cases hpath
    exact not_deletedIn hnew [] d ((h.mem _ d).1 hr)

theorem Reports.descend {d1 : Dirent Id} {n1 n2 : List (Dirent Id)}
    {Lsub : List (List Name × Dirent Id)} (h : Reports st child parent es1 es2 walk' L)
    (hsub : Reports st child parent n1 n2 (recurse n1 n2) Lsub)
    (hn1 : st.getSeafdir d1.id = some n1) (hn2 : st.getSeafdir d2.id = some n2)
    (hdir1 : d1.isDir = true) (hname : d1.name = d2.name) (hkind : d1.kind = d2.kind)
    (hnew : findDirent d2.name es2 = none)
    (hwalk : ∀ base entries,
      walk base entries = (recurse n1 n2 (base ++ d1.name ++ ['/']) entries).bind (walk' base)) :
    Reports st child parent (d1 :: es1) (d2 :: es2) walk
      (Lsub.map (fun r => (d2.name :: r.1, r.2)) ++ L) := by
  have hdir2 : d2.isDir = true := (isDir_of_kind_eq hkind).symm.trans hdir1
  have hself1 : findDirent d2.name (d1 :: es1) = some d1 := by rw [findDirent_cons, if_pos hname]
  have hself2 : findDirent d2.name (d2 :: es2) = some d2 := by rw [findDirent_cons, if_pos rfl]
  have hsub1 : subEntries st (some d1) = n1 := by simp [subEntries, hdir1, hn1]
  have hsub2 : subEntries st (some d2) = n2 := by simp [subEntries, hdir2, hn2]
  have hpaths : ∀ r ∈ Lsub, r.1 ≠ [] := by
    rintro ⟨path, d⟩ hr rfl
    exact (hsub.mem [] d).1 hr
  refine ⟨fun base entries => ?_, fun path d => ?_, ?_⟩
  · rw [hwalk, hsub.walks, bind_some, h.walks, foldl_append, foldl_map, hname]
    congr 2
    -- the base of the walk below is the base with the name of the directory
    refine foldl_ext _ _ entries fun entries r hr => ?_
    rw [addReport, addReport, dropLast_cons_of_ne_nil (hpaths r hr)]
    simp [basedirOf]
  · rw [mem_append, h.mem, mem_map]
    cases path with
    | nil => simp [DeletedIn]
    | cons n path =>
      by_cases hn : n = d2.name
      · subst hn
        have hL : ¬ DeletedIn st es1 es2 (d2.name :: path) d := not_deletedIn hnew path d
        have hLsub : (∃ r ∈ Lsub, (d2.name :: r.1, r.2) = (d2.name :: path, d)) ↔
            DeletedIn st n1 n2 path d := by
          rw [← hsub.mem]
          constructor
          · rintro ⟨r, hr, heq⟩
            cases heq
            exact hr
          · exact fun hr => ⟨(path, d), hr, rfl⟩
        rw [hLsub, or_iff_left hL]
        cases path with
        | nil =>
          rw [DeletedIn, DeletedIn, hself1, hself2]
          constructor
          · exact False.elim
          · rintro ⟨heq, hne⟩
            cases heq
            exact hne d1 rfl hkind
        | cons m path =>
          rw [DeletedIn, hself1, hself2]
          constructor
          · intro hdel
            exact ⟨d1, d2, rfl, rfl, hdir1, hdir2, by rwa [hsub1, hsub2]⟩
          · rintro ⟨d1', d2', h1, h2, -, -, hdel⟩
            cases h1
            cases h2
            rwa [hsub1, hsub2] at hdel
      · have hmap : ¬ ∃ r ∈ Lsub, (d2.name :: r.1, r.2) = (n :: path, d) := by
          rintro ⟨r, -, heq⟩
          exact hn (by cases heq; rfl)
        have hcons1 : findDirent n (d1 :: es1) = findDirent n es1 := by
          rw [findDirent_cons, if_neg fun heq => hn (heq.symm.trans hname)]
        have hcons2 : findDirent n (d2 :: es2) = findDirent n es2 := by
          rw [findDirent_cons, if_neg (Ne.symm hn)]
        rw [deletedIn_congr hcons1 hcons2, or_iff_right hmap]
  · rw [map_append, nodup_append', map_map]
    refine ⟨?_, h.nodup, ?_⟩
    · have hinj : Function.Injective fun path : List Name => d2.name :: path :=
        fun _ _ heq => (List.cons.inj heq).2
      have hnodup := hsub.nodup.map hinj
      rwa [map_map] at hnodup
    · intro path hpath hpath'
      obtain ⟨r, -, rfl⟩ := mem_map.1 hpath
      obtain ⟨⟨path', d⟩, hr, heq⟩ := mem_map.1 hpath'
      cases heq
      exact not_deletedIn hnew r.1 d ((h.mem _ d).1 hr)

theorem Reports.skip (h : Reports st child parent es1' es2' walk' L)
    (hsame : ∀ n path d, DeletedIn st es1 es2 (n :: path) d ↔ DeletedIn st es1' es2' (n :: path) d)
    (hwalk : ∀ base entries, walk base entries = walk' base entries) :
    Reports st child parent es1 es2 walk L := by
  refine ⟨fun base entries => (hwalk base entries).trans (h.walks base entries), fun path d => ?_,
    h.nodup⟩
  cases path with
  | nil => exact h.mem [] d
  | cons n path => rw [hsame, h.mem]

theorem not_deletedIn_self (path : List Name) (d : Dirent Id) :
    ¬ DeletedIn st es es path d := by
  induction path generalizing es with
  | nil => exact id
  | cons n path ih =>
    cases path with
    | nil => exact fun hdel => hdel.2 d hdel.1 rfl
    | cons m path =>
      rintro ⟨d1, d2, h1, h2, -, -, hdel⟩
      obtain rfl := mem_unique h1 h2
      exact ih hdel

theorem not_deletedIn_of_same {n : Name} {d1 : Dirent Id} (h1 : findDirent n es1 = some d1)
    (h2 : findDirent n es2 = some d2) (hkind : d1.kind = d2.kind)
    (hdir : ¬ (d1.isDir = true ∧ d1.id ≠ d2.id)) (path : List Name) (d : Dirent Id) :
    ¬ DeletedIn st es1 es2 (n :: path) d := by
  cases path with
  | nil =>
    rintro ⟨h2', hne⟩
    obtain rfl := mem_unique h2 h2'
    exact hne d1 h1 hkind
  | cons m path =>
    rintro ⟨d1', d2', h1', h2', hdir1, hdir2, hdel⟩
    obtain rfl := mem_unique h1 h1'
    obtain rfl := mem_unique h2 h2'
    have hid : d1.id = d2.id := not_not.1 fun hne => hdir ⟨hdir1, hne⟩
    have hsub : subEntries st (some d1) = subEntries st (some d2) := by
      simp [subEntries, hdir1, hdir2, hid]
    rw [hsub] at hdel
    exact not_deletedIn_self _ d hdel

omit [ObjectId Id] [DecidableEq Id] in
theorem findDirent_of_gt (h : Desc Dirent.name (d :: es)) {n : Name}
    (hn : d.name ≤ n) : findDirent n es = none := by
  rw [findDirent_eq, find_none]
  intro e he heq
  have hlt := (pairwise_cons.1 h).1 e he
  exact absurd (heq ▸ hlt) (not_lt.2 hn)

theorem getSeafdirSorted_eq {id : Id} (hes : st.getSeafdir id = some es) (h : Desc Dirent.name es) :
    getSeafdirSorted st id = some es := by
  rw [getSeafdirSorted, hes]
  exact congrArg some (desc_iff.1 h).1.insertionSort_eq

/-- **The loop** over two lists of entries, given the walks over the directories below. -/
theorem findDeletedLoop_reports (child parent : Commit Id)
    (hrec : ∀ i1 i2, Tree (SortedNames ('/' ∉ ·)) st k i1 → Tree (SortedNames ('/' ∉ ·)) st k i2 →
      ∃ n1 n2 L, st.getSeafdir i1 = some n1 ∧ st.getSeafdir i2 = some n2 ∧
      SortedNames ('/' ∉ ·) n1 ∧ SortedNames ('/' ∉ ·) n2 ∧
      Reports st child parent n1 n2 (recurse n1 n2) L)
    (h1 : Desc Dirent.name es1) (h2 : Desc Dirent.name es2)
    (hd1 : ∀ d ∈ es1, d.isDir = true → Tree (SortedNames ('/' ∉ ·)) st k d.id)
    (hd2 : ∀ d ∈ es2, d.isDir = true → Tree (SortedNames ('/' ∉ ·)) st k d.id) :
    ∃ L, Reports st child parent es1 es2
      (fun base entries => findDeletedLoop st child parent base recurse es1 es2 entries) L := by
  -- each round takes an entry from one of the lists
  generalize hlen : es1.length + es2.length = len
  induction len using Nat.strong_induction_on generalizing es1 es2 with
  | _ len ih =>
    cases es1 with
    | nil => exact ⟨_, reports_nil h2.uniqueKeys⟩
    | cons d1 p1 =>
      have h1' : Desc Dirent.name p1 := (pairwise_cons.1 h1).2
      have hd1' : ∀ d ∈ p1, d.isDir = true → Tree (SortedNames ('/' ∉ ·)) st k d.id :=
        fun d hd => hd1 d (mem_cons_of_mem d1 hd)
      cases es2 with
      | nil =>
        refine ⟨[], ⟨fun base entries => ?_, fun path d => ?_, List.nodup_nil⟩⟩
        · rw [findDeletedLoop]
          rfl
        · cases path with
          | nil => simp [DeletedIn]
          | cons n path =>
            have hno : ¬ DeletedIn st (d1 :: p1) [] (n :: path) d := not_deletedIn rfl path d
            simpa using hno
      | cons d2 p2 =>
        have h2' : Desc Dirent.name p2 := (pairwise_cons.1 h2).2
        have hd2' : ∀ d ∈ p2, d.isDir = true → Tree (SortedNames ('/' ∉ ·)) st k d.id :=
          fun d hd => hd2 d (mem_cons_of_mem d2 hd)
        have hnew2 : findDirent d2.name p2 = none := findDirent_of_gt h2 le_rfl
        simp only [length_cons] at hlen
        rcases lt_trichotomy d1.name d2.name with hlt | heq | hgt
        · -- the child does not have the name
          obtain ⟨L, hL⟩ := ih (p1.length + 1 + p2.length) (by omega) h1 h2' hd1 hd2' rfl
          have hnone : findDirent d2.name (d1 :: p1) = none := by
            rw [findDirent_cons, if_neg hlt.ne, findDirent_of_gt h1 hlt.le]
          refine ⟨_, hL.report (fun _ _ => rfl) hnew2 (by simp [hnone]) fun base entries => ?_⟩
          rw [findDeletedLoop, if_pos hlt]
        · have hnlt : ¬ d1.name < d2.name := not_lt.2 heq.ge
          obtain ⟨L, hL⟩ := ih (p1.length + p2.length) (by omega) h1' h2' hd1' hd2' rfl
          have hself1 : findDirent d2.name (d1 :: p1) = some d1 := by
            rw [findDirent_cons, if_pos heq]
          have hkeep : ∀ n, n ≠ d2.name → findDirent n (d1 :: p1) = findDirent n p1 := by
            intro n hn
            rw [findDirent_cons, if_neg fun h => hn (h.symm.trans heq)]
          by_cases hkind : d1.kind = d2.kind
          · by_cases hdir : d1.isDir = true ∧ d1.id ≠ d2.id
            · -- two directories
              have hdir2 : d2.isDir = true := (isDir_of_kind_eq hkind).symm.trans hdir.1
              obtain ⟨n1, n2, Lsub, hn1, hn2, hs1, hs2, hsub⟩ := hrec d1.id d2.id
                (hd1 d1 mem_cons_self hdir.1) (hd2 d2 mem_cons_self hdir2)
              refine ⟨_, hL.descend hsub hn1 hn2 hdir.1 heq hkind hnew2 fun base entries => ?_⟩
              rw [findDeletedLoop, if_neg hnlt, if_pos heq, if_neg (not_not.2 hkind), if_pos hdir,
                getSeafdirSorted_eq hn1 hs1.1, getSeafdirSorted_eq hn2 hs2.1]
              rfl
            · -- the same directory, or no directories
              refine ⟨L, hL.skip (fun n path d => ?_) fun base entries => ?_⟩
              · by_cases hn : n = d2.name
                · subst hn
                  rw [iff_false_right (not_deletedIn hnew2 path d)]
                  exact not_deletedIn_of_same hself1 (by rw [findDirent_cons, if_pos rfl]) hkind
                    hdir path d
                · rw [deletedIn_congr (hkeep n hn)]
                  rw [findDirent_cons, if_neg (Ne.symm hn)]
              · rw [findDeletedLoop, if_neg hnlt, if_pos heq, if_neg (not_not.2 hkind),
                  if_neg hdir]
          · -- entries of different kinds
            refine ⟨_, hL.report hkeep hnew2 ?_ fun base entries => ?_⟩
            · intro d hd
              obtain rfl := mem_unique hself1 hd
              exact hkind
            · rw [findDeletedLoop, if_neg hnlt, if_pos heq, if_pos hkind]
        · -- the parent does not have the name
          obtain ⟨L, hL⟩ := ih (p1.length + (p2.length + 1)) (by omega) h1' h2 hd1' hd2 rfl
          have hnone : findDirent d1.name (d2 :: p2) = none := by
            rw [findDirent_cons, if_neg hgt.ne, findDirent_of_gt h2 hgt.le]
          refine ⟨L, hL.skip (fun n path d => ?_) fun base entries => ?_⟩
          · by_cases hn : n = d1.name
            · subst hn
              rw [iff_false_left (not_deletedIn hnone path d)]
              exact not_deletedIn hnone path d
            · refine deletedIn_congr ?_ rfl path d
              rw [findDirent_cons, if_neg (Ne.symm hn)]
          · rw [findDeletedLoop, if_neg (not_lt.2 hgt.le), if_neg hgt.ne']

theorem findDeletedRecursive_reports (child parent : Commit Id) {depth : ℕ} (hk : k ≤ depth)
    {i1 i2 : Id} (h1 : Tree (SortedNames ('/' ∉ ·)) st k i1)
    (h2 : Tree (SortedNames ('/' ∉ ·)) st k i2) :
    ∃ n1 n2 L, st.getSeafdir i1 = some n1 ∧ st.getSeafdir i2 = some n2 ∧ SortedNames ('/' ∉ ·) n1 ∧
      SortedNames ('/' ∉ ·) n2 ∧
      Reports st child parent n1 n2 (findDeletedRecursive st child parent depth n1 n2) L := by
  induction depth generalizing k i1 i2 with
  | zero =>
    obtain rfl := Nat.le_zero.1 hk
    exact h1.elim
  | succ depth ih =>
    obtain ⟨n1, hn1, hs1, hd1⟩ := h1.depth_mono hk
    obtain ⟨n2, hn2, hs2, hd2⟩ := h2.depth_mono hk
    obtain ⟨L, hL⟩ := findDeletedLoop_reports child parent (fun i1 i2 => ih le_rfl) hs1.1 hs2.1
      hd1 hd2
    exact ⟨n1, n2, L, hn1, hn2, hs1, hs2, hL⟩

/-! ## The table -/

theorem findDirent_getD (i : Id) (n : Name) :
    findDirent n ((st.getSeafdir i).getD []) = (st.getSeafdir i).bind (findDirent n) := by
  cases st.getSeafdir i <;> rfl

theorem deletedIn_concat (st : FsStore Id) (i1 i2 : Id) (ps : List Name) (n : Name)
    (d : Dirent Id) :
    DeletedIn st ((st.getSeafdir i1).getD []) ((st.getSeafdir i2).getD []) (ps ++ [n]) d ↔
      ∃ j1 j2, resolve st i1 ps = some j1 ∧ resolve st i2 ps = some j2 ∧
        (st.getSeafdir j2).bind (findDirent n) = some d ∧
        ∀ d1, (st.getSeafdir j1).bind (findDirent n) = some d1 → d1.kind ≠ d.kind := by
  have hsub : ∀ {e : Dirent Id}, e.isDir = true →
      subEntries st (some e) = (st.getSeafdir e.id).getD [] := by
    intro e hdir
    simp [subEntries, hdir]
  induction ps generalizing i1 i2 with
  | nil => simp [DeletedIn, resolve, findDirent_getD]
  | cons m ps ih =>
    obtain ⟨m', ps', hps⟩ := exists_cons_of_ne_nil (concat_ne_nil n ps)
    rw [cons_append, hps, DeletedIn, ← hps]
    simp only [findDirent_getD, resolve_cons_some, subdir_some, bind_eq_some_iff]
    constructor
    · rintro ⟨d1, d2, ⟨es1, hes1, hd1⟩, ⟨es2, hes2, hd2⟩, hdir1, hdir2, hdel⟩
      rw [hsub hdir1, hsub hdir2] at hdel
      obtain ⟨j1, j2, hj1, hj2, hat⟩ := (ih d1.id d2.id).1 hdel
      refine ⟨j1, j2, ⟨_, ⟨es1, d1, hes1, hd1, hdir1, rfl⟩, hj1⟩,
        ⟨_, ⟨es2, d2, hes2, hd2, hdir2, rfl⟩, hj2⟩, ?_⟩
      simpa only [bind_eq_some_iff] using hat
    · rintro ⟨j1, j2, ⟨_, ⟨es1, d1, hes1, hd1, hdir1, rfl⟩, hj1⟩,
        ⟨_, ⟨es2, d2, hes2, hd2, hdir2, rfl⟩, hj2⟩, hat⟩
      refine ⟨d1, d2, ⟨es1, hes1, hd1⟩, ⟨es2, hes2, hd2⟩, hdir1, hdir2, ?_⟩
      rw [hsub hdir1, hsub hdir2]
      refine (ih d1.id d2.id).2 ⟨j1, j2, hj1, hj2, ?_⟩
      simpa only [bind_eq_some_iff] using hat

theorem deletedIn_iff {i1 i2 : Id} (hes1 : st.getSeafdir i1 = some es1)
    (hes2 : st.getSeafdir i2 = some es2) (path : List Name) (d : Dirent Id) :
    DeletedIn st es1 es2 path d ↔ IsDeletedAt st i1 i2 path d := by
  rcases eq_nil_or_concat path with rfl | ⟨ps, n, rfl⟩
  · exact ⟨False.elim, fun h => by cases h.parent⟩
  have hconcat := deletedIn_concat st i1 i2 ps n d
  rw [hes1, hes2, getD_some, getD_some] at hconcat
  rw [concat_eq_append, hconcat]
  constructor
  · rintro ⟨j1, j2, hj1, hj2, hd, hkind⟩
    refine ⟨?_, ?_, ?_, ?_⟩
    · simpa [entryAt_concat, hj2] using hd
    · simp [Resolvable, hj2]
    · simp [Resolvable, hj1]
    · simpa [entryAt_concat, hj1] using hkind
  · rintro ⟨hd, hin2, hin1, hkind⟩
    rw [dropLast_concat] at hin1 hin2
    obtain ⟨j1, hj1⟩ := isSome_iff_exists.1 hin1
    obtain ⟨j2, hj2⟩ := isSome_iff_exists.1 hin2
    refine ⟨j1, j2, hj1, hj2, ?_, ?_⟩
    · simpa [entryAt_concat, hj2] using hd
    · simpa [entryAt_concat, hj1] using hkind

def reportedSize (st : FsStore Id) (d : Dirent Id) : ℤ :=
  if d.isReg then (st.fileSize d.id).getD 0 else 0

def reportRow (st : FsStore Id) (child parent : Commit Id) (r : List Name × Dirent Id) :
    Name × DeletedEntry Id :=
  ('/' :: joinFields r.1,
    deletedEntry child parent ('/' :: basedirOf r.1.dropLast) r.2 (reportedSize st r.2))

variable {entries : DeletedTable Id}

theorem addReport_new {r : List Name × Dirent Id} (hpath : ∃ ps, r.1 = ps ++ [r.2.name])
    (hnew : '/' :: joinFields r.1 ∉ entries.map Prod.fst)
    (hfile : r.2.isReg = true → (st.fileSize r.2.id).isSome = true) :
    addReport st child parent ['/'] entries r = reportRow st child parent r :: entries := by
  obtain ⟨path, d⟩ := r
  obtain ⟨ps, rfl : path = ps ++ [d.name]⟩ := hpath
  have hkey : ['/'] ++ basedirOf ps ++ d.name = '/' :: joinFields (ps ++ [d.name]) := by
    rw [append_assoc, basedirOf_append]
    rfl
  have hlookup : entries.lookup ('/' :: joinFields (ps ++ [d.name])) = none := by
    refine lookup_eq_none_iff.2 fun e he => ?_
    refine bne_iff_ne.2 fun heq => hnew ?_
    exact mem_map.2 ⟨e, he, heq.symm⟩
  rw [addReport, addDeletedEntry, dropLast_concat, hkey, hlookup, reportRow,
    reportedSize]
  by_cases hreg : d.isReg = true
  · obtain ⟨size, hsize⟩ := isSome_iff_exists.1 (hfile hreg)
    simp [hreg, hsize]
  · simp [hreg]

theorem foldl_addReport (hnodup : (L.map Prod.fst).Nodup)
    (hpath : ∀ r ∈ L, (∃ ps, r.1 = ps ++ [r.2.name]) ∧ ∀ n ∈ r.1, '/' ∉ n)
    (hnew : ∀ r ∈ L, '/' :: joinFields r.1 ∉ entries.map Prod.fst)
    (hfile : ∀ r ∈ L, r.2.isReg = true → (st.fileSize r.2.id).isSome = true) :
    L.foldl (addReport st child parent ['/']) entries =
      (L.map (reportRow st child parent)).reverse ++ entries := by
  induction L generalizing entries with
  | nil => rfl
  | cons r L ih =>
    rw [map_cons, nodup_cons] at hnodup
    rw [forall_mem_cons] at hpath hnew hfile
    rw [foldl_cons, addReport_new hpath.1.1 hnew.1 hfile.1,
      ih hnodup.2 hpath.2 ?_ hfile.2, map_cons, reverse_cons, append_assoc]
    · rfl
    -- the next paths are not the one that was just put in
    intro r' hr' hmem
    rw [map_cons, mem_cons] at hmem
    rcases hmem with heq | hmem
    · obtain ⟨ps, hps⟩ := hpath.1.1
      obtain ⟨ps', hps'⟩ := (hpath.2 r' hr').1
      have hsame : r'.1 = r.1 := joinFields_inj (by simp [hps']) (by simp [hps])
        (hpath.2 r' hr').2 hpath.1.2 (List.cons.inj heq).2
      exact hnodup.1 (mem_map.2 ⟨r', hr', hsame⟩)
    · exact hnew.2 r' hr' hmem

theorem getSeafdirSortedByPath_root {root : Id} (hes : st.getSeafdir root = some es1)
    (h : Desc Dirent.name es1) : getSeafdirSortedByPath st root ['/'] = some es1 := by
  have hdir : st.seafdir root = some ⟨root, es1⟩ := by rw [FsStore.seafdir, hes]; rfl
  have hpath : getSeafdirByPath st root ['/'] = .ok ⟨root, es1⟩ := by
    rw [getSeafdirByPath, hdir]
    rfl
  rw [getSeafdirSortedByPath, hpath]
  exact congrArg some (desc_iff.1 h).1.insertionSort_eq

theorem path_of_entryAt {root : Id} (hT : Tree (SortedNames ('/' ∉ ·)) st k root) {path : List Name}
    (h : entryAt st root path = some d) :
    (∃ ps, path = ps ++ [d.name]) ∧ ∀ n ∈ path, '/' ∉ n := by
  induction path generalizing k root with
  | nil => cases h
  | cons n path ih =>
    obtain ⟨es, hes, hslash⟩ := hT.readable
    cases hd : findDirent n es with
    | none => cases (entryAt_cons_of_none hes hd path).symm.trans h
    | some e =>
      obtain ⟨hmem, rfl⟩ := mem_of_findDirent hd
      have hn : '/' ∉ e.name := hslash.2 e hmem
      cases path with
      | nil =>
        have he : entryAt st root [e.name] = some e := by simp [entryAt, hes, hd]
        obtain rfl := mem_unique he h
        exact ⟨⟨[], rfl⟩, by simpa using hn⟩
      | cons m path =>
        rw [entryAt_cons_of_dir hes hd (cons_ne_nil m path)] at h
        split at h
        next hdir =>
          obtain ⟨k', -, hT'⟩ := hT.subdir (subdir_some.2 ⟨es, e, hes, hd, hdir, rfl⟩)
          obtain ⟨⟨ps, hps⟩, hrest⟩ := ih hT' h
          exact ⟨⟨e.name :: ps, by rw [hps]; rfl⟩, forall_mem_cons.2 ⟨hn, hrest⟩⟩
        next => cases h

end Server

theorem Tree.mem_of_entryAt {P : List (Dirent Id) → Prop} {k : ℕ} {root : Id}
    (hT : Tree P st k root) {path : List Name} {d : Dirent Id} (h : entryAt st root path = some d) :
    ∃ es, P es ∧ d ∈ es := by
  rcases eq_nil_or_concat path with rfl | ⟨ps, n, rfl⟩
  · cases h
  · rw [concat_eq_append, entryAt_concat] at h
    obtain ⟨es, hes, hd⟩ := bind_eq_some_iff.1 h
    obtain ⟨i, hi, hes⟩ := bind_eq_some_iff.1 hes
    obtain ⟨k', -, hT'⟩ := hT.resolve hi
    obtain ⟨es', hes', hP⟩ := hT'.readable
    obtain rfl := mem_unique hes hes'
    exact ⟨es, hP, (mem_of_findDirent hd).1⟩

def listedCommit : Commit ℕ := ⟨2, listedRoot, 4, none, none⟩
def nextCommit : Commit ℕ := ⟨1, seafDirId [listedFile ['b']], 5, some 2, none⟩

end CloudFile
