/-
  Path resolution below a root directory (`fileserver/fsmgr/fsmgr.go`, `common/fs-mgr.c`).
  `Resolves` says what a path stands for. The loop of `GetSeafdirByPath` keeps the id of the last
  directory, so that from the second component on a name without a directory entry reads the
  current directory again (`passOver`).
-/
import CloudFile.Fs.Object
import CloudFile.Lib.GoPath

namespace CloudFile

open SortedWalk GoPath List
open Option hiding join

variable {Id : Type} [ObjectId Id] [DecidableEq Id]

structure SeafDir (Id : Type) where
  dirId : Id
  entries : List (Dirent Id)
deriving DecidableEq

def FsStore.seafdir (st : FsStore Id) (id : Id) : Option (SeafDir Id) :=
  (st.getSeafdir id).map (SeafDir.mk id)

inductive PathErr where
  | dirMissing
  | pathNoExist
  | general
deriving DecidableEq

/-- A result as its caller sees it: an object, or a failure. -/
def found {α : Type} (r : Except PathErr (Option α)) : Option α := r.toOption.join

/-! ## The Go file server -/

namespace Fileserver

/-- The loop of `GetSeafdirByPath`; `none` is the empty id. -/
def descend (st : FsStore Id) : SeafDir Id → Option Id → List Name →
    Except PathErr (SeafDir Id)
  | dir, _, [] => .ok dir
  | dir, dirID, name :: parts =>
    -- a name without a directory entry leaves the id of the round before
    let dirID := match dir.entries.find? fun v => v.name = name && v.isDir with
      | some v => some v.id
      | none => dirID
    match dirID with
    | none => .error .pathNoExist
    | some id => match st.seafdir id with
      | none => .error .dirMissing
      | some dir => descend st dir (some id) parts

def getSeafdirByPath (st : FsStore Id) (rootID : Id) (path : Name) :
    Except PathErr (SeafDir Id) :=
  match st.seafdir rootID with
  | none => .error .dirMissing
  | some dir => descend st dir none (fields (join [['/'], path]))

/-- The search for a name in the entries, after the base directory is found. -/
def findObjID (name : Name) (dir : SeafDir Id) : Option (Id × UInt32) :=
  (dir.entries.find? fun de => de.name = name).map fun de => (de.id, de.mode)

/-- `GetObjIDByPath`; a name that is not there is an empty id without an error. -/
def getObjIDByPath (st : FsStore Id) (rootID : Id) (path : Name) :
    Except PathErr (Option (Id × UInt32)) :=
  let formatPath := join [path]
  if formatPath = [] ∨ formatPath = ['/'] then .ok (some (rootID, sIfdir))
  else if '/' ∉ formatPath then
    match st.seafdir rootID with
    | none => .error .general
    | some dir => .ok (findObjID formatPath dir)
  else
    match getSeafdirByPath st rootID (dir formatPath) with
    | .error .pathNoExist => .error .pathNoExist
    | .error _ => .error .general
    | .ok dir => .ok (findObjID (base formatPath) dir)

def getDirentByPath (st : FsStore Id) (rootID : Id) (rpath : Name) :
    Except PathErr (Dirent Id) :=
  let parentDir := dir rpath
  let dir := if parentDir = dot then
      match st.seafdir rootID with
      | none => .error .dirMissing
      | some dir => .ok dir
    else getSeafdirByPath st rootID parentDir
  match dir with
  | .error e => .error e
  | .ok dir => match dir.entries.find? fun de => de.name = base rpath with
    | some de => .ok de
    | none => .error .pathNoExist

end Fileserver

/-! ## The C server -/

namespace Server

/-- The loop of `seaf_fs_manager_get_seafdir_by_path`. -/
def descend (st : FsStore Id) : SeafDir Id → List Name → Except PathErr (SeafDir Id)
  | dir, [] => .ok dir
  | dir, name :: parts =>
    match dir.entries.find? fun dent => dent.name = name && dent.isDir with
    | none => .error .pathNoExist
    | some dent => match st.seafdir dent.id with
      | none => .error .dirMissing
      | some dir => descend st dir parts

def getSeafdirByPath (st : FsStore Id) (rootId : Id) (path : Name) :
    Except PathErr (SeafDir Id) :=
  match st.seafdir rootId with
  | none => .error .dirMissing
  | some dir => descend st dir (fields path)

/-- `seaf_fs_manager_path_to_obj_id`; a name that is not there is `NULL` without an error. -/
def pathToObjId (st : FsStore Id) (rootId : Id) (path : Name) :
    Except PathErr (Option (Id × UInt32)) :=
  let copy := path.rdropWhile (· = '/')
  if copy = [] then .ok (some (rootId, sIfdir))
  else
    let baseDir := if '/' ∉ copy then
        match st.seafdir rootId with
        | none => .error .general
        | some dir => .ok dir
      else getSeafdirByPath st rootId (upToSlash copy).dropLast
    let name := copy.rtakeWhile (· ≠ '/')
    match baseDir with
    | .error e => .error e
    | .ok dir => .ok ((dir.entries.find? fun dent => dent.name = name).map
        fun dent => (dent.id, dent.mode))

end Server

/-! ## What a path stands for -/

/-- Each component names a directory entry of the directory resolved so far. -/
inductive Resolves (st : FsStore Id) : Id → List Name → SeafDir Id → Prop
  | here {id : Id} {D : SeafDir Id} : st.seafdir id = some D → Resolves st id [] D
  | down {id : Id} {dir D : SeafDir Id} {d : Dirent Id} {path : List Name} :
      st.seafdir id = some dir → d ∈ dir.entries → d.isDir = true →
      Resolves st d.id path D → Resolves st id (d.name :: path) D

/-- The parent resolves and contains the last component. -/
def ResolvesEntry (st : FsStore Id) (root : Id) (path : List Name) (d : Dirent Id) : Prop :=
  ∃ parent D, path = parent ++ [d.name] ∧ Resolves st root parent D ∧ d ∈ D.entries

def subdir (st : FsStore Id) (id : Id) (name : Name) : Option Id :=
  match st.getSeafdir id >>= findDirent name with
  | some d => if d.isDir then some d.id else none
  | none => none

/-- The components without those that name no directory where they are looked up. -/
def passOver (st : FsStore Id) : Id → List Name → List Name
  | _, [] => []
  | id, name :: path => match subdir st id name with
    | some id' => name :: passOver st id' path
    | none => passOver st id path

def resolve (st : FsStore Id) : Id → List Name → Option Id
  | id, [] => some id
  | id, name :: path => match subdir st id name with
    | some id' => resolve st id' path
    | none => none

def Resolvable (st : FsStore Id) (root : Id) (path : List Name) : Prop :=
  (resolve st root path).isSome

/-- There is a first component, and the root has no directory of that name. -/
def FirstMissing (st : FsStore Id) (root : Id) : List Name → Prop
  | [] => False
  | name :: _ => subdir st root name = none

instance (st : FsStore Id) (root : Id) (path : List Name) : Decidable (Resolvable st root path) :=
  inferInstanceAs (Decidable (_ = true))

instance (st : FsStore Id) (root : Id) : ∀ path, Decidable (FirstMissing st root path)
  | [] => .isFalse id
  | _ :: _ => inferInstanceAs (Decidable (_ = none))

/-- The directory the loop of `GetSeafdirByPath` ends in. -/
def landing (st : FsStore Id) (root : Id) : List Name → Option Id
  | [] => some root
  | name :: path => match subdir st root name with
    | some id => resolve st id (passOver st id path)
    | none => none

def lookedUp (st : FsStore Id) (root : Id) (path : List Name) (name : Name) :
    Option (Dirent Id) :=
  landing st root path >>= st.getSeafdir >>= findDirent name

/-! ## Lookup in readable trees -/

variable {st : FsStore Id} {k : ℕ} {id root i : Id} {D : SeafDir Id} {P : List (Dirent Id) → Prop}
  {n : Name} {es : List (Dirent Id)} {path : List Name}

theorem seafdir_some :
    st.seafdir id = some D ↔ st.getSeafdir id = some D.entries ∧ D.dirId = id := by
  obtain ⟨i, es⟩ := D
  simp [FsStore.seafdir, eq_comm]

theorem subdir_some :
    subdir st id n = some i ↔
      ∃ es d, st.getSeafdir id = some es ∧ findDirent n es = some d ∧ d.isDir = true ∧
        d.id = i := by
  unfold subdir
  cases hes : st.getSeafdir id with
  | none => simp
  | some es =>
    cases hd : findDirent n es with
    | none => simp [hd]
    | some d => by_cases hdir : d.isDir = true <;> simp [hd]

theorem resolve_cons_some {path : List Name} :
    resolve st id (n :: path) = some i ↔
      ∃ j, subdir st id n = some j ∧ resolve st j path = some i := by
  rw [resolve]
  cases subdir st id n <;> simp

theorem Tree.subdir (hT : Tree P st k id) (h : subdir st id n = some i) :
    ∃ k', k = k' + 1 ∧ Tree P st k' i := by
  obtain ⟨es, d, hes, hd, hdir, rfl⟩ := subdir_some.1 h
  obtain ⟨k, rfl⟩ := hT.exists_succ
  obtain ⟨es', hes', -, hsub⟩ := hT
  obtain rfl := mem_unique hes hes'
  exact ⟨k, rfl, hsub d (mem_of_findDirent hd).1 hdir⟩

theorem find_isDir (hes : st.getSeafdir id = some es) (hu : UniqueKeys Dirent.name es) (n : Name) :
    (es.find? fun v => v.name = n && v.isDir).map Dirent.id = CloudFile.subdir st id n := by
  cases hf : es.find? fun v => v.name = n && v.isDir with
  | some v =>
    have hv := find?_some hf
    simp only [Bool.and_eq_true, decide_eq_true_eq] at hv
    have hd := (findDirent_some hu).2 ⟨mem_of_find?_eq_some hf, hv.1⟩
    exact (subdir_some.2 ⟨es, v, hes, hd, hv.2, rfl⟩).symm
  | none =>
    symm
    rw [map_none, eq_none_iff_forall_ne_some]
    intro i hi
    obtain ⟨es', d, hes', hd, hdir, -⟩ := subdir_some.1 hi
    obtain rfl := mem_unique hes hes'
    obtain ⟨hmem, hn⟩ := mem_of_findDirent hd
    simpa [hn, hdir] using find?_eq_none.1 hf d hmem

theorem resolve_append (ps qs : List Name) :
    resolve st id (ps ++ qs) = resolve st id ps >>= fun i => resolve st i qs := by
  induction ps generalizing id with
  | nil => rfl
  | cons n ps ih =>
    simp only [cons_append, resolve]
    cases subdir st id n with
    | none => rfl
    | some i => exact ih

theorem Tree.resolve (hT : Tree P st k id) (h : resolve st id path = some i) :
    ∃ k', k' + path.length = k ∧ Tree P st k' i := by
  induction path generalizing k id with
  | nil =>
    obtain rfl : id = i := by simpa [CloudFile.resolve] using h
    exact ⟨k, by simp, hT⟩
  | cons n path ih =>
    obtain ⟨j, hs, h⟩ := resolve_cons_some.1 h
    obtain ⟨k', rfl, hT'⟩ := hT.subdir hs
    obtain ⟨k'', hk'', hT''⟩ := ih hT' h
    exact ⟨k'', by simp only [length_cons]; omega, hT''⟩

theorem resolve_passOver (path : List Name) : Resolvable st id (passOver st id path) := by
  induction path generalizing id with
  | nil => rfl
  | cons n path ih =>
    simp only [passOver]
    cases hs : subdir st id n with
    | none => exact ih
    | some i =>
      simp only [Resolvable, resolve, hs]
      exact ih

theorem passOver_append {ps qs : List Name} (h : resolve st id ps = some i) :
    passOver st id (ps ++ qs) = ps ++ passOver st i qs := by
  induction ps generalizing id with
  | nil =>
    obtain rfl : id = i := by simpa [resolve] using h
    rfl
  | cons n ps ih =>
    obtain ⟨j, hs, h⟩ := resolve_cons_some.1 h
    simp only [cons_append, passOver, hs, ih h]

theorem passOver_of_resolvable (h : Resolvable st id path) :
    passOver st id path = path := by
  obtain ⟨i, hi⟩ := isSome_iff_exists.1 h
  have hpass : passOver st id (path ++ []) = path ++ passOver st i [] := passOver_append hi
  simpa [passOver] using hpass

theorem landing_of_firstMissing (h : FirstMissing st root path) :
    landing st root path = none := by
  cases path with
  | nil => exact h.elim
  | cons n path => simp only [landing, show subdir st root n = none from h]

theorem landing_of_not_firstMissing (h : ¬ FirstMissing st root path) :
    landing st root path = resolve st root (passOver st root path) := by
  cases path with
  | nil => rfl
  | cons n path =>
    cases hs : subdir st root n with
    | none => exact absurd hs h
    | some i => simp only [landing, passOver, resolve, hs]

theorem not_firstMissing_of_resolvable (h : Resolvable st root path) :
    ¬ FirstMissing st root path := by
  cases path with
  | nil => exact id
  | cons n path =>
    intro hm
    simp [Resolvable, resolve, show subdir st root n = none from hm] at h

theorem landing_of_resolvable (h : Resolvable st root path) :
    landing st root path = resolve st root path := by
  rw [landing_of_not_firstMissing (not_firstMissing_of_resolvable h), passOver_of_resolvable h]

theorem entryAt_concat (ps : List Name) (n : Name) :
    entryAt st id (ps ++ [n]) = resolve st id ps >>= st.getSeafdir >>= findDirent n := by
  induction ps generalizing id with
  | nil => rfl
  | cons m ps ih =>
    have hcons : entryAt st id (m :: (ps ++ [n])) =
        subdir st id m >>= fun i => entryAt st i (ps ++ [n]) := by
      obtain ⟨m', path, hpath⟩ := exists_cons_of_ne_nil (show ps ++ [n] ≠ [] by simp)
      rw [hpath, entryAt, subdir]
      cases st.getSeafdir id >>= findDirent m with
      | none => rfl
      | some d => by_cases hdir : d.isDir = true <;> simp [hdir]
    rw [cons_append, hcons]
    simp only [resolve]
    cases subdir st id m with
    | none => rfl
    | some i => exact ih

theorem entryAt_cons_of_dir {d : Dirent Id} (hes : st.getSeafdir id = some es)
    (hd : findDirent n es = some d) (hne : path ≠ []) :
    entryAt st id (n :: path) = if d.isDir then entryAt st d.id path else none := by
  cases path with
  | nil => exact absurd rfl hne
  | cons n' path => simp [entryAt, hes, hd]

theorem entryAt_cons_of_none (hes : st.getSeafdir id = some es) (hd : findDirent n es = none)
    (path : List Name) : entryAt st id (n :: path) = none := by
  cases path <;> simp [entryAt, hes, hd]

theorem Tree.entryAt_mono {st' : FsStore Id} (hle : st ≤ st') (hT : Tree P st k id)
    (path : List Name) : entryAt st' id path = entryAt st id path := by
  induction path generalizing k id with
  | nil => rfl
  | cons n path ih =>
    obtain ⟨k, rfl⟩ := hT.exists_succ
    obtain ⟨es, hes, -, hsub⟩ := hT
    have hes' := FsStore.getSeafdir_mono hle hes
    cases path with
    | nil => simp [entryAt, hes, hes']
    | cons n' path =>
      cases hd : findDirent n es with
      | none => rw [entryAt_cons_of_none hes' hd, entryAt_cons_of_none hes hd]
      | some d =>
        rw [entryAt_cons_of_dir hes' hd (cons_ne_nil _ _),
          entryAt_cons_of_dir hes hd (cons_ne_nil _ _)]
        split_ifs with hdir
        · exact ih (hsub d (mem_of_findDirent hd).1 hdir)
        · rfl

theorem resolves_iff (hT : Tree (UniqueKeys Dirent.name) st k id) :
    Resolves st id path D ↔ ∃ i, resolve st id path = some i ∧ st.seafdir i = some D := by
  constructor
  · intro h
    induction h generalizing k with
    | here h => exact ⟨_, rfl, h⟩
    | @down id dir D d path hdir hd hisDir _ ih =>
      obtain ⟨es, hes, hu⟩ := hT.readable
      obtain rfl := mem_unique hes (seafdir_some.1 hdir).1
      have hs : subdir st id d.name = some d.id :=
        subdir_some.2 ⟨_, d, hes, (findDirent_some hu).2 ⟨hd, rfl⟩, hisDir, rfl⟩
      obtain ⟨k', -, hT'⟩ := hT.subdir hs
      obtain ⟨i, hi, hD⟩ := ih hT'
      exact ⟨i, by simpa only [resolve, hs] using hi, hD⟩
  · rintro ⟨i, hi, hD⟩
    induction path generalizing k id with
    | nil =>
      obtain rfl : id = i := by simpa [resolve] using hi
      exact .here hD
    | cons n path ih =>
      obtain ⟨j, hs, hrest⟩ := resolve_cons_some.1 hi
      obtain ⟨k', -, hT'⟩ := hT.subdir hs
      obtain ⟨es, d, hes, hd, hdir, rfl⟩ := subdir_some.1 hs
      obtain ⟨hmem, rfl⟩ := mem_of_findDirent hd
      have hload : st.seafdir id = some ⟨id, es⟩ := seafdir_some.2 ⟨hes, rfl⟩
      exact .down hload hmem hdir (ih hT' hrest)

theorem resolvesEntry_iff (hT : Tree (UniqueKeys Dirent.name) st k root) {d : Dirent Id} :
    ResolvesEntry st root path d ↔ entryAt st root path = some d := by
  constructor
  · rintro ⟨ps, D, rfl, hD, hd⟩
    obtain ⟨i, hi, hD⟩ := (resolves_iff hT).1 hD
    obtain ⟨k', -, hT'⟩ := hT.resolve hi
    obtain ⟨es, hes, hu⟩ := hT'.readable
    obtain rfl := mem_unique hes (seafdir_some.1 hD).1
    rw [entryAt_concat, hi]
    simp [hes, (findDirent_some hu).2 ⟨hd, rfl⟩]
  · intro h
    rcases eq_nil_or_concat path with rfl | ⟨ps, n, rfl⟩
    · simp [entryAt] at h
    · rw [concat_eq_append, entryAt_concat] at h
      simp only [bind_eq_bind, bind_eq_some_iff] at h
      obtain ⟨es, ⟨i, hi, hes⟩, hd⟩ := h
      obtain ⟨hmem, rfl⟩ := mem_of_findDirent hd
      have hres := (resolves_iff hT).2 ⟨i, hi, seafdir_some (D := ⟨i, es⟩).2 ⟨hes, rfl⟩⟩
      exact ⟨ps, ⟨i, es⟩, concat_eq_append, hres, hmem⟩

/-! ## What the functions compute -/

section Spec

variable (hT : Tree (UniqueKeys Dirent.name) st k root)
include hT

theorem Tree.seafdir : ∃ D, st.seafdir root = some D := by
  obtain ⟨es, hes, -⟩ := hT.readable
  exact ⟨⟨root, es⟩, seafdir_some.2 ⟨hes, rfl⟩⟩

namespace Fileserver

theorem descend_cons {dir : SeafDir Id} (hdir : st.seafdir root = some dir) (dirID : Option Id)
    (n : Name) (parts : List Name) :
    descend st dir dirID (n :: parts) = match (subdir st root n).or dirID with
      | none => .error .pathNoExist
      | some id => match st.seafdir id with
        | none => .error .dirMissing
        | some dir => descend st dir (some id) parts := by
  obtain ⟨es, hes, hu⟩ := hT.readable
  obtain rfl := mem_unique hes (seafdir_some.1 hdir).1
  rw [← find_isDir hes hu n, descend]
  cases dir.entries.find? fun v => v.name = n && v.isDir <;> rfl

theorem descend_ok {dir : SeafDir Id} (hdir : st.seafdir root = some dir) (parts : List Name) :
    ∃ i D, resolve st root (passOver st root parts) = some i ∧ st.seafdir i = some D ∧
      descend st dir (some root) parts = .ok D := by
  induction parts generalizing k root dir with
  | nil => exact ⟨root, dir, rfl, hdir, rfl⟩
  | cons n parts ih =>
    rw [descend_cons hT hdir]
    cases hs : subdir st root n with
    | none =>
      obtain ⟨i, D, hi, hD, hrun⟩ := ih hT hdir
      exact ⟨i, D, by simpa only [passOver, hs] using hi, hD, by simpa [hdir] using hrun⟩
    | some j =>
      obtain ⟨k', -, hT'⟩ := hT.subdir hs
      obtain ⟨dir', hdir'⟩ := hT'.seafdir
      obtain ⟨i, D, hi, hD, hrun⟩ := ih hT' hdir'
      refine ⟨i, D, ?_, hD, by simpa [hdir'] using hrun⟩
      simpa only [passOver, hs, resolve] using hi

variable (path : Name)

theorem getSeafdirByPath_ok (D : SeafDir Id) :
    getSeafdirByPath st root path = .ok D ↔
      ∃ i, landing st root (comps path) = some i ∧ st.seafdir i = some D := by
  obtain ⟨dir, hdir⟩ := hT.seafdir
  simp only [getSeafdirByPath, hdir, fields_join_root]
  cases comps path with
  | nil => simp [descend, landing, hdir]
  | cons n parts =>
    rw [descend_cons hT hdir]
    cases hs : subdir st root n with
    | none => simp [landing, hs]
    | some j =>
      obtain ⟨k', -, hT'⟩ := hT.subdir hs
      obtain ⟨dir', hdir'⟩ := hT'.seafdir
      obtain ⟨i, D', hi, hD, hrun⟩ := descend_ok hT' hdir' parts
      simp [landing, hs, hdir', hi, hD, hrun]

theorem getSeafdirByPath_error (h : landing st root (comps path) = none) :
    ∃ e, getSeafdirByPath st root path = .error e := by
  cases hr : getSeafdirByPath st root path with
  | error e => exact ⟨e, rfl⟩
  | ok D =>
    obtain ⟨i, hi, -⟩ := (getSeafdirByPath_ok hT path D).1 hr
    rw [h] at hi; cases hi

theorem getSeafdirByPath_lookup (path n : Name) :
    found ((getSeafdirByPath st root path).map fun D => findDirent n D.entries) =
      lookedUp st root (comps path) n := by
  unfold lookedUp
  cases hl : landing st root (comps path) with
  | none =>
    obtain ⟨e, he⟩ := getSeafdirByPath_error hT path hl
    rw [he]; rfl
  | some i =>
    have hdir : ∃ D, st.seafdir i = some D := by
      by_cases hm : FirstMissing st root (comps path)
      · rw [landing_of_firstMissing hm] at hl; cases hl
      · rw [landing_of_not_firstMissing hm] at hl
        obtain ⟨k', -, hT'⟩ := hT.resolve hl
        exact hT'.seafdir
    obtain ⟨D, hD⟩ := hdir
    rw [(getSeafdirByPath_ok hT path D).2 ⟨i, hl, hD⟩]
    simp [Except.map, found, Except.toOption, (seafdir_some.1 hD).1]

theorem getObjIDByPath_found {path n : Name} {ps : List Name} (h : comps path = ps ++ [n]) :
    found (getObjIDByPath st root path) =
      (lookedUp st root ps n).map fun d => (d.id, d.mode) := by
  obtain ⟨hend, hbase, hdir⟩ := clean_split h
  have hne : path ≠ [] := by rintro rfl; simp [comps, cleanFields] at h
  have hjoin : join [path] = clean path := by
    simp [join, hne, intercalate]
  have hroot : ¬ (clean path = [] ∨ clean path = ['/']) := by
    rintro (h0 | h0)
    · exact hend.1 h0
    · exact hend.2 (by rw [h0]; rfl)
  simp only [getObjIDByPath, hjoin]
  split_ifs with hslash
  · rw [hbase, ← hdir, ← getSeafdirByPath_lookup hT]
    cases getSeafdirByPath st root (dir (clean path)) with
    | error e => cases e <;> rfl
    | ok D => rfl
  · -- no slash is left: the name is looked up in the root itself
    obtain ⟨D, hD⟩ := hT.seafdir
    have hn : clean path = n := by
      rw [← hbase, base_of_fields (show fields (clean path) = [] ++ [clean path] from
        fields_part ⟨hend.1, hslash⟩)]
    have hps : ps = [] := by
      rw [← hdir, comps_dir, upToSlash_of_notMem hslash]; rfl
    subst hps
    rw [hD, hn]
    simp only [found, Except.toOption, lookedUp, landing,
      bind_eq_bind, bind_some, (seafdir_some.1 hD).1]
    rfl

theorem getDirentByPath_ok (d : Dirent Id) :
    getDirentByPath st root path = .ok d ↔
      lookedUp st root (comps (dir path)) (base path) = some d := by
  have hparent : (if dir path = dot then match st.seafdir root with
        | none => Except.error PathErr.dirMissing
        | some dir => .ok dir
      else getSeafdirByPath st root (dir path)) = getSeafdirByPath st root (dir path) := by
    split_ifs with hdot
    · obtain ⟨D, hD⟩ := hT.seafdir
      have hnil : comps (dir path) = [] := by rw [hdot]; decide
      rw [(getSeafdirByPath_ok hT (dir path) D).2 ⟨root, by rw [hnil]; rfl, hD⟩, hD]
    · rfl
  rw [← getSeafdirByPath_lookup hT]
  simp only [getDirentByPath, hparent]
  cases getSeafdirByPath st root (dir path) with
  | error e => simp [Except.map, found, Except.toOption]
  | ok D =>
    have hfind : findDirent (base path) D.entries =
        D.entries.find? fun de => de.name = base path := rfl
    simp only [Except.map, found, Except.toOption, hfind]
    cases D.entries.find? fun de => de.name = base path <;> simp

end Fileserver

namespace Server

theorem descend_ok {dir : SeafDir Id} (hdir : st.seafdir root = some dir) (parts : List Name)
    (D : SeafDir Id) :
    descend st dir parts = .ok D ↔ ∃ i, resolve st root parts = some i ∧ st.seafdir i = some D := by
  induction parts generalizing k root dir with
  | nil => simp [descend, resolve, hdir]
  | cons n parts ih =>
    obtain ⟨es, hes, hu⟩ := hT.readable
    obtain rfl := mem_unique hes (seafdir_some.1 hdir).1
    have hfind := find_isDir hes hu n
    rw [descend, resolve, ← hfind]
    cases hf : dir.entries.find? fun v => v.name = n && v.isDir with
    | none => simp
    | some d =>
      rw [hf] at hfind
      obtain ⟨k', -, hT'⟩ := hT.subdir hfind.symm
      obtain ⟨dir', hdir'⟩ := hT'.seafdir
      simpa [hdir'] using ih hT' hdir'

theorem getSeafdirByPath_ok (path : Name) (D : SeafDir Id) :
    getSeafdirByPath st root path = .ok D ↔
      ∃ i, resolve st root (fields path) = some i ∧ st.seafdir i = some D := by
  obtain ⟨dir, hdir⟩ := hT.seafdir
  simp only [getSeafdirByPath, hdir]
  exact descend_ok hT hdir _ D

omit hT in
theorem pathToObjId_root {path : Name} (h : fields path = []) :
    pathToObjId st root path = .ok (some (root, sIfdir)) := by
  have hcopy : path.rdropWhile (· = '/') = [] := by
    by_contra hne
    exact fields_ne_nil (endsInPart_rdropWhile_slash hne) ((fields_rdropWhile_slash path).trans h)
  simp [pathToObjId, hcopy]

theorem pathToObjId_found {path : Name} (h : fields path ≠ []) :
    found (pathToObjId st root path) =
      (entryAt st root (fields path)).map fun d => (d.id, d.mode) := by
  have hcopy : path.rdropWhile (· = '/') ≠ [] := by
    intro hnil
    rw [← fields_rdropWhile_slash, hnil] at h
    exact h rfl
  have hend := endsInPart_rdropWhile_slash hcopy
  have hsplit := split_at_slash hend
  rw [fields_rdropWhile_slash] at hsplit
  obtain ⟨D, hD⟩ := hT.seafdir
  have hbase : (if '/' ∉ path.rdropWhile (· = '/') then match st.seafdir root with
        | none => Except.error PathErr.general
        | some dir => .ok dir
      else getSeafdirByPath st root (upToSlash (path.rdropWhile (· = '/'))).dropLast) =
      getSeafdirByPath st root (upToSlash (path.rdropWhile (· = '/'))).dropLast := by
    split_ifs with hslash
    · rfl
    · rw [upToSlash_of_notMem hslash, hD]
      exact ((getSeafdirByPath_ok hT [] D).2 ⟨root, rfl, hD⟩).symm
  rw [hsplit, entryAt_concat]
  simp only [pathToObjId, if_neg hcopy, hbase]
  cases hr : getSeafdirByPath st root (upToSlash (path.rdropWhile (· = '/'))).dropLast with
  | error e =>
    have hnone : resolve st root (fields (upToSlash (path.rdropWhile (· = '/'))).dropLast) =
        none := by
      rw [eq_none_iff_forall_ne_some]
      intro i hi
      obtain ⟨k', -, hT'⟩ := hT.resolve hi
      obtain ⟨D', hD'⟩ := hT'.seafdir
      rw [(getSeafdirByPath_ok hT _ D').2 ⟨i, hi, hD'⟩] at hr
      cases hr
    rw [hnone]; rfl
  | ok D' =>
    obtain ⟨i, hi, hD'⟩ := (getSeafdirByPath_ok hT _ D').1 hr
    rw [hi]
    simp only [found, Except.toOption, bind_eq_bind, bind_some,
      (seafdir_some.1 hD').1]
    rfl

end Server

end Spec

end CloudFile
