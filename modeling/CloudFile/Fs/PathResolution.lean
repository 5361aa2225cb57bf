/-
  Where the path resolvers are right, and where the two servers agree.

  The Go resolvers follow `passOver` from the second component on, so they
  are right when the path resolves as a whole, or when already its first
  component is missing, which is the one case the loop reports.
-/
import CloudFile.Fs.PathLookup

namespace CloudFile

open SortedWalk GoPath List
open Option hiding join

variable {Id : Type} [ObjectId Id] [DecidableEq Id]

/-- `GetSeafdirByPath` succeeds exactly when the components resolve, with that directory. -/
def SeafdirByPathExact (st : FsStore Id) (root : Id) (path : Name) : Prop :=
  ∀ D, Fileserver.getSeafdirByPath st root path = .ok D ↔ Resolves st root (comps path) D

/-- `GetObjIDByPath` succeeds exactly when the parent resolves and has the last component. -/
def ObjIDByPathExact (st : FsStore Id) (root : Id) (path : Name) : Prop :=
  ∀ i m, found (Fileserver.getObjIDByPath st root path) = some (i, m) ↔
    ∃ d, ResolvesEntry st root (comps path) d ∧ d.id = i ∧ d.mode = m

/-- `GetDirentByPath` succeeds exactly then too, with that entry. -/
def DirentByPathExact (st : FsStore Id) (root : Id) (path : Name) : Prop :=
  ∀ d, Fileserver.getDirentByPath st root path = .ok d ↔ ResolvesEntry st root (comps path) d

/-- A stale directory id makes no difference to the lookup of `name` below `parent`. -/
def StaleFree (st : FsStore Id) (root : Id) (parent : List Name) (name : Name) : Prop :=
  Resolvable st root parent ∨ FirstMissing st root parent ∨
    entryAt st root (passOver st root parent ++ [name]) = none

instance (st : FsStore Id) (root : Id) (parent : List Name) (name : Name) :
    Decidable (StaleFree st root parent name) :=
  inferInstanceAs (Decidable (_ ∨ _ ∨ _ = none))

/-- The same for a path that ends in a slash. -/
def StaleFreeBelow (st : FsStore Id) (root : Id) (path : List Name) (name : Name) : Prop :=
  ¬ Resolvable st root path ∧
    (Resolvable st root path.dropLast ∧ path.dropLast ≠ [] ∨
      entryAt st root path = none ∧
        (FirstMissing st root path ∨ entryAt st root (passOver st root path ++ [name]) = none))

instance (st : FsStore Id) (root : Id) (path : List Name) (name : Name) :
    Decidable (StaleFreeBelow st root path name) :=
  inferInstanceAs (Decidable (¬ _ ∧ (_ ∧ _ ≠ [] ∨ _ = none ∧ (_ ∨ _ = none))))

/-- The condition for `GetDirentByPath`, by how the path ends: in a name, in slashes, or in a `.`
    or `..`. -/
def DirentByPathCond (st : FsStore Id) (root : Id) (path : Name) : Prop :=
  if fields path ≠ [] ∧ Plain (base path) then
    if EndsInPart path then StaleFree st root (comps (dir path)) (base path)
    else StaleFreeBelow st root (comps path) (base path)
  else entryAt st root (comps path) = none ∧
    (FirstMissing st root (comps (dir path)) ∨
      entryAt st root (passOver st root (comps (dir path)) ++ [base path]) = none)

variable {st : FsStore Id} {k : ℕ} {root : Id} {ps : List Name} {n path : Name}

theorem lookedUp_of_firstMissing (h : FirstMissing st root ps) (n : Name) :
    lookedUp st root ps n = none := by
  rw [lookedUp, landing_of_firstMissing h]; rfl

theorem lookedUp_of_not_firstMissing (h : ¬ FirstMissing st root ps) (n : Name) :
    lookedUp st root ps n = entryAt st root (passOver st root ps ++ [n]) := by
  rw [lookedUp, landing_of_not_firstMissing h, entryAt_concat]

theorem lookedUp_of_resolvable (h : Resolvable st root ps) (n : Name) :
    lookedUp st root ps n = entryAt st root (ps ++ [n]) := by
  rw [lookedUp, landing_of_resolvable h, entryAt_concat]

theorem lookedUp_eq_none :
    lookedUp st root ps n = none ↔
      FirstMissing st root ps ∨ entryAt st root (passOver st root ps ++ [n]) = none := by
  by_cases hm : FirstMissing st root ps
  · simp [hm, lookedUp_of_firstMissing hm]
  · simp [hm, lookedUp_of_not_firstMissing hm]

theorem entryAt_of_not_resolvable (h : ¬ Resolvable st root ps) (n : Name) :
    entryAt st root (ps ++ [n]) = none := by
  rw [entryAt_concat, not_isSome_iff_eq_none.1 h]; rfl

theorem lookedUp_eq_entryAt :
    lookedUp st root ps n = entryAt st root (ps ++ [n]) ↔ StaleFree st root ps n := by
  by_cases hr : Resolvable st root ps
  · exact iff_of_true (lookedUp_of_resolvable hr n) (.inl hr)
  · rw [entryAt_of_not_resolvable hr, lookedUp_eq_none]
    simp [StaleFree, hr]

theorem subdir_ne_self {P : List (Dirent Id) → Prop} (hT : Tree P st k root) (n : Name) :
    subdir st root n ≠ some root := by
  induction k with
  | zero => exact hT.elim
  | succ k ih =>
    intro h
    obtain ⟨k', hk, hT'⟩ := hT.subdir h
    obtain rfl : k = k' := by omega
    exact ih hT' h

theorem resolve_concat (ps : List Name) (n : Name) :
    resolve st root (ps ++ [n]) = resolve st root ps >>= fun i => subdir st i n := by
  rw [resolve_append]
  cases resolve st root ps with
  | none => rfl
  | some i =>
    simp only [bind_eq_bind, bind_some, resolve]
    cases subdir st i n <;> rfl

theorem lookedUp_below (hT : Tree (UniqueKeys Dirent.name) st k root) (ps : List Name)
    (n : Name) :
    lookedUp st root (ps ++ [n]) n = entryAt st root (ps ++ [n]) ↔
      StaleFreeBelow st root (ps ++ [n]) n := by
  unfold StaleFreeBelow
  rw [dropLast_concat]
  by_cases hcs : Resolvable st root (ps ++ [n])
  · -- the entry would be a directory inside itself
    refine iff_of_false (fun h => ?_) (fun h => h.1 hcs)
    obtain ⟨i, hi⟩ := isSome_iff_exists.1 hcs
    rw [lookedUp_of_resolvable hcs, entryAt_concat, hi] at h
    rw [resolve_concat] at hi
    obtain ⟨j, hj, hji⟩ := bind_eq_some_iff.1 hi
    obtain ⟨es, d, hes, hd, hdir, rfl⟩ := subdir_some.1 hji
    rw [entryAt_concat, hj] at h
    simp only [bind_eq_bind, bind_some, hes, hd] at h
    obtain ⟨es', hes', hd'⟩ := bind_eq_some_iff.1 h
    obtain ⟨k', -, hT'⟩ := hT.resolve hj
    obtain ⟨k'', -, hT''⟩ := hT'.subdir hji
    exact subdir_ne_self hT'' n (subdir_some.2 ⟨es', d, hes', hd', hdir, rfl⟩)
  by_cases hm : FirstMissing st root (ps ++ [n])
  · rw [lookedUp_of_firstMissing hm, eq_comm]
    have hps : ¬ (Resolvable st root ps ∧ ps ≠ []) := by
      rintro ⟨hr, hne⟩
      obtain ⟨m, ps', rfl⟩ := exists_cons_of_ne_nil hne
      exact not_firstMissing_of_resolvable hr hm
    simp [hcs, hm, hps]
  · by_cases hr : Resolvable st root ps
    · -- the stale id is the one of the parent itself
      have hne : ps ≠ [] := by
        rintro rfl
        cases hs : subdir st root n with
        | none => exact hm hs
        | some i => exact hcs (by simp [Resolvable, resolve, hs])
      refine iff_of_true ?_ ⟨hcs, .inl ⟨hr, hne⟩⟩
      obtain ⟨i, hi⟩ := isSome_iff_exists.1 hr
      have hstop : subdir st i n = none := by
        have := not_isSome_iff_eq_none.1 hcs
        rwa [resolve_concat, hi] at this
      have hpass : passOver st root (ps ++ [n]) = ps := by
        rw [passOver_append hi]; simp [passOver, hstop]
      rw [lookedUp_of_not_firstMissing hm, hpass]
    · rw [entryAt_of_not_resolvable hr, lookedUp_eq_none]
      simp [hcs, hr]

theorem base_not_comp (h : ¬ (fields path ≠ [] ∧ Plain (base path))) {d : Dirent Id}
    (hd : d.name = base path) {p : Name} (hp : entryAt st root (comps p) = some d) : False := by
  rcases eq_nil_or_concat (comps p) with hnil | ⟨ps, n, hcs⟩
  · rw [hnil] at hp; cases hp
  · rw [concat_eq_append] at hcs
    rw [hcs, entryAt_concat] at hp
    obtain ⟨es, -, hfind⟩ := bind_eq_some_iff.1 hp
    obtain rfl : n = base path := (mem_of_findDirent hfind).2.symm.trans hd
    have hmem : base path ∈ comps p := by simp [hcs]
    have hpart : Part (base path) := part_of_mem_cleanFields hmem
    refine h ⟨fun hnil => ?_, plain_of_mem_comps hmem⟩
    unfold base at hpart hmem
    rw [hnil] at hpart hmem
    simp only [getLast?_nil] at hpart hmem
    split_ifs at hpart hmem
    · exact (plain_of_mem_comps hmem).1 rfl
    · exact hpart.2 (by simp)

section Resolvers

variable (hT : Tree (UniqueKeys Dirent.name) st k root)
include hT

theorem seafdirByPathExact_iff (path : Name) :
    SeafdirByPathExact st root path ↔
      Resolvable st root (comps path) ∨ FirstMissing st root (comps path) := by
  constructor
  · intro h
    by_contra hn
    rw [not_or] at hn
    have hpass : Resolvable st root (passOver st root (comps path)) := resolve_passOver _
    obtain ⟨i, hi⟩ := isSome_iff_exists.1 hpass
    obtain ⟨k', -, hT'⟩ := hT.resolve hi
    obtain ⟨D, hD⟩ := hT'.seafdir
    have hgo := (Fileserver.getSeafdirByPath_ok hT path D).2
      ⟨i, (landing_of_not_firstMissing hn.2).trans hi, hD⟩
    obtain ⟨j, hj, -⟩ := (resolves_iff hT).1 ((h D).1 hgo)
    exact hn.1 (by simp [Resolvable, hj])
  · intro h D
    rw [Fileserver.getSeafdirByPath_ok hT, resolves_iff hT]
    rcases h with h | h
    · rw [landing_of_resolvable h]
    · have hnone : resolve st root (comps path) = none :=
        not_isSome_iff_eq_none.1 fun hr => not_firstMissing_of_resolvable hr h
      rw [landing_of_firstMissing h, hnone]

theorem objIDByPathExact_iff (hcs : comps path = ps ++ [n]) :
    ObjIDByPathExact st root path ↔ StaleFree st root ps n := by
  simp only [ObjIDByPathExact, resolvesEntry_iff hT, Fileserver.getObjIDByPath_found hT hcs, hcs]
  constructor
  · intro h
    by_contra hn
    have hr : ¬ Resolvable st root ps := fun hr => hn (.inl hr)
    cases hl : lookedUp st root ps n with
    | none => exact hn (.inr (lookedUp_eq_none.1 hl))
    | some d =>
      obtain ⟨d', hd', -⟩ := (h d.id d.mode).1 (by simp [hl])
      rw [entryAt_of_not_resolvable hr] at hd'
      cases hd'
  · intro h i m
    rw [lookedUp_eq_entryAt.2 h]
    simp

theorem direntByPathExact_iff (path : Name) :
    DirentByPathExact st root path ↔ DirentByPathCond st root path := by
  have hexact : DirentByPathExact st root path ↔
      lookedUp st root (comps (dir path)) (base path) = entryAt st root (comps path) := by
    simp only [DirentByPathExact, Fileserver.getDirentByPath_ok hT, resolvesEntry_iff hT]
    exact ⟨fun h => Option.ext h, fun h d => by rw [h]⟩
  rw [hexact]
  unfold DirentByPathCond
  split_ifs with hname hend
  · have hcs : comps path = comps (dir path) ++ [base path] := by
      rw [comps_dir, comps, fields_endsInPart hend, cleanFields_concat_plain hname.2]; rfl
    rw [hcs]
    exact lookedUp_eq_entryAt
  · obtain ⟨fs, s, hfs⟩ := (eq_nil_or_concat (fields path)).resolve_left hname.1
    rw [concat_eq_append] at hfs
    have hb := base_of_fields hfs
    have hcs : comps path = cleanFields true fs ++ [base path] := by
      rw [comps, hfs, hb, cleanFields_concat_plain (hb ▸ hname.2)]
    rw [comps_dir, upToSlash_of_not_endsInPart hend, hcs]
    exact lookedUp_below hT _ _
  · rw [← lookedUp_eq_none]
    constructor
    · intro h
      cases he : entryAt st root (comps path) with
      | none => exact ⟨rfl, h.trans he⟩
      | some d =>
        obtain ⟨es, -, hfind⟩ := bind_eq_some_iff.1 (h.trans he)
        exact (base_not_comp hname (mem_of_findDirent hfind).2 he).elim
    · rintro ⟨h1, h2⟩
      rw [h1, h2]

end Resolvers

/-- **The Go resolvers, exactly.** -/
theorem path_resolution_iff (hT : Tree (UniqueKeys Dirent.name) st k root) (path : Name) :
    ((∀ s ∈ fields path, Plain s) → comps path = fields path) ∧
    (SeafdirByPathExact st root path ↔
      Resolvable st root (comps path) ∨ FirstMissing st root (comps path)) ∧
    (∀ ps n, comps path = ps ++ [n] →
      (ObjIDByPathExact st root path ↔ StaleFree st root ps n)) ∧
    (DirentByPathExact st root path ↔ DirentByPathCond st root path) :=
  ⟨comps_eq_fields, seafdirByPathExact_iff hT path, fun _ _ hcs => objIDByPathExact_iff hT hcs,
    direntByPathExact_iff hT path⟩

/-! ## Agreement of the two servers -/

def kind (mode : UInt32) : UInt32 := mode &&& sIfmt

/-- Both servers fail on the path, or return the same directory. -/
def DirsAgree (st : FsStore Id) (root : Id) (path : Name) : Prop :=
  (Server.getSeafdirByPath st root path).toOption =
    (Fileserver.getSeafdirByPath st root path).toOption

/-- Both servers fail on the path, or return the same object id and kind. -/
def ObjsAgree (st : FsStore Id) (root : Id) (path : Name) : Prop :=
  (found (Server.pathToObjId st root path)).map (fun r => (r.1, kind r.2)) =
    (found (Fileserver.getObjIDByPath st root path)).map (fun r => (r.1, kind r.2))

/-- The object at a path, the root included. -/
def objAt (st : FsStore Id) (root : Id) (path : List Name) : Option (Id × UInt32) :=
  if path = [] then some (root, sIfdir)
  else (entryAt st root path).map fun d => (d.id, kind d.mode)

/-- Without `.` and `..` the servers agree where the Go server is right. -/
def DirsAgreeCond (st : FsStore Id) (root : Id) (path : Name) : Prop :=
  if ∀ s ∈ fields path, Plain s then
    Resolvable st root (fields path) ∨ FirstMissing st root (fields path)
  else if FirstMissing st root (comps path) then ¬ Resolvable st root (fields path)
  else resolve st root (fields path) = resolve st root (passOver st root (comps path))

def ObjsAgreeCond (st : FsStore Id) (root : Id) (path : Name) : Prop :=
  if ∀ s ∈ fields path, Plain s then
    ∀ ps n, fields path = ps ++ [n] → StaleFree st root ps n
  else if comps path = [] then objAt st root (fields path) = objAt st root []
  else ∀ ps n, comps path = ps ++ [n] →
    if FirstMissing st root ps then objAt st root (fields path) = none
    else objAt st root (fields path) = objAt st root (passOver st root ps ++ [n])

theorem kind_sIfdir : kind sIfdir = sIfdir := by decide

theorem fileserver_obj_root (hroot : isRooted path = true) (hcs : comps path = []) :
    (found (Fileserver.getObjIDByPath st root path)).map (fun r => (r.1, kind r.2)) =
      objAt st root [] := by
  have hne : path ≠ [] := by rintro rfl; cases hroot
  have hjoin : join [path] = clean path := by
    simp [join, hne, intercalate, intersperse]
  have hclean : clean path = ['/'] := by
    unfold clean
    rw [hroot, show cleanFields true (fields path) = [] from hcs]
    rfl
  simp [Fileserver.getObjIDByPath, hjoin, hclean, found, Except.toOption, kind_sIfdir, objAt]

theorem objAt_concat (ps : List Name) (n : Name) :
    objAt st root (ps ++ [n]) = (entryAt st root (ps ++ [n])).map fun d => (d.id, kind d.mode) := by
  simp [objAt]

theorem forall_concat_iff {P : List Name → Name → Prop} :
    (∀ ps' n', ps ++ [n] = ps' ++ [n'] → P ps' n') ↔ P ps n := by
  constructor
  · intro h
    exact h ps n rfl
  · intro h ps' n' he
    obtain ⟨rfl, hn⟩ := append_inj' he rfl
    obtain rfl : n = n' := by simpa using hn
    exact h

section Agree

variable (hT : Tree (UniqueKeys Dirent.name) st k root)
include hT

theorem server_dir (path : Name) :
    (Server.getSeafdirByPath st root path).toOption =
      resolve st root (fields path) >>= st.seafdir := by
  ext D
  rw [bind_eq_bind, bind_eq_some_iff, ← Server.getSeafdirByPath_ok hT]
  cases Server.getSeafdirByPath st root path <;> simp [Except.toOption]

theorem fileserver_dir (path : Name) :
    (Fileserver.getSeafdirByPath st root path).toOption =
      landing st root (comps path) >>= st.seafdir := by
  ext D
  rw [bind_eq_bind, bind_eq_some_iff, ← Fileserver.getSeafdirByPath_ok hT]
  cases Fileserver.getSeafdirByPath st root path <;> simp [Except.toOption]

theorem seafdir_bind_inj {j : Option Id}
    (hj : ∀ i, j = some i → ∃ qs, resolve st root qs = some i) :
    (resolve st root ps >>= st.seafdir) = (j >>= st.seafdir) ↔ resolve st root ps = j := by
  constructor
  · intro h
    have hload : ∀ i qs, resolve st root qs = some i →
        ∃ D, st.seafdir i = some D ∧ D.dirId = i := by
      intro i qs hi
      obtain ⟨k', -, hT'⟩ := hT.resolve hi
      obtain ⟨D, hD⟩ := hT'.seafdir
      exact ⟨D, hD, (seafdir_some.1 hD).2⟩
    cases hr : resolve st root ps with
    | none =>
      cases j with
      | none => rfl
      | some i =>
        obtain ⟨qs, hqs⟩ := hj i rfl
        obtain ⟨D, hD, -⟩ := hload i qs hqs
        simp [hr, hD] at h
    | some i =>
      obtain ⟨D, hD, hid⟩ := hload i ps hr
      cases j with
      | none => simp [hr, hD] at h
      | some i' =>
        obtain ⟨qs, hqs⟩ := hj i' rfl
        obtain ⟨D', hD', hid'⟩ := hload i' qs hqs
        simp only [hr, bind_eq_bind, bind_some, hD, hD', Option.some.injEq] at h
        rw [← hid, ← hid', h]
  · intro h
    rw [h]

theorem dirsAgree_iff (path : Name) :
    DirsAgree st root path ↔ DirsAgreeCond st root path := by
  have hland : ∀ i, landing st root (comps path) = some i → ∃ qs, resolve st root qs = some i := by
    intro i hi
    by_cases hm : FirstMissing st root (comps path)
    · rw [landing_of_firstMissing hm] at hi; cases hi
    · exact ⟨_, (landing_of_not_firstMissing hm).symm.trans hi⟩
  rw [DirsAgree, server_dir hT, fileserver_dir hT, seafdir_bind_inj hT hland]
  unfold DirsAgreeCond
  split_ifs with hplain hm
  · rw [comps_eq_fields hplain]
    by_cases hr : Resolvable st root (fields path)
    · simp [hr, landing_of_resolvable hr]
    · have hnone := not_isSome_iff_eq_none.1 hr
      by_cases hm : FirstMissing st root (fields path)
      · simp [hm, hnone, landing_of_firstMissing hm]
      · have hpass : Resolvable st root (passOver st root (fields path)) := resolve_passOver _
        obtain ⟨i, hi⟩ := isSome_iff_exists.1 hpass
        simp [hr, hm, hnone, landing_of_not_firstMissing hm, hi]
  · rw [landing_of_firstMissing hm, Resolvable, not_isSome_iff_eq_none]
  · rw [landing_of_not_firstMissing hm]

theorem server_obj (path : Name) :
    (found (Server.pathToObjId st root path)).map (fun r => (r.1, kind r.2)) =
      objAt st root (fields path) := by
  unfold objAt
  split_ifs with hnil
  · simp [Server.pathToObjId_root hnil, found, Except.toOption, kind_sIfdir]
  · rw [Server.pathToObjId_found hT hnil]
    cases entryAt st root (fields path) <;> rfl

theorem fileserver_obj (hcs : comps path = ps ++ [n]) :
    (found (Fileserver.getObjIDByPath st root path)).map (fun r => (r.1, kind r.2)) =
      (lookedUp st root ps n).map fun d => (d.id, kind d.mode) := by
  rw [Fileserver.getObjIDByPath_found hT hcs]
  cases lookedUp st root ps n <;> rfl

theorem objsAgree_iff (hroot : isRooted path = true) :
    ObjsAgree st root path ↔ ObjsAgreeCond st root path := by
  rw [ObjsAgree, server_obj hT]
  unfold ObjsAgreeCond
  split_ifs with hplain hnil
  · have hcomps := comps_eq_fields hplain
    rcases eq_nil_or_concat (fields path) with hfs | ⟨ps, n, hfs⟩
    · rw [fileserver_obj_root hroot (hcomps.trans hfs), hfs]
      simp
    · rw [concat_eq_append] at hfs
      rw [fileserver_obj hT (hcomps.trans hfs), hfs, objAt_concat]
      rw [forall_concat_iff, ← lookedUp_eq_entryAt]
      by_cases hr : Resolvable st root ps
      · simp [lookedUp_of_resolvable hr]
      · rw [entryAt_of_not_resolvable hr, map_none, eq_comm, map_eq_none_iff]
  · rw [fileserver_obj_root hroot hnil]
  · obtain ⟨ps, n, hcs⟩ := (eq_nil_or_concat (comps path)).resolve_left hnil
    rw [concat_eq_append] at hcs
    rw [fileserver_obj hT hcs, hcs, forall_concat_iff]
    by_cases hm : FirstMissing st root ps
    · rw [lookedUp_of_firstMissing hm, map_none, if_pos hm]
    · rw [lookedUp_of_not_firstMissing hm, ← objAt_concat, if_neg hm]

end Agree

/-- **Where the servers agree**, on absolute paths. -/
theorem resolvers_agree_iff (hT : Tree (UniqueKeys Dirent.name) st k root) (path : Name)
    (hroot : isRooted path = true) :
    (DirsAgree st root path ↔ DirsAgreeCond st root path) ∧
    (ObjsAgree st root path ↔ ObjsAgreeCond st root path) :=
  ⟨dirsAgree_iff hT path, objsAgree_iff hT hroot⟩

/-! ## A tree with a file one level down -/

def exampleFile : Dirent ℕ := .new 0o100644 7 ['f'] 0 ['u'] 1

def exampleStore : FsStore ℕ :=
  ((FsStore.empty.insert (.dir [exampleFile]) (by simp [FsObj.Nonempty])).insert
    (.dir [.new 0o040000 (seafDirId [exampleFile]) ['a'] 0 [] 0]) (by simp [FsObj.Nonempty]))

def exampleRoot : ℕ := seafDirId [.new 0o040000 (seafDirId [exampleFile]) ['a'] 0 [] 0]

theorem path_resolution_file :
    Tree (UniqueKeys Dirent.name) exampleStore 3 exampleRoot ∧
    SeafdirByPathExact exampleStore exampleRoot "/a".toList ∧
    ObjIDByPathExact exampleStore exampleRoot "/a/f".toList ∧
    DirentByPathExact exampleStore exampleRoot "/a/f".toList := by
  have hT : Tree (UniqueKeys Dirent.name) exampleStore 3 exampleRoot := by decide
  obtain ⟨-, hdir, -, -⟩ := path_resolution_iff hT "/a".toList
  obtain ⟨-, -, hobj, hdent⟩ := path_resolution_iff hT "/a/f".toList
  exact ⟨hT, hdir.2 (by decide), (hobj [['a']] ['f'] (by decide)).2 (by decide),
    hdent.2 (by unfold DirentByPathCond; decide)⟩

/-- A missing directory below `a` is resolved to `a` itself, and a file below it to the file
    of that name in `a`. -/
theorem path_resolution_stale :
    Tree (UniqueKeys Dirent.name) exampleStore 3 exampleRoot ∧
    Fileserver.getSeafdirByPath exampleStore exampleRoot "/a/x".toList =
      .ok ⟨seafDirId [exampleFile], [exampleFile]⟩ ∧
    ¬ SeafdirByPathExact exampleStore exampleRoot "/a/x".toList ∧
    ¬ ObjIDByPathExact exampleStore exampleRoot "/a/x/f".toList ∧
    ¬ DirentByPathExact exampleStore exampleRoot "/a/x/f".toList := by
  have hT : Tree (UniqueKeys Dirent.name) exampleStore 3 exampleRoot := by decide
  refine ⟨hT, rfl, ?_, ?_, ?_⟩
  · rw [seafdirByPathExact_iff hT]; decide
  · rw [objIDByPathExact_iff hT (show comps "/a/x/f".toList = [['a'], ['x']] ++ [['f']] by decide)]
    decide
  · rw [direntByPathExact_iff hT]; unfold DirentByPathCond; decide

theorem resolvers_agree_file :
    Tree (UniqueKeys Dirent.name) exampleStore 3 exampleRoot ∧ isRooted "/a/f".toList = true ∧
    ObjsAgree exampleStore exampleRoot "/a/f".toList := by
  have hT : Tree (UniqueKeys Dirent.name) exampleStore 3 exampleRoot := by decide
  refine ⟨hT, rfl, (resolvers_agree_iff hT "/a/f".toList rfl).2.2 ?_⟩
  unfold ObjsAgreeCond
  rw [if_pos (by decide)]
  intro ps n hps
  obtain ⟨rfl, hn⟩ := append_inj' (show [['a']] ++ [['f']] = ps ++ [n] from hps) rfl
  exact .inl (by decide)

/-- The C server reports the missing directory, the Go server returns another object. -/
theorem resolvers_disagree :
    Tree (UniqueKeys Dirent.name) exampleStore 3 exampleRoot ∧ isRooted "/a/x/f".toList = true ∧
    Server.getSeafdirByPath exampleStore exampleRoot "/a/x".toList = .error .pathNoExist ∧
    ¬ DirsAgree exampleStore exampleRoot "/a/x".toList ∧
    ¬ ObjsAgree exampleStore exampleRoot "/a/x/f".toList := by
  refine ⟨by decide, rfl, rfl, ?_, ?_⟩
  · unfold DirsAgree; decide
  · unfold ObjsAgree; decide

end CloudFile
