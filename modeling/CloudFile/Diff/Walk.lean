/-
  Walks over two trees whose callbacks emit items. An `Emitter` says what the callbacks put for a
  pair of entries, and the walk pushes the items of `Emitter.walk` in order
  (`diffTreesRecursive_emits`). Every item is one of two entries at one path, and all are items of
  the walk unless it stops above them. Callbacks that may give up do what the others do as long as
  they do not (`diffTreesRecursive_le`).
-/
import CloudFile.Diff.TwoWay

namespace CloudFile

open SortedWalk List Option

section Lists

variable {α σ ι : Type} {l : List α}

theorem foldlM_le {f g : σ → α → Option σ} (h : ∀ s x s', f s x = some s' → g s x = some s')
    {s s' : σ} (hf : l.foldlM f s = some s') : l.foldlM g s = some s' := by
  induction l generalizing s with
  | nil => exact hf
  | cons x l ih =>
    simp only [foldlM_cons, bind_eq_bind, bind_eq_some_iff] at hf ⊢
    obtain ⟨t, ht, hrest⟩ := hf
    exact ⟨t, h s x t ht, ih hrest⟩

theorem foldlM_flatMap {push : σ → ι → Option σ} {f : σ → α → Option σ} {items : α → List ι}
    (h : ∀ x s, f s x = (items x).foldlM push s) (s : σ) :
    l.foldlM f s = (l.flatMap items).foldlM push s := by
  induction l generalizing s with
  | nil => rfl
  | cons x l ih =>
    rw [foldlM_cons, h, flatMap_cons, foldlM_append]
    exact congrArg (_ >>= ·) (funext ih)

end Lists

variable {Id σ ι : Type} [ObjectId Id] [DecidableEq Id]

/-! ## Callbacks that emit -/

/-- What the callbacks emit for two files and for two directories of one name below `parent`, and
    whether the walk goes on below. -/
structure Emitter (Id ι : Type) where
  file : List Name → Option (Dirent Id) → Option (Dirent Id) → List ι
  dir : List Name → Option (Dirent Id) → Option (Dirent Id) → List ι × Bool
  file_none : ∀ parent, file parent none none = []
  dir_none : ∀ parent, dir parent none none = ([], false)

/-- The options of a walk push what `e` emits; a callback fails where a push does. -/
structure DiffOptions.Emits (opt : DiffOptions Id σ) (e : Emitter Id ι)
    (push : σ → ι → Option σ) : Prop where
  fileCb : ∀ parent o n s, ¬ (o = none ∧ n = none) →
    opt.fileCb (basedirOf parent) [o, n] s = (e.file parent o n).foldlM push s
  dirCb : ∀ parent o n s, ¬ (o = none ∧ n = none) →
    opt.dirCb (basedirOf parent) [o, n] s =
      ((e.dir parent o n).1.foldlM push s).map (·, (e.dir parent o n).2)

namespace Emitter

section

variable (e : Emitter Id ι) (parent : List Name) (o n : Option (Dirent Id))

/-- What two entries of one name emit. -/
def items : List ι :=
  e.file parent (o.filter Dirent.isReg) (n.filter Dirent.isReg) ++
    (e.dir parent (o.filter Dirent.isDir) (n.filter Dirent.isDir)).1

/-- Whether the walk goes on below them. -/
def goes : Bool := (e.dir parent (o.filter Dirent.isDir) (n.filter Dirent.isDir)).2

/-- The items of a row, given those below it. -/
def row (below : List ι) : List ι :=
  if rowSame [o, n] then [] else e.items parent o n ++ if e.goes parent o n then below else []

end

/-- The items of the whole walk. -/
def walk (e : Emitter Id ι) (st : FsStore Id) :
    ℕ → List Name → List (Dirent Id) → List (Dirent Id) → List ι
  | 0, _, _, _ => []
  | k + 1, parent, o, n => (keys Dirent.name [o, n]).flatMap fun m =>
    e.row parent (findDirent m o) (findDirent m n)
      (walk e st k (parent ++ [m]) (subEntries st (findDirent m o))
        (subEntries st (findDirent m n)))

end Emitter

/-! ## The walk pushes what is emitted -/

omit [ObjectId Id] [DecidableEq Id] in
theorem all_isNone {a b : Option (Dirent Id)} :
    [a, b].all Option.isNone = true ↔ a = none ∧ b = none := by
  simp

theorem basedirOf_concat (parent : List Name) (m : Name) :
    basedirOf parent ++ m ++ ['/'] = basedirOf (parent ++ [m]) := by
  simp [basedirOf]

variable {opt : DiffOptions Id σ} {e : Emitter Id ι} {push : σ → ι → Option σ} {st : FsStore Id}
  {m : Name} {parent : List Name} {treeWalk : List (List (Dirent Id)) → List (Row Id)}
  {P : List (Dirent Id) → Prop} {k : ℕ}

section Rows

variable {o n : Option (Dirent Id)} {recurse : List (List (Dirent Id)) → Name → σ → Option σ}
  {es : List (Dirent Id)} {d : Dirent Id}

/-- An entry of the row of `m` whose directory, if it is one, can be read. -/
def RowEntry (st : FsStore Id) (m : Name) (d : Option (Dirent Id)) : Prop :=
  ∀ e, d = some e → e.name = m ∧ (e.isDir = true → ∃ es, st.getSeafdir e.id = some es)

theorem SubTrees.rowEntry (h : SubTrees P st k es) (m : Name) :
    RowEntry st m (findDirent m es) := by
  intro e he
  obtain ⟨hmem, hname⟩ := mem_of_findDirent he
  refine ⟨hname, fun hdir => ?_⟩
  obtain ⟨es', hes', -⟩ := (h.2 e hmem hdir).readable
  exact ⟨es', hes'⟩

theorem SubTrees.filter_isDir (h : SubTrees P st 0 es) (m : Name) :
    (findDirent m es).filter Dirent.isDir = none := by
  rw [filter_eq_none_iff]
  intro e he hdir
  exact h.2 e (mem_of_findDirent he).1 hdir

theorem loadSubDir_eq (h : RowEntry st m o) :
    loadSubDir st (o.filter Dirent.isDir) = some (subEntries st o) := by
  cases o with
  | none => rfl
  | some e =>
    by_cases hdir : e.isDir = true
    · obtain ⟨es, hes⟩ := (h e rfl).2 hdir
      simp [loadSubDir, subEntries, Option.filter, hdir, hes]
    · simp [loadSubDir, subEntries, Option.filter, hdir]

omit [ObjectId Id] [DecidableEq Id] in
theorem DiffOptions.Emits.diffFiles_eq (h : opt.Emits e push) (o n : Option (Dirent Id)) (s : σ) :
    diffFiles opt [o, n] (basedirOf parent) s =
      (e.file parent (o.filter Dirent.isReg) (n.filter Dirent.isReg)).foldlM push s := by
  simp only [diffFiles, map_cons, map_nil, all_isNone]
  split_ifs with hnone
  · rw [hnone.1, hnone.2, e.file_none]
    rfl
  · exact h.fileCb _ _ _ _ hnone

variable (h : opt.Emits e push) (ho : RowEntry st m o) (hn : RowEntry st m n) {below : List ι}
  (hrec : ¬ (o.filter Dirent.isDir = none ∧ n.filter Dirent.isDir = none) → ∀ s,
    recurse [subEntries st o, subEntries st n] (basedirOf (parent ++ [m])) s =
      below.foldlM push s)

include ho hn

theorem dirName_eq (h : ¬ (o.filter Dirent.isDir = none ∧ n.filter Dirent.isDir = none)) :
    dirName [o.filter Dirent.isDir, n.filter Dirent.isDir] = m := by
  cases hb : n.filter Dirent.isDir with
  | some e => exact (hn e (filter_eq_some_iff.1 hb).1).1
  | none =>
    cases ha : o.filter Dirent.isDir with
    | some d => exact (ho d (filter_eq_some_iff.1 ha).1).1
    | none => exact absurd ⟨ha, hb⟩ h

include h hrec

theorem DiffOptions.Emits.diffDirectories_eq (s : σ) :
    diffDirectories st opt recurse [o, n] (basedirOf parent) s =
      ((e.dir parent (o.filter Dirent.isDir) (n.filter Dirent.isDir)).1 ++
        if e.goes parent o n then below else []).foldlM push s := by
  simp only [diffDirectories, map_cons, map_nil, all_isNone]
  by_cases hnone : o.filter Dirent.isDir = none ∧ n.filter Dirent.isDir = none
  · rw [if_pos hnone, Emitter.goes, hnone.1, hnone.2, e.dir_none]
    rfl
  · have hload : [o.filter Dirent.isDir, n.filter Dirent.isDir].mapM (loadSubDir st) =
        some [subEntries st o, subEntries st n] := by
      simp [loadSubDir_eq ho, loadSubDir_eq hn]
    rw [if_neg hnone, hload, dirName_eq ho hn hnone, basedirOf_concat, h.dirCb _ _ _ _ hnone,
      foldlM_append]
    cases (e.dir parent (o.filter Dirent.isDir) (n.filter Dirent.isDir)).1.foldlM push s with
    | none => rfl
    | some s' =>
      simp only [map_some, bind_eq_bind, bind_some, hrec hnone]
      change (if e.goes parent o n = true then _ else _) = _
      cases e.goes parent o n <;> rfl

theorem DiffOptions.Emits.diffRow_eq (s : σ) :
    diffRow st opt recurse (basedirOf parent) s [o, n] =
      (e.row parent o n below).foldlM push s := by
  unfold diffRow Emitter.row Emitter.items
  by_cases hsame : rowSame [o, n] = true
  · rw [if_pos hsame, if_pos hsame]
    rfl
  · rw [if_neg hsame, if_neg hsame, append_assoc, foldlM_append, h.diffFiles_eq]
    exact congrArg (_ >>= ·) (funext (h.diffDirectories_eq ho hn hrec))

end Rows

omit [ObjectId Id] [DecidableEq Id] in
theorem treeWalk_rows {o n : List (Dirent Id)} (ho : Desc Dirent.name o) (hn : Desc Dirent.name n) :
    Server.treeWalk [o, n] =
      (keys Dirent.name [o, n]).map fun m => [findDirent m o, findDirent m n] := by
  have hd : ∀ l ∈ [o, n], Desc Dirent.name l := by simp [ho, hn]
  have hrows := rows_eq hd
  simpa only [Server.treeWalk, map_cons, map_nil, ← findDirent_eq] using hrows

/-- **A walk pushes what its callbacks emit**, when the trees can be read. -/
theorem diffTreesRecursive_emits (h : opt.Emits e push)
    (hwalk : ∀ trees, treeWalk trees = Server.treeWalk trees) {k : ℕ} {o n : List (Dirent Id)}
    (ho : SubTrees (Desc Dirent.name) st k o) (hn : SubTrees (Desc Dirent.name) st k n)
    (parent : List Name) (s : σ) :
    diffTreesRecursive treeWalk st opt (k + 1) [o, n] (basedirOf parent) s =
      (e.walk st (k + 1) parent o n).foldlM push s := by
  rw [diffTreesRecursive, hwalk, treeWalk_rows ho.1 hn.1, foldlM_map, Emitter.walk]
  refine foldlM_flatMap (fun m s => ?_) s
  refine h.diffRow_eq (ho.rowEntry m) (hn.rowEntry m) (fun hsome s => ?_) s
  cases k with
  | zero => exact absurd ⟨ho.filter_isDir m, hn.filter_isDir m⟩ hsome
  | succ k =>
    exact diffTreesRecursive_emits h hwalk (ho.sub List.Pairwise.nil m)
      (hn.sub List.Pairwise.nil m) (parent ++ [m]) s
termination_by k

theorem diffTrees_emits (h : opt.Emits e push)
    (hwalk : ∀ trees, treeWalk trees = Server.treeWalk trees) {root1 root2 : Id}
    {o n : List (Dirent Id)} (h1 : st.getSeafdir root1 = some o)
    (h2 : st.getSeafdir root2 = some n) (ho : SubTrees (Desc Dirent.name) st k o)
    (hn : SubTrees (Desc Dirent.name) st k n) (s : σ) :
    diffTrees treeWalk st opt (k + 1) [root1, root2] s =
      (e.walk st (k + 1) [] o n).foldlM push s := by
  have hroots : [root1, root2].mapM st.getSeafdir = some [o, n] := by simp [h1, h2]
  rw [diffTrees, hroots]
  exact diffTreesRecursive_emits h hwalk ho hn [] s

/-! ## Reading off what is emitted -/

section Entries

variable {d : Dirent Id} {es : List (Dirent Id)} {path rest : List Name}

section

omit [ObjectId Id] [DecidableEq Id]

theorem filter_isDir_some (h : d.isDir = true) :
    (some d).filter Dirent.isDir = some d := by simp [Option.filter, h]

theorem filter_isReg_some (h : d.isReg = true) :
    (some d).filter Dirent.isReg = some d := by simp [Option.filter, h]

theorem Dirent.isReg_of_isDir (h : d.isDir = true) : d.isReg = false := by
  by_contra hreg
  rw [Bool.not_eq_false] at hreg
  rw [Dirent.isDir_of_isReg hreg] at h
  cases h

end

omit [ObjectId Id] in
theorem rowSame_iff {o n : Option (Dirent Id)} : rowSame [o, n] = true ↔
    ∃ a b, o = some a ∧ n = some b ∧ a.id = b.id ∧ a.mode = b.mode ∧ a.mtime = b.mtime := by
  cases o <;> cases n <;> simp [rowSame, direntSame, and_assoc]

theorem entryIn_append (hpath : path ≠ []) (hrest : rest ≠ []) :
    entryIn st es (path ++ rest) = entryIn st (subEntries st (entryIn st es path)) rest := by
  induction path generalizing es with
  | nil => exact absurd rfl hpath
  | cons m path ih =>
    rw [cons_append, entryIn_cons es m (append_ne_nil_of_right_ne_nil path hrest)]
    by_cases hnil : path = []
    · subst hnil
      rfl
    · rw [ih hnil, entryIn_cons es m hnil]

theorem entryIn_above (hpath : path ≠ []) (hrest : rest ≠ [])
    (h : entryIn st es (path ++ rest) = some d) :
    ∃ e, entryIn st es path = some e ∧ e.isDir = true := by
  rw [entryIn_append hpath hrest] at h
  cases he : entryIn st es path with
  | none => simp [he, subEntries] at h
  | some e =>
    refine ⟨e, rfl, ?_⟩
    by_contra hdir
    simp [he, subEntries, hdir] at h

theorem name_of_entryIn {pre : List Name} (h : entryIn st es (pre ++ [m]) = some d) :
    d.name = m := by
  induction pre generalizing es with
  | nil => exact (mem_of_findDirent h).2
  | cons m' pre ih =>
    rw [cons_append, entryIn_cons es m' (by simp)] at h
    exact ih h

theorem exists_concat_of_entryIn (h : entryIn st es path = some d) :
    ∃ pre m, path = pre ++ [m] := by
  have hne : path ≠ [] := by
    rintro rfl
    cases h
  exact ⟨_, _, (dropLast_append_getLast hne).symm⟩

end Entries

namespace Emitter

variable {o n : List (Dirent Id)} {x : ι}

theorem mem_walk_succ : x ∈ e.walk st (k + 1) parent o n ↔
    ∃ m, x ∈ e.row parent (findDirent m o) (findDirent m n)
      (e.walk st k (parent ++ [m]) (subEntries st (findDirent m o))
        (subEntries st (findDirent m n))) := by
  refine mem_flatMap.trans ⟨fun ⟨m, _, hx⟩ => ⟨m, hx⟩, fun ⟨m, hx⟩ => ⟨m, ?_, hx⟩⟩
  -- a name that stands in neither list has an empty row
  by_contra hm
  have hno : findDirent m o = none ∧ findDirent m n = none := by
    simp only [SortedWalk.mem_keys, mem_cons, not_mem_nil, or_false, not_exists, not_and] at hm
    simp only [findDirent_eq, find_none]
    exact ⟨fun a ha => hm o (.inl rfl) a ha, fun a ha => hm n (.inr rfl) a ha⟩
  simp [hno.1, hno.2, row, items, goes, e.file_none, e.dir_none] at hx

/-- Every item is one of two entries at one path. -/
theorem mem_items_of_mem_walk (h : x ∈ e.walk st k parent o n) :
    ∃ pre m, x ∈ e.items (parent ++ pre) (entryIn st o (pre ++ [m]))
      (entryIn st n (pre ++ [m])) := by
  induction k generalizing parent o n with
  | zero => cases h
  | succ k ih =>
    obtain ⟨m, hx⟩ := mem_walk_succ.1 h
    unfold row at hx
    split_ifs at hx with hsame hgo
    · cases hx
    · rcases mem_append.1 hx with hx | hx
      · exact ⟨[], m, by simpa [entryIn] using hx⟩
      · obtain ⟨pre, m', hx⟩ := ih hx
        refine ⟨m :: pre, m', ?_⟩
        rw [cons_append, entryIn_cons o m (by simp), entryIn_cons n m (by simp)]
        simpa using hx
    · exact ⟨[], m, by simpa [entryIn] using hx⟩

/-- The walk does not come to the path: above it, two entries are the same, or it does not go on
    below them. -/
def Stops (e : Emitter Id ι) (st : FsStore Id) (o n : List (Dirent Id)) (path : List Name) : Prop :=
  ∃ above below, path = above ++ below ∧ above ≠ [] ∧
    (rowSame [entryIn st o above, entryIn st n above] = true ∨
      below ≠ [] ∧ ∃ parent, e.goes parent (entryIn st o above) (entryIn st n above) = false)

/-- All items are emitted, unless the walk stops. -/
theorem items_subset_or_stops (ho : SubTrees P st k o) (hn : SubTrees P st k n) (hnil : P [])
    (parent pre : List Name) (m : Name) :
    e.items (parent ++ pre) (entryIn st o (pre ++ [m])) (entryIn st n (pre ++ [m])) ⊆
      e.walk st (k + 1) parent o n ∨ e.Stops st o n (pre ++ [m]) := by
  induction pre generalizing k parent o n with
  | nil =>
    by_cases hsame : rowSame [findDirent m o, findDirent m n] = true
    · exact .inr ⟨[m], [], rfl, by simp, .inl hsame⟩
    · refine .inl fun x hx => mem_walk_succ.2 ⟨m, ?_⟩
      rw [row, if_neg hsame, append_nil] at *
      exact mem_append_left _ hx
  | cons m' pre ih =>
    by_cases hsame : rowSame [findDirent m' o, findDirent m' n] = true
    · exact .inr ⟨[m'], pre ++ [m], rfl, by simp, .inl hsame⟩
    by_cases hgo : e.goes parent (findDirent m' o) (findDirent m' n) = true
    · cases k with
      | zero =>
        rw [goes, ho.filter_isDir, hn.filter_isDir, e.dir_none] at hgo
        cases hgo
      | succ k =>
        rw [cons_append, entryIn_cons o m' (by simp), entryIn_cons n m' (by simp)]
        rcases ih (ho.sub hnil m') (hn.sub hnil m') (parent ++ [m']) with hsub | hstop
        · refine .inl fun x hx => mem_walk_succ.2 ⟨m', ?_⟩
          rw [row, if_neg hsame, if_pos hgo]
          exact mem_append_right _ (hsub (by simpa using hx))
        · obtain ⟨above, below, heq, hne, hstop⟩ := hstop
          refine .inr ⟨m' :: above, below, by rw [heq, cons_append], by simp, ?_⟩
          rwa [entryIn_cons o m' hne, entryIn_cons n m' hne]
    · exact .inr ⟨[m'], pre ++ [m], rfl, by simp, .inr ⟨by simp, parent,
        Bool.eq_false_iff.2 hgo⟩⟩

end Emitter

/-! ## Callbacks that may give up -/

/-- Where the callbacks of `opt'` do not give up, they do what those of `opt` do. -/
structure DiffOptions.Le (opt' opt : DiffOptions Id σ) : Prop where
  fileCb : ∀ basedir row s s', opt'.fileCb basedir row s = some s' →
    opt.fileCb basedir row s = some s'
  dirCb : ∀ basedir row s r, opt'.dirCb basedir row s = some r → opt.dirCb basedir row s = some r

theorem diffTreesRecursive_le {opt' : DiffOptions Id σ} (h : opt'.Le opt) {fuel : ℕ}
    {trees : List (List (Dirent Id))} {basedir : Name} {s s' : σ}
    (hrun : diffTreesRecursive treeWalk st opt' fuel trees basedir s = some s') :
    diffTreesRecursive treeWalk st opt fuel trees basedir s = some s' := by
  induction fuel generalizing trees basedir s s' with
  | zero => cases hrun
  | succ fuel ih =>
    refine foldlM_le (fun t dents t' hrow => ?_) hrun
    unfold diffRow at hrow ⊢
    split
    next hsame => rwa [if_pos hsame] at hrow
    next hsame =>
      rw [if_neg hsame] at hrow
      obtain ⟨u, hfiles, hdirs⟩ := bind_eq_some_iff.mp hrow
      refine bind_eq_some_iff.mpr ⟨u, ?_, ?_⟩
      · simp only [diffFiles] at hfiles ⊢
        split at hfiles
        next hnone => rwa [if_pos hnone]
        next hnone =>
          rw [if_neg hnone]
          exact h.fileCb _ _ _ _ hfiles
      · simp only [diffDirectories] at hdirs ⊢
        split at hdirs
        next hnone => rwa [if_pos hnone]
        next hnone =>
          rw [if_neg hnone]
          obtain ⟨r, hcb, hrest⟩ := bind_eq_some_iff.mp hdirs
          refine bind_eq_some_iff.mpr ⟨r, h.dirCb _ _ _ _ hcb, ?_⟩
          split at hrest
          next hrec =>
            rw [if_pos hrec]
            obtain ⟨subDirs, hload, hsub⟩ := bind_eq_some_iff.mp hrest
            exact bind_eq_some_iff.mpr ⟨subDirs, hload, ih hsub⟩
          next hrec => rwa [if_neg hrec]

end CloudFile
