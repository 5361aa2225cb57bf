/-
  The outcome of a merge, as a function of the three trees alone: the entries of the merged
  directory, the directories to be saved below it and the conflict flag. On readable trees,
  running the merge is computing the outcome and then saving its directories in order
  (`mergeTreesRecursive_eq`).
-/
import CloudFile.Merge.Plan

namespace CloudFile

open SortedWalk List Option

variable {Id : Type} [ObjectId Id] [DecidableEq Id]

/-- What a merge yields; `ok` says that all conflict names were generated, and `dirs` are all
    directories merged on the way. -/
structure Outcome (Id : Type) where
  ok : Bool
  entries : List (Dirent Id)
  conflict : Bool
  saves : List (List (Dirent Id))
  dirs : List (List (Dirent Id))

def Outcome.failed : Outcome Id := ⟨false, [], false, [], []⟩

def Outcome.all (os : List (Outcome Id)) : Outcome Id where
  ok := os.all Outcome.ok
  entries := os.flatMap Outcome.entries
  conflict := os.any Outcome.conflict
  saves := os.flatMap Outcome.saves
  dirs := os.flatMap Outcome.dirs

/-- The merged directory is the one of head or the one of remote. -/
def Trees.isSide (t : Trees Id) (merged : List (Dirent Id)) : Prop :=
  t.head.map seafDirId = some (seafDirId merged) ∨
    t.remote.map seafDirId = some (seafDirId merged)

instance (t : Trees Id) (merged : List (Dirent Id)) : Decidable (t.isSide merged) :=
  inferInstanceAs (Decidable (_ ∨ _))

def subDir (st : FsStore Id) (e : Option (Dirent Id)) : Option (List (Dirent Id)) :=
  (e.filter Dirent.isDir).map fun e => (st.getSeafdir e.id).getD []

def Dents.trees (st : FsStore Id) (d : Dents Id) : Trees Id :=
  ⟨subDir st d.base, subDir st d.head, subDir st d.remote⟩

def Trees.row (t : Trees Id) (m : Name) : Dents Id :=
  ⟨findDirent m (t.base.getD []), findDirent m (t.head.getD []), findDirent m (t.remote.getD [])⟩

def Trees.names (t : Trees Id) : List Name := keys Dirent.name t.lists

section Run

variable (isFile : Dirent Id → Bool) (names : ConflictNames)
  (arrange : List (Dirent Id) → List (Dirent Id)) (st : FsStore Id)

def rowOutcome (recurse : Trees Id → List Name → Outcome Id) (basedir : List Name)
    (d : Dents Id) : Outcome Id :=
  match filePlan isFile names basedir d with
  | none => .failed
  | some f => match dirPlan f.dents with
    | .drop => ⟨true, f.files, f.conflict, [], []⟩
    | .keep e => ⟨true, f.files ++ [e], f.conflict, [], []⟩
    | .below carrier =>
      let o := recurse (d.trees st) (basedir ++ [f.dents.dirname])
      { o with
        entries := f.files ++ [carrier.withId (seafDirId o.entries)]
        conflict := f.conflict || o.conflict }

/-- The outcome of a directory, from those of its rows. -/
def Outcome.close (t : Trees Id) (o : Outcome Id) : Outcome Id :=
  let merged := arrange o.entries
  { o with
    entries := merged
    saves := o.saves ++ if t.isSide merged then [] else [merged]
    dirs := o.dirs ++ [merged] }

def mergeOutcome : ℕ → Trees Id → List Name → Outcome Id
  | 0, _, _ => .failed
  | fuel + 1, t, basedir => (Outcome.all (t.names.map fun m =>
      rowOutcome isFile names st (mergeOutcome fuel) basedir (t.row m))).close arrange t

end Run

/-! ## Saving -/

variable {writeObj : Id → Bool} {st st' : FsStore Id} {l : List (List (Dirent Id))}

def saveAll (writeObj : Id → Bool) (st : FsStore Id) (l : List (List (Dirent Id))) :
    Option (FsStore Id) := l.foldlM (FsStore.saveSeafdir writeObj) st

theorem saveAll_append (l l' : List (List (Dirent Id))) :
    saveAll writeObj st (l ++ l') = saveAll writeObj st l >>= fun s => saveAll writeObj s l' :=
  foldlM_append

theorem saveAll_singleton (es : List (Dirent Id)) :
    saveAll writeObj st [es] = st.saveSeafdir writeObj es := by simp [saveAll]

theorem saveAll_spec (h : saveAll writeObj st l = some st') :
    st ≤ st' ∧ ∀ es ∈ l, st'.getSeafdir (seafDirId es) = some es := by
  induction l generalizing st with
  | nil => cases h; exact ⟨le_rfl, by simp⟩
  | cons es l ih =>
    obtain ⟨s, hs, h⟩ := bind_eq_some_iff.1 h
    obtain ⟨hle, hes⟩ := FsStore.saveSeafdir_spec hs
    obtain ⟨hle', hl⟩ := ih h
    refine ⟨hle.trans hle', fun es' hes' => ?_⟩
    rcases mem_cons.1 hes' with rfl | hmem
    · exact FsStore.getSeafdir_mono hle' hes
    · exact hl es' hmem

theorem saveAll_isSome (hw : ∀ id, writeObj id = true) (l : List (List (Dirent Id)))
    (st : FsStore Id) : ∃ st', saveAll writeObj st l = some st' := by
  induction l generalizing st with
  | nil => exact ⟨st, rfl⟩
  | cons es l ih =>
    have hsave : ∃ s, st.saveSeafdir writeObj es = some s := by
      unfold FsStore.saveSeafdir
      split_ifs with h1 h2 h3
      · exact ⟨_, rfl⟩
      · exact ⟨_, rfl⟩
      · exact ⟨_, rfl⟩
      · exact absurd (hw _) h3
    obtain ⟨s, hs⟩ := hsave
    obtain ⟨st', hst'⟩ := ih s
    exact ⟨st', by simpa [saveAll, hs] using hst'⟩

variable {o : Outcome Id}

theorem saveAll_new (h : saveAll writeObj st l = some st') {id : Id} {o : FsObj Id}
    (ho : st'.obj id = some o) :
    st.obj id = some o ∨ ∃ es ∈ l, o = .dir es := by
  induction l generalizing st with
  | nil => cases h; exact .inl ho
  | cons es l ih =>
    obtain ⟨s, hs, h⟩ := bind_eq_some_iff.1 h
    rcases ih h with h | ⟨es', hes', rfl⟩
    · unfold FsStore.saveSeafdir at hs
      split_ifs at hs <;> cases hs
      · exact .inl h
      · exact .inl h
      · simp only [FsStore.insert] at h
        split_ifs at h
        · exact .inr ⟨es, mem_cons_self .., (Option.some.inj h).symm⟩
        · exact .inl h
    · exact .inr ⟨es', mem_cons_of_mem _ hes', rfl⟩

/-- The part of the state that an outcome acts on: the store and the conflict flag. -/
abbrev Core (Id : Type) [ObjectId Id] := FsStore Id × Bool

def MergeState.core (s : MergeState Id) : Core Id := (s.store, s.conflict)

def MergeState.ofCore (r : Id × Core Id) : MergeState Id := ⟨r.2.1, r.2.2, r.1⟩

/-- Save what an outcome wants saved and raise the flag. -/
def Outcome.run (writeObj : Id → Bool) (o : Outcome Id) (core : Core Id) : Option (Core Id) :=
  if o.ok then (saveAll writeObj core.1 o.saves).map fun s => (s, core.2 || o.conflict) else none

theorem Outcome.run_mono {core core' : Core Id} (h : o.run writeObj core = some core') :
    core.1 ≤ core'.1 := by
  unfold Outcome.run at h
  split_ifs at h
  obtain ⟨s, hs, rfl⟩ := map_eq_some_iff.1 h
  exact (saveAll_spec hs).1

theorem Outcome.run_all_nil (core : Core Id) :
    (Outcome.all []).run writeObj core = some core := by
  simp [Outcome.run, Outcome.all, saveAll]

theorem Outcome.run_all_cons (o : Outcome Id) (os : List (Outcome Id)) (core : Core Id) :
    (Outcome.all (o :: os)).run writeObj core =
      o.run writeObj core >>= (Outcome.all os).run writeObj := by
  cases ho : o.ok <;> cases hos : os.all Outcome.ok <;>
    simp [Outcome.run, Outcome.all, ho, hos, saveAll_append, Option.map_bind, Function.comp_def,
      Bool.or_assoc, bind_map]

theorem foldlM_outcomes {f : List (Dirent Id) × MergeState Id → Name →
    Option (List (Dirent Id) × MergeState Id)} {row : Name → Outcome Id} (ms : List Name)
    (hf : ∀ m ∈ ms, ∀ out s, st ≤ s.store → (f (out, s) m).map (Prod.map id MergeState.core) =
      ((row m).run writeObj s.core).map fun core => (out ++ (row m).entries, core))
    (out : List (Dirent Id)) (s : MergeState Id) (hle : st ≤ s.store) :
    (ms.foldlM f (out, s)).map (Prod.map id MergeState.core) =
      ((Outcome.all (ms.map row)).run writeObj s.core).map fun core =>
        (out ++ (Outcome.all (ms.map row)).entries, core) := by
  induction ms generalizing out s with
  | nil =>
    rw [map_nil, Outcome.run_all_nil]
    simp [Outcome.all]
  | cons m ms ih =>
    have hm := hf m (mem_cons_self ..) out s hle
    rw [foldlM_cons, map_cons, Outcome.run_all_cons]
    cases hr : (row m).run writeObj s.core with
    | none =>
      rw [hr, map_none, map_eq_none_iff] at hm
      simp [hm]
    | some core =>
      rw [hr, map_some] at hm
      obtain ⟨⟨out', s'⟩, hrow, heq⟩ := map_eq_some_iff.1 hm
      obtain ⟨rfl, rfl⟩ := Prod.mk.inj heq
      have hle' : st ≤ s'.store := hle.trans (Outcome.run_mono hr)
      simpa [hrow, Outcome.all] using ih (fun m' hm' => hf m' (mem_cons_of_mem _ hm'))
        (out ++ (row m).entries) s' hle'

/-! ## Readable trees -/

variable {P : List (Dirent Id) → Prop} {k : ℕ} {t : Option (List (Dirent Id))} {m : Name}
  {e : Dirent Id} {basedir : List Name} {d : Dents Id}

/-- A directory that is stored, with readable trees below. -/
def DirIn (P : List (Dirent Id) → Prop) (st : FsStore Id) (k : ℕ)
    (t : Option (List (Dirent Id))) : Prop :=
  ∀ es, t = some es → st.getSeafdir (seafDirId es) = some es ∧ SubTrees P st k es

structure TreesIn (P : List (Dirent Id) →
    Prop) (st : FsStore Id) (k : ℕ) (t : Trees Id) : Prop where
  base : DirIn P st k t.base
  head : DirIn P st k t.head
  remote : DirIn P st k t.remote

theorem subDir_getD (e : Option (Dirent Id)) : (subDir st e).getD [] = subEntries st e := by
  cases e with
  | none => rfl
  | some e => cases he : e.isDir <;> simp [subDir, subEntries, filter_some, he]

theorem DirIn.row (h : DirIn P st k t) (he : findDirent m (t.getD []) = some e) :
    ∃ es, P es ∧ e ∈ es := by
  cases t with
  | none => simp [findDirent] at he
  | some es => exact ⟨es, (h es rfl).2.1, (mem_of_findDirent he).1⟩

theorem DirIn.getSeafdir (h : DirIn P st k t) (he : findDirent m (t.getD []) = some e)
    (hd : e.isDir = true) :
    ∃ es, st.getSeafdir e.id = some es ∧ SubTrees P st (k - 1) es ∧ k ≠ 0 := by
  cases t with
  | none => simp [findDirent] at he
  | some l =>
    have htree := (h l rfl).2.2 e (mem_of_findDirent he).1 hd
    obtain ⟨k, rfl⟩ := htree.exists_succ
    obtain ⟨es, hes, hsub⟩ := htree.subTrees
    exact ⟨es, hes, hsub, by simp⟩

theorem DirIn.sub (h : DirIn P st k t) (m : Name) :
    DirIn P st (k - 1) (subDir st (findDirent m (t.getD []))) := by
  intro es hes
  obtain ⟨e, he, rfl⟩ := map_eq_some_iff.1 hes
  obtain ⟨he, hd⟩ := filter_eq_some_iff.1 he
  obtain ⟨es, hes, hsub, -⟩ := h.getSeafdir he hd
  rw [hes, getD_some, FsStore.getSeafdir_id hes]
  exact ⟨hes, hsub⟩

theorem TreesIn.sub {t : Trees Id} (h : TreesIn P st k t) (m : Name) :
    TreesIn P st (k - 1) ((t.row m).trees st) :=
  ⟨h.base.sub m, h.head.sub m, h.remote.sub m⟩

theorem DirIn.loadTree (h : DirIn P st k t) (m : Name) (hle : st ≤ st') :
    loadTree st' (findDirent m (t.getD [])) = some (subDir st (findDirent m (t.getD []))) := by
  cases he : (findDirent m (t.getD [])).filter Dirent.isDir with
  | none => simp [CloudFile.loadTree, subDir, he]
  | some e =>
    obtain ⟨hf, hd⟩ := filter_eq_some_iff.1 he
    obtain ⟨es, hes, -⟩ := h.getSeafdir hf hd
    simp [CloudFile.loadTree, subDir, he, hes, FsStore.getSeafdir_mono hle hes]

theorem TreesIn.loadTrees {t : Trees Id} (h : TreesIn P st k t) (m : Name) (hle : st ≤ st') :
    loadTrees st' (t.row m) = some ((t.row m).trees st) := by
  simp [CloudFile.loadTrees, Trees.row, Dents.trees, h.base.loadTree m hle, h.head.loadTree m hle,
    h.remote.loadTree m hle]

theorem filePlan_loadTrees {isFile : Dirent Id → Bool} {names : ConflictNames} {f : FilePlan Id}
    (hf : filePlan isFile names basedir d = some f) : loadTrees st f.dents = loadTrees st d := by
  rcases filePlan_cases hf with ⟨-, rfl⟩ | ⟨h, r, n, hc, -, rfl⟩
  · rfl
  · simp only [loadTrees, (Dents.clash_eq_some.1 hc).2.1]
    cases hd : r.isDir <;> simp [loadTree, filter_some, hd]

/-! ## The rows of the walk -/

theorem DirIn.desc (h : DirIn P st k t) (hP : ∀ es, P es → Desc Dirent.name es) :
    Desc Dirent.name (t.getD []) := by
  cases t with
  | none => exact List.Pairwise.nil
  | some es => exact hP es (h es rfl).2.1

theorem TreesIn.desc {t : Trees Id} (h : TreesIn P st k t) (hP : ∀ es, P es → Desc Dirent.name es) :
    ∀ l ∈ t.lists, Desc Dirent.name l := by
  simp only [Trees.lists, mem_cons, not_mem_nil, or_false, forall_eq_or_imp, forall_eq]
  exact ⟨h.base.desc hP, h.head.desc hP, h.remote.desc hP⟩

omit [ObjectId Id] [DecidableEq Id] in
theorem treeWalk_names {t : Trees Id} (h : ∀ l ∈ t.lists, Desc Dirent.name l) :
    Server.treeWalk t.lists = t.names.map fun m => (t.row m).row := by
  rw [Server.treeWalk, rows_eq h]
  simp [Trees.names, Trees.row, Dents.row, Trees.lists, findDirent_eq]

/-! ## Running the merge -/

section Exec

variable {isFile : Dirent Id → Bool} {names : ConflictNames}
  {arrange : List (Dirent Id) → List (Dirent Id)}

/-- A merge below is the computation of its outcome, followed by the saving. -/
def RunsOutcome (writeObj : Id → Bool) (st : FsStore Id)
    (merge : MergeState Id → Option (MergeState Id)) (o : Outcome Id) : Prop :=
  ∀ s, st ≤ s.store → merge s =
    (o.run writeObj s.core).map fun core => .ofCore (seafDirId o.entries, core)

variable {k : ℕ} {t : Trees Id} {recurse : Trees Id → List Name → Outcome Id}
  {treeWalk : List (List (Dirent Id)) → List (Row Id)}

theorem mergeRow_outcome [FileKind isFile]
    {recurse' : Trees Id → List Name → MergeState Id → Option (MergeState Id)}
    (ht : TreesIn P st k t) (m : Name)
    (hrec : ∀ basedir, RunsOutcome writeObj st (recurse' ((t.row m).trees st) basedir)
      (recurse ((t.row m).trees st) basedir))
    (basedir : List Name) (out : List (Dirent Id)) (s : MergeState Id) (hle : st ≤ s.store) :
    (mergeRow isFile names recurse' basedir (out, s) (t.row m).row).map
        (Prod.map id MergeState.core) =
      ((rowOutcome isFile names st recurse basedir (t.row m)).run writeObj s.core).map fun core =>
        (out ++ (rowOutcome isFile names st recurse basedir (t.row m)).entries, core) := by
  rw [mergeRow_eq, rowOutcome]
  cases hf : filePlan isFile names basedir (t.row m) with
  | none => simp [Outcome.run, Outcome.failed]
  | some f =>
    simp only [bind_eq_bind, bind_some]
    cases dirPlan f.dents with
    | drop => simp [DirPlan.run, Outcome.run, saveAll, MergeState.core]
    | keep e => simp [DirPlan.run, Outcome.run, saveAll, MergeState.core]
    | below carrier =>
      have hload : loadTrees s.store f.dents = some ((t.row m).trees st) :=
        (filePlan_loadTrees hf).trans (ht.loadTrees m hle)
      simp only [DirPlan.run, hload, bind_eq_bind, bind_some]
      rw [hrec _ { s with conflict := s.conflict || f.conflict } hle]
      generalize recurse ((t.row m).trees st) (basedir ++ [f.dents.dirname]) = o
      cases ho : o.ok with
      | false => simp [Outcome.run, ho]
      | true =>
        cases hs : saveAll writeObj s.store o.saves <;>
          simp [Outcome.run, ho, hs, MergeState.core, MergeState.ofCore, Bool.or_assoc]

theorem saveMerged_eq (t : Trees Id) (merged : List (Dirent Id)) (s : MergeState Id) :
    saveMerged writeObj t merged s =
      (saveAll writeObj s.store (if t.isSide merged then [] else [merged])).map fun store =>
        .ofCore (seafDirId merged, store, s.conflict) := by
  unfold saveMerged
  by_cases h : t.isSide merged
  · have h' : _ ∨ _ := h
    rw [if_pos h, if_pos h']
    rfl
  · have h' : ¬ (_ ∨ _) := h
    rw [if_neg h, if_neg h', saveAll_singleton]
    rfl

theorem Outcome.run_close (t : Trees Id) (o : Outcome Id) (core : Core Id) :
    (o.close arrange t).run writeObj core = o.run writeObj core >>= fun core =>
      (saveAll writeObj core.1 (if t.isSide (arrange o.entries) then []
        else [arrange o.entries])).map fun store => (store, core.2) := by
  cases ho : o.ok <;>
    simp [Outcome.run, Outcome.close, ho, saveAll_append, Option.map_bind, bind_map]

/-- **Running the merge is computing its outcome and saving its directories.** -/
theorem mergeTreesRecursive_eq [FileKind isFile] (hP : ∀ es, P es → Desc Dirent.name es)
    (hwalk : ∀ trees, treeWalk trees = Server.treeWalk trees) (fuel : ℕ) (ht : TreesIn P st k t)
    (basedir : List Name) :
    RunsOutcome writeObj st
      (mergeTreesRecursive isFile names treeWalk arrange writeObj fuel t basedir)
      (mergeOutcome isFile names arrange st fuel t basedir) := by
  induction fuel generalizing k t basedir with
  | zero =>
    intro s _
    simp [mergeTreesRecursive, mergeOutcome, Outcome.run, Outcome.failed]
  | succ fuel ih =>
    intro s hle
    have hrows := foldlM_outcomes (f := fun acc m => mergeRow isFile names
        (mergeTreesRecursive isFile names treeWalk arrange writeObj fuel) basedir acc (t.row m).row)
      t.names (fun m _ => mergeRow_outcome ht m (fun basedir' => ih (ht.sub m) basedir') basedir)
      [] s hle
    rw [mergeTreesRecursive, hwalk, treeWalk_names (ht.desc hP), foldlM_map, mergeOutcome,
      Outcome.run_close]
    cases hr : (Outcome.all (t.names.map fun m => rowOutcome isFile names st
        (mergeOutcome isFile names arrange st fuel) basedir (t.row m))).run writeObj s.core with
    | none =>
      rw [hr, map_none, map_eq_none_iff] at hrows
      simp [hrows]
    | some core =>
      rw [hr, map_some] at hrows
      obtain ⟨⟨out, s'⟩, hrun, heq⟩ := map_eq_some_iff.1 hrows
      obtain ⟨rfl, rfl⟩ := Prod.mk.inj heq
      simp [hrun, saveMerged_eq, Outcome.close, MergeState.core, Function.comp_def]

variable {o : Outcome Id} {es : List (Dirent Id)} {ms : List Name}

theorem rowOutcome_dirs (ho : rowOutcome isFile names st recurse basedir d = o) :
    (o.dirs = [] ∧ o.saves = []) ∨ ∃ basedir', o.dirs = (recurse (d.trees st) basedir').dirs ∧
      o.saves = (recurse (d.trees st) basedir').saves := by
  subst ho
  unfold rowOutcome
  split
  · exact .inl ⟨rfl, rfl⟩
  · split
    · exact .inl ⟨rfl, rfl⟩
    · exact .inl ⟨rfl, rfl⟩
    · exact .inr ⟨_, rfl, rfl⟩

theorem TreesIn.of_isSide (ht : TreesIn P st k t) {merged : List (Dirent Id)}
    (h : t.isSide merged) :
    st.getSeafdir (seafDirId merged) = some merged := by
  rcases h with h | h <;> obtain ⟨es, hes, hid⟩ := map_eq_some_iff.1 h
  · exact seafDirId_injective hid ▸ (ht.head es hes).1
  · exact seafDirId_injective hid ▸ (ht.remote es hes).1

theorem mem_close_saves :
    es ∈ (o.close arrange t).saves ↔
      es ∈ o.saves ∨ ¬ t.isSide (arrange o.entries) ∧ es = arrange o.entries := by
  by_cases h : t.isSide (arrange o.entries) <;> simp [Outcome.close, h]

theorem mem_close_dirs :
    es ∈ (o.close arrange t).dirs ↔ es ∈ o.dirs ∨ es = arrange o.entries := by
  simp [Outcome.close]

section

omit [ObjectId Id] [DecidableEq Id]

theorem mem_all_saves {row : Name → Outcome Id} :
    es ∈ (Outcome.all (ms.map row)).saves ↔ ∃ m ∈ ms, es ∈ (row m).saves := by
  simp [Outcome.all]

theorem mem_all_dirs {row : Name → Outcome Id} :
    es ∈ (Outcome.all (ms.map row)).dirs ↔ ∃ m ∈ ms, es ∈ (row m).dirs := by
  simp [Outcome.all]

end

theorem mergeOutcome_dirs (fuel : ℕ) (ht : TreesIn P st k t) (basedir : List Name)
    (hes : es ∈ (mergeOutcome isFile names arrange st fuel t basedir).dirs) :
    es ∈ (mergeOutcome isFile names arrange st fuel t basedir).saves ∨
      st.getSeafdir (seafDirId es) = some es := by
  induction fuel generalizing k t basedir with
  | zero => simp [mergeOutcome, Outcome.failed] at hes
  | succ fuel ih =>
    rw [mergeOutcome, mem_close_dirs, mem_all_dirs] at hes
    rw [mergeOutcome, mem_close_saves, mem_all_saves]
    rcases hes with ⟨m, hm, hes⟩ | hes
    · generalize ho : rowOutcome isFile names st _ basedir (t.row m) = o at hes
      rcases rowOutcome_dirs ho with ⟨hd, -⟩ | ⟨basedir', hd, hs⟩
      · simp [hd] at hes
      · rw [hd] at hes
        rcases ih (ht.sub m) basedir' hes with h | h
        · exact .inl (.inl ⟨m, hm, ho ▸ hs ▸ h⟩)
        · exact .inr h
    · by_cases hside : t.isSide es
      · exact .inr (ht.of_isSide hside)
      · exact .inl (.inr ⟨hes ▸ hside, hes⟩)

theorem mergeOutcome_saves (fuel : ℕ) (t : Trees Id) (basedir : List Name) :
    (mergeOutcome isFile names arrange st fuel t basedir).saves ⊆
      (mergeOutcome isFile names arrange st fuel t basedir).dirs := by
  induction fuel generalizing t basedir with
  | zero => simp [mergeOutcome, Outcome.failed]
  | succ fuel ih =>
    intro es hes
    rw [mergeOutcome, mem_close_saves, mem_all_saves] at hes
    rw [mergeOutcome, mem_close_dirs, mem_all_dirs]
    rcases hes with ⟨m, hm, hes⟩ | ⟨-, hes⟩
    · generalize ho : rowOutcome isFile names st _ basedir (t.row m) = o at hes
      rcases rowOutcome_dirs ho with ⟨-, hs⟩ | ⟨basedir', hd, hs⟩
      · simp [hs] at hes
      · rw [hs] at hes
        exact .inl ⟨m, hm, ho ▸ hd ▸ ih _ basedir' hes⟩
    · exact .inr hes

end Exec

/-! ## The merge of either server -/

/-- The three-way merge of one of the two servers, and what it merges as a file. -/
inductive MergeOf (names : ConflictNames) (writeObj : Id → Bool) (fuel : ℕ) (st : FsStore Id)
    (base head remote : Id) : (Dirent Id → Bool) → Option (MergeState Id) → Prop
  | server : MergeOf names writeObj fuel st base head remote Dirent.isReg
      (Server.seafMergeTrees names writeObj fuel st base head remote)
  | fileserver (sortDents : List (Dirent Id) → List (Dirent Id)) :
      Fileserver.SortsDirents sortDents →
      MergeOf names writeObj fuel st base head remote Fileserver.isFile
        (Fileserver.mergeTrees names writeObj sortDents fuel st base head remote)

omit [ObjectId Id] [DecidableEq Id] in
theorem Server.sortDirents_sorts :
    Fileserver.SortsDirents (Server.sortDirents : List (Dirent Id) → List (Dirent Id)) := by
  have : Std.Total fun a b : Dirent Id => b.name ≤ a.name := ⟨fun a b => le_total b.name a.name⟩
  have : IsTrans (Dirent Id) fun a b => b.name ≤ a.name := ⟨fun _ _ _ h h' => h'.trans h⟩
  exact fun l => ⟨perm_insertionSort _ _, pairwise_insertionSort _ _⟩

variable {names : ConflictNames} {fuel : ℕ} {base head remote : Id} {isFile : Dirent Id → Bool}
  {res : Option (MergeState Id)} {s : MergeState Id}

/-- The state after a merge with this outcome: the store has all merged directories, and
    nothing new but these. -/
structure Outcome.Final (st : FsStore Id) (o : Outcome Id) (s : MergeState Id) : Prop where
  ok : o.ok = true
  root : s.mergedTreeRoot = seafDirId o.entries
  conflict : s.conflict = o.conflict
  le : st ≤ s.store
  dirs : ∀ es ∈ o.dirs, s.store.getSeafdir (seafDirId es) = some es
  new : ∀ id obj, s.store.obj id = some obj → st.obj id = some obj ∨ ∃ es ∈ o.dirs, obj = .dir es

section

variable (hm : MergeOf names writeObj fuel st base head remote isFile res)
include hm

theorem MergeOf.isFile_eq :
    isFile = Dirent.isReg ∨ isFile = Fileserver.isFile := by
  cases hm with
  | server => exact .inl rfl
  | fileserver => exact .inr rfl

theorem MergeOf.fileKind :
    FileKind isFile := by
  rcases hm.isFile_eq with rfl | rfl <;> infer_instance

end

def rootTrees (st : FsStore Id) (base head remote : Id) : Trees Id :=
  ⟨st.getSeafdir base, st.getSeafdir head, st.getSeafdir remote⟩

theorem Tree.dirIn {id : Id} (h : Tree P st k id) :
    DirIn P st (k - 1) (st.getSeafdir id) := by
  intro es hes
  obtain ⟨k, rfl⟩ := h.exists_succ
  obtain ⟨es', hes', hsub⟩ := h.subTrees
  obtain rfl := mem_unique hes hes'
  rw [FsStore.getSeafdir_id hes]
  exact ⟨hes, hsub⟩

theorem treesIn_roots (hb : Tree P st k base) (hh : Tree P st k head) (hr : Tree P st k remote) :
    TreesIn P st (k - 1) (rootTrees st base head remote) :=
  ⟨hb.dirIn, hh.dirIn, hr.dirIn⟩

/-- **A merge of three readable trees** computes an outcome and saves its directories. -/
theorem MergeOf.outcome (hm : MergeOf names writeObj fuel st base head remote isFile res)
    (hP : ∀ es, P es → Desc Dirent.name es) (hb : Tree P st k base) (hh : Tree P st k head)
    (hr : Tree P st k remote) :
    ∃ arrange, Fileserver.SortsDirents arrange ∧
      res = ((mergeOutcome isFile names arrange st fuel (rootTrees st base head remote) []).run
        writeObj (st, false)).map fun core => .ofCore (seafDirId
          (mergeOutcome isFile names arrange st fuel (rootTrees st base head remote) []).entries,
            core) := by
  have hin := treesIn_roots hb hh hr
  obtain ⟨b, hb, -⟩ := hb.readable
  obtain ⟨h, hh, -⟩ := hh.readable
  obtain ⟨r, hr, -⟩ := hr.readable
  rw [rootTrees, hb, hh, hr] at hin ⊢
  cases hm with
  | server =>
    refine ⟨_, fun l => ⟨(Server.sortDirents_sorts l.reverse).1.trans l.reverse_perm,
      (Server.sortDirents_sorts l.reverse).2⟩, ?_⟩
    simp only [Server.seafMergeTrees, mergeRoots, hb, hh, hr, bind_eq_bind, bind_some]
    exact mergeTreesRecursive_eq hP (fun _ => rfl) fuel hin [] _ le_rfl
  | fileserver sortDents hsort =>
    refine ⟨sortDents, hsort, ?_⟩
    simp only [Fileserver.mergeTrees, mergeRoots, hb, hh, hr, bind_eq_bind, bind_some]
    exact mergeTreesRecursive_eq hP Fileserver.treeWalk_eq fuel hin [] _ le_rfl

theorem Outcome.final_of_run
    (hdirs : ∀ es ∈ o.dirs, es ∈ o.saves ∨ st.getSeafdir (seafDirId es) = some es)
    (hsaves : o.saves ⊆ o.dirs)
    (hrun : (o.run writeObj (st, false)).map (fun core => MergeState.ofCore (seafDirId o.entries,
      core)) = some s) :
    o.Final st s := by
  obtain ⟨core, hcore, rfl⟩ := map_eq_some_iff.1 hrun
  unfold Outcome.run at hcore
  split_ifs at hcore with hok
  obtain ⟨store, hs, rfl⟩ := map_eq_some_iff.1 hcore
  obtain ⟨hle, hsaved⟩ := saveAll_spec hs
  refine ⟨hok, rfl, by simp [MergeState.ofCore], hle, fun es hes => ?_, fun id obj hobj => ?_⟩
  · rcases hdirs es hes with h | h
    · exact hsaved es h
    · exact FsStore.getSeafdir_mono hle h
  · rcases saveAll_new hs hobj with h | ⟨es, hes, rfl⟩
    · exact .inl h
    · exact .inr ⟨es, hsaves hes, rfl⟩

theorem MergeOf.final (hm : MergeOf names writeObj fuel st base head remote isFile (some s))
    (hP : ∀ es, P es → Desc Dirent.name es) (hb : Tree P st k base) (hh : Tree P st k head)
    (hr : Tree P st k remote) :
    ∃ arrange, Fileserver.SortsDirents arrange ∧
      (mergeOutcome isFile names arrange st fuel (rootTrees st base head remote) []).Final st s :=
        by
  obtain ⟨arrange, hsort, hres⟩ := hm.outcome hP hb hh hr
  exact ⟨arrange, hsort, Outcome.final_of_run
    (fun es hes => mergeOutcome_dirs fuel (treesIn_roots hb hh hr) [] hes)
    (mergeOutcome_saves fuel _ []) hres.symm⟩

end CloudFile
