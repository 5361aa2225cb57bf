/-
  The C and the Go merge agree where generated names are fresh. On trees of regular files and
  directories both run the same table and differ in the order of the merged entries, but without
  repeated names there is only one sorted order (`seafMergeTrees_eq_mergeTrees`).
-/
import CloudFile.Merge.WellFormed

namespace CloudFile

open SortedWalk

variable {Id : Type} [ObjectId Id] [DecidableEq Id]

/-- A listing of regular files and directories in descending order of their names. -/
def PlainListing (es : List (Dirent Id)) : Prop :=
  Desc Dirent.name es ∧ ∀ e ∈ es, e.isReg = true ∨ e.isDir = true

instance : DecidablePred (PlainListing : List (Dirent Id) → Prop) := fun es =>
  inferInstanceAs (Decidable (Desc Dirent.name es ∧ ∀ e ∈ es, e.isReg = true ∨ e.isDir = true))

/-- The entries of a row are files for both of `p` and `q` or for none. -/
def Dents.SameKinds (p q : Dirent Id → Bool) (d : Dents Id) : Prop :=
  ∀ e, d.base = some e ∨ d.head = some e ∨ d.remote = some e → p e = q e

section Table

variable {p q : Dirent Id → Bool} {names : ConflictNames} {basedir : List Name} {d : Dents Id}

omit [ObjectId Id] [DecidableEq Id] in
theorem entryFilter_congr {o : Option (Dirent Id)} (h : ∀ e, o = some e → p e = q e) :
    o.filter p = o.filter q := by
  cases o with
  | none => rfl
  | some e => simp [Option.filter_some, h e rfl]

omit [ObjectId Id] in
theorem filePlan_congr [FileKind p] [FileKind q] (h : d.SameKinds p q) :
    filePlan p names basedir d = filePlan q names basedir d := by
  have hb : d.base.filter p = d.base.filter q := entryFilter_congr fun e he => h e (.inl he)
  have hh : d.head.filter p = d.head.filter q := entryFilter_congr fun e he => h e (.inr (.inl he))
  have hr : d.remote.filter p = d.remote.filter q :=
    entryFilter_congr fun e he => h e (.inr (.inr he))
  have hfile : d.file p = d.file q := by simp only [Dents.file, hb, hh, hr]
  have hclash : d.clash p = d.clash q := by
    obtain ⟨b, _ | x, _ | y⟩ := d
    case some.some =>
      have hx := h x (.inr (.inl rfl))
      have hy := h y (.inr (.inr rfl))
      have hc : clashes p b x y = clashes q b x y := by
        unfold clashes
        rw [hx, hy, show b.filter p = b.filter q from hb]
      simp only [Dents.clash, hc]
    all_goals rfl
  unfold filePlan
  rw [hclash, hfile]
  cases hc : d.clash q with
  | none => rfl
  | some c =>
    obtain ⟨x, y⟩ := c
    obtain ⟨hx, hy, -⟩ := Dents.clash_eq_some.1 hc
    have hx := h x (.inr (.inl hx))
    have hy := h y (.inr (.inr hy))
    have hyn : ∀ n, p (y.withName n) = q (y.withName n) := fun n =>
      (FileKind.withName y n).trans (hy.trans (FileKind.withName y n).symm)
    simp [conflictNameOf, hx, hy, hyn, List.filter_cons]

end Table

variable {k : ℕ} {t : Trees Id}

theorem TreesIn.sameKinds {P : List (Dirent Id) → Prop} {p q : Dirent Id → Bool} {st : FsStore Id}
    (ht : TreesIn P st k t) (hkinds : ∀ es, P es → ∀ e ∈ es, p e = q e) (m : Name) :
    (t.row m).SameKinds p q := by
  rintro e (he | he | he)
  · obtain ⟨es, hes, hmem⟩ := ht.base.row he; exact hkinds es hes e hmem
  · obtain ⟨es, hes, hmem⟩ := ht.head.row he; exact hkinds es hes e hmem
  · obtain ⟨es, hes, hmem⟩ := ht.remote.row he; exact hkinds es hes e hmem

/-! ## Equal outcomes -/

/-- Two outcomes that cannot be told apart by running them. -/
def Outcome.Same (o o' : Outcome Id) : Prop := o.ok = o'.ok ∧ (o.ok = true → o = o')

variable {o o' : Outcome Id} {p q : Dirent Id → Bool}

theorem Outcome.Same.run_eq (h : o.Same o') (writeObj : Id → Bool) (core : Core Id) :
    (o.run writeObj core).map (fun c => MergeState.ofCore (seafDirId o.entries, c)) =
      (o'.run writeObj core).map fun c => MergeState.ofCore (seafDirId o'.entries, c) := by
  cases hok : o.ok with
  | true => rw [h.2 hok]
  | false => simp [Outcome.run, hok, ← h.1]

variable [FileKind p] [FileKind q] {names : ConflictNames}
  {arrange arrange' : List (Dirent Id) → List (Dirent Id)} {st : FsStore Id}
  {P : List (Dirent Id) → Prop} {basedir : List Name}

theorem rowOutcome_same {recurse recurse' : Trees Id → List Name → Outcome Id} {d : Dents Id}
    (hkinds : d.SameKinds p q)
    (hrec : ∀ n, d.below p names basedir = some n →
      (recurse (d.trees st) (basedir ++ [n])).Same (recurse' (d.trees st) (basedir ++ [n]))) :
    (rowOutcome p names st recurse basedir d).Same (rowOutcome q names st recurse' basedir d) := by
  unfold rowOutcome
  unfold Dents.below at hrec
  rw [← filePlan_congr hkinds]
  cases hf : filePlan p names basedir d with
  | none => exact ⟨rfl, fun _ => rfl⟩
  | some f =>
    cases hd : dirPlan f.dents with
    | drop => exact ⟨by simp [hd], fun _ => by simp [hd]⟩
    | keep e => exact ⟨by simp [hd], fun _ => by simp [hd]⟩
    | below carrier =>
      obtain ⟨hok, heq⟩ := hrec f.dents.dirname (by simp [hf, hd])
      exact ⟨by simpa [hd] using hok, fun h => by simp [hd, heq (by simpa [hd] using h)]⟩

omit [ObjectId Id] [DecidableEq Id] in
theorem all_same {ms : List Name} {row row' : Name → Outcome Id}
    (h : ∀ m ∈ ms, (row m).Same (row' m)) :
    (Outcome.all (ms.map row)).Same (Outcome.all (ms.map row')) := by
  have hok : (Outcome.all (ms.map row)).ok = true ↔ ∀ m ∈ ms, (row m).ok = true := by
    simp [Outcome.all]
  have hok' : (Outcome.all (ms.map row')).ok = true ↔ ∀ m ∈ ms, (row' m).ok = true := by
    simp [Outcome.all]
  refine ⟨Bool.eq_iff_iff.2 (hok.trans (Iff.trans ?_ hok'.symm)), fun hall => ?_⟩
  · exact forall₂_congr fun m hm => by rw [(h m hm).1]
  · rw [List.map_congr_left fun m hm => (h m hm).2 (hok.1 hall m hm)]

theorem close_same (h : o.Same o') (harr : o.ok = true → arrange o.entries = arrange' o.entries) :
    (o.close arrange t).Same (o'.close arrange' t) := by
  refine ⟨h.1, fun hok => ?_⟩
  rw [← h.2 hok]
  simp only [Outcome.close, harr hok]

theorem mergeOutcome_same (hsort : Fileserver.SortsDirents arrange)
    (hsort' : Fileserver.SortsDirents arrange') (hP : ∀ es, P es → Desc Dirent.name es)
    (hkinds : ∀ es, P es → ∀ e ∈ es, p e = q e) (fuel : ℕ) (ht : TreesIn P st k t)
    (hfresh : FreshNames p names st fuel t basedir) :
    (mergeOutcome p names arrange st fuel t basedir).Same
      (mergeOutcome q names arrange' st fuel t basedir) := by
  induction fuel generalizing k t basedir with
  | zero => exact ⟨rfl, fun _ => rfl⟩
  | succ fuel ih =>
    refine close_same (all_same fun m hm => rowOutcome_same (ht.sameKinds hkinds m) fun n hn =>
      ih (ht.sub m) (hfresh.2 m hm n hn)) fun hok => ?_
    have hdesc := close_desc_iff hsort (ht.desc hP) (by simpa [Outcome.all] using hok)
    have hdesc' := close_desc_iff hsort' (ht.desc hP) (by simpa [Outcome.all] using hok)
    exact desc_perm_eq (hdesc.2 hfresh.1) (hdesc'.2 hfresh.1)
      ((hsort _).1.trans (hsort' _).1.symm)

omit [ObjectId Id] [DecidableEq Id] in
theorem plainListing_kinds {es : List (Dirent Id)} (h : PlainListing es) :
    ∀ e ∈ es, e.isReg = Fileserver.isFile e := by
  intro e he
  rcases h.2 e he with hreg | hdir
  · simp [hreg, Fileserver.isFile, Dirent.isDir_of_isReg hreg]
  · have hreg : e.isReg = false := by
      by_contra h
      simp [Dirent.isDir_of_isReg (by simpa using h)] at hdir
    simp [hreg, Fileserver.isFile, hdir]

def sharedNames : ConflictNames := ⟨fun _ n => some (n ++ ['x']), fun _ n => some (n ++ ['x'])⟩

def dirOf (es : List (Dirent ℕ)) : List (Dirent ℕ) := [.new 0o040000 (seafDirId es) ['d'] 0 [] 0]

/-- Head has the files `fx` and `f` in `d`, remote has another file `f` in `d`. -/
def nestedStore : FsStore ℕ :=
  ((conflictStore [['f', 'x']]).insert (.dir (dirOf (headEntries [['f', 'x']])))
    (by simp [FsObj.Nonempty, dirOf])).insert (.dir (dirOf remoteEntries))
    (by simp [FsObj.Nonempty, dirOf])

def mergedDirId (s : MergeState ℕ) : Option ℕ :=
  (entryAt s.store s.mergedTreeRoot [['d']]).map Dirent.id

end CloudFile
