/-
  Trees in which only directories are read, and their rewrites.  A deletion of names is a rewrite
  where the directories are sorted and a name is there; otherwise it changes nothing.
-/
import CloudFile.Move.IntoItself

namespace CloudFile

open SortedWalk GoPath Option

variable {Id : Type} [ObjectId Id] [DecidableEq Id]

/-! ## Trees in which only directories are read -/

/-- Sorted unique names, none of them empty; only a directory has the id of a directory with
    entries. -/
def PlainDir (es : List (Dirent Id)) : Prop :=
  SortedNames (· ≠ []) es ∧ ∀ d ∈ es, d.isDir = false → ∀ fs, seafDirId fs = d.id → fs = []

section Plain

variable {st X : FsStore Id} {id : Id} {k : ℕ} {path : List Name} {es : List (Dirent Id)}

omit [DecidableEq Id] in
theorem plainDir_nil : PlainDir ([] : List (Dirent Id)) :=
  ⟨sortedNames_nil, by simp⟩

omit [DecidableEq Id] in
theorem PlainDir.unique (h : PlainDir es) : UniqueKeys Dirent.name es := (desc_iff.1 h.1.1).2

theorem PlainDir.leadsTo_of_file (hes : PlainDir es) {d : Dirent Id} (hd : d ∈ es)
    (hdir : d.isDir = false) {fs : List (Dirent Id)} (h : leadsTo X d.id path = some fs) :
    path = [] ∧ fs = [] ∧ d.id = emptySha1 := by
  have hempty : ∀ {gs}, X.getSeafdir d.id = some gs → gs = [] := fun hgs =>
    hes.2 d hd hdir _ (FsStore.getSeafdir_id hgs)
  cases path with
  | nil =>
    obtain rfl := hempty h
    exact ⟨rfl, rfl, FsStore.getSeafdir_nil.1 h⟩
  | cons n path =>
    simp only [leadsTo, bind_eq_bind, bind_eq_some_iff] at h
    obtain ⟨d', ⟨gs, hgs, hd'⟩, -⟩ := h
    rw [hempty hgs] at hd'
    cases hd'

section

variable (hT : Tree PlainDir st k id)
include hT

theorem Tree.plainDir (h : leadsTo st id path = some es) :
    PlainDir es := by
  induction path generalizing k id with
  | nil =>
    obtain ⟨es', hes', hplain⟩ := hT.readable
    obtain rfl := mem_unique h hes'
    exact hplain
  | cons n path ih =>
    simp only [leadsTo, bind_eq_bind, bind_eq_some_iff] at h
    obtain ⟨d, ⟨es₀, hes₀, hd⟩, hrest⟩ := h
    obtain ⟨es', hes', hplain⟩ := hT.readable
    obtain rfl := mem_unique hes₀ hes'
    by_cases hdir : d.isDir = true
    · obtain ⟨k', -, hT'⟩ := hT.subdir (subdir_some.2 ⟨es₀, d, hes₀, hd, hdir, rfl⟩)
      exact ih hT' hrest
    · rw [Bool.not_eq_true] at hdir
      obtain ⟨-, rfl, -⟩ := hplain.leadsTo_of_file (mem_of_findDirent hd).1 hdir hrest
      exact plainDir_nil

theorem Tree.leadsTo_iff (hle : st ≤ X) :
    leadsTo X id path = some es ↔ leadsTo st id path = some es := by
  refine ⟨fun h => ?_, leadsTo_mono hle⟩
  induction path generalizing k id with
  | nil =>
    obtain ⟨es', hes', -⟩ := hT.readable
    exact hes'.trans ((FsStore.getSeafdir_mono hle hes').symm.trans h)
  | cons n path ih =>
    simp only [leadsTo, bind_eq_bind, bind_eq_some_iff] at h ⊢
    obtain ⟨d, ⟨es₀, hes₀, hd⟩, hrest⟩ := h
    obtain ⟨es', hes', hplain⟩ := hT.readable
    obtain rfl := mem_unique hes₀ (FsStore.getSeafdir_mono hle hes')
    refine ⟨d, ⟨es₀, hes', hd⟩, ?_⟩
    by_cases hdir : d.isDir = true
    · obtain ⟨k', -, hT'⟩ := hT.subdir (subdir_some.2 ⟨es₀, d, hes', hd, hdir, rfl⟩)
      exact ih hT' hrest
    · rw [Bool.not_eq_true] at hdir
      obtain ⟨rfl, rfl, hid⟩ := hplain.leadsTo_of_file (mem_of_findDirent hd).1 hdir hrest
      rw [hid]
      exact FsStore.getSeafdir_empty

theorem ne_nil_of_leadsTo (h : leadsTo st id path = some es) :
    [] ∉ path := by
  intro hmem
  obtain ⟨p, rest, rfl⟩ := List.append_of_mem hmem
  rw [leadsTo_append] at h
  simp only [bind_eq_bind, bind_eq_some_iff] at h
  obtain ⟨d, ⟨es₀, hes₀, hd⟩, -⟩ := h
  obtain ⟨hd, hname⟩ := mem_of_findDirent hd
  exact (hT.plainDir hes₀).1.2 d hd hname

end

end Plain

/-! ## The two rewrites of a move -/

section Moves

variable {α : Type} {edit : List (Dirent Id) → Option (List (Dirent Id) × α)} {now : ℕ → ℤ}
  {st X : FsStore Id} {id id' : Id} {path : List Name} {a : α} {k : ℕ} {es : List (Dirent Id)}

omit [DecidableEq Id] in
theorem PlainDir.touch (h : PlainDir es) {n : Name} {d : Dirent Id}
    (hd : findDirent n es = some d) (hdir : d.isDir = true) (i : Id) (t : ℤ) :
    PlainDir (updateDirent n (fun d => d.touch i t) es) := by
  refine ⟨⟨desc_touch h.1.1, fun e he => ?_⟩, fun e he => ?_⟩ <;>
    rcases mem_updateDirent hd he with hold | rfl
  · exact h.1.2 e hold
  · exact h.1.2 d (mem_of_findDirent hd).1
  · exact h.2 e hold
  · intro hfile
    rw [Dirent.touch_isDir, hdir] at hfile
    cases hfile

def dropNames (names : List Name) (es : List (Dirent Id)) : Option (List (Dirent Id) × Unit) :=
  some (es.filter fun old => !names.contains old.name, ())

omit [DecidableEq Id] in
theorem PlainDir.sortDirents (h : PlainDir es) :
    Server.sortDirents es = es := (desc_iff.1 h.1.1).1.insertionSort_eq

/-- **What a deletion does to a tree**: it rewrites the directory without the names, if one is
    there. -/
theorem delFileRecursive_spec {e : DeleteEnv Id} {names parts : List Name}
    {r : FsStore Id × Id × ℕ} (hst : ∀ p es, leadsTo st id p = some es → PlainDir es)
    (h : Server.delFileRecursive e names parts st id = some r) :
    ∃ fs, leadsTo st id parts = some fs ∧
      (r.2.2 = 0 ∧ r.2.1 = id ∧ (∀ n ∈ names, findDirent n fs = none) ∨
        r.2.2 ≠ 0 ∧ (∃ n ∈ names, findDirent n fs ≠ none) ∧
          Rewritten (dropNames names) (fun _ => e.now) st r.1 id parts r.2.1 ()) := by
  induction parts generalizing id r with
  | nil =>
    obtain ⟨olddir, hold, h⟩ := bind_eq_some_iff.1 h
    obtain ⟨es, hes, rfl⟩ := map_eq_some_iff.1 hold
    rw [(hst [] es hes).sortDirents] at h
    refine ⟨es, hes, ?_⟩
    split at h
    · cases h
    simp only at h
    split at h
    next hcount =>
      cases h
      refine .inl ⟨rfl, rfl, fun n hn => ?_⟩
      rw [List.countP_eq_zero] at hcount
      refine eq_none_iff_forall_ne_some.2 fun d hd => ?_
      obtain ⟨hmem, rfl⟩ := mem_of_findDirent hd
      exact hcount d hmem (by simpa using hn)
    next hcount =>
      obtain ⟨st₁, hsave, rfl⟩ := map_eq_some_iff.1 h
      refine .inr ⟨hcount, ?_, .here hes rfl (FsStore.saveSeafdir_spec hsave).2⟩
      obtain ⟨d, hd, hname⟩ := List.countP_pos_iff.1 (Nat.pos_of_ne_zero hcount)
      have hfind := (findDirent_some (hst [] es hes).unique).2 ⟨hd, rfl⟩
      exact ⟨d.name, by simpa using hname, by rw [hfind]; exact some_ne_none d⟩
  | cons part remain ih =>
    obtain ⟨olddir, hold, h⟩ := bind_eq_some_iff.1 h
    obtain ⟨es, hes, rfl⟩ := map_eq_some_iff.1 hold
    rw [(hst [] es hes).sortDirents] at h
    obtain ⟨d, hd, h⟩ := bind_eq_some_iff.1 h
    obtain ⟨r', hrec, h⟩ := bind_eq_some_iff.1 h
    have hleads : ∀ p, leadsTo st id (part :: p) = leadsTo st d.id p := by simp [leadsTo, hes, hd]
    obtain ⟨fs, hfs, hcases⟩ := ih (fun p es h => hst (part :: p) es ((hleads p).trans h)) hrec
    refine ⟨fs, (hleads remain).trans hfs, ?_⟩
    rcases hcases with ⟨hzero, -, hnone⟩ | ⟨hne, hsome, hrew⟩
    · rw [if_pos hzero] at h
      cases h
      exact .inl ⟨rfl, rfl, hnone⟩
    · rw [if_neg hne, replaceDir_eq] at h
      obtain ⟨st₁, hsave, rfl⟩ := map_eq_some_iff.1 h
      obtain ⟨hle, hget⟩ := FsStore.saveSeafdir_spec hsave
      exact .inr ⟨hne, hsome, .down hes hd (hrew.mono hle) hget⟩

end Moves

end CloudFile
