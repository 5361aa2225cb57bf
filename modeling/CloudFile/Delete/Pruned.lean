/-
  A tree without the entries at some paths, in a store that holds the tree and what is left of it.
  Directories that keep all entries stay the objects they are, the others are new ones. The hash
  of an object being ideal, there is at most one such tree.
-/
import CloudFile.Delete.Model

namespace CloudFile

open SortedWalk List Option

variable {Id : Type}

/-! ## Paths below a name -/

/-- What the paths that start with a name go on with. -/
def after (n : Name) (R : List (List Name)) : List (List Name) :=
  R.filterMap fun t => if t.head? = some n then some t.tail else none

theorem mem_after {n : Name} {R : List (List Name)} {p : List Name} :
    p ∈ after n R ↔ n :: p ∈ R := by
  rw [after, mem_filterMap]
  constructor
  · rintro ⟨t, ht, heq⟩
    split at heq
    next hhead =>
      cases heq
      rwa [← eq_cons_of_mem_head? hhead]
    next => cases heq
  · intro h
    exact ⟨n :: p, h, by simp⟩

theorem after_cons_same (n : Name) (t : List Name) (R : List (List Name)) :
    after n ((n :: t) :: R) = t :: after n R := by
  simp [after]

theorem after_cons_ne {n m : Name} (h : m ≠ n) (t : List Name) (R : List (List Name)) :
    after n ((m :: t) :: R) = after n R := by
  simp [after, h]

def losesEntry (R : List (List Name)) : Bool := R.any fun t => t.length == 1

/-- The entry of a directory from which the paths are deleted. -/
def stamp (now : ℤ) (R : List (List Name)) (d : Dirent Id) : Dirent Id :=
  if losesEntry R then d.withMtime now else d

variable (now : ℤ)

@[simp] theorem stamp_name (R : List (List Name)) (d : Dirent Id) :
    (stamp now R d).name = d.name := by
  unfold stamp
  split <;> rfl

@[simp] theorem stamp_id (R : List (List Name)) (d : Dirent Id) :
    (stamp now R d).id = d.id := by
  unfold stamp
  split <;> rfl

@[simp] theorem stamp_mode (R : List (List Name)) (d : Dirent Id) :
    (stamp now R d).mode = d.mode := by
  unfold stamp
  split <;> rfl

@[simp] theorem stamp_isDir (R : List (List Name)) (d : Dirent Id) :
    (stamp now R d).isDir = d.isDir := congrArg sIsDir (stamp_mode now R d)

@[simp] theorem stamp_isReg (R : List (List Name)) (d : Dirent Id) :
    (stamp now R d).isReg = d.isReg := congrArg sIsReg (stamp_mode now R d)

theorem stamp_withId (R : List (List Name)) (d : Dirent Id) (i : Id) :
    ∃ t, (stamp now R d).withId i = d.touch i t := by
  unfold stamp
  split
  · exact ⟨now, rfl⟩
  · exact ⟨d.mtime, rfl⟩

/-! ## Pruned trees -/

variable [ObjectId Id] [DecidableEq Id]

/-- `Pruned X now R id id'`: `id'` is the tree `id` without the entries at the paths `R`. -/
inductive Pruned (X : FsStore Id) (now : ℤ) : List (List Name) → Id → Id → Prop
  | mk {R : List (List Name)} {id id' : Id} {es es' : List (Dirent Id)} :
      X.getSeafdir id = some es → X.getSeafdir id' = some es' → Desc Dirent.name es' →
      (∀ n, [n] ∈ R → findDirent n es' = none) →
      (∀ n, [n] ∉ R → after n R = [] → findDirent n es' = findDirent n es) →
      (∀ n, [n] ∉ R → after n R ≠ [] → ∃ d i, findDirent n es = some d ∧ d.isDir = true ∧
        findDirent n es' = some ((stamp now (after n R) d).withId i)) →
      (∀ n d d', [n] ∉ R → after n R ≠ [] → findDirent n es = some d →
        findDirent n es' = some d' → Pruned X now (after n R) d.id d'.id) →
      Pruned X now R id id'

namespace Pruned

variable {X Y : FsStore Id} {now : ℤ} {R : List (List Name)} {id id' id'' : Id} {k k' : ℕ}
  {path : List Name}

theorem mono (h : Pruned X now R id id') (hle : X ≤ Y) : Pruned Y now R id id' := by
  induction h with
  | mk hes hes' hdesc hgone hkept hcut _ ih =>
    exact .mk (FsStore.getSeafdir_mono hle hes) (FsStore.getSeafdir_mono hle hes') hdesc hgone
      hkept hcut ih

omit [ObjectId Id] [DecidableEq Id] in
theorem desc_ext {es es' : List (Dirent Id)} (h : Desc Dirent.name es) (h' : Desc Dirent.name es')
    (hfind : ∀ n, findDirent n es = findDirent n es') : es = es' := by
  have hu := (desc_iff.1 h).2
  have hu' := (desc_iff.1 h').2
  refine desc_perm_eq h h' ((perm_ext_iff_of_nodup hu.of_map hu'.of_map).2 fun d => ?_)
  have hd := hfind d.name
  constructor
  · intro hmem
    rw [(findDirent_some hu).2 ⟨hmem, rfl⟩] at hd
    exact (mem_of_findDirent hd.symm).1
  · intro hmem
    rw [(findDirent_some hu').2 ⟨hmem, rfl⟩] at hd
    exact (mem_of_findDirent hd).1

theorem unique (h : Pruned X now R id id') (h' : Pruned X now R id id'') : id' = id'' := by
  induction h generalizing id'' with
  | @mk R id id' es es' hes hes' hdesc hgone hkept hcut _ ih =>
    cases h' with
    | @mk _ _ _ es₀ es'' hes₀ hes'' hdesc'' hgone'' hkept'' hcut'' hbelow'' =>
      obtain rfl := mem_unique hes hes₀
      have heq : es' = es'' := by
        refine desc_ext hdesc hdesc'' fun n => ?_
        by_cases hn : [n] ∈ R
        · rw [hgone n hn, hgone'' n hn]
        · by_cases hafter : after n R = []
          · rw [hkept n hn hafter, hkept'' n hn hafter]
          · obtain ⟨d, i, hd, -, hd'⟩ := hcut n hn hafter
            obtain ⟨d₁, i₁, hd₁, -, hd₁'⟩ := hcut'' n hn hafter
            obtain rfl := mem_unique hd hd₁
            have hi := ih n d _ hn hafter hd hd' (hbelow'' n d _ hn hafter hd hd₁')
            rw [Dirent.withId_id, Dirent.withId_id] at hi
            rw [hd', hd₁', hi]
      subst heq
      rw [← FsStore.getSeafdir_id hes', FsStore.getSeafdir_id hes'']

theorem tree (h : Pruned X now R id id') (hT : Tree (Desc Dirent.name) X k id) :
    Tree (Desc Dirent.name) X k id' := by
  induction h generalizing k with
  | @mk R id id' es es' hes hes' hdesc hgone hkept hcut _ ih =>
    obtain ⟨k, rfl⟩ := hT.exists_succ
    obtain ⟨es₀, hes₀, -, hsub⟩ := hT
    obtain rfl := mem_unique hes hes₀
    refine ⟨es', hes', hdesc, fun d' hd' hdir => ?_⟩
    have hfind := (findDirent_some (desc_iff.1 hdesc).2).2 ⟨hd', rfl⟩
    have hn : [d'.name] ∉ R := by
      intro hn
      rw [hgone _ hn] at hfind
      cases hfind
    by_cases hafter : after d'.name R = []
    · rw [hkept _ hn hafter] at hfind
      exact hsub d' (mem_of_findDirent hfind).1 hdir
    · obtain ⟨d, i, hd, hdir', hcut'⟩ := hcut _ hn hafter
      exact ih _ d d' hn hafter hd hfind (hsub d (mem_of_findDirent hd).1 hdir')

theorem of_le (h : Pruned Y now R id id') (hle : X ≤ Y) {P Q : List (Dirent Id) → Prop}
    (hT : Tree P X k id) (hT' : Tree Q X k' id') : Pruned X now R id id' := by
  induction h generalizing k k' with
  | @mk R id id' es es' hes hes' hdesc hgone hkept hcut _ ih =>
    obtain ⟨es₀, hes₀, -⟩ := hT.readable
    obtain ⟨es₁, hes₁, -⟩ := hT'.readable
    obtain rfl := mem_unique hes (FsStore.getSeafdir_mono hle hes₀)
    obtain rfl := mem_unique hes' (FsStore.getSeafdir_mono hle hes₁)
    refine .mk hes₀ hes₁ hdesc hgone hkept hcut fun n d d' hn hafter hd hd' => ?_
    obtain ⟨d₁, i, hd₁, hdir, hcut'⟩ := hcut n hn hafter
    obtain rfl := mem_unique hd hd₁
    obtain rfl := mem_unique hd' hcut'
    obtain ⟨j, -, hsub⟩ := hT.subdir (subdir_some.2 ⟨es, d, hes₀, hd, hdir, rfl⟩)
    obtain ⟨j', -, hsub'⟩ :=
      hT'.subdir (subdir_some.2 ⟨es', _, hes₁, hd', by simpa using hdir, rfl⟩)
    exact ih n d _ hn hafter hd hd' hsub hsub'

theorem entryAt_gone (h : Pruned X now R id id') {t : List Name} (ht : t ∈ R) (hne : t ≠ [])
    (hpath : t <+: path) : entryAt X id' path = none := by
  induction h generalizing t path with
  | @mk R id id' es es' hes hes' hdesc hgone hkept hcut _ ih =>
    obtain ⟨n, t, rfl⟩ := exists_cons_of_ne_nil hne
    obtain ⟨path, rfl⟩ : ∃ rest, path = n :: rest := by
      obtain ⟨s, rfl⟩ := hpath
      exact ⟨t ++ s, rfl⟩
    have hrest := (cons_prefix_cons.1 hpath).2
    have hnone : findDirent n es' = none → entryAt X id' (n :: path) = none := by
      intro hnone
      cases path with
      | nil => simp [entryAt, hes', hnone]
      | cons m path => simp [entryAt, hes', hnone]
    by_cases hn : [n] ∈ R
    · exact hnone (hgone n hn)
    · have hafter : after n R ≠ [] := ne_nil_of_mem (mem_after.2 ht)
      obtain ⟨d, i, hd, hdir, hd'⟩ := hcut n hn hafter
      have htne : t ≠ [] := by
        rintro rfl
        exact hn ht
      have hpne : path ≠ [] := by
        rintro rfl
        exact htne (prefix_nil.1 hrest)
      rw [entryAt_cons_of_dir hes' hd' hpne, Dirent.withId_isDir, stamp_isDir, if_pos hdir]
      exact ih n d _ hn hafter hd hd' (mem_after.2 ht) htne hrest

theorem entryAt_left (h : Pruned X now R id id') (hpath : ∀ t ∈ R, ¬ t <+: path) :
    AsBefore (∃ t ∈ R, path <+: t) (entryAt X id path) (entryAt X id' path) := by
  induction h generalizing path with
  | @mk R id id' es es' hes hes' hdesc hgone hkept hcut _ ih =>
    cases path with
    | nil => exact .inl rfl
    | cons n path =>
      have hn : [n] ∉ R := fun hn => hpath _ hn ⟨path, rfl⟩
      by_cases hafter : after n R = []
      · exact .inl (entryAt_congr hes hes' (hkept n hn hafter) path)
      · obtain ⟨d, i, hd, hdir, hd'⟩ := hcut n hn hafter
        obtain ⟨t, ht⟩ := exists_mem_of_ne_nil _ hafter
        by_cases hpne : path = []
        · subst hpne
          obtain ⟨s, hs⟩ := stamp_withId now (after n R) d i
          refine .inr ⟨⟨n :: t, mem_after.1 ht, ⟨t, rfl⟩⟩, i, s, ?_⟩
          simp [entryAt, hes, hes', hd, hd', hs]
        · have hbelow : ∀ t ∈ after n R, ¬ t <+: path := fun t ht hle =>
            hpath _ (mem_after.1 ht) (cons_prefix_cons.2 ⟨rfl, hle⟩)
          rw [entryAt_cons_of_dir hes' hd' hpne, entryAt_cons_of_dir hes hd hpne,
            Dirent.withId_isDir, stamp_isDir, if_pos hdir, if_pos hdir]
          rcases ih n d _ hn hafter hd hd' hbelow with hsame | ⟨⟨t, ht, hle⟩, htouch⟩
          · exact .inl hsame
          · exact .inr ⟨⟨n :: t, mem_after.1 ht, cons_prefix_cons.2 ⟨rfl, hle⟩⟩, htouch⟩

end Pruned

end CloudFile
