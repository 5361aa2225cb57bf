/-
  What a successful restore leaves: the file in the parent directory, and the other files where
  they were, unless the name is that of a directory. Then the loop stops at the first numbered
  name that is no directory, and a file of that name is overwritten.
-/
import CloudFile.Revert.Parent
import CloudFile.Write.Edited

namespace CloudFile

open SortedWalk GoPath GLibPath List

variable {Id : Type}

namespace Server

/-- If the name is that of a directory: it has an extension, or the file is there under a number,
    and the first numbered name that is no directory is that of no other file. -/
structure NameClear (es : List (Dirent Id)) (name : Name) (id : Id) : Prop where
  extension : DirAt es name → '.' ∈ name ∨ ∃ n, Variant name n ∧ FileAt es n id
  free : DirAt es name → ∀ i, (∀ m, 1 ≤ m → m ≤ i → DirAt es (candidate name m)) →
    ∀ d ∈ es, d.name = candidate name (i + 1) → d.isReg = true → d.id = id

/-! ## The candidates -/

section Names

variable {es : List (Dirent Id)} {name : Name} {id : Id} {j : ℕ} {p : Place}

section

variable (hu : UniqueKeys Dirent.name es)
include hu

theorem not_dirAt_of_isReg {d : Dirent Id} (hd : d ∈ es)
    (hreg : d.isReg = true) : ¬ DirAt es d.name := by
  rintro ⟨d', hd', hname, hdir⟩
  obtain rfl := Option.mem_unique ((findDirent_some hu).2 ⟨hd', hname⟩)
    ((findDirent_some hu).2 ⟨hd, rfl⟩)
  rw [Dirent.isDir_of_isReg hreg] at hdir
  cases hdir

theorem EndsAt.not_dirAt {n : Name} (h : EndsAt es id n p) :
    ¬ DirAt es n := by
  cases h with
  | skipped hfile =>
    obtain ⟨d, hd, rfl, hreg, -⟩ := hfile
    exact not_dirAt_of_isReg hu hd hreg
  | overwrite hd hname hreg =>
    subst hname
    exact not_dirAt_of_isReg hu hd hreg
  | insert hnone =>
    rintro ⟨d, hd, hname, hdir⟩
    rw [(hnone d hd hname).2] at hdir
    cases hdir

theorem nameClear_iff
    (hbefore : ∀ m < j, DirAt es (candidate name m)) (hend : EndsAt es id (candidate name j) p) :
    NameClear es name id ↔ j = 0 ∨
      ('.' ∈ name ∨ ∃ n, Variant name n ∧ FileAt es n id) ∧ ∀ n, p ≠ .overwrite n := by
  cases j with
  | zero =>
    have hnot : ¬ DirAt es name := hend.not_dirAt hu
    exact iff_of_true ⟨fun h => absurd h hnot, fun h => absurd h hnot⟩ (.inl rfl)
  | succ j =>
    have hdir : DirAt es name := hbefore 0 (Nat.succ_pos j)
    rw [or_iff_right (Nat.succ_ne_zero j)]
    constructor
    · intro h
      refine ⟨h.extension hdir, ?_⟩
      rintro n rfl
      cases hend with
      | overwrite hd hname hreg hne =>
        exact hne (h.free hdir j (fun m _ hm => hbefore m (Nat.lt_succ_of_le hm)) _ hd hname hreg)
    · rintro ⟨hext, hover⟩
      refine ⟨fun _ => hext, fun _ i hi d hd hname hreg => ?_⟩
      have hnot := hname ▸ not_dirAt_of_isReg hu hd hreg
      -- the loop has gone past the names before the last, and ends at it
      obtain rfl : i = j := by
        by_contra hne
        rcases Nat.lt_or_gt_of_ne hne with hlt | hgt
        · exact hnot (hbefore (i + 1) (by omega))
        · exact hend.not_dirAt hu (hi (j + 1) (by omega) hgt)
      cases hend with
      | skipped hfile =>
        obtain ⟨d', hd', hname', -, hid⟩ := hfile
        rw [← hid]
        congr 1
        exact Option.mem_unique ((findDirent_some hu).2 ⟨hd, hname⟩)
          ((findDirent_some hu).2 ⟨hd', hname'⟩)
      | overwrite => exact absurd rfl (hover _)
      | insert hnone =>
        rw [(hnone d hd hname).1] at hreg
        cases hreg

end

theorem variant_of_candidate (hext : j = 0 ∨ '.' ∈ name) :
    candidate name j = name ∨ Variant name (candidate name j) := by
  cases j with
  | zero => exact .inl rfl
  | succ j =>
    rw [candidate, renamed_of_dot (hext.resolve_left (Nat.succ_ne_zero j))]
    exact .inr (.number _)

theorem posted_variant {x : Name} (hx : genUniqueName (candidate name j) es = some x)
    (hext : j = 0 ∨ '.' ∈ name) : x = name ∨ Variant name x := by
  have hcand := variant_of_candidate hext
  rcases genUniqueName_given hx with rfl | ⟨i, rfl⟩
  · exact hcand
  · rcases hcand with heq | hvar
    · rw [heq]
      exact .inr (.number i)
    · exact .inr (.again i hvar)

theorem not_posted_variant {x : Name} (hx : genUniqueName (candidate name (j + 1)) es = some x)
    (hdot : '.' ∉ name) : ¬ Variant name x := by
  rcases genUniqueName_given hx with rfl | ⟨i, rfl⟩
  · exact not_variant_renamed hdot _
  · exact not_variant_numbered hdot _ i

end Names

/-! ## The call -/

variable [ObjectId Id] [DecidableEq Id]

namespace RevertCall

def parentDir (c : RevertCall Id) : Name := gPathGetDirname (getCanonicalPath c.filePath)

def parent (c : RevertCall Id) : List Name := fields c.parentDir

def name (c : RevertCall Id) : Name := gPathGetBasename (getCanonicalPath c.filePath)

end RevertCall

/-- The file of the old commit is in the parent directory, and every other file stays. -/
structure Restored (st : FsStore Id) (c : RevertCall Id) (old : Dirent Id) (X : FsStore Id)
    (f : Id) : Prop where
  file : ∃ n d, (n = c.name ∨ Variant c.name n) ∧ entryAt X f (c.parent ++ [n]) = some d ∧
    d.isReg = true ∧ d.id = old.id
  kept : ∀ q d, entryAt st c.headRoot q = some d → d.isReg = true → q ≠ c.parent ++ [c.name] →
    ∃ d', entryAt X f q = some d' ∧ d'.isReg = true ∧ d'.id = d.id

def restoredDent (old : Dirent Id) (n : Name) : Dirent Id :=
  .new stdFileMode old.id n old.mtime old.modifier old.size

omit [ObjectId Id] [DecidableEq Id] in
theorem restoredDent_isReg (old : Dirent Id) (n : Name) : (restoredDent old n).isReg = true := by
  simp only [restoredDent, Dirent.isReg, Dirent.new_mode]
  decide

/-- What is written where the loop ends. -/
def Placed (e : RevertEnv Id) (st₁ : FsStore Id) (r₁ : Id) (parentDir : Name) (old : Dirent Id)
    (X : FsStore Id) (f : Id) : Option Place → Prop
  | some (.overwrite n) =>
    doPutFile e.writeObj e.now st₁ r₁ parentDir (restoredDent old n) = some ⟨f, X, ()⟩
  | some (.insert n) =>
    doPostFileReplace e.writeObj e.now st₁ r₁ parentDir false (restoredDent old n) =
      some ⟨f, X, ()⟩
  | _ => X = st₁ ∧ f = r₁

omit [DecidableEq Id] in
theorem written_of_ok {w v : Option (Written Id Unit)} {err : RevertErr}
    (h : (if w.isSome then Except.ok w else .error err) = .ok v) : w.isSome = true ∧ w = v := by
  split at h
  next hw => exact ⟨hw, Except.ok.inj h⟩
  next => cases h

theorem revertFile_ok {e : RevertEnv Id} {st X : FsStore Id} {c : RevertCall Id} {oldRoot f : Id}
    (hold : c.oldRoot = some oldRoot) (h : revertFile e st c = .ok (X, f)) :
    ∃ old st₁ r₁ dir, getDirentByPath st oldRoot c.parentDir c.name = .ok old ∧
      parentReady e st c.headRoot c.parentDir = .ok (st₁, r₁) ∧
      getSeafdirByPath st₁ r₁ c.parentDir = .ok dir ∧
      Placed e st₁ r₁ c.parentDir old X f (place dir.entries old) := by
  simp only [revertFile, hold] at h
  split at h
  · cases h
  split at h
  · cases h
  next old hget =>
    split at h
    · cases h
    split at h
    · cases h
    next st₁ r₁ hready =>
      simp only [revertFileToParentDir] at h
      cases hdir : getSeafdirByPath st₁ r₁ (gPathGetDirname (getCanonicalPath c.filePath)) with
      | error err =>
        rw [hdir] at h
        cases h
      | ok dir =>
        refine ⟨old, st₁, r₁, dir, hget, hready, hdir, ?_⟩
        rw [hdir] at h
        simp only at h
        rcases hplace : place dir.entries old with _ | _ | n | n
        all_goals rw [hplace] at h
        · cases h
          exact ⟨rfl, rfl⟩
        · cases h
          exact ⟨rfl, rfl⟩
        all_goals
          split at h
          · cases h
          next hw =>
            obtain ⟨hsome, hnone⟩ := written_of_ok hw
            rw [hnone] at hsome
            cases hsome
          next hw =>
            split at h
            · cases h
              exact (written_of_ok hw).2
            · cases h

/-! ### The text of the parent directory -/

theorem getLast?_stripSlash {p : Name} (h : (stripSlash p).getLast? = some '/') :
    p.getLast? = some '/' := by
  unfold stripSlash at h
  split at h
  · cases p with
    | nil => cases h
    | cons c p =>
      rw [tail_cons] at h
      rw [getLast?_cons, h]
      rfl
  · exact h

omit [ObjectId Id] [DecidableEq Id] in
theorem RevertCall.parentDir_clean (c : RevertCall Id) :
    '\\' ∉ stripSlash c.parentDir ∧ (stripSlash c.parentDir).getLast? ≠ some '/' := by
  have hcanon : '\\' ∉ getCanonicalPath c.filePath := by
    intro hmem
    obtain ⟨ch, -, hch⟩ := mem_map.1 ((List.rdropWhile_prefix _ _).subset hmem)
    split at hch
    · cases hch
    · exact absurd hch ‹_›
  unfold RevertCall.parentDir gPathGetDirname
  generalize getCanonicalPath c.filePath = canon at hcanon
  split
  · decide
  split
  · decide
  · constructor
    · intro hmem
      have hsub : '\\' ∈ (upToSlash canon).rdropWhile (· = '/') := by
        unfold stripSlash at hmem
        split at hmem
        · exact mem_of_mem_tail hmem
        · exact hmem
      exact hcanon ((List.rdropWhile_prefix _ _).subset ((List.rdropWhile_prefix _ _).subset hsub))
    · intro hlast
      have hslash := getLast?_stripSlash hlast
      have hne : (upToSlash canon).rdropWhile (· = '/') ≠ [] := ‹_›
      rw [getLast?_eq_some_getLast hne] at hslash
      have hnot := rdropWhile_last_not (· = '/') (upToSlash canon) hne
      simp [Option.some.inj hslash] at hnot

/-! ### What is written -/

section Written

variable {e : RevertEnv Id} {st₁ X : FsStore Id} {r₁ f i : Id} {parentDir n : Name}
  {es : List (Dirent Id)} {old : Dirent Id} {k : ℕ} (hT : Tree (UniqueNames (· ≠ [])) st₁ k r₁)
  (hi : resolve st₁ r₁ (fields parentDir) = some i)
include hT hi

theorem rewritten_at {α : Type} {edit : List (Dirent Id) → Option (List (Dirent Id) × α)}
    {now : ℕ → ℤ} {a : α} (hle : st₁ ≤ X)
    (h : Rewritten edit now st₁ X r₁ (toPathNames (stripSlash parentDir)) f a) :
    toPathNames (stripSlash parentDir) = fields parentDir ∧
      Resolvable X r₁ (fields parentDir) ∧ Rewritten edit now X X r₁ (fields parentDir) f a := by
  have hwithin := h.within hle le_rfl
  obtain ⟨_, _, hleads, -⟩ := hwithin.entryAt_edited
  have hres : Resolvable X r₁ (fields parentDir) := by
    rw [Resolvable, resolve_mono hle hi]
    rfl
  have hnames := toPathNames_eq_fields (hT.store_mono hle) hres hleads
  rw [hnames] at hwithin
  exact ⟨hnames, hres, hwithin⟩

theorem post_spec (hes : st₁.getSeafdir i = some es)
    (h : doPostFileReplace e.writeObj e.now st₁ r₁ parentDir false (restoredDent old n) =
      some ⟨f, X, ()⟩) :
    toPathNames (stripSlash parentDir) = fields parentDir ∧ ∃ x, genUniqueName n es = some x ∧
      (∃ d, entryAt X f (fields parentDir ++ [x]) = some d ∧ d.isReg = true ∧ d.id = old.id) ∧
      (∀ m, m ≠ x → entryAt X f (fields parentDir ++ [m]) = findDirent m es) ∧
      ∀ q d, entryAt st₁ r₁ q = some d → d.isReg = true → entryAt X f q = some d := by
  obtain ⟨hle, hrew⟩ := rewriteRecursive_spec h
  have hposted : Rewritten (posted (restoredDent old n)) _ _ _ _ _ _ () := hrew
  obtain ⟨hnames, hres, hrew⟩ := rewritten_at hT hi hle hposted
  obtain ⟨es₀, x, hleads, hx, hnew, hother, hfiles⟩ := hrew.posted_spec hres
  have hi' := resolve_mono hle hi
  have hes' := FsStore.getSeafdir_mono hle hes
  obtain rfl := Option.mem_unique hes' ((leadsTo_of_resolve hi').symm.trans hleads)
  refine ⟨hnames, x, hx, ⟨_, hnew, ?_, Dirent.named_id ..⟩, fun m hm => ?_, fun q d hq hreg => ?_⟩
  · rw [Dirent.named_isReg, Dirent.withFileMode_isReg]
    exact restoredDent_isReg old n
  · rw [hother m [] hm, entryAt_concat, hi']
    simp [hes']
  · exact hfiles q d ((hT.entryAt_mono hle q).trans hq) hreg

theorem put_spec (hes : st₁.getSeafdir i = some es) {d₀ : Dirent Id} (hd₀ : d₀ ∈ es)
    (hname : d₀.name = n) (hreg₀ : d₀.isReg = true)
    (h : doPutFile e.writeObj e.now st₁ r₁ parentDir (restoredDent old n) = some ⟨f, X, ()⟩) :
    entryAt X f (fields parentDir ++ [n]) = some (restoredDent old n) ∧
      ∀ q d, entryAt st₁ r₁ q = some d → d.isReg = true → q ≠ fields parentDir ++ [n] →
        entryAt X f q = some d := by
  obtain ⟨hle, hrew⟩ := rewriteRecursive_spec h
  obtain ⟨-, hres, hrew⟩ := rewritten_at hT hi hle hrew
  obtain ⟨k', -, hTi⟩ := hT.resolve hi
  obtain ⟨es', hes', hnamed⟩ := hTi.readable
  obtain rfl := Option.mem_unique hes hes'
  have hfind := (findDirent_some hnamed.1).2 ⟨hd₀, hname⟩
  have hleads : leadsTo X r₁ (fields parentDir) = some es :=
    (leadsTo_of_resolve (resolve_mono hle hi)).trans (FsStore.getSeafdir_mono hle hes)
  have hput : ∀ m, findDirent m (replaceEntry (restoredDent old n) es) =
      (findDirent m es).map fun d => if m = n then restoredDent old n else d :=
    findDirent_replaceEntry es
  obtain ⟨es₀, es₁, hes₀, he, hes₁, hentry⟩ := hrew.entryAt_edited
  obtain rfl := Option.mem_unique hleads hes₀
  cases he
  constructor
  · rw [hentry, if_pos hres, hput, hfind]
    simp
  · intro q d hq hreg hne
    refine hrew.file_kept hres hleads hes₁ (fun d hd => ?_) (fun m hm => ?_)
      ((hT.entryAt_mono hle q).trans hq) hreg hne
    · obtain rfl := Option.mem_unique hfind hd
      exact Dirent.isDir_of_isReg hreg₀
    · rw [hput]
      simp [hm]

end Written

/-! ## The main result -/

section Main

variable {e : RevertEnv Id} {st X : FsStore Id} {c : RevertCall Id} {f oldRoot : Id}
  {es : List (Dirent Id)} {old : Dirent Id} {j : ℕ} {p : Place} {k : ℕ}

omit [ObjectId Id] [DecidableEq Id] in
theorem fileAt_iff (hu : UniqueKeys Dirent.name es) {n : Name} {id : Id} :
    FileAt es n id ↔ ∃ d, findDirent n es = some d ∧ d.isReg = true ∧ d.id = id := by
  simp only [findDirent_some hu, FileAt, and_assoc]

section Named

variable {x : Name} (hu : UniqueKeys Dirent.name es)
  (hbefore : ∀ m < j, DirAt es (candidate c.name m))
  (hnew : ∃ d, entryAt X f (c.parent ++ [x]) = some d ∧ d.isReg = true ∧ d.id = old.id)
  (hother : ∀ m, m ≠ x → entryAt X f (c.parent ++ [m]) = findDirent m es)
  (hkept : ∀ q d, entryAt st c.headRoot q = some d → d.isReg = true → entryAt X f q = some d)

include hu hbefore hnew hother hkept

theorem restored_iff_of_named (hx : ¬ DirAt es x)
    (hvar : j = 0 ∨ '.' ∈ c.name → x = c.name ∨ Variant c.name x)
    (hnot : j ≠ 0 → '.' ∉ c.name → ¬ Variant c.name x) :
    Restored st c old X f ↔ j = 0 ∨ '.' ∈ c.name ∨ ∃ n, Variant c.name n ∧ FileAt es n old.id := by
  constructor
  · intro h
    by_contra hno
    simp only [not_or] at hno
    obtain ⟨hj, hdot, hnone⟩ := hno
    have hdir : DirAt es c.name := hbefore 0 (Nat.pos_of_ne_zero hj)
    obtain ⟨n, d, hn, hd, hreg, hid⟩ := h.file
    have hne : n ≠ x := by
      rintro rfl
      rcases hn with rfl | hvariant
      · exact hx hdir
      · exact hnot hj hdot hvariant
    rw [hother n hne] at hd
    rcases hn with rfl | hvariant
    · obtain ⟨hmem, hname⟩ := mem_of_findDirent hd
      exact absurd hdir (hname ▸ not_dirAt_of_isReg hu hmem hreg)
    · exact hnone ⟨n, hvariant, (fileAt_iff hu).2 ⟨d, hd, hreg, hid⟩⟩
  · intro h
    refine ⟨?_, fun q d hq hreg _ => ⟨d, hkept q d hq hreg, hreg, rfl⟩⟩
    rw [← or_assoc] at h
    obtain ⟨d, hd, hreg, hid⟩ := hnew
    rcases h with hext | ⟨n, hvariant, hat⟩
    · exact ⟨x, d, hvar hext, hd, hreg, hid⟩
    · by_cases hne : n = x
      · subst hne
        exact ⟨n, d, .inr hvariant, hd, hreg, hid⟩
      · obtain ⟨d, hd, hreg, hid⟩ := (fileAt_iff hu).1 hat
        exact ⟨n, d, .inr hvariant, (hother n hne).trans hd, hreg, hid⟩

theorem restored_insert_iff (hx : genUniqueName (candidate c.name j) es = some x) :
    Restored st c old X f ↔ j = 0 ∨ '.' ∈ c.name ∨ ∃ n, Variant c.name n ∧ FileAt es n old.id := by
  refine restored_iff_of_named hu hbefore hnew hother hkept ?_ (posted_variant hx) fun hj hdot => ?_
  · rintro ⟨d, hd, hname, -⟩
    exact nameExists_eq_false.1 (genUniqueName_free hx) d hd hname
  · obtain ⟨j, rfl⟩ := Nat.exists_eq_succ_of_ne_zero hj
    exact not_posted_variant hx hdot

end Named

theorem restored_iff_of_placed {i : Id} (hT : Tree (UniqueNames (· ≠ [])) st k c.headRoot)
    (hi : resolve st c.headRoot c.parent = some i) (hes : st.getSeafdir i = some es)
    (hname : old.name = c.name)
    (h : Placed e st c.headRoot c.parentDir old X f (place es old)) :
    Restored st c old X f ↔ NameClear es c.name old.id := by
  obtain ⟨k', -, hTi⟩ := hT.resolve hi
  obtain ⟨es', hes', hnamed⟩ := hTi.readable
  obtain rfl := Option.mem_unique hes hes'
  have hu := hnamed.1
  obtain ⟨p, j, hp, hbefore, hend⟩ := place_spec es old
  rw [hname] at hbefore hend
  rw [hp] at h
  rw [nameClear_iff hu hbefore hend]
  cases hend with
  | skipped hfile =>
    obtain ⟨rfl, rfl⟩ := h
    have hentry : ∀ m, entryAt X c.headRoot (c.parent ++ [m]) = findDirent m es := fun m => by
      rw [entryAt_concat, hi]
      simp [hes]
    obtain ⟨d, hd, hreg, hid⟩ := (fileAt_iff hu).1 hfile
    have hnot : j ≠ 0 → '.' ∉ c.name → ¬ Variant c.name (candidate c.name j) := by
      intro hj hdot
      obtain ⟨j, rfl⟩ := Nat.exists_eq_succ_of_ne_zero hj
      exact not_variant_renamed hdot _
    simpa using restored_iff_of_named hu hbefore ⟨d, (hentry _).trans hd, hreg, hid⟩
      (fun m _ => hentry m) (fun _ _ hq _ => hq) ((EndsAt.skipped hfile).not_dirAt hu)
      variant_of_candidate hnot
  | insert hnone =>
    obtain ⟨-, x, hx, hnew, hother, hkept⟩ := post_spec hT hi hes h
    simpa using restored_insert_iff hu hbefore hnew hother hkept hx
  | @overwrite d hd hdname hreg hne =>
    obtain ⟨hnew, hkept⟩ := put_spec hT hi hes hd hdname hreg h
    cases j with
    | zero =>
      refine iff_of_true ⟨⟨c.name, _, .inl rfl, hnew, restoredDent_isReg .., rfl⟩, ?_⟩ (.inl rfl)
      exact fun q d hq hqreg hqne => ⟨d, hkept q d hq hqreg hqne, hqreg, rfl⟩
    | succ j =>
      refine iff_of_false (fun hrest => ?_) (by simp)
      -- the file at the candidate is no longer there
      have hold : entryAt st c.headRoot (c.parent ++ [candidate c.name (j + 1)]) = some d := by
        rw [entryAt_concat, hi]
        simpa [hes] using (findDirent_some hu).2 ⟨hd, hdname⟩
      have hneq : c.parent ++ [candidate c.name (j + 1)] ≠ c.parent ++ [c.name] := by
        intro heq
        have hcand : candidate c.name (j + 1) = candidate c.name 0 :=
          (List.cons.inj (append_cancel_left heq)).1
        exact absurd (candidate_injective c.name hcand) (Nat.succ_ne_zero j)
      obtain ⟨d', hd', -, hid⟩ := hrest.kept _ d hold hreg hneq
      rw [show entryAt X f (c.parent ++ [candidate c.name (j + 1)]) = _ from hnew] at hd'
      obtain rfl := Option.some.inj hd'
      exact hne hid.symm

theorem restored_of_made {st₁ : FsStore Id} {r₁ i : Id} (hT₁ : Tree (UniqueNames (· ≠ [])) st₁ k r₁)
    (hi : resolve st₁ r₁ c.parent = some i) (hes : st₁.getSeafdir i = some es)
    (hnone : ∀ d ∈ es, d.isReg = false)
    (hclean : toPathNames (stripSlash c.parentDir) = fields c.parentDir → es = [] ∧
      ∀ q d, entryAt st c.headRoot q = some d → d.isReg = true → entryAt st₁ r₁ q = some d)
    (hname : old.name = c.name) (h : Placed e st₁ r₁ c.parentDir old X f (place es old)) :
    Restored st c old X f := by
  obtain ⟨p, j, hp, hbefore, hend⟩ := place_spec es old
  rw [hname] at hbefore hend
  rw [hp] at h
  cases hend with
  | skipped hfile =>
    obtain ⟨d, hd, -, hreg, -⟩ := hfile
    rw [hnone d hd] at hreg
    cases hreg
  | overwrite hd _ hreg _ =>
    rw [hnone _ hd] at hreg
    cases hreg
  | insert =>
    obtain ⟨hnames, x, hx, hnew, hother, hkept⟩ := post_spec hT₁ hi hes h
    obtain ⟨rfl, hfiles⟩ := hclean hnames
    refine (restored_insert_iff uniqueKeys_nil hbefore hnew hother (fun q d hq hreg =>
      hkept q d (hfiles q d hq hreg) hreg) hx).2 (.inl ?_)
    by_contra hj
    obtain ⟨d, hd, -⟩ := hbefore 0 (Nat.pos_of_ne_zero hj)
    cases hd

/-- **A restored file.**  A call that succeeds restores the file and keeps every other one exactly
    if the names it tries are clear in the parent directory of the head. -/
theorem revertFile_restored_iff {l : ℕ} (hold : c.oldRoot = some oldRoot)
    (hhead : Tree (UniqueNames (· ≠ [])) st k c.headRoot)
    (htree : Tree (UniqueKeys Dirent.name) st l oldRoot)
    (h : revertFile e st c = .ok (X, f)) :
    ∃ old, entryAt st oldRoot (c.parent ++ [c.name]) = some old ∧
      (Restored st c old X f ↔ ∀ dir, getSeafdirByPath st c.headRoot c.parentDir = .ok dir →
        NameClear dir.entries c.name old.id) := by
  obtain ⟨old, st₁, r₁, dir, hget, hready, hdir, hplaced⟩ := revertFile_ok hold h
  obtain ⟨holdEntry, hname⟩ : entryAt st oldRoot (c.parent ++ [c.name]) = some old ∧
      old.name = c.name := by
    unfold getDirentByPath at hget
    split at hget
    · cases hget
    next D hD =>
      split at hget
      · cases hget
      next d hd =>
        obtain rfl := Except.ok.inj hget
        obtain ⟨i, hi, hseaf⟩ := (getSeafdirByPath_ok htree _ D).1 hD
        refine ⟨?_, (mem_of_findDirent hd).2⟩
        rw [entryAt_concat, RevertCall.parent, hi]
        simpa [(seafdir_some.1 hseaf).1] using hd
  refine ⟨old, holdEntry, ?_⟩
  obtain ⟨hback, hlast⟩ := c.parentDir_clean
  obtain ⟨-, ⟨k₁, hT₁⟩, hcase⟩ := parentReady_spec hhead hback hlast hready hdir
  obtain ⟨i, hi, hseaf⟩ := (getSeafdirByPath_ok (hT₁.imp fun _ => And.left) _ dir).1 hdir
  have hes := (seafdir_some.1 hseaf).1
  rcases hcase with ⟨hexists, rfl, rfl⟩ | ⟨hmissing, hnone, hclean⟩
  · rw [restored_iff_of_placed hT₁ hi hes hname hplaced]
    refine ⟨fun hclear dir' hdir' => ?_, fun hclear => hclear dir hexists⟩
    obtain rfl : dir = dir' := Except.ok.inj (hexists.symm.trans hdir')
    exact hclear
  · exact iff_of_true (restored_of_made hT₁ hi hes hnone hclean hname hplaced)
      fun dir' hdir' => absurd hdir' (hmissing dir')

end Main

/-! ### The name of a directory -/

def fileEntry (name : String) (id : ℕ) : Dirent ℕ := .new 0o100644 id name.toList 0 ['u'] 5

def clearEntries : List (Dirent ℕ) := [.new sIfdir emptySha1 "a.txt".toList 0 [] (-1)]

def takenEntries : List (Dirent ℕ) := fileEntry "a (1).txt" 7 :: clearEntries

def restoreStore : FsStore ℕ :=
  ((FsStore.empty.insert (.dir clearEntries) (by simp [FsObj.Nonempty, clearEntries])).insert
    (.dir takenEntries) (by simp [FsObj.Nonempty, takenEntries])).insert
    (.dir [fileEntry "a.txt" 5]) (by simp [FsObj.Nonempty])

/-- The file `a.txt` of the old commit, restored to a head with these entries. -/
def restoreTo (es : List (Dirent ℕ)) : RevertCall ℕ :=
  ⟨"/a.txt".toList, seafDirId es, some (seafDirId [fileEntry "a.txt" 5])⟩

def quietEnv : RevertEnv ℕ :=
  ⟨fun _ => true, fun _ => 0, fun _ _ => 0, fun _ => 0, true, true, true, true, true⟩

theorem tree_of_flat {P : List (Dirent ℕ) → Prop} (es : List (Dirent ℕ)) (hnil : P []) (hes : P es)
    (hget : restoreStore.getSeafdir (seafDirId es) = some es)
    (hdirs : ∀ d ∈ es, d.isDir = true → d.id = emptySha1) :
    Tree P restoreStore 2 (seafDirId es) := by
  refine ⟨es, hget, hes, fun d hd hdir => ?_⟩
  rw [hdirs d hd hdir]
  exact ⟨[], FsStore.getSeafdir_empty, hnil, by simp⟩

omit [DecidableEq Id] in
theorem revertFile_ok_of_toOption {β : Type} {r : Except RevertErr (FsStore Id × Id)}
    {g : FsStore Id × Id → β}
    {b : β} (h : r.toOption.map g = some b) : ∃ X f, r = .ok (X, f) ∧ g (X, f) = b := by
  cases r with
  | error err => cases h
  | ok r => exact ⟨r.1, r.2, rfl, Option.some.inj h⟩

theorem restored_beside_directory :
    ∃ old X f, revertFile quietEnv restoreStore (restoreTo clearEntries) = .ok (X, f) ∧
      Restored restoreStore (restoreTo clearEntries) old X f := by
  obtain ⟨X, f, hok, -⟩ := revertFile_ok_of_toOption (g := fun _ => true) (b := true)
    (r := revertFile quietEnv restoreStore (restoreTo clearEntries)) (by decide +kernel)
  obtain ⟨old, -, hiff⟩ := revertFile_restored_iff (k := 2) (l := 2) rfl
    (tree_of_flat clearEntries uniqueNames_nil (by decide +kernel) (by decide +kernel)
      (by decide +kernel))
    (tree_of_flat [fileEntry "a.txt" 5] uniqueKeys_nil (by decide +kernel) (by decide +kernel)
      (by decide +kernel)) hok
  refine ⟨old, X, f, hok, hiff.2 fun dir hdir => ?_⟩
  have hentries : dir.entries = clearEntries := by
    have hcomputed : (getSeafdirByPath restoreStore (restoreTo clearEntries).headRoot
      (restoreTo clearEntries).parentDir).toOption.map SeafDir.entries = some clearEntries := by
      decide +kernel
    rw [hdir] at hcomputed
    exact Option.some.inj hcomputed
  rw [hentries]
  refine ⟨fun _ => .inl (by decide +kernel), fun _ i _ d hd _ hreg => ?_⟩
  obtain rfl := mem_singleton.1 hd
  exact absurd hreg (by decide +kernel)

/-- **Another file is overwritten**: `a.txt` is a directory, and `a (1).txt` loses its content. -/
theorem restore_overwrites_other :
    ∃ old X f, Tree (UniqueNames (· ≠ [])) restoreStore 2 (restoreTo takenEntries).headRoot ∧
      entryAt restoreStore (seafDirId [fileEntry "a.txt" 5]) ["a.txt".toList] = some old ∧
      revertFile quietEnv restoreStore (restoreTo takenEntries) = .ok (X, f) ∧
      ¬ Restored restoreStore (restoreTo takenEntries) old X f := by
  obtain ⟨X, f, hok, hlost⟩ := revertFile_ok_of_toOption
    (g := fun t => (entryAt t.1 t.2 ["a (1).txt".toList]).map Dirent.id) (b := some 5)
    (r := revertFile quietEnv restoreStore (restoreTo takenEntries)) (by decide +kernel)
  refine ⟨fileEntry "a.txt" 5, X, f,
    tree_of_flat takenEntries uniqueNames_nil (by decide +kernel) (by decide +kernel)
      (by decide +kernel), by decide +kernel, hok, fun h => ?_⟩
  obtain ⟨d', hd', -, hid⟩ := h.kept ["a (1).txt".toList] (fileEntry "a (1).txt" 7)
    (by decide +kernel) (by decide +kernel) (by decide +kernel)
  rw [hd'] at hlost
  have hseven := (Option.some.inj hlost).symm.trans hid
  exact absurd hseven (by decide +kernel)

end Server

end CloudFile
