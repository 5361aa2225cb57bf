/-
  What a rewrite does to the paths of a tree, for any edit of the last directory.

  The old and the new tree are looked up in one store that holds both.  A path that parts from the
  rewritten one leads to what it led to before.  Directories on the path keep their modes and get
  new ids.  What is below the path is decided by the edited entries.
-/
import CloudFile.Fs.PathResolution
import CloudFile.Fs.TreeWalk
import CloudFile.Write.Rewrite

namespace CloudFile

open List

variable {Id : Type} [ObjectId Id] [DecidableEq Id]

/-- The directory that a path of names leads to, whatever the types of the entries on it. -/
def leadsTo (st : FsStore Id) : Id → List Name → Option (List (Dirent Id))
  | id, [] => st.getSeafdir id
  | id, n :: path => st.getSeafdir id >>= findDirent n >>= fun d => leadsTo st d.id path

section Lookup

variable {st X : FsStore Id} {id id' : Id} {path p rest : List Name} {n : Name}
  {es : List (Dirent Id)} {d : Dirent Id}

theorem entryAt_congr {es' : List (Dirent Id)} (hes : st.getSeafdir id = some es)
    (hes' : st.getSeafdir id' = some es') (h : findDirent n es' = findDirent n es)
    (path : List Name) : entryAt st id' (n :: path) = entryAt st id (n :: path) := by
  rw [entryAt_eq hes, entryAt_eq hes']
  cases path with
  | nil => exact h
  | cons m' path => rw [entryIn, entryIn, h]

theorem leadsTo_append (p : List Name) (n : Name) (rest : List Name) :
    leadsTo st id (p ++ n :: rest) =
      leadsTo st id p >>= findDirent n >>= fun d => leadsTo st d.id rest := by
  induction p generalizing id with
  | nil => rfl
  | cons m p ih =>
    rw [cons_append, leadsTo, leadsTo]
    simp only [ih, bind_assoc]

theorem leadsTo_mono (hle : st ≤ X) (h : leadsTo st id path = some es) :
    leadsTo X id path = some es := by
  induction path generalizing id with
  | nil => exact FsStore.getSeafdir_mono hle h
  | cons n path ih =>
    simp only [leadsTo, Option.bind_eq_bind, Option.bind_eq_some_iff] at h ⊢
    obtain ⟨d, ⟨es₀, hes₀, hd⟩, hrest⟩ := h
    exact ⟨d, ⟨es₀, FsStore.getSeafdir_mono hle hes₀, hd⟩, ih hrest⟩

theorem resolve_mono {i : Id} (hle : st ≤ X) (h : resolve st id path = some i) :
    resolve X id path = some i := by
  induction path generalizing id with
  | nil => exact h
  | cons n path ih =>
    obtain ⟨j, hsub, h⟩ := resolve_cons_some.1 h
    obtain ⟨es, d, hes, hd, hdir, rfl⟩ := subdir_some.1 hsub
    refine resolve_cons_some.2 ⟨d.id, subdir_some.2 ⟨es, d, ?_, hd, hdir, rfl⟩, ih h⟩
    exact FsStore.getSeafdir_mono hle hes

theorem leadsTo_of_resolve {i : Id} (h : resolve X id path = some i) :
    leadsTo X id path = X.getSeafdir i := by
  induction path generalizing id with
  | nil =>
    cases h
    rfl
  | cons m path ih =>
    obtain ⟨j, hsub, h⟩ := resolve_cons_some.1 h
    obtain ⟨es, d, hes, hd, -, rfl⟩ := subdir_some.1 hsub
    rw [← ih h]
    simp [leadsTo, hes, hd]

theorem leadsTo_of_entryAt (h : entryAt X id (path ++ [n]) = some d) :
    ∃ i es, resolve X id path = some i ∧ X.getSeafdir i = some es ∧ leadsTo X id path = some es ∧
      findDirent n es = some d := by
  rw [entryAt_concat] at h
  simp only [Option.bind_eq_bind, Option.bind_eq_some_iff] at h
  obtain ⟨es, ⟨i, hi, hes⟩, hd⟩ := h
  exact ⟨i, es, hi, hes, (leadsTo_of_resolve hi).trans hes, hd⟩

theorem entryAt_append (hrest : rest ≠ []) :
    entryAt X id (p ++ rest) = resolve X id p >>= fun i => entryAt X i rest := by
  obtain ⟨r, n, rfl⟩ : ∃ r n, rest = r ++ [n] :=
    ⟨_, _, (dropLast_append_getLast hrest).symm⟩
  rw [← append_assoc, entryAt_concat, resolve_append]
  cases resolve X id p with
  | none => rfl
  | some i => exact (entryAt_concat r n).symm

theorem resolve_eq_entryAt (hp : p ≠ []) :
    resolve X id p = entryAt X id p >>= fun d => if d.isDir then some d.id else none := by
  obtain ⟨p, n, rfl⟩ : ∃ p' n, p = p' ++ [n] := ⟨_, _, (dropLast_append_getLast hp).symm⟩
  rw [resolve_concat, entryAt_concat]
  cases resolve X id p with
  | none => rfl
  | some i =>
    simp only [Option.bind_eq_bind, Option.bind_some, subdir]
    cases (X.getSeafdir i).bind (findDirent n) <;> rfl

theorem entryAt_of_le_path {q : List Name} (hp : p ≠ []) (hle : p <+: q)
    (h : entryAt X id q ≠ none) : entryAt X id p ≠ none := by
  obtain ⟨rest, rfl⟩ := hle
  by_cases hrest : rest = []
  · rwa [hrest, append_nil] at h
  · rw [entryAt_append hrest, resolve_eq_entryAt hp] at h
    intro hnone
    rw [hnone] at h
    exact h rfl

theorem resolvable_of_append (h : Resolvable X id (p ++ rest)) :
    Resolvable X id p := by
  rw [Resolvable, resolve_append] at h
  cases hp : resolve X id p with
  | none => rw [hp] at h; cases h
  | some i => rw [Resolvable, hp]; rfl

theorem exists_of_resolvable {q : List Name} (hres : Resolvable X id path) (hq : q <+: path)
    (hne : q ≠ []) : ∃ d, entryAt X id q = some d ∧ d.isDir = true := by
  obtain ⟨rest, rfl⟩ := hq
  have hres := resolvable_of_append hres
  rw [Resolvable, resolve_eq_entryAt hne] at hres
  cases hd : entryAt X id q with
  | none => simp [hd] at hres
  | some d =>
    refine ⟨d, rfl, ?_⟩
    by_contra hdir
    simp [hd, hdir] at hres

theorem isDir_of_resolvable {q : List Name} (hres : Resolvable X id path) (hq : q <+: path)
    (h : entryAt X id q = some d) : d.isDir = true := by
  have hne : q ≠ [] := by
    rintro rfl
    cases h
  obtain ⟨d', hd', hdir⟩ := exists_of_resolvable hres hq hne
  rwa [Option.mem_unique h hd']

theorem isDir_of_below (hrest : rest ≠ []) (h : entryAt X id (p ++ [n] ++ rest) = some d) :
    ∃ e, entryAt X id (p ++ [n]) = some e ∧ e.isDir = true := by
  have hres : Resolvable X id (p ++ [n]) := by
    rw [entryAt_append hrest] at h
    obtain ⟨i, hi, -⟩ := Option.bind_eq_some_iff.1 h
    rw [Resolvable, hi]
    rfl
  exact exists_of_resolvable hres prefix_rfl (concat_ne_nil _ _)

end Lookup

section Paths

variable {α : Type} {edit : List (Dirent Id) → Option (List (Dirent Id) × α)} {now : ℕ → ℤ}
  {st st' X : FsStore Id} {id id' : Id} {path q : List Name} {a : α}

theorem Rewritten.within (h : Rewritten edit now st st' id path id' a) (hle : st ≤ X)
    (hle' : st' ≤ X) : Rewritten edit now X X id path id' a := by
  induction h with
  | here hes hedit hes' =>
    exact .here (FsStore.getSeafdir_mono hle hes) hedit (FsStore.getSeafdir_mono hle' hes')
  | down hes hd _ hes' ih =>
    exact .down (FsStore.getSeafdir_mono hle hes) hd ih (FsStore.getSeafdir_mono hle' hes')

theorem Rewritten.through {p rest : List Name} {n : Name} {j : Id} {es : List (Dirent Id)}
    {d : Dirent Id} (h : Rewritten edit now X X id (p ++ n :: rest) id' a)
    (hp : resolve X id p = some j) (hes : X.getSeafdir j = some es)
    (hd : findDirent n es = some d) :
    ∃ i t, Rewritten edit now X X d.id rest i a ∧
      entryAt X id' (p ++ [n]) = some (d.touch i t) := by
  induction p generalizing id id' with
  | nil =>
    cases hp
    cases h with
    | @down _ _ i es' d' _ _ _ hes₁ hd₁ hrec hes' =>
      obtain rfl := Option.mem_unique hes hes₁
      obtain rfl := Option.mem_unique hd hd₁
      refine ⟨i, now rest.length, hrec, ?_⟩
      simp [entryAt, hes', findDirent_touch hd]
  | cons m p ih =>
    cases h with
    | @down _ _ i es' d' _ _ _ hes₁ hd₁ hrec hes' =>
      obtain ⟨i₀, hsub, hres⟩ := resolve_cons_some.1 hp
      obtain ⟨es₀, d₀, hes₀, hd₀, hdir, rfl⟩ := subdir_some.1 hsub
      obtain rfl := Option.mem_unique hes₁ hes₀
      obtain rfl := Option.mem_unique hd₁ hd₀
      obtain ⟨i', t, hrew, hentry⟩ := ih hrec hres
      refine ⟨i', t, hrew, ?_⟩
      have hne : p ++ [n] ≠ [] := concat_ne_nil _ _
      rw [cons_append, entryAt_cons_of_dir hes' (findDirent_touch hd₁) hne,
        Dirent.touch_isDir, if_pos hdir]
      exact hentry

variable (h : Rewritten edit now X X id path id' a)
include h

theorem Rewritten.entryAt_off (hq : ¬ q <+: path) (hq' : ¬ path <+: q) :
    entryAt X id' q = entryAt X id q := by
  induction h generalizing q with
  | here => exact absurd nil_prefix hq'
  | @down id id' i es d n path a hes hd _ hes' ih =>
    cases q with
    | nil => exact absurd nil_prefix hq
    | cons m rest =>
      by_cases hm : m = n
      · subst hm
        have hrest : ¬ rest <+: path := fun hpre => hq (cons_prefix_cons.2 ⟨rfl, hpre⟩)
        have hrest' : ¬ path <+: rest := fun hpre => hq' (cons_prefix_cons.2 ⟨rfl, hpre⟩)
        have hne : rest ≠ [] := by
          rintro rfl
          exact hrest nil_prefix
        rw [entryAt_cons_of_dir hes' (findDirent_touch hd) hne, entryAt_cons_of_dir hes hd hne,
          Dirent.touch_isDir]
        split_ifs with hdir
        · exact ih hrest hrest'
        · rfl
      · exact entryAt_congr hes hes' (findDirent_touch_ne hm) rest

theorem Rewritten.entryAt_on (hq : q <+: path) :
    ∃ i t, entryAt X id' q = (entryAt X id q).map fun d => d.touch i t := by
  induction h generalizing q with
  | @here id => exact ⟨id, 0, by rw [prefix_nil.1 hq]; rfl⟩
  | @down id id' i es d n path a hes hd _ hes' ih =>
    cases q with
    | nil => exact ⟨i, 0, rfl⟩
    | cons m rest =>
      obtain ⟨rfl, hrest⟩ := cons_prefix_cons.1 hq
      have hd' := findDirent_touch (i := i) (t := now path.length) hd
      cases rest with
      | nil => exact ⟨i, now path.length, by simp [entryAt, hes, hes', hd, hd']⟩
      | cons m' rest =>
        have hne := cons_ne_nil m' rest
        obtain ⟨i', t, hih⟩ := ih hrest
        refine ⟨i', t, ?_⟩
        rw [entryAt_cons_of_dir hes' hd' hne, entryAt_cons_of_dir hes hd hne, Dirent.touch_isDir]
        split_ifs with hdir
        · exact hih
        · rfl

theorem Rewritten.entryAt_under {m : Name} {fs fs' : List (Dirent Id)}
    (hfs : leadsTo X id path = some fs) (hfs' : leadsTo X id' path = some fs')
    (hm : findDirent m fs' = findDirent m fs)
    (rest : List Name) :
    entryAt X id' (path ++ m :: rest) = entryAt X id (path ++ m :: rest) := by
  induction h with
  | here => exact entryAt_congr hfs hfs' hm rest
  | @down id id' i es d n path a hes hd _ hes' ih =>
    have hd' := findDirent_touch (i := i) (t := now path.length) hd
    have hne : path ++ m :: rest ≠ [] := append_ne_nil_of_right_ne_nil _ (cons_ne_nil _ _)
    rw [cons_append, entryAt_cons_of_dir hes' hd' hne, entryAt_cons_of_dir hes hd hne,
      Dirent.touch_isDir, Dirent.touch_id,
      ih (by simpa [leadsTo, hes, hd] using hfs) (by simpa [leadsTo, hes', hd'] using hfs')]

theorem Rewritten.entryAt_edited :
    ∃ es es', leadsTo X id path = some es ∧ edit es = some (es', a) ∧
      leadsTo X id' path = some es' ∧ ∀ m, entryAt X id' (path ++ [m]) =
        if Resolvable X id path then findDirent m es' else none := by
  induction h with
  | @here id id' es es' a hes hedit hes' =>
    refine ⟨es, es', hes, hedit, hes', fun m => ?_⟩
    rw [if_pos (show Resolvable X id [] from rfl), nil_append]
    simp [entryAt, hes']
  | @down id id' i es d n path a hes hd _ hes' ih =>
    obtain ⟨es₀, es₁, hleads, hedit, hleads', hfind⟩ := ih
    have hd' := findDirent_touch (i := i) (t := now path.length) hd
    refine ⟨es₀, es₁, by simp [leadsTo, hes, hd, hleads], hedit,
      by simp [leadsTo, hes', hd', hleads'], fun m => ?_⟩
    have hne : path ++ [m] ≠ [] := concat_ne_nil _ _
    rw [cons_append, entryAt_cons_of_dir hes' hd' hne, Dirent.touch_isDir, Dirent.touch_id,
      hfind]
    by_cases hdir : d.isDir = true
    · have hsub : subdir X id n = some d.id := subdir_some.2 ⟨es, d, hes, hd, hdir, rfl⟩
      have hres : Resolvable X id (n :: path) ↔ Resolvable X d.id path := by
        simp [Resolvable, resolve, hsub]
      rw [if_pos hdir, if_congr hres rfl rfl]
    · have hsub : subdir X id n = none := by simp [subdir, hes, hd, hdir]
      simp [hdir, Resolvable, resolve, hsub]

theorem Rewritten.id_ne
    (hedit : ∀ es es', leadsTo X id path = some es → edit es = some (es', a) → es' ≠ es) :
    id' ≠ id := by
  induction h with
  | @here id id' es es' a hes he hes' =>
    rintro rfl
    exact hedit es es' hes he (Option.mem_unique hes' hes)
  | @down id id' i es d n path a hes hd _ hes' ih =>
    rintro rfl
    have hsame := Option.mem_unique hes' hes
    have hfind := findDirent_touch (i := i) (t := now path.length) hd
    rw [hsame, hd] at hfind
    have hid : d.id = i := congrArg Dirent.id (Option.some.inj hfind)
    refine ih (fun es₀ es₁ hleads => hedit es₀ es₁ ?_) hid.symm
    simpa [leadsTo, hes, hd] using hleads

theorem Rewritten.entryAt_keep {es es' : List (Dirent Id)}
    (hes : leadsTo X id path = some es) (hes' : leadsTo X id' path = some es')
    (hq : ∀ m rest, q = path ++ m :: rest → findDirent m es' = findDirent m es) :
    AsBefore (q <+: path) (entryAt X id q) (entryAt X id' q) := by
  by_cases hpre : q <+: path
  · exact .inr ⟨hpre, h.entryAt_on hpre⟩
  · refine .inl ?_
    by_cases hpre' : path <+: q
    · obtain ⟨s, rfl⟩ := hpre'
      cases s with
      | nil => exact absurd (by rw [append_nil]) hpre
      | cons m rest => exact h.entryAt_under hes hes' (hq m rest rfl) rest
    · exact h.entryAt_off hpre hpre'

/-- A rewrite keeps what all directories of a tree have.  Where the path is known to resolve, the
    entries on it are directories. -/
theorem Rewritten.tree {P : List (Dirent Id) → Prop} {R : Prop} {j k : ℕ}
    (hT : Tree P X k id) (hres : R → Resolvable X id path)
    (htouch : ∀ es n d i t, P es → findDirent n es = some d → (R → d.isDir = true) →
      P (updateDirent n (fun d => d.touch i t) es))
    (hedit : ∀ es es', leadsTo X id path = some es → P es → edit es = some (es', a) →
      P es' ∧ ∀ d ∈ es', d.isDir = true → d ∈ es ∨ Tree P X j d.id) :
    ∃ k', Tree P X k' id' := by
  induction h generalizing k with
  | @here id id' es es' a hes he hes' =>
    obtain ⟨hold, hsub⟩ := hT.subTrees_of hes
    obtain ⟨hnew, hentries⟩ := hedit es es' hes hold he
    refine ⟨k + j + 1, es', hes', hnew, fun d hd hdir => ?_⟩
    rcases hentries d hd hdir with hmem | htree
    · exact (hsub d hmem hdir).depth_mono (by omega)
    · exact htree.depth_mono (by omega)
  | @down id id' i es d n path a hes hd _ hes' ih =>
    obtain ⟨hold, hsub⟩ := hT.subTrees_of hes
    have hsubdir (hr : R) : subdir X id n = some d.id ∧ d.isDir = true := by
      obtain ⟨i', hi'⟩ := Option.isSome_iff_exists.1 (hres hr)
      obtain ⟨i₀, hsub, -⟩ := resolve_cons_some.1 hi'
      obtain ⟨es₀, d₀, hes₀, hd₀, hdir, rfl⟩ := subdir_some.1 hsub
      obtain rfl := Option.mem_unique hes hes₀
      obtain rfl := Option.mem_unique hd hd₀
      exact ⟨hsub, hdir⟩
    have htouched := htouch es n d i (now path.length) hold hd fun hr => (hsubdir hr).2
    by_cases hdir : d.isDir = true
    · obtain ⟨k', htree⟩ := ih (hsub d (mem_of_findDirent hd).1 hdir)
        (fun hr => by simpa [Resolvable, resolve, (hsubdir hr).1] using hres hr)
        (fun es₁ es₂ h₁ => hedit es₁ es₂ (by simpa [leadsTo, hes, hd] using h₁))
      refine ⟨k + k' + 1, _, hes', htouched, fun e he hedir => ?_⟩
      rcases mem_updateDirent hd he with hmem | rfl
      · exact (hsub e hmem hedir).depth_mono (by omega)
      · exact htree.depth_mono (by omega)
    · refine ⟨k + 1, _, hes', htouched, fun e he hedir => ?_⟩
      rcases mem_updateDirent hd he with hmem | rfl
      · exact (hsub e hmem hedir).depth_mono (by omega)
      · exact absurd hedir hdir

end Paths

end CloudFile
