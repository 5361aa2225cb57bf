/-
  A restored file, and the files around it. The parent directory is reached through directories,
  so a rewrite touches no file on the way, and the edit at its end changes one name. If that is
  the name asked for, or a free one, every other file stays.
-/
import CloudFile.Revert.Names

namespace CloudFile

open SortedWalk GoPath GLibPath List Option

variable {Id : Type}

/-! ## Edits of one name -/

variable {es es' : List (Dirent Id)} {d dent : Dirent Id}

theorem findDirent_insertSorted (hfree : nameExists es d.name = false) (m : Name) :
    findDirent m (Server.insertSorted d es) = if d.name = m then some d else findDirent m es := by
  unfold Server.insertSorted
  induction es with
  | nil => exact findDirent_cons d [] m
  | cons e es ih =>
    have hne : e.name ≠ d.name := nameExists_eq_false.1 hfree e mem_cons_self
    have hfree' : nameExists es d.name = false := nameExists_eq_false.2 fun e' he' =>
      nameExists_eq_false.1 hfree e' (mem_cons_of_mem _ he')
    rw [orderedInsert_cons]
    split
    · exact findDirent_cons d (e :: es) m
    · rw [findDirent_cons, findDirent_cons, ih hfree']
      by_cases hm : e.name = m
      · rw [if_pos hm, if_pos hm, if_neg fun hd => hne (hm.trans hd.symm)]
      · rw [if_neg hm, if_neg hm]

theorem postEntry_eq_some (h : Server.postEntry false dent es = some es') :
    ∃ x, genUniqueName dent.name es = some x ∧
      es' = Server.insertSorted (dent.withFileMode.named dent.modifier x) es := by
  simp only [Server.postEntry, Bool.false_and, Bool.false_eq_true, if_false,
    map_eq_some_iff] at h
  obtain ⟨x, hx, rfl⟩ := h
  exact ⟨x, hx, rfl⟩

theorem postEntry_find (h : Server.postEntry false dent es = some es') :
    ∃ x, genUniqueName dent.name es = some x ∧ findDirent x es = none ∧
      findDirent x es' = some (dent.withFileMode.named dent.modifier x) ∧
      ∀ m, m ≠ x → findDirent m es' = findDirent m es := by
  obtain ⟨x, hx, rfl⟩ := postEntry_eq_some h
  have hfree := genUniqueName_free hx
  have hname : (dent.withFileMode.named dent.modifier x).name = x := Dirent.named_name ..
  have hnone : findDirent x es = none :=
    find?_eq_none.2 fun e he => by simpa using nameExists_eq_false.1 hfree e he
  have hfind := findDirent_insertSorted (hname ▸ hfree)
  refine ⟨x, hx, hnone, ?_, fun m hm => ?_⟩
  · exact (hfind x).trans (if_pos hname)
  · exact (hfind m).trans (if_neg fun heq => hm (heq.symm.trans hname))

theorem postEntry_wellNamed (hes : UniqueNames (· ≠ []) es) (hdent : dent.name ≠ [])
    (h : Server.postEntry false dent es = some es') : UniqueNames (· ≠ []) es' := by
  obtain ⟨x, hx, rfl⟩ := postEntry_eq_some h
  have hperm := insertSorted_perm (dent.withFileMode.named dent.modifier x) es
  have hmid := filter_ne_of_free (genUniqueName_free hx)
  have hxne : x ≠ [] := by
    rcases genUniqueName_given hx with rfl | ⟨i, rfl⟩
    · exact hdent
    · unfold numberedName
      split <;> simp
  refine ⟨uniqueKeys_of_perm (n := x) hes.1 (Dirent.named_name ..) (by rw [hmid]; exact hperm),
    fun d hd => ?_⟩
  rcases mem_cons.1 (hperm.mem_iff.1 hd) with rfl | hold
  · rwa [Dirent.named_name]
  · exact hes.2 d hold

/-! ## Paths -/

variable [ObjectId Id] [DecidableEq Id]

section Paths

variable {X : FsStore Id} {id id' : Id} {path p rest : List Name}

/-! ## One rewrite -/

section Rewrite

variable {α : Type} {edit : List (Dirent Id) → Option (List (Dirent Id) × α)} {now : ℕ → ℤ}
  {x : Name} {a : α}

variable {d : Dirent Id}

theorem Rewritten.file_kept (h : Rewritten edit now X X id path id' a) (hres : Resolvable X id path)
    {es es' : List (Dirent Id)} (hes : leadsTo X id path = some es)
    (hes' : leadsTo X id' path = some es') (hx : ∀ d, findDirent x es = some d → d.isDir = false)
    (hother : ∀ m, m ≠ x → findDirent m es' = findDirent m es) {q : List Name}
    (hq : entryAt X id q = some d) (hreg : d.isReg = true) (hne : q ≠ path ++ [x]) :
    entryAt X id' q = some d := by
  by_cases hpre : path ++ [x] <+: q
  · -- nothing is below a name that is no directory
    obtain ⟨rest, rfl⟩ := hpre
    have hrest : rest ≠ [] := by
      rintro rfl
      exact hne (append_nil _)
    obtain ⟨e, he, hdir⟩ := isDir_of_below hrest hq
    obtain ⟨-, es₀, -, -, hes₀, hfind⟩ := leadsTo_of_entryAt he
    obtain rfl := mem_unique hes hes₀
    rw [hx e hfind] at hdir
    cases hdir
  · have hm : ∀ m rest, q = path ++ m :: rest → m ≠ x := by
      rintro m rest rfl rfl
      exact hpre ⟨rest, by simp⟩
    rcases h.entryAt_keep hes hes' fun m rest hq => hother m (hm m rest hq) with hsame | ⟨hon, -⟩
    · exact hsame.trans hq
    · -- an entry on the way is a directory
      have hdir := isDir_of_resolvable hres hon hq
      rw [Dirent.isDir_of_isReg hreg] at hdir
      cases hdir

theorem Rewritten.resolvable_back (h : Rewritten edit now X X id path id' a)
    (hres : Resolvable X id' path) : Resolvable X id path := by
  induction h with
  | here => rfl
  | @down id id' i es d n path a hes hd _ hes' ih =>
    rw [Resolvable, resolve] at hres ⊢
    split at hres
    next j hsub =>
      obtain ⟨es₀, d₀, hes₀, hd₀, hdir, rfl⟩ := subdir_some.1 hsub
      obtain rfl := mem_unique hes' hes₀
      obtain rfl := mem_unique (findDirent_touch hd) hd₀
      rw [Dirent.touch_isDir] at hdir
      have hsub' : subdir X id n = some d.id := subdir_some.2 ⟨es, d, hes, hd, hdir, rfl⟩
      rw [hsub']
      exact ih hres
    next => cases hres

omit [ObjectId Id] [DecidableEq Id] in
theorem UniqueNames.touch {es : List (Dirent Id)} (h : UniqueNames (· ≠ []) es) {n : Name}
    (hd : findDirent n es = some d) (i : Id) (t : ℤ) :
    UniqueNames (· ≠ []) (updateDirent n (fun d => d.touch i t) es) := by
  refine ⟨uniqueKeys_touch h.1 n i t, fun e he => ?_⟩
  rcases mem_updateDirent hd he with hold | rfl
  · exact h.2 e hold
  · exact h.2 d (mem_of_findDirent hd).1

end Rewrite

/-! ## New directories -/

section Made

variable {now : ℕ → ℤ} {dent : Dirent Id}

def posted (dent : Dirent Id) (entries : List (Dirent Id)) :
    Option (List (Dirent Id) × Unit) :=
  (Server.postEntry false dent entries).map fun es => (es, ())

omit [ObjectId Id] [DecidableEq Id] in
theorem posted_eq_some {es : List (Dirent Id)} {r : List (Dirent Id) × Unit} :
    posted dent es = some r ↔ Server.postEntry false dent es = some r.1 := by
  simp [posted, Prod.ext_iff]

variable (h : Rewritten (posted dent) now X X id path id' ())
include h

theorem Rewritten.posted_spec (hres : Resolvable X id path) :
    ∃ es x, leadsTo X id path = some es ∧ genUniqueName dent.name es = some x ∧
      entryAt X id' (path ++ [x]) = some (dent.withFileMode.named dent.modifier x) ∧
      (∀ m rest, m ≠ x → entryAt X id' (path ++ m :: rest) = entryAt X id (path ++ m :: rest)) ∧
      ∀ q d, entryAt X id q = some d → d.isReg = true → entryAt X id' q = some d := by
  obtain ⟨es, es', hleads, he, hleads', hentry⟩ := h.entryAt_edited
  obtain ⟨x, hx, hfree, hnew, hother⟩ := postEntry_find (posted_eq_some.1 he)
  refine ⟨es, x, hleads, hx, by rw [hentry, if_pos hres, hnew], fun m rest hm => ?_,
    fun q d hq hreg => h.file_kept hres hleads hleads' (by simp [hfree]) hother hq hreg ?_⟩
  · exact h.entryAt_under hleads hleads' (hother m hm) rest
  · rintro rfl
    obtain ⟨-, es₀, -, -, hes₀, hfind⟩ := leadsTo_of_entryAt hq
    obtain rfl := mem_unique hleads hes₀
    rw [hfree] at hfind
    cases hfind

theorem Rewritten.resolvable_made (hdir : dent.isDir = true) (hid : dent.id = emptySha1)
    {u : Name} {rest : List Name} (hres : Resolvable X id' (path ++ u :: rest)) :
    Resolvable X id (path ++ u :: rest) ∨
      rest = [] ∧ resolve X id' (path ++ [u]) = some emptySha1 := by
  obtain ⟨-, x, -, -, hnew, hother, -⟩ :=
    h.posted_spec (h.resolvable_back (resolvable_of_append hres))
  by_cases hu : u = x
  · subst hu
    have hmade : resolve X id' (path ++ [u]) = some emptySha1 := by
      rw [resolve_eq_entryAt (concat_ne_nil _ _), hnew]
      simp [hdir, hid]
    refine .inr ⟨?_, hmade⟩
    cases rest with
    | nil => rfl
    | cons m rest =>
      -- nothing is in the new directory
      rw [Resolvable, append_cons, resolve_append, hmade] at hres
      simp [resolve, subdir, findDirent] at hres
  · left
    have hne : path ++ u :: rest ≠ [] := by simp
    rw [Resolvable, resolve_eq_entryAt hne, hother u rest hu, ← resolve_eq_entryAt hne] at hres
    exact hres

theorem Rewritten.file_back (hdir : dent.isDir = true) (hid : dent.id = emptySha1)
    {q : List Name} (hq : entryAt X id' q = some d) (hreg : d.isReg = true) :
    ∃ d', entryAt X id q = some d' ∧ d'.isReg = true := by
  obtain ⟨es, es', hes, he, hes', hentry⟩ := h.entryAt_edited
  obtain ⟨x, -, -, hnew, hother⟩ := postEntry_find (posted_eq_some.1 he)
  have hx : ∀ e, entryAt X id' (path ++ [x]) = some e → e.isDir = true ∧ e.id = emptySha1 := by
    intro e he
    rw [hentry, hnew] at he
    split at he
    · obtain rfl := Option.some.inj he
      exact ⟨by simp [hdir], (Dirent.named_id ..).trans hid⟩
    · cases he
  by_cases hpre : path ++ [x] <+: q
  · -- the new name is a directory, with nothing in it
    obtain ⟨rest, rfl⟩ := hpre
    by_cases hrest : rest = []
    · rw [hrest, append_nil] at hq
      have hnot := Dirent.isDir_of_isReg hreg
      rw [(hx d hq).1] at hnot
      cases hnot
    · rw [entryAt_append hrest, resolve_eq_entryAt (concat_ne_nil _ _)] at hq
      obtain ⟨j, hj, hbelow⟩ := bind_eq_some_iff.1 hq
      obtain ⟨e, he, hj⟩ := bind_eq_some_iff.1 hj
      obtain ⟨hdir, hid⟩ := hx e he
      obtain rfl : emptySha1 = j := by simpa [hdir, hid] using hj
      obtain ⟨m, rest, rfl⟩ := exists_cons_of_ne_nil hrest
      rw [entryAt_cons_of_none FsStore.getSeafdir_empty rfl] at hbelow
      cases hbelow
  · have hm : ∀ m rest, q = path ++ m :: rest → m ≠ x := by
      rintro m rest rfl rfl
      exact hpre ⟨rest, by simp⟩
    obtain ⟨d', hd', hmode⟩ :=
      (h.entryAt_keep hes hes' fun m rest hq => hother m (hm m rest hq)).exists_some hq
    exact ⟨d', hd', by rwa [Dirent.isReg, hmode]⟩

theorem Rewritten.posted_wellNamed {k : ℕ} (hT : Tree (UniqueNames (· ≠ [])) X k id)
    (hname : dent.name ≠ [])
    (hdent : dent.isDir = true → dent.id = emptySha1) :
    ∃ k', Tree (UniqueNames (· ≠ [])) X k' id' := by
  refine h.tree (R := False) (j := 1) hT False.elim
    (fun es n d i t hes hd _ => hes.touch hd i t) fun es es' _ hes he => ?_
  rw [posted_eq_some] at he
  refine ⟨postEntry_wellNamed hes hname he, fun d hd hdir => ?_⟩
  obtain ⟨x, -, rfl⟩ := postEntry_eq_some he
  rcases mem_cons.1 ((insertSorted_perm _ es).mem_iff.1 hd) with rfl | hold
  · right
    rw [Dirent.named_isDir, Dirent.withFileMode_isDir] at hdir
    have hid : (dent.withFileMode.named dent.modifier x).id = emptySha1 :=
      (Dirent.named_id ..).trans (hdent hdir)
    refine ⟨[], ?_, uniqueNames_nil, by simp⟩
    exact (congrArg X.getSeafdir hid).trans FsStore.getSeafdir_empty
  · exact .inl hold

end Made

end Paths

end CloudFile
