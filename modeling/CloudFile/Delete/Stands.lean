/-
  The tree that a change set stands for (`server/change-set.c`): a directory of the store without
  the entries at some paths (`Stands`). Each listed path takes away the entry that its walk
  reaches (`stands_doBatchDelFiles`). What is saved is the pruned tree if the files in memory have
  the mode bits that saving sets (`Stands.pruned`).
-/
import CloudFile.Delete.Pruned

namespace CloudFile

open SortedWalk GoPath List
open Option hiding or_assoc mem_map

variable {Id : Type}

/-! ## What is left -/

/-- The entry of a name that is left without the paths. -/
def leftIn (R : List (List Name)) (es : List (Dirent Id)) (n : Name) : Option (Dirent Id) :=
  if R.contains [n] then none else findDirent n es

/-- The paths with one below a name. -/
def addBelow (m : Name) (R : List (List Name)) (t : Option (List Name)) : List (List Name) :=
  (t.map (m :: ·)).elim R (· :: R)

section Left

variable {R : List (List Name)} {es : List (Dirent Id)} {n m : Name} {d : Dirent Id}
  {t : Option (List Name)}

theorem leftIn_nil (es : List (Dirent Id)) (n : Name) : leftIn [] es n = findDirent n es := rfl

theorem leftIn_of_mem (h : [n] ∈ R) : leftIn R es n = none :=
  if_pos (contains_iff_mem.2 h)

theorem leftIn_of_notMem (es : List (Dirent Id)) (h : [n] ∉ R) :
    leftIn R es n = findDirent n es :=
  if_neg (mt contains_iff_mem.1 h)

theorem leftIn_some (h : leftIn R es n = some d) :
    [n] ∉ R ∧ findDirent n es = some d := by
  by_cases hn : [n] ∈ R
  · rw [leftIn_of_mem hn] at h
    cases h
  · exact ⟨hn, (leftIn_of_notMem es hn).symm.trans h⟩

theorem leftIn_cons_ne {t : List Name} (h : [n] ≠ m :: t) :
    leftIn ((m :: t) :: R) es n = leftIn R es n := by
  by_cases hn : [n] ∈ R
  · rw [leftIn_of_mem hn, leftIn_of_mem (mem_cons_of_mem _ hn)]
  · rw [leftIn_of_notMem es hn, leftIn_of_notMem es fun hmem => (mem_cons.1 hmem).elim h hn]

theorem after_addBelow (m : Name) (R : List (List Name)) (t : Option (List Name)) :
    after m (addBelow m R t) = t.elim (after m R) (· :: after m R) := by
  cases t with
  | none => rfl
  | some t => exact after_cons_same m t R

theorem after_addBelow_ne (h : n ≠ m) (R : List (List Name)) (t : Option (List Name)) :
    after n (addBelow m R t) = after n R := by
  cases t with
  | none => rfl
  | some t => exact after_cons_ne (Ne.symm h) t R

theorem leftIn_addBelow (m : Name) (ht : t ≠ some []) (n : Name) :
    leftIn (addBelow m R t) es n = leftIn R es n := by
  cases t with
  | none => rfl
  | some t => exact leftIn_cons_ne fun h => ht (congrArg some (List.cons.inj h).2.symm)

theorem stamp_below (now : ℤ) (R : List (List Name)) (t : Option (List Name)) (d : Dirent Id)
    {here : Bool} (hhere : here = true ↔ ∃ m, t = some [m]) :
    (if here then (stamp now R d).withMtime now else stamp now R d) =
      stamp now (t.elim R (· :: R)) d := by
  cases t with
  | none =>
    have hfalse : here = false := by simpa using hhere
    rw [hfalse]
    rfl
  | some t =>
    have hloses : losesEntry (t :: R) = (here || losesEntry R) := by
      have hlen : (t.length == 1) = here := by
        rw [Bool.eq_iff_iff, hhere, beq_iff_eq, length_eq_one_iff]
        exact exists_congr fun m => (some_inj).symm
      rw [losesEntry, any_cons, hlen]
      rfl
    cases here with
    | true =>
      rw [elim_some, stamp, stamp, hloses, if_pos rfl]
      split <;> rfl
    | false =>
      rw [if_neg Bool.false_ne_true, elim_some, stamp, stamp, hloses, Bool.false_or]

end Left

/-! ## Directories in memory -/

/-- The directory in memory at a path. -/
def ChangeSetDir.memory : ChangeSetDir Id → List Name → Option (ChangeSetDir Id)
  | dir, [] => some dir
  | dir, n :: p => (dir.lookup n).bind fun c => c.2.bind fun sub => sub.memory p

section Memory

variable {dir : ChangeSetDir Id} {es : List (Dirent Id)} {d : Dirent Id} {m : Name}

theorem ChangeSetDir.isSome_memory_remove (dir : ChangeSetDir Id) (m : Name) (p : List Name) :
    ((dir.remove m).memory p).isSome ↔ (dir.memory p).isSome ∧ ¬ [m] <+: p := by
  cases p with
  | nil => simp [memory]
  | cons n p =>
    rw [memory, memory, lookup_remove]
    by_cases hn : n = m
    · simp [hn]
    · simp [hn, Ne.symm hn]

theorem ChangeSetDir.memory_update (hname : d.name = m) (hm : (dir.lookup m).isSome)
    (sub : ChangeSetDir Id) (n : Name) (p : List Name) :
    (dir.update m d sub).memory (n :: p) = if n = m then sub.memory p else dir.memory (n :: p) := by
  obtain ⟨c, hc⟩ := isSome_iff_exists.1 hm
  rw [memory, memory, lookup_update dir hname, hc]
  split <;> rfl

theorem ChangeSetDir.isSome_memory_ofSeafDir (hu : UniqueKeys Dirent.name es) (p : List Name) :
    ((ofSeafDir es).memory p).isSome ↔ p = [] := by
  cases p with
  | nil => simp [memory]
  | cons n p =>
    rw [memory, lookup_ofSeafDir hu]
    cases findDirent n es <;> simp

theorem ChangeSetDir.memory_cons {p : List Name} {sub : ChangeSetDir Id}
    (h : dir.memory (m :: p) = some sub) :
    ∃ c sub₁, dir.lookup m = some (c, some sub₁) ∧ sub₁.memory p = some sub := by
  obtain ⟨⟨c, subdir⟩, hc, h⟩ := bind_eq_some_iff.1 h
  obtain ⟨sub₁, rfl, h⟩ := bind_eq_some_iff.1 h
  exact ⟨c, sub₁, hc, h⟩

end Memory

/-! ## What is reached -/

variable [ObjectId Id] [DecidableEq Id]

/-- The entry that the walk over the parts of a path reaches, without the paths `R`: a directory
    is entered if `own` holds it, and a file is passed over. -/
def reachedFrom (own : FsStore Id) :
    List (List Name) → List (Dirent Id) → List Name → Option (List Name)
  | _, _, [] => none
  | R, es, [m] => (leftIn R es m).bind fun d => if d.isDir || d.isReg then some [m] else none
  | R, es, m :: m' :: parts => (leftIn R es m).bind fun d =>
      if d.isDir then (own.getSeafdir d.id).bind fun es' =>
        (reachedFrom own (after m R) es' (m' :: parts)).map (m :: ·)
      else reachedFrom own R es (m' :: parts)

/-- The directories below the start that the walk goes through. -/
def enteredFrom (own : FsStore Id) :
    List (List Name) → List (Dirent Id) → List Name → List (List Name)
  | _, _, [] => []
  | _, _, [_] => []
  | R, es, m :: m' :: parts => (leftIn R es m).elim [] fun d =>
      if d.isDir then (own.getSeafdir d.id).elim [] fun es' =>
        [m] :: (enteredFrom own (after m R) es' (m' :: parts)).map (m :: ·)
      else enteredFrom own R es (m' :: parts)

/-- The paths with the one that a listed path reaches. -/
def addReached (own : FsStore Id) (es : List (Dirent Id)) (R : List (List Name)) (name : Name) :
    List (List Name) :=
  (reachedFrom own R es (Server.delParts name)).elim R (· :: R)

/-- The paths that a list of paths reaches, the last one first. -/
def reachedAll (own : FsStore Id) (es : List (Dirent Id)) (filepaths : List Name) :
    List (List Name) :=
  filepaths.foldl (addReached own es) []

/-- The directory is read for the list: the root, or one that a walk goes through. -/
def Entered (own : FsStore Id) (es : List (Dirent Id)) (filepaths p : List Name) : Prop :=
  p = [] ∨ ∃ pre name post, filepaths = pre ++ name :: post ∧
    p ∈ enteredFrom own (reachedAll own es pre) es (Server.delParts name)

/-! ## The tree that a change set stands for -/

/-- The change set stands for the entries `es` without the paths `R`; directories are loaded from
    `own`. -/
inductive Stands (own : FsStore Id) (now : ℤ) :
    List (List Name) → List (Dirent Id) → ChangeSetDir Id → Prop
  | mk {R : List (List Name)} {es : List (Dirent Id)} {dir : ChangeSetDir Id} :
      dir.names.Nodup →
      (∀ n, leftIn R es n = none → dir.lookup n = none ∧ ([n] ∈ R ∨ after n R = [])) →
      (∀ n d, leftIn R es n = some d → dir.lookup n = some (d, none) ∧ after n R = [] ∨
        d.isDir = true ∧ (own.getSeafdir d.id).isSome ∧
          ∃ sub, dir.lookup n = some (stamp now (after n R) d, some sub)) →
      (∀ n d es' c sub, leftIn R es n = some d → own.getSeafdir d.id = some es' →
        dir.lookup n = some (c, some sub) → Stands own now (after n R) es' sub) →
      Stands own now R es dir

section Stands

variable {own lib : FsStore Id} {now : ℤ} {R : List (List Name)} {es : List (Dirent Id)}
  {dir sub : ChangeSetDir Id} {n m : Name} {d : Dirent Id} {es' : List (Dirent Id)} {k : ℕ}
  {P : List (Dirent Id) → Prop} {t : Option (List Name)} {p : List Name}

theorem stands_ofSeafDir (hu : UniqueKeys Dirent.name es) :
    Stands own now [] es (.ofSeafDir es) := by
  have hlookup := ChangeSetDir.lookup_ofSeafDir hu
  refine .mk (ChangeSetDir.nodup_names_ofSeafDir es) (fun n hn => ?_) (fun n d hd => ?_)
    fun n d es' c sub hd _ hc => ?_
  · rw [leftIn_nil] at hn
    exact ⟨by rw [hlookup, hn]; rfl, .inr rfl⟩
  · rw [leftIn_nil] at hd
    exact .inl ⟨by rw [hlookup, hd]; rfl, rfl⟩
  · rw [hlookup] at hc
    obtain ⟨d', -, heq⟩ := map_eq_some_iff.1 hc
    cases heq

theorem Stands.lookup (h : Stands own now R es dir) (hd : leftIn R es n = some d) :
    ∃ sub, dir.lookup n = some (stamp now (after n R) d, sub) ∧ (sub = none → after n R = []) := by
  obtain ⟨-, -, hleft, -⟩ := h
  rcases hleft n d hd with ⟨hlookup, hafter⟩ | ⟨-, -, sub, hlookup⟩
  · refine ⟨none, ?_, fun _ => hafter⟩
    rw [hafter]
    exact hlookup
  · exact ⟨some sub, hlookup, fun hnone => by cases hnone⟩

theorem Stands.remove (h : Stands own now R es dir) (m : Name) :
    Stands own now ([m] :: R) es (dir.remove m) := by
  obtain ⟨hnodup, hnone, hleft, hsub⟩ := h
  have hm : leftIn ([m] :: R) es m = none := leftIn_of_mem mem_cons_self
  have hne : ∀ n ≠ m, leftIn ([m] :: R) es n = leftIn R es n ∧ after n ([m] :: R) = after n R ∧
      (dir.remove m).lookup n = dir.lookup n := by
    intro n hn
    refine ⟨leftIn_cons_ne fun h => hn (singleton_inj.1 h), after_cons_ne (Ne.symm hn) _ _, ?_⟩
    rw [ChangeSetDir.lookup_remove, if_neg hn]
  refine .mk (ChangeSetDir.nodup_names_remove hnodup m) (fun n hn => ?_) (fun n d hd => ?_) ?_
  · by_cases heq : n = m
    · subst heq
      exact ⟨by rw [ChangeSetDir.lookup_remove, if_pos rfl], .inl mem_cons_self⟩
    · obtain ⟨hl, ha, hk⟩ := hne n heq
      rw [hl] at hn
      rw [ha, hk]
      exact (hnone n hn).imp_right (.imp_left (mem_cons_of_mem _))
  · have heq : n ≠ m := by
      rintro rfl
      rw [hm] at hd
      cases hd
    obtain ⟨hl, ha, hk⟩ := hne n heq
    rw [hl] at hd
    rw [ha, hk]
    exact hleft n d hd
  · intro n d es' c sub hd hes' hc
    have heq : n ≠ m := by
      rintro rfl
      rw [hm] at hd
      cases hd
    obtain ⟨hl, ha, hk⟩ := hne n heq
    rw [hl] at hd
    rw [hk] at hc
    rw [ha]
    exact hsub n d es' c sub hd hes' hc

theorem Stands.update (h : Stands own now R es dir)
    (ht : t ≠ some []) (hd : leftIn R es m = some d) (hdir : d.isDir = true)
    (hes' : own.getSeafdir d.id = some es')
    (hsub : Stands own now (t.elim (after m R) (· :: after m R)) es' sub) :
    Stands own now (addBelow m R t) es
      (dir.update m (stamp now (t.elim (after m R) (· :: after m R)) d) sub) := by
  have hname : (stamp now (t.elim (after m R) (· :: after m R)) d).name = m := by
    rw [stamp_name]
    exact (mem_of_findDirent (leftIn_some hd).2).2
  obtain ⟨subdir, hlookup, -⟩ := h.lookup hd
  obtain ⟨hnodup, hnone, hleft, hsubs⟩ := h
  have hup := ChangeSetDir.lookup_update dir hname sub
  rw [hlookup] at hup
  refine .mk (ChangeSetDir.nodup_names_update hnodup hname sub) (fun n hn => ?_)
    (fun n d' hd' => ?_) fun n d' es'' c sub' hd' hes'' hc => ?_
  · rw [leftIn_addBelow m ht] at hn
    have heq : n ≠ m := by
      rintro rfl
      rw [hd] at hn
      cases hn
    rw [hup, if_neg heq, after_addBelow_ne heq]
    refine (hnone n hn).imp_right (.imp_left fun hmem => ?_)
    cases t with
    | none => exact hmem
    | some t => exact mem_cons_of_mem _ hmem
  · rw [leftIn_addBelow m ht] at hd'
    by_cases heq : n = m
    · subst heq
      obtain rfl := mem_unique hd hd'
      rw [hup, if_pos rfl, after_addBelow, hes']
      exact .inr ⟨hdir, rfl, sub, rfl⟩
    · rw [hup, if_neg heq, after_addBelow_ne heq]
      exact hleft n d' hd'
  · rw [leftIn_addBelow m ht] at hd'
    by_cases heq : n = m
    · subst heq
      obtain rfl := mem_unique hd hd'
      obtain rfl := mem_unique hes' hes''
      rw [hup, if_pos rfl] at hc
      cases hc
      rw [after_addBelow]
      exact hsub
    · rw [hup, if_neg heq] at hc
      rw [after_addBelow_ne heq]
      exact hsubs n d' es'' c sub' hd' hes'' hc

theorem reachedFrom_ne_nil {parts : List Name} : reachedFrom own R es parts ≠ some [] := by
  induction parts generalizing R es with
  | nil => exact fun h => by cases h
  | cons m parts ih =>
    intro h
    cases parts with
    | nil =>
      obtain ⟨d, -, h⟩ := bind_eq_some_iff.1 h
      split at h <;> cases h
    | cons m' parts =>
      obtain ⟨d, -, h⟩ := bind_eq_some_iff.1 h
      split at h
      · obtain ⟨es', -, h⟩ := bind_eq_some_iff.1 h
        obtain ⟨t, -, heq⟩ := map_eq_some_iff.1 h
        cases heq
      · exact ih h

theorem SubTrees.load (hsub : SubTrees P lib k es) (hd : findDirent n es = some d)
    (hdir : d.isDir = true) (hes' : own.getSeafdir d.id = some es') :
    lib.getSeafdir d.id = some es' ∧ SubTrees P lib k es' := by
  obtain ⟨es₀, hes₀, -⟩ := (hsub.2 d (mem_of_findDirent hd).1 hdir).readable
  obtain rfl : es₀ = es' := seafDirId_injective
    ((FsStore.getSeafdir_id hes₀).trans (FsStore.getSeafdir_id hes').symm)
  exact ⟨hes₀, (hsub.2 d (mem_of_findDirent hd).1 hdir).subTrees_of hes₀⟩

theorem Stands.loaded (h : Stands own now R es dir)
    (hsub : SubTrees (UniqueKeys Dirent.name) lib k es)
    (hd : leftIn R es m = some d) (hdir : d.isDir = true) {subdir : Option (ChangeSetDir Id)}
    (hlookup : dir.lookup m = some (stamp now (after m R) d, subdir))
    (hnone : subdir = none → after m R = []) (hes' : own.getSeafdir d.id = some es') :
    ∃ sub, (subdir <|> (own.getSeafdir d.id).map ChangeSetDir.ofSeafDir) = some sub ∧
      Stands own now (after m R) es' sub ∧
      ∀ p, (sub.memory p).isSome ↔ (dir.memory (m :: p)).isSome ∨ p = [] := by
  obtain ⟨-, -, -, hsubs⟩ := h
  have hmemory : ∀ p, dir.memory (m :: p) = subdir.bind fun sub => sub.memory p := by
    intro p
    rw [ChangeSetDir.memory, hlookup]
    rfl
  cases subdir with
  | some sub =>
    refine ⟨sub, rfl, hsubs m d es' _ sub hd hes' hlookup, fun p => ?_⟩
    rw [hmemory, bind_some]
    refine ⟨.inl, fun h => h.elim id ?_⟩
    rintro rfl
    rfl
  | none =>
    obtain ⟨-, hu, -⟩ := hsub.load (leftIn_some hd).2 hdir hes'
    refine ⟨.ofSeafDir es', by rw [hes']; rfl, ?_, fun p => ?_⟩
    · rw [hnone rfl]
      exact stands_ofSeafDir hu
    · rw [ChangeSetDir.isSome_memory_ofSeafDir hu, hmemory]
      simp

/-- **What a listed path does**: it takes away the entry that its walk reaches, and the
    directories on the way are in memory. -/
theorem Stands.delete (h : Stands own now R es dir)
    (hsub : SubTrees (UniqueKeys Dirent.name) lib k es) (parts : List Name) :
    Stands own now ((reachedFrom own R es parts).elim R (· :: R)) es
        (deleteFromTree own now parts dir).dir ∧
      ((deleteFromTree own now parts dir).here = true ↔
        ∃ m, reachedFrom own R es parts = some [m]) ∧
      ∀ p, ((deleteFromTree own now parts dir).dir.memory p).isSome ↔
        ((dir.memory p).isSome ∨ p ∈ enteredFrom own R es parts) ∧
          ∀ t, reachedFrom own R es parts = some t → ¬ t <+: p := by
  induction parts generalizing R es dir with
  | nil => exact ⟨h, by simp [deleteFromTree, reachedFrom, enteredFrom]⟩
  | cons m parts ih =>
    cases hd : leftIn R es m with
    | none =>
      obtain ⟨-, hnone, -, -⟩ := id h
      have hlookup := (hnone m hd).1
      cases parts with
      | nil => simpa [deleteFromTree, reachedFrom, enteredFrom, hd, hlookup] using h
      | cons m' parts => simpa [deleteFromTree, reachedFrom, enteredFrom, hd, hlookup] using h
    | some d =>
      obtain ⟨subdir, hlookup, hunloaded⟩ := h.lookup hd
      cases parts with
      | nil =>
        simp only [deleteFromTree, reachedFrom, enteredFrom, hlookup, hd, bind_some, stamp_isDir,
          stamp_isReg]
        by_cases hkind : (d.isDir || d.isReg) = true
        · rw [if_pos hkind, if_pos hkind]
          refine ⟨h.remove m, by simp, fun p => ?_⟩
          rw [ChangeSetDir.isSome_memory_remove]
          simp
        · rw [if_neg hkind, if_neg hkind]
          exact ⟨h, by simp⟩
      | cons m' parts =>
        by_cases hdir : d.isDir = true
        · simp only [deleteFromTree, reachedFrom, enteredFrom, hlookup, hd, bind_some, elim_some,
            stamp_isDir, stamp_id, hdir]
          cases hes' : own.getSeafdir d.id with
          | none =>
            have hsubdir : subdir = none := by
              obtain ⟨-, -, hleft, -⟩ := h
              rcases hleft m d hd with ⟨hl, -⟩ | ⟨-, hsome, -⟩
              · rw [hlookup] at hl
                exact congrArg Prod.snd (Option.some.inj hl)
              · rw [hes'] at hsome
                cases hsome
            subst hsubdir
            exact ⟨h, by simp⟩
          | some es' =>
            obtain ⟨sub, hload, hstands, hmemory⟩ := h.loaded hsub hd hdir hlookup hunloaded hes'
            rw [hes'] at hload
            rw [hload]
            obtain ⟨hstands', hhere, hbelow⟩ :=
              ih hstands (hsub.load (leftIn_some hd).2 hdir hes').2
            simp only [bind_some, elim_some, if_true]
            rw [stamp_below now (after m R) _ d hhere]
            refine ⟨h.update reachedFrom_ne_nil hd hdir hes' hstands',
              by simp [reachedFrom_ne_nil], fun p => ?_⟩
            cases p with
            | nil => simp [ChangeSetDir.memory]
            | cons n p =>
              rw [ChangeSetDir.memory_update ((stamp_name ..).trans (mem_of_findDirent
                (leftIn_some hd).2).2) (by rw [hlookup]; rfl)]
              by_cases hn : n = m
              · subst hn
                rw [if_pos rfl, hbelow, hmemory, or_assoc]
                simp
              · simp [hn, Ne.symm hn]
        · -- the walk stays in the directory
          have hdir' : d.isDir = false := by simpa using hdir
          simp only [deleteFromTree, reachedFrom, enteredFrom, hlookup, hd, bind_some, elim_some,
            stamp_isDir, hdir', Bool.false_eq_true]
          exact ih h hsub

theorem enteredFrom_left {parts : List Name} (hR : [] ∉ R)
    (h : p ∈ enteredFrom own R es parts) : ∀ t ∈ R, ¬ t <+: p := by
  induction parts generalizing R es p with
  | nil => cases h
  | cons m parts ih =>
    cases parts with
    | nil => cases h
    | cons m' parts =>
      rw [enteredFrom] at h
      cases hd : leftIn R es m with
      | none =>
        rw [hd] at h
        cases h
      | some d =>
        rw [hd, elim_some] at h
        have hm := (leftIn_some hd).1
        split at h
        · cases hes' : own.getSeafdir d.id with
          | none =>
            rw [hes'] at h
            cases h
          | some es' =>
            rw [hes', elim_some, mem_cons, mem_map] at h
            rintro t ht hpre
            -- a path at or above `p` starts with `m` and goes on
            obtain ⟨n, t, rfl⟩ := exists_cons_of_ne_nil fun hnil : t = [] => hR (hnil ▸ ht)
            rcases h with rfl | ⟨q, hq, rfl⟩
            · obtain ⟨rfl, hnil⟩ := cons_prefix_cons.1 hpre
              rw [prefix_nil.1 hnil] at ht
              exact hm ht
            · obtain ⟨rfl, hrest⟩ := cons_prefix_cons.1 hpre
              exact ih (fun hnil => hm (mem_after.1 hnil)) hq t (mem_after.2 ht) hrest
        · exact ih hR h

theorem reachedAll_concat (filepaths : List Name) (name : Name) :
    reachedAll own es (filepaths ++ [name]) =
      addReached own es (reachedAll own es filepaths) name := by
  rw [reachedAll, foldl_append]
  rfl

theorem nil_notMem_reachedAll (filepaths : List Name) : [] ∉ reachedAll own es filepaths := by
  induction filepaths using reverseRecOn with
  | nil => exact not_mem_nil
  | append_singleton filepaths name ih =>
    rw [reachedAll_concat, addReached]
    cases hr : reachedFrom own (reachedAll own es filepaths) es (Server.delParts name) with
    | none => exact ih
    | some t =>
      rw [elim_some, mem_cons, not_or]
      exact ⟨fun hnil => reachedFrom_ne_nil (hnil ▸ hr), ih⟩

theorem entered_concat {filepaths : List Name} {name : Name} :
    Entered own es (filepaths ++ [name]) p ↔ Entered own es filepaths p ∨
      p ∈ enteredFrom own (reachedAll own es filepaths) es (Server.delParts name) := by
  constructor
  · rintro (rfl | ⟨pre, name', post, hsplit, hp⟩)
    · exact .inl (.inl rfl)
    · rcases eq_nil_or_concat' post with rfl | ⟨post, last, rfl⟩
      · obtain ⟨rfl, hname⟩ := append_inj' hsplit rfl
        cases hname
        exact .inr hp
      · rw [← cons_append, ← append_assoc] at hsplit
        exact .inl (.inr ⟨pre, name', post, (append_inj' hsplit rfl).1, hp⟩)
  · rintro ((rfl | ⟨pre, name', post, rfl, hp⟩) | hp)
    · exact .inl rfl
    · exact .inr ⟨pre, name', post ++ [name], by simp, hp⟩
    · exact .inr ⟨filepaths, name, [], rfl, hp⟩

/-- **The change set of a list of paths** stands for the tree without what the walks reach, and has
    the directories in memory that were read and are left. -/
theorem stands_doBatchDelFiles {e : DeleteEnv Id} (own : FsStore Id)
    (hsub : SubTrees (UniqueKeys Dirent.name) lib k es) (filepaths : List Name) :
    Stands own e.now (reachedAll own es filepaths) es
        (Server.doBatchDelFiles e own (.ofSeafDir es) filepaths).1 ∧
      ∀ p, ((Server.doBatchDelFiles e own (.ofSeafDir es) filepaths).1.memory p).isSome ↔
        Entered own es filepaths p ∧ ∀ t ∈ reachedAll own es filepaths, ¬ t <+: p := by
  have hu := hsub.1
  induction filepaths using reverseRecOn with
  | nil =>
    refine ⟨stands_ofSeafDir hu, fun p => ?_⟩
    rw [show (Server.doBatchDelFiles e own (.ofSeafDir es) []).1 = .ofSeafDir es from rfl,
      ChangeSetDir.isSome_memory_ofSeafDir hu]
    simp [Entered, reachedAll]
  | append_singleton filepaths name ih =>
    obtain ⟨hstands, hmemory⟩ := ih
    obtain ⟨hstands', -, hmemory'⟩ := hstands.delete hsub (Server.delParts name)
    have hstep : (Server.doBatchDelFiles e own (.ofSeafDir es) (filepaths ++ [name])).1 =
        (deleteFromTree own e.now (Server.delParts name)
          (Server.doBatchDelFiles e own (.ofSeafDir es) filepaths).1).dir := by
      rw [Server.doBatchDelFiles, foldl_append]
      by_cases hname : name = []
      · subst hname
        rfl
      · simp [hname, Server.doBatchDelFiles]
    rw [reachedAll_concat, hstep]
    refine ⟨hstands', fun p => ?_⟩
    have hnew : p ∈ enteredFrom own (reachedAll own es filepaths) es (Server.delParts name) →
        ∀ t ∈ reachedAll own es filepaths, ¬ t <+: p :=
      enteredFrom_left (nil_notMem_reachedAll filepaths)
    rw [hmemory', hmemory, entered_concat, addReached]
    cases reachedFrom own (reachedAll own es filepaths) es (Server.delParts name) with
    | none =>
      simp only [elim_none, reduceCtorEq, false_imp_iff, implies_true, and_true]
      tauto
    | some t =>
      simp only [elim_some, some_inj, forall_eq', mem_cons, forall_eq_or_imp]
      tauto

/-! ## What is saved -/

/-- The dirents that are saved for a directory in memory, one for one. -/
structure SavedAs (writeObj : Id → Bool) (st : FsStore Id) (dir : ChangeSetDir Id)
    (dents : List (Dirent Id)) (st' : FsStore Id) : Prop where
  le : st ≤ st'
  names : dents.map Dirent.name = dir.names
  absent : ∀ n, dir.lookup n = none → findDirent n dents = none
  stored : ∀ n d, dir.lookup n = some (d, none) → findDirent n dents = some d.withFileMode
  loaded : ∀ n d sub, dir.lookup n = some (d, some sub) → ∃ st₁ st₂ es,
    st ≤ st₁ ∧ commitTree writeObj sub st₁ = some (es, st₂) ∧ st₂ ≤ st' ∧
    st'.getSeafdir (seafDirId (Server.sortDirents es)) = some (Server.sortDirents es) ∧
    findDirent n dents = some (d.withId (seafDirId (Server.sortDirents es))).withFileMode

variable {writeObj : Id → Bool} {st st' : FsStore Id} {dents : List (Dirent Id)}

theorem SavedAs.cons {st₁ : FsStore Id} {rest : ChangeSetDir Id}
    {c : Dirent Id × Option (ChangeSetDir Id)} {d' : Dirent Id}
    (hdents : dir.dents = c :: rest.dents) (hrest : SavedAs writeObj st₁ rest dents st')
    (hle : st ≤ st₁) (hname : d'.name = c.1.name) (hstored : c.2 = none → d' = c.1.withFileMode)
    (hloaded : ∀ sub, c.2 = some sub → ∃ st₂ es, commitTree writeObj sub st = some (es, st₂) ∧
      st₂ ≤ st₁ ∧ st₁.getSeafdir (seafDirId (Server.sortDirents es)) =
      some (Server.sortDirents es) ∧
      d' = (c.1.withId (seafDirId (Server.sortDirents es))).withFileMode) :
    SavedAs writeObj st dir (d' :: dents) st' := by
  have hlookup : ∀ n, dir.lookup n = if d'.name = n then some c else rest.lookup n := by
    intro n
    rw [ChangeSetDir.lookup, hdents, ChangeSetDir.lookup, hname]
    by_cases hn : c.1.name = n <;> simp [hn]
  refine ⟨hle.trans hrest.le, ?_, fun n hn => ?_, fun n d hn => ?_, fun n d sub hn => ?_⟩
  · rw [map_cons, hrest.names, hname, ChangeSetDir.names, ChangeSetDir.names, hdents,
      map_cons]
  all_goals
    rw [hlookup] at hn
    rw [findDirent_cons]
    split at hn
  · cases hn
  · rw [if_neg ‹_›]
    exact hrest.absent n hn
  · cases hn
    rw [if_pos ‹_›, hstored rfl]
  · rw [if_neg ‹_›]
    exact hrest.stored n d hn
  · cases hn
    obtain ⟨st₂, es, hcommit, hle₂, hsaved, rfl⟩ := hloaded sub rfl
    rw [if_pos ‹_›]
    exact ⟨st, st₂, es, le_rfl, hcommit, hle₂.trans hrest.le,
      FsStore.getSeafdir_mono hrest.le hsaved, rfl⟩
  · rw [if_neg ‹_›]
    obtain ⟨st₂, st₃, es, hle₂, hsub⟩ := hrest.loaded n d sub hn
    exact ⟨st₂, st₃, es, hle.trans hle₂, hsub⟩

theorem commitTree_savedAs (h : commitTree writeObj dir st = some (dents, st')) :
    SavedAs writeObj st dir dents st' := by
  induction dir generalizing st st' dents with
  | nil =>
    cases h
    refine ⟨le_rfl, rfl, fun _ _ => rfl, fun _ _ h => ?_, fun _ _ _ h => ?_⟩ <;> cases h
  | dent d rest ih =>
    obtain ⟨⟨es, st₁⟩, hrest, hdents⟩ := map_eq_some_iff.1 h
    cases hdents
    rw [changesetDirentToSeafDirent_eq]
    refine (ih hrest).cons (c := (d, none)) rfl le_rfl rfl (fun _ => rfl) fun sub hsub => ?_
    cases hsub
  | loaded d sub rest ihsub ihrest =>
    obtain ⟨⟨es, st₁⟩, hsub, h⟩ := bind_eq_some_iff.1 h
    obtain ⟨st₂, hsave, h⟩ := bind_eq_some_iff.1 h
    obtain ⟨⟨ds, st₃⟩, hrest, hdents⟩ := map_eq_some_iff.1 h
    cases hdents
    obtain ⟨hle, hsaved⟩ := FsStore.saveSeafdir_spec hsave
    rw [changesetDirentToSeafDirent_eq]
    refine (ihrest hrest).cons (c := (d, some sub)) rfl ((ihsub hsub).le.trans hle) rfl
      (fun hnone => ?_) fun sub' hsub' => ?_
    · cases hnone
    · cases hsub'
      exact ⟨st₁, es, hsub, hle, hsaved, rfl⟩

theorem Stands.unique (h : Stands own now R es dir)
    (hcommit : commitTree writeObj dir st = some (dents, st')) : UniqueKeys Dirent.name dents := by
  obtain ⟨hnodup, -, -, -⟩ := h
  rw [UniqueKeys, (commitTree_savedAs hcommit).names]
  exact hnodup

theorem commitTreeFromChangeset_some {id : Id}
    (h : commitTreeFromChangeset writeObj dir st = some (st', id)) :
    ∃ dents st₁, commitTree writeObj dir st = some (dents, st₁) ∧ st₁ ≤ st' ∧
      id = seafDirId (Server.sortDirents dents) ∧
      st'.getSeafdir id = some (Server.sortDirents dents) := by
  obtain ⟨⟨dents, st₁⟩, hcommit, h⟩ := bind_eq_some_iff.1 h
  obtain ⟨st₂, hsave, heq⟩ := map_eq_some_iff.1 h
  cases heq
  obtain ⟨hle, hsaved⟩ := FsStore.saveSeafdir_spec hsave
  exact ⟨dents, st₁, hcommit, hle, rfl, hsaved⟩

theorem SavedAs.desc (h : SavedAs writeObj st dir dents st') (hnodup : dir.names.Nodup) :
    Desc Dirent.name (Server.sortDirents dents) ∧
      ∀ n, findDirent n (Server.sortDirents dents) = findDirent n dents := by
  have hu : UniqueKeys Dirent.name dents := by
    rw [UniqueKeys, h.names]
    exact hnodup
  refine ⟨desc_iff.2 ⟨pairwise_insertionSort _ _, ?_⟩, findDirent_sortDirents hu⟩
  exact ((perm_insertionSort _ _).map _).nodup_iff.2 hu

theorem Pruned.eq_of_nil {X : FsStore Id} {id id' : Id} (h : Pruned X now [] id id')
    (hdesc : ∀ es, X.getSeafdir id = some es → Desc Dirent.name es) : id' = id := by
  cases h with
  | mk hes hes' hdesc' _ hkept _ _ =>
    obtain rfl := Pruned.desc_ext hdesc' (hdesc _ hes) fun n => hkept n not_mem_nil rfl
    rw [← FsStore.getSeafdir_id hes', FsStore.getSeafdir_id hes]

/-- **What is saved is the pruned tree**, in every store that holds it and the library, if saving
    changes no mode. -/
theorem Stands.pruned {X : FsStore Id} (h : Stands own now R es dir)
    (hmodes : ∀ p sub n d, dir.memory p = some sub → sub.lookup n = some (d, none) →
      fileMode d.mode = d.mode)
    (hsub : SubTrees (Desc Dirent.name) lib k es) (hlib : lib ≤ X)
    (hcommit : commitTree writeObj dir st = some (dents, st')) (hst : own ≤ st) (hX : st' ≤ X)
    {id : Id} (hid : X.getSeafdir id = some es)
    (hsaved : X.getSeafdir (seafDirId (Server.sortDirents dents)) =
      some (Server.sortDirents dents)) :
    Pruned X now R id (seafDirId (Server.sortDirents dents)) := by
  induction h generalizing st st' dents k id with
  | @mk R es dir hnodup hnone hleft _ ih =>
    have hsavedAs := commitTree_savedAs hcommit
    obtain ⟨hdesc, hfind⟩ := hsavedAs.desc hnodup
    -- a directory in memory, below an entry that is left
    have hloaded : ∀ n d sub, leftIn R es n = some d → d.isDir = true →
        (own.getSeafdir d.id).isSome →
        dir.lookup n = some (stamp now (after n R) d, some sub) →
        ∃ i, findDirent n (Server.sortDirents dents) =
            some ((stamp now (after n R) d).withId i) ∧ Pruned X now (after n R) d.id i := by
      intro n d sub hd hdir hsome hlookup
      obtain ⟨es', hes'⟩ := isSome_iff_exists.1 hsome
      obtain ⟨hlibes, hsub'⟩ := hsub.load (leftIn_some hd).2 hdir hes'
      obtain ⟨st₁, st₂, es₂, hle₁, hcommit₂, hle₂, hsaved₂, hfind₂⟩ :=
        hsavedAs.loaded n _ sub hlookup
      rw [Dirent.withFileMode_of_isDir (by simpa using hdir)] at hfind₂
      refine ⟨_, (hfind n).trans hfind₂, ?_⟩
      refine ih n d es' _ sub hd hes' hlookup (fun p sub' m d' hsub' => ?_) hsub' hcommit₂
        (hst.trans hle₁) (hle₂.trans hX) (FsStore.getSeafdir_mono hlib hlibes)
        (FsStore.getSeafdir_mono hX hsaved₂)
      refine hmodes (n :: p) sub' m d' ?_
      rw [ChangeSetDir.memory, hlookup]
      exact hsub'
    refine .mk hid hsaved hdesc (fun n hn => ?_) (fun n hn hafter => ?_) (fun n hn hafter => ?_)
      fun n d d' hn hafter hd hd' => ?_
    · rw [hfind, hsavedAs.absent n (hnone n (leftIn_of_mem hn)).1]
    · have hl := leftIn_of_notMem es hn
      cases hd : findDirent n es with
      | none => rw [hfind, hsavedAs.absent n (hnone n (hl.trans hd)).1]
      | some d =>
        rcases hleft n d (hl.trans hd) with ⟨hlookup, -⟩ | ⟨hdir, hsome, sub, hlookup⟩
        · rw [hfind, hsavedAs.stored n d hlookup,
            d.withFileMode_eq_self (hmodes [] dir n d rfl hlookup)]
        · obtain ⟨i, hi, hpruned⟩ := hloaded n d sub (hl.trans hd) hdir hsome hlookup
          rw [hafter] at hi hpruned
          obtain ⟨es', hes', hdesc'⟩ := (hsub.2 d (mem_of_findDirent hd).1 hdir).readable
          have heq : i = d.id := hpruned.eq_of_nil fun es₁ hes₁ => by
            obtain rfl := mem_unique (FsStore.getSeafdir_mono hlib hes') hes₁
            exact hdesc'
          rw [hi, heq]
          rfl
    · have hl := leftIn_of_notMem es hn
      cases hd : findDirent n es with
      | none =>
        rcases (hnone n (hl.trans hd)).2 with hmem | hnil
        · exact absurd hmem hn
        · exact absurd hnil hafter
      | some d =>
        rcases hleft n d (hl.trans hd) with ⟨-, hnil⟩ | ⟨hdir, hsome, sub, hlookup⟩
        · exact absurd hnil hafter
        · obtain ⟨i, hi, -⟩ := hloaded n d sub (hl.trans hd) hdir hsome hlookup
          exact ⟨d, i, rfl, hdir, hi⟩
    · have hl := (leftIn_of_notMem es hn).trans hd
      rcases hleft n d hl with ⟨-, hnil⟩ | ⟨hdir, hsome, sub, hlookup⟩
      · exact absurd hnil hafter
      · obtain ⟨i, hi, hpruned⟩ := hloaded n d sub hl hdir hsome hlookup
        obtain rfl := mem_unique hi hd'
        exact hpruned

/-! ## The entries in memory -/

theorem Stands.of_loaded (h : Stands own now R es dir) {c : Dirent Id}
    (hm : dir.lookup m = some (c, some sub)) :
    ∃ d es', leftIn R es m = some d ∧ c.isDir = true ∧ d.isDir = true ∧
      own.getSeafdir d.id = some es' ∧ Stands own now (after m R) es' sub := by
  obtain ⟨-, hnone, hleft, hsubs⟩ := h
  cases hd : leftIn R es m with
  | none =>
    rw [(hnone m hd).1] at hm
    cases hm
  | some d =>
    rcases hleft m d hd with ⟨hlookup, -⟩ | ⟨hdir, hsome, sub', hlookup⟩
    · cases hlookup.symm.trans hm
    · cases hlookup.symm.trans hm
      obtain ⟨es', hes'⟩ := isSome_iff_exists.1 hsome
      exact ⟨d, es', rfl, by simpa using hdir, hdir, hes', hsubs m d es' _ sub hd hes' hm⟩

theorem SubTrees.entryIn_load (hsub : SubTrees P lib k es) (hd : findDirent m es = some d)
    (hdir : d.isDir = true) (hes' : own.getSeafdir d.id = some es') (p : List Name) (n : Name) :
    entryIn lib es (m :: p ++ [n]) = entryIn lib es' (p ++ [n]) := by
  rw [cons_append, entryIn_cons es m (concat_ne_nil _ _), hd, subEntries, if_pos hdir,
    (hsub.load hd hdir hes').1, getD_some]

theorem Stands.entryIn_memory (h : Stands own now R es dir) (hsub : SubTrees P lib k es)
    (hR : [] ∉ R) (hmem : dir.memory p = some sub) (hn : sub.lookup n = some (d, none)) :
    entryIn lib es (p ++ [n]) = some d ∧ ∀ t ∈ R, ¬ t <+: p ++ [n] := by
  induction p generalizing R es dir with
  | nil =>
    cases hmem
    obtain ⟨-, hnone, hleft, -⟩ := h
    cases hd : leftIn R es n with
    | none =>
      rw [(hnone n hd).1] at hn
      cases hn
    | some d' =>
      rcases hleft n d' hd with ⟨hlookup, hafter⟩ | ⟨-, -, sub', hlookup⟩
      · cases hlookup.symm.trans hn
        obtain ⟨hnotMem, hfind⟩ := leftIn_some hd
        refine ⟨hfind, fun t ht hpre => ?_⟩
        rcases prefix_concat_iff.1 hpre with rfl | hpre
        · exact hnotMem ht
        · exact hR (prefix_nil.1 hpre ▸ ht)
      · cases hlookup.symm.trans hn
  | cons m p ih =>
    obtain ⟨c, sub₁, hm, hmem⟩ := ChangeSetDir.memory_cons hmem
    obtain ⟨d₁, es', hd₁, -, hdir, hes', hstands⟩ := h.of_loaded hm
    obtain ⟨hnotMem, hfind⟩ := leftIn_some hd₁
    obtain ⟨hentry, hleft⟩ := ih hstands (hsub.load hfind hdir hes').2
      (fun hnil => hnotMem (mem_after.1 hnil)) hmem
    refine ⟨(hsub.entryIn_load hfind hdir hes' p n).trans hentry, fun t ht hpre => ?_⟩
    cases t with
    | nil => exact hR ht
    | cons n' t =>
      obtain ⟨rfl, hrest⟩ := cons_prefix_cons.1 hpre
      exact hleft t (mem_after.2 ht) hrest

theorem Stands.lookup_memory (h : Stands own now R es dir) (hsub : SubTrees P lib k es)
    (hmem : dir.memory p = some sub) (hd : entryIn lib es (p ++ [n]) = some d)
    (hleft : ∀ t ∈ R, ¬ t <+: p ++ [n]) : sub.lookup n = some (d, none) ∨ d.isDir = true := by
  induction p generalizing R es dir with
  | nil =>
    cases hmem
    obtain ⟨-, -, hkept, -⟩ := h
    have hn : leftIn R es n = some d :=
      (leftIn_of_notMem es fun hn => hleft _ hn prefix_rfl).trans hd
    exact (hkept n d hn).imp And.left And.left
  | cons m p ih =>
    obtain ⟨c, sub₁, hm, hmem⟩ := ChangeSetDir.memory_cons hmem
    obtain ⟨d₁, es', hd₁, -, hdir, hes', hstands⟩ := h.of_loaded hm
    have hfind := (leftIn_some hd₁).2
    refine ih hstands (hsub.load hfind hdir hes').2 hmem ?_ fun t ht hpre => ?_
    · rwa [hsub.entryIn_load hfind hdir hes'] at hd
    · exact hleft _ (mem_after.1 ht) (cons_prefix_cons.2 ⟨rfl, hpre⟩)

/-- **A file in a directory in memory** is saved with the mode bits set. -/
theorem Stands.entryIn_saved {X : FsStore Id} (h : Stands own now R es dir)
    (hcommit : commitTree writeObj dir st = some (dents, st')) (hX : st' ≤ X)
    (hmem : dir.memory p = some sub) (hn : sub.lookup n = some (d, none)) :
    entryIn X dents (p ++ [n]) = some d.withFileMode := by
  induction p generalizing R es dir st st' dents with
  | nil =>
    cases hmem
    exact (commitTree_savedAs hcommit).stored n d hn
  | cons m p ih =>
    obtain ⟨c, sub₁, hm, hmem⟩ := ChangeSetDir.memory_cons hmem
    obtain ⟨-, es', -, hdir, -, -, hstands⟩ := h.of_loaded hm
    obtain ⟨st₁, st₂, es₂, -, hcommit₂, hle, hsaved, hfind⟩ :=
      (commitTree_savedAs hcommit).loaded m c sub₁ hm
    rw [cons_append, entryIn_cons dents m (concat_ne_nil _ _), hfind, subEntries,
      if_pos (by simpa using hdir), Dirent.withFileMode_id, Dirent.withId_id,
      FsStore.getSeafdir_mono hX hsaved, getD_some,
      entryIn_sortDirents (hstands.unique hcommit₂)]
    exact ih hstands hcommit₂ (hle.trans hX) hmem

end Stands

end CloudFile
