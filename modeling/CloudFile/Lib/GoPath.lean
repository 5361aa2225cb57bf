/-
  Slash-separated paths and their lexical processing, after Go's `path/filepath` on Unix. A path
  is a list of characters; `fields` are its non-empty parts between slashes. What a rooted path
  stands for is the list `comps` of the fields of its cleaned form; cleaning it first changes
  nothing (`comps_clean`).
-/
import Mathlib.Data.List.Basic
import Mathlib.Data.List.DropRight

namespace GoPath

open List

/-- The part in progress before the next slash, and the complete parts after it. -/
def fieldsAux : List Char → List Char × List (List Char)
  | [] => ([], [])
  | c :: p =>
    let (cur, fs) := fieldsAux p
    if c = '/' then ([], if cur = [] then fs else cur :: fs) else (c :: cur, fs)

/-- The non-empty parts between slashes. -/
def fields (p : List Char) : List (List Char) :=
  if (fieldsAux p).1 = [] then (fieldsAux p).2 else (fieldsAux p).1 :: (fieldsAux p).2

def dot : List Char := ['.']
def dotdot : List Char := ['.', '.']

@[simp] theorem dotdot_ne_dot : dotdot ≠ dot := by decide

/-- One part of a path in the cleaning, over the stack of the parts kept so far. -/
def cleanStep (rooted : Bool) (stack : List (List Char)) (s : List Char) : List (List Char) :=
  if s = dot then stack
  else if s = dotdot then match stack with
    | [] => if rooted then [] else [s]
    | top :: rest => if top = dotdot then s :: stack else rest
  else s :: stack

def cleanFields (rooted : Bool) (fs : List (List Char)) : List (List Char) :=
  (fs.foldl (cleanStep rooted) []).reverse

def isRooted (p : List Char) : Bool := p.head? = some '/'

def joinFields : List (List Char) → List Char
  | [] => []
  | [s] => s
  | s :: s' :: fs => s ++ '/' :: joinFields (s' :: fs)

def clean (p : List Char) : List Char :=
  let fs := cleanFields (isRooted p) (fields p)
  if isRooted p then '/' :: joinFields fs
  else if fs = [] then dot else joinFields fs

def join : List (List Char) → List Char
  | [] => []
  | e :: es => if e = [] then join es else clean (List.intercalate ['/'] (e :: es))

def upToSlash (p : List Char) : List Char := p.rdropWhile (· ≠ '/')

def dir (p : List Char) : List Char := clean (upToSlash p)

def base (p : List Char) : List Char :=
  match (fields p).getLast? with
  | some s => s
  | none => if p = [] then dot else ['/']

/-- The components of a path below the root. -/
def comps (p : List Char) : List (List Char) := cleanFields true (fields p)

/-! ## Fields -/

/-- A string that can be a part of a path. -/
def Part (s : List Char) : Prop := s ≠ [] ∧ '/' ∉ s

instance : DecidablePred Part := fun s => inferInstanceAs (Decidable (s ≠ [] ∧ '/' ∉ s))

/-- A part that cleaning keeps. -/
def Plain (s : List Char) : Prop := s ≠ dot ∧ s ≠ dotdot

instance : DecidablePred Plain := fun s => inferInstanceAs (Decidable (s ≠ dot ∧ s ≠ dotdot))

@[simp] theorem fields_nil : fields [] = [] := rfl

@[simp] theorem fields_slash (p : List Char) : fields ('/' :: p) = fields p := by
  simp [fields, fieldsAux]

theorem fieldsAux_append_slash (p q : List Char) :
    fieldsAux (p ++ '/' :: q) = ((fieldsAux p).1, (fieldsAux p).2 ++ fields q) := by
  induction p with
  | nil => simp [fieldsAux, fields]
  | cons c p ih =>
    simp only [cons_append, fieldsAux, ih]
    split_ifs <;> simp

theorem fields_append_slash (p q : List Char) :
    fields (p ++ '/' :: q) = fields p ++ fields q := by
  unfold fields
  rw [fieldsAux_append_slash]
  simp only [fields]
  split_ifs <;> simp

theorem splitOn_eq_fieldsAux (p : List Char) :
    ∃ rest, p.splitOn '/' = (fieldsAux p).1 :: rest ∧
      rest.filter (· ≠ []) = (fieldsAux p).2 := by
  induction p with
  | nil => exact ⟨[], rfl, rfl⟩
  | cons c p ih =>
    obtain ⟨rest, hsplit, hrest⟩ := ih
    rw [splitOn_cons_eq_if_modifyHead, hsplit]
    by_cases hc : c = '/'
    · refine ⟨(fieldsAux p).1 :: rest, by simp [fieldsAux, hc], ?_⟩
      rw [filter_cons, hrest]
      simp [fieldsAux, hc]
    · exact ⟨rest, by simp [fieldsAux, hc], by simpa [fieldsAux, hc] using hrest⟩

variable {p s : List Char} {fs : List (List Char)}

theorem mem_fields (hs : s ≠ []) : s ∈ fields p ↔ s ∈ p.splitOn '/' := by
  obtain ⟨rest, hsplit, hrest⟩ := splitOn_eq_fieldsAux p
  have hmem : s ∈ rest ↔ s ∈ (fieldsAux p).2 := by
    rw [← hrest]
    simp [hs]
  rw [hsplit, mem_cons, hmem]
  unfold fields
  split
  next hcur => simp [hcur, hs]
  next => rw [mem_cons]

theorem fieldsAux_of_notMem (h : '/' ∉ s) : fieldsAux s = (s, []) := by
  induction s with
  | nil => rfl
  | cons c s ih =>
    simp only [mem_cons, not_or] at h
    simp [fieldsAux, ih h.2, Ne.symm h.1]

theorem fields_part (h : Part s) : fields s = [s] := by
  simp [fields, fieldsAux_of_notMem h.2, h.1]

theorem fieldsAux_part (p : List Char) :
    '/' ∉ (fieldsAux p).1 ∧ ∀ s ∈ (fieldsAux p).2, Part s := by
  induction p with
  | nil => simp [fieldsAux]
  | cons c p ih =>
    simp only [fieldsAux]
    split_ifs with hc hcur
    · exact ⟨by simp, ih.2⟩
    · refine ⟨by simp, fun s hs => ?_⟩
      rcases mem_cons.1 hs with rfl | hs
      exacts [⟨hcur, ih.1⟩, ih.2 s hs]
    · exact ⟨by simpa [Ne.symm hc] using ih.1, ih.2⟩

theorem part_of_mem_fields (h : s ∈ fields p) : Part s := by
  unfold fields at h
  split_ifs at h with hcur
  · exact (fieldsAux_part p).2 s h
  · rcases mem_cons.1 h with rfl | h
    exacts [⟨hcur, (fieldsAux_part p).1⟩, (fieldsAux_part p).2 s h]

theorem flatten_fields (p : List Char) : (fields p).flatten = p.filter (· ≠ '/') := by
  have haux : (fieldsAux p).1 ++ (fieldsAux p).2.flatten = p.filter (· ≠ '/') := by
    induction p with
    | nil => rfl
    | cons c p ih =>
      rw [filter_cons, ← ih]
      simp only [fieldsAux]
      split_ifs <;> simp_all
  rw [← haux, fields]
  split_ifs with hcur
  · rw [hcur, nil_append]
  · rfl

theorem fields_joinFields (h : ∀ s ∈ fs, Part s) :
    fields (joinFields fs) = fs := by
  induction fs using joinFields.induct with
  | case1 => rfl
  | case2 s => exact fields_part (h s (by simp))
  | case3 s s' fs ih =>
    rw [joinFields, fields_append_slash, fields_part (h s (by simp)),
      ih fun t ht => h t (mem_cons_of_mem _ ht)]
    rfl

theorem fields_intercalate (ls : List (List Char)) :
    fields (['/'].intercalate ls) = ls.flatMap fields := by
  induction ls with
  | nil => rfl
  | cons p ls ih =>
    cases ls with
    | nil => simp [List.intercalate]
    | cons q ls =>
      have hcons : ['/'].intercalate (p :: q :: ls) = p ++ '/' :: ['/'].intercalate (q :: ls) := by
        simp [List.intercalate]
      rw [hcons, fields_append_slash, ih]
      rfl

theorem upToSlash_cases (p : List Char) :
    '/' ∉ p ∧ upToSlash p = [] ∨
    ∃ q t, p = q ++ '/' :: t ∧ '/' ∉ t ∧ upToSlash p = q ++ ['/'] := by
  induction p using reverseRecOn with
  | nil => exact .inl ⟨by simp, rfl⟩
  | append_singleton p c ih =>
    by_cases hc : c = '/'
    · subst hc
      exact .inr ⟨p, [], rfl, by simp, rdropWhile_concat_neg _ _ _ (by simp)⟩
    · have hu : upToSlash (p ++ [c]) = upToSlash p :=
        rdropWhile_concat_pos _ _ _ (by simpa using hc)
      rw [hu]
      rcases ih with ⟨hp, hn⟩ | ⟨q, t, rfl, ht, hq⟩
      · exact .inl ⟨by simp [hp, Ne.symm hc], hn⟩
      · exact .inr ⟨q, t ++ [c], by simp, by simp [ht, Ne.symm hc], hq⟩

theorem upToSlash_of_notMem (h : '/' ∉ p) : upToSlash p = [] :=
  rdropWhile_eq_nil_iff.2 fun c hc => by
    simpa using fun he : c = '/' => h (he ▸ hc)

/-! ## Cleaning -/

variable {r : Bool} {stack : List (List Char)}

theorem foldl_cleanStep_plain (h : ∀ s ∈ fs, Plain s) (stack : List (List Char)) :
    fs.foldl (cleanStep r) stack = fs.reverse ++ stack := by
  induction fs generalizing stack with
  | nil => rfl
  | cons s fs ih =>
    have hs := h s (by simp)
    rw [foldl_cons, ih fun t ht => h t (mem_cons_of_mem _ ht)]
    simp [cleanStep, hs.1, hs.2]

theorem cleanFields_plain (h : ∀ s ∈ fs, Plain s) :
    cleanFields r fs = fs := by
  simp [cleanFields, foldl_cleanStep_plain h]

theorem cleanFields_concat_plain (h : Plain s) :
    cleanFields r (fs ++ [s]) = cleanFields r fs ++ [s] := by
  simp [cleanFields, cleanStep, h.1, h.2]

theorem cleanStep_plain (h : ∀ t ∈ stack, Plain t) : ∀ t ∈ cleanStep true stack s, Plain t := by
  by_cases hd : s = dot
  · simpa [cleanStep, hd] using h
  by_cases hdd : s = dotdot
  · cases stack with
    | nil => simp [cleanStep, hdd]
    | cons top rest =>
      have htop := h top (by simp)
      simpa [cleanStep, hdd, htop.2] using fun t ht => h t (mem_cons_of_mem _ ht)
  · simpa [cleanStep, hd, hdd, Plain] using h

theorem foldl_cleanStep_true (h : ∀ t ∈ stack, Plain t) :
    ∀ t ∈ fs.foldl (cleanStep true) stack, Plain t := by
  induction fs generalizing stack with
  | nil => exact h
  | cons s fs ih => exact ih (cleanStep_plain h)

theorem plain_of_mem_comps (h : s ∈ comps p) : Plain s :=
  foldl_cleanStep_true (by simp) s (mem_reverse.1 h)

theorem mem_cleanStep {t : List Char} (h : s ∈ cleanStep r stack t) : s = t ∨ s ∈ stack := by
  by_cases hd : t = dot
  · exact .inr (by simpa [cleanStep, hd] using h)
  by_cases hdd : t = dotdot
  · cases stack with
    | nil => cases r <;> simp_all [cleanStep]
    | cons top rest =>
      by_cases htop : top = dotdot
      · simpa [cleanStep, hdd, htop] using h
      · exact .inr (mem_cons_of_mem _ (by simpa [cleanStep, hdd, htop] using h))
  · simpa [cleanStep, hd, hdd] using h

theorem mem_foldl_cleanStep (h : s ∈ fs.foldl (cleanStep r) stack) : s ∈ fs ∨ s ∈ stack := by
  induction fs generalizing stack with
  | nil => exact .inr h
  | cons t fs ih =>
    rcases ih h with h | h
    · exact .inl (mem_cons_of_mem _ h)
    · rcases mem_cleanStep h with rfl | h
      exacts [.inl (by simp), .inr h]

theorem part_of_mem_cleanFields (h : s ∈ cleanFields r (fields p)) :
    Part s := by
  rcases mem_foldl_cleanStep (mem_reverse.1 h) with h | h
  exacts [part_of_mem_fields h, by simp at h]

/-- Cleaning makes no `..` part. -/
theorem dotdot_mem_of_clean (h : dotdot ∈ fields (clean p)) :
    dotdot ∈ fields p := by
  have hfields : dotdot ∈ cleanFields (isRooted p) (fields p) := by
    have hjoin := fields_joinFields fun s => part_of_mem_cleanFields (r := isRooted p) (p := p)
    unfold clean at h
    by_cases hroot : isRooted p = true
    · rwa [if_pos hroot, fields_slash, hjoin] at h
    by_cases hnil : cleanFields (isRooted p) (fields p) = []
    · rw [if_neg hroot, if_pos hnil] at h
      exact absurd h (by decide)
    · rwa [if_neg hroot, if_neg hnil, hjoin] at h
  exact (mem_foldl_cleanStep (mem_reverse.1 hfields)).resolve_right not_mem_nil

theorem dotdot_mem_of_join {q : List Char} (h : dotdot ∈ fields (join [p, q])) :
    dotdot ∈ fields p ∨ dotdot ∈ fields q := by
  by_cases hp : p = []
  · by_cases hq : q = []
    · simp [join, hp, hq] at h
    · refine .inr (dotdot_mem_of_clean ?_)
      simpa [join, hp, hq, intercalate] using h
  · have hclean : dotdot ∈ fields (p ++ '/' :: q) := by
      refine dotdot_mem_of_clean ?_
      simpa [join, hp, intercalate] using h
    rwa [fields_append_slash, mem_append] at hclean

theorem foldl_cleanStep_false (fs stack : List (List Char)) (k : ℕ) (h : ∀ t ∈ stack, Plain t) :
    ∃ k', fs.foldl (cleanStep false) (stack ++ List.replicate k dotdot) =
      fs.foldl (cleanStep true) stack ++ List.replicate k' dotdot := by
  induction fs generalizing stack k with
  | nil => exact ⟨k, rfl⟩
  | cons s fs ih =>
    simp only [foldl_cons]
    by_cases hd : s = dot
    · simpa [cleanStep, hd] using ih stack k h
    by_cases hdd : s = dotdot
    · subst hdd
      cases stack with
      | nil =>
        have hstep : cleanStep false ([] ++ replicate k dotdot) dotdot =
            [] ++ replicate (k + 1) dotdot := by
          cases k <;> simp [cleanStep, hd, replicate_succ]
        rw [hstep]
        simpa [cleanStep, hd] using ih [] (k + 1) h
      | cons top rest =>
        have htop := (h top (by simp)).2
        simpa [cleanStep, hd, htop] using ih rest k fun t ht => h t (mem_cons_of_mem _ ht)
    · have hs : ∀ t ∈ s :: stack, Plain t := by simpa [Plain, hd, hdd] using h
      simpa [cleanStep, hd, hdd] using ih (s :: stack) k hs

theorem cleanFields_false (fs : List (List Char)) :
    ∃ k, cleanFields false fs = List.replicate k dotdot ++ cleanFields true fs := by
  obtain ⟨k, hk⟩ := foldl_cleanStep_false fs [] 0 (by simp)
  refine ⟨k, ?_⟩
  simp only [replicate_zero, append_nil] at hk
  simp [cleanFields, hk]

theorem cleanFields_true_replicate (k : ℕ) (h : ∀ s ∈ fs, Plain s) :
    cleanFields true (List.replicate k dotdot ++ fs) = fs := by
  have hrep : (replicate k dotdot).foldl (cleanStep true) [] = [] := by
    induction k with
    | zero => rfl
    | succ k ih => simpa [replicate_succ, cleanStep, dot, dotdot] using ih
  simp [cleanFields, foldl_append, hrep, foldl_cleanStep_plain h]

/-- **Cleaning keeps the components.** -/
theorem comps_clean (p : List Char) : comps (clean p) = comps p := by
  have hplain : ∀ s ∈ cleanFields true (fields p), Plain s := fun s hs => plain_of_mem_comps hs
  unfold clean
  cases hr : isRooted p with
  | true =>
    simp only [if_true, comps, fields_slash]
    rw [fields_joinFields fun s hs => part_of_mem_cleanFields hs, cleanFields_plain hplain]
  | false =>
    obtain ⟨k, hk⟩ := cleanFields_false (fields p)
    simp only [Bool.false_eq_true, if_false]
    split_ifs with hnil
    · have : cleanFields true (fields p) = [] := (append_eq_nil_iff.1 (hk ▸ hnil)).2
      simp [comps, this]; decide
    · simp only [comps]
      rw [fields_joinFields fun s hs => part_of_mem_cleanFields hs, hk,
        cleanFields_true_replicate k hplain]

theorem clean_of_plain (hroot : isRooted p = false) (hne : fields p ≠ [])
    (h : ∀ s ∈ fields p, Plain s) : clean p = joinFields (fields p) := by
  unfold clean
  rw [hroot, cleanFields_plain h]
  simp [hne]

theorem comps_eq_fields (h : ∀ s ∈ fields p, Plain s) : comps p = fields p :=
  cleanFields_plain h

theorem fields_join_root (p : List Char) : fields (join [['/'], p]) = comps p := by
  have hfs : fields ('/' :: '/' :: p) = fields p := by simp
  simp only [join, reduceCtorEq, if_false, intercalate, intersperse,
    flatten_cons, cons_append, nil_append, flatten_nil, append_nil,
    clean, isRooted, head?_cons, decide_true, if_true, fields_slash]
  exact fields_joinFields fun s hs => part_of_mem_cleanFields hs

/-! ## The last part -/

def EndsInPart (p : List Char) : Prop := p ≠ [] ∧ p.getLast? ≠ some '/'

instance (p : List Char) : Decidable (EndsInPart p) :=
  inferInstanceAs (Decidable (p ≠ [] ∧ p.getLast? ≠ some '/'))

theorem base_of_fields (h : fields p = fs ++ [s]) :
    base p = s := by
  simp [base, h]

theorem fields_endsInPart (h : EndsInPart p) :
    fields p = fields (upToSlash p) ++ [base p] := by
  rcases upToSlash_cases p with ⟨hp, hu⟩ | ⟨q, t, rfl, ht, hu⟩
  · have hf := fields_part ⟨h.1, hp⟩
    rw [hu, base_of_fields (show fields p = [] ++ [p] from hf), hf]; rfl
  · have htne : t ≠ [] := by rintro rfl; exact h.2 (by simp)
    have hf : fields (q ++ '/' :: t) = fields q ++ [t] := by
      rw [fields_append_slash, fields_part ⟨htne, ht⟩]
    rw [base_of_fields hf, hf, hu, fields_append_slash]; simp

theorem upToSlash_of_not_endsInPart (h : ¬ EndsInPart p) : upToSlash p = p := by
  refine (rdropWhile_eq_self_iff).2 fun hp => ?_
  have hl : p.getLast? = some '/' := by
    by_contra hne
    exact h ⟨hp, hne⟩
  rw [getLast?_eq_some_getLast hp] at hl
  simpa using hl

theorem comps_dir (p : List Char) : comps (dir p) = comps (upToSlash p) := comps_clean _

theorem endsInPart_joinFields (hne : fs ≠ []) (h : ∀ s ∈ fs, Part s) :
    EndsInPart (joinFields fs) := by
  induction fs using joinFields.induct with
  | case1 => exact absurd rfl hne
  | case2 s =>
    obtain ⟨hs, hslash⟩ := h s (by simp)
    exact ⟨hs, fun hl => hslash (mem_of_getLast? hl)⟩
  | case3 s s' fs ih =>
    obtain ⟨h0, h1⟩ := ih (by simp) fun t ht => h t (mem_cons_of_mem _ ht)
    refine ⟨by simp [joinFields], ?_⟩
    rw [joinFields, getLast?_append_of_ne_nil _ (by simp), getLast?_cons_of_ne_nil h0]
    exact h1

variable {es ps : List (List Char)} {n : List Char}

theorem endsInPart_joinFields_append (xs : List (List Char)) (hne : es ≠ [])
    (h : ∀ s ∈ es, Part s) :
    EndsInPart (joinFields (xs ++ es)) := by
  induction xs with
  | nil => exact endsInPart_joinFields hne h
  | cons x xs ih =>
    obtain ⟨y, ys, hys⟩ := exists_cons_of_ne_nil (append_ne_nil_of_right_ne_nil xs hne)
    rw [hys] at ih
    refine ⟨by simp [hys, joinFields], ?_⟩
    rw [cons_append, hys, joinFields, getLast?_append_of_ne_nil _ (by simp),
      getLast?_cons_of_ne_nil ih.1]
    exact ih.2

theorem endsInPart_cons {c : Char} (h : EndsInPart p) : EndsInPart (c :: p) :=
  ⟨by simp, by rw [getLast?_cons_of_ne_nil h.1]; exact h.2⟩

theorem fields_clean (h : comps p ≠ []) :
    EndsInPart (clean p) ∧
      ∃ k, fields (clean p) = List.replicate k dotdot ++ comps p := by
  have hpart : ∀ r, ∀ s ∈ cleanFields r (fields p), Part s := fun r s hs =>
    part_of_mem_cleanFields hs
  unfold clean
  cases isRooted p with
  | true =>
    simp only [if_true, fields_slash, fields_joinFields (hpart true)]
    exact ⟨endsInPart_cons (endsInPart_joinFields h (hpart true)), 0, rfl⟩
  | false =>
    obtain ⟨k, hk⟩ := cleanFields_false (fields p)
    have hne : cleanFields false (fields p) ≠ [] := by
      rw [hk]; exact append_ne_nil_of_right_ne_nil _ h
    simp only [Bool.false_eq_true, if_false, hne]
    rw [fields_joinFields (hpart false)]
    exact ⟨endsInPart_joinFields hne (hpart false), k, hk⟩

/-- **The last component** of a path is the base of its cleaned form, and the others are those of
    the directory of that form. -/
theorem clean_split (h : comps p = ps ++ [n]) :
    EndsInPart (clean p) ∧ base (clean p) = n ∧ comps (dir (clean p)) = ps := by
  obtain ⟨hend, k, hk⟩ := fields_clean (p := p) (by simp [h])
  have hplain : ∀ s ∈ ps, Plain s := fun s hs =>
    plain_of_mem_comps (p := p) (by simp [h, hs])
  rw [h, ← append_assoc] at hk
  have hlast := (fields_endsInPart hend).symm.trans hk
  obtain ⟨hinit, hbase⟩ := append_inj' hlast rfl
  refine ⟨hend, by simpa using hbase, ?_⟩
  rw [comps_dir, comps, hinit, cleanFields_true_replicate k hplain]

theorem clean_rooted (h : isRooted p = true) :
    clean p = '/' :: joinFields (comps p) := by
  simp [clean, comps, h]

theorem isRooted_upToSlash (h : isRooted p = true) :
    isRooted (upToSlash p) = true := by
  rcases upToSlash_cases p with ⟨hp, -⟩ | ⟨q, t, rfl, -, hu⟩
  · cases p with
    | nil => simp [isRooted] at h
    | cons c p =>
      have hc : c = '/' := by simpa [isRooted] using h
      exact absurd (by simp [hc]) hp
  · rw [hu]
    cases q with
    | nil => rfl
    | cons c q => simpa [isRooted] using h

theorem clean_rooted_split (hroot : isRooted p = true)
    (hclean : clean p = p) (h : comps p = ps ++ [n]) :
    base p = n ∧ dir p = '/' :: joinFields ps := by
  obtain ⟨-, hbase, hdir⟩ := clean_split h
  rw [hclean] at hbase hdir
  refine ⟨hbase, ?_⟩
  rw [dir, clean_rooted (isRooted_upToSlash hroot), ← comps_dir, hdir]

theorem cleanFields_append_plain (h : ∀ e ∈ es, Plain e) :
    cleanFields r (fs ++ es) = cleanFields r fs ++ es := by
  rw [cleanFields, foldl_append, foldl_cleanStep_plain h]
  simp [cleanFields]

theorem join_parts (hroot : isRooted p = true) (hpart : ∀ e ∈ es, Part e)
    (hplain : ∀ e ∈ es, Plain e) :
    join (p :: es) = '/' :: joinFields (comps p ++ es) := by
  have hne : p ≠ [] := by
    rintro rfl
    simp [isRooted] at hroot
  have hhead : isRooted (intercalate ['/'] (p :: es)) = true := by
    obtain ⟨c, q, rfl⟩ := exists_cons_of_ne_nil hne
    cases es <;> simpa [isRooted, intercalate] using hroot
  have hfields : es.flatMap fields = es := by
    rw [flatMap_congr fun e he => fields_part (hpart e he)]
    simp
  rw [join, if_neg hne, clean_rooted hhead, comps, fields_intercalate, flatMap_cons, hfields,
    cleanFields_append_plain hplain, comps]

/-! ## Splitting at the last slash -/

theorem fields_rdropWhile_slash (p : List Char) :
    fields (p.rdropWhile (· = '/')) = fields p := by
  induction p using reverseRecOn with
  | nil => rfl
  | append_singleton p c ih =>
    by_cases hc : c = '/'
    · subst hc
      rw [rdropWhile_concat_pos _ _ _ (by simp), ih, fields_append_slash]
      simp
    · rw [rdropWhile_concat_neg _ _ _ (by simpa using hc)]

theorem endsInPart_rdropWhile_slash (h : p.rdropWhile (· = '/') ≠ []) :
    EndsInPart (p.rdropWhile (· = '/')) := by
  refine ⟨h, fun hl => ?_⟩
  have hlast := rdropWhile_last_not _ p h
  rw [getLast?_eq_some_getLast h] at hl
  simp only [Option.some.injEq] at hl
  exact hlast (by rw [hl]; rfl)

theorem fields_ne_nil (h : EndsInPart p) : fields p ≠ [] := by
  rw [fields_endsInPart h]; simp

theorem upToSlash_append (p : List Char) : upToSlash p ++ p.rtakeWhile (· ≠ '/') = p :=
  rdropWhile_append_rtakeWhile

theorem split_at_slash (h : EndsInPart p) :
    fields p = fields (upToSlash p).dropLast ++ [p.rtakeWhile (· ≠ '/')] := by
  have hsplit := upToSlash_append p
  rcases upToSlash_cases p with ⟨hp, hu⟩ | ⟨q, t, rfl, ht, hu⟩
  · rw [hu, nil_append] at hsplit
    rw [hu, hsplit, fields_part ⟨h.1, hp⟩]; rfl
  · rw [hu, append_assoc, append_cancel_left_eq] at hsplit
    have ht' : (q ++ '/' :: t).rtakeWhile (· ≠ '/') = t := by simpa using hsplit
    have htne : t ≠ [] := by rintro rfl; exact h.2 (by simp)
    rw [ht', hu, dropLast_concat, fields_append_slash, fields_part ⟨htne, ht⟩]

theorem joinFields_eq_intercalate (fs : List (List Char)) :
    joinFields fs = List.intercalate ['/'] fs := by
  induction fs with
  | nil => rfl
  | cons s fs ih =>
    cases fs with
    | nil => simp [joinFields, intercalate]
    | cons s' fs =>
      rw [joinFields, ih]
      simp [intercalate]

/-- Parts without a slash can be read off their text. -/
theorem joinFields_inj {fs' : List (List Char)} (hne : fs ≠ []) (hne' : fs' ≠ [])
    (h : ∀ s ∈ fs, '/' ∉ s) (h' : ∀ s ∈ fs', '/' ∉ s) (heq : joinFields fs = joinFields fs') :
    fs = fs' := by
  rw [joinFields_eq_intercalate, joinFields_eq_intercalate] at heq
  rw [← splitOn_intercalate '/' h hne, heq, splitOn_intercalate '/' h' hne']

end GoPath
