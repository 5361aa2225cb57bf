/-
  The names under which a file is restored. The loop over the candidates ends: two candidates
  differ, and each one that is passed over is the name of a directory. Without an extension the
  null pointer is printed, and the name is none of those a numbering makes.
-/
import CloudFile.Revert.Model
import CloudFile.Move.Content

namespace CloudFile

open List

/-- The names that numbering a name makes, once or more often. -/
inductive Variant (name : Name) : Name → Prop
  | number (i : ℕ) : Variant name (numberedName name i)
  | again {n : Name} (i : ℕ) : Variant name n → Variant name (numberedName n i)

namespace Server

/-! ## Numbers -/

variable {i j : ℕ} {name : Name}

theorem repr_toList_injective (h : (Nat.repr i).toList = (Nat.repr j).toList) :
    i = j := by
  rw [Nat.toList_repr, Nat.toList_repr] at h
  have hread := congrArg (fun digits => Nat.ofDigitChars 10 digits 0) h
  simpa using hread

theorem isDigit_of_mem_repr {c : Char} (h : c ∈ (Nat.repr i).toList) :
    c.isDigit = true := by
  rw [Nat.toList_repr] at h
  exact Nat.isDigit_of_mem_toDigits (by omega) (by omega) h

theorem renamed_injective (h : renamed name i = renamed name j) :
    i = j := by
  unfold renamed at h
  simp only [append_assoc] at h
  have hrest := append_cancel_left (append_cancel_left h)
  exact repr_toList_injective (append_cancel_right hrest)

theorem length_lt_renamed (name : Name) (i : ℕ) : name.length < (renamed name i).length := by
  have hparts : name.length ≤ (filenameSplitext name).1.length +
      (printed (filenameSplitext name).2).length := by
    unfold filenameSplitext
    split
    · have happend : (name.rdropWhile (· ≠ '.')).length + (name.rtakeWhile (· ≠ '.')).length =
          name.length := by
        rw [← length_append, rdropWhile_append_rtakeWhile]
      simp only [printed, length_dropLast, length_cons]
      omega
    · simp [printed]
  unfold renamed
  simp only [length_append]
  have hopen : (" (".toList).length = 2 := rfl
  omega

/-- The names the loop tries, in turn. -/
def candidate (name : Name) : ℕ → Name
  | 0 => name
  | i + 1 => renamed name (i + 1)

theorem candidate_injective (name : Name) : Function.Injective (candidate name) := by
  intro i j h
  cases i with
  | zero =>
    cases j with
    | zero => rfl
    | succ j =>
      have hlen := length_lt_renamed name (j + 1)
      rw [← show name = renamed name (j + 1) from h] at hlen
      omega
  | succ i =>
    cases j with
    | zero =>
      have hlen := length_lt_renamed name (i + 1)
      rw [show renamed name (i + 1) = name from h] at hlen
      omega
    | succ j => exact renamed_injective h

/-! ## The extension -/

theorem renamed_of_dot (h : '.' ∈ name) (i : ℕ) :
    renamed name i = numberedName name i := by
  simp only [renamed, filenameSplitext, numberedName, h, if_true, printed, append_assoc]

theorem renamed_of_no_dot (h : '.' ∉ name) (i : ℕ) :
    renamed name i =
      name ++ (" (".toList ++ (Nat.repr i).toList ++ ")(null)".toList) := by
  simp only [renamed, filenameSplitext, h, if_false, printed, append_assoc]
  rfl

theorem numberedName_of_no_dot (h : '.' ∉ name) (i : ℕ) :
    numberedName name i = name ++ (" (".toList ++ (Nat.repr i).toList ++ ")".toList) := by
  simp only [numberedName, h, if_false]

theorem dot_notMem_number (i : ℕ) : '.' ∉ " (".toList ++ (Nat.repr i).toList ++ ")".toList := by
  intro hmem
  rcases mem_append.1 hmem with hmem | hmem
  · rcases mem_append.1 hmem with hmem | hmem
    · revert hmem
      decide
    · exact absurd (isDigit_of_mem_repr hmem) (by decide)
  · revert hmem
    decide

theorem Variant.of_no_dot {n : Name} (h : Variant name n) (hdot : '.' ∉ name) :
    '.' ∉ n ∧ ∃ m i, (m = name ∨ Variant name m) ∧ '.' ∉ m ∧ n = numberedName m i := by
  induction h with
  | number i =>
    refine ⟨?_, name, i, .inl rfl, hdot, rfl⟩
    rw [numberedName_of_no_dot hdot, mem_append, not_or]
    exact ⟨hdot, dot_notMem_number i⟩
  | @again m i hm ih =>
    refine ⟨?_, m, i, .inr hm, ih.1, rfl⟩
    rw [numberedName_of_no_dot ih.1, mem_append, not_or]
    exact ⟨ih.1, dot_notMem_number i⟩

theorem eq_of_append_cons {a b s t : List Char} {c : Char} (hs : c ∉ s) (ht : c ∉ t)
    (h : a ++ c :: s = b ++ c :: t) : a = b := by
  rcases append_eq_append_iff.1 h with ⟨x, rfl, hx⟩ | ⟨x, rfl, hx⟩
  · cases x with
    | nil => exact (append_nil a).symm
    | cons y x =>
      obtain ⟨-, rfl⟩ := List.cons.inj hx
      exact absurd (by simp) hs
  · cases x with
    | nil => exact append_nil b
    | cons y x =>
      obtain ⟨-, rfl⟩ := List.cons.inj hx
      exact absurd (by simp) ht

theorem number_eq (i : ℕ) : " (".toList ++ (Nat.repr i).toList ++ ")".toList =
    [' '] ++ '(' :: ((Nat.repr i).toList ++ ")".toList) := rfl

theorem numberedName_inj {m m' : Name} (hm : '.' ∉ m) (hm' : '.' ∉ m')
    (h : numberedName m i = numberedName m' j) : m = m' := by
  have hopen : ∀ k, '(' ∉ (Nat.repr k).toList ++ ")".toList := by
    intro k hmem
    rcases mem_append.1 hmem with hmem | hmem
    · exact absurd (isDigit_of_mem_repr hmem) (by decide)
    · revert hmem
      decide
  rw [numberedName_of_no_dot hm, numberedName_of_no_dot hm', number_eq, number_eq,
    ← append_assoc, ← append_assoc] at h
  exact append_cancel_right (eq_of_append_cons (hopen i) (hopen j) h)

/-- **The null pointer shows**: without an extension the candidate is not a numbered name. -/
theorem not_variant_renamed (hdot : '.' ∉ name) (i : ℕ) :
    ¬ Variant name (renamed name i) := by
  intro h
  obtain ⟨-, m, j, -, hm, heq⟩ := Variant.of_no_dot h hdot
  -- the character before the last bracket is an `l` on one side and a digit on the other
  have hleft : renamed name i =
      (name ++ (" (".toList ++ (Nat.repr i).toList ++ ")(nul".toList) ++ ['l']) ++ [')'] := by
    rw [renamed_of_no_dot hdot]
    simp
  have hright : numberedName m j = (m ++ " (".toList ++ (Nat.repr j).toList) ++ [')'] := by
    rw [numberedName_of_no_dot hm]
    simp
  rw [hleft, hright] at heq
  have hlast := congrArg getLast? (append_cancel_right heq)
  have hne : (Nat.repr j).toList ≠ [] := by
    rw [Nat.toList_repr]
    exact Nat.toDigits_ne_nil
  rw [getLast?_concat, getLast?_append_of_ne_nil _ hne] at hlast
  exact absurd (isDigit_of_mem_repr (mem_of_getLast? hlast.symm)) (by decide)

theorem not_variant_numbered (hdot : '.' ∉ name) (i j : ℕ) :
    ¬ Variant name (numberedName (renamed name i) j) := by
  have hrenamed : '.' ∉ renamed name i := by
    rw [renamed_of_no_dot hdot, mem_append, not_or]
    refine ⟨hdot, fun hmem => ?_⟩
    rcases mem_append.1 hmem with hmem | hmem
    · exact dot_notMem_number i (mem_append_left _ hmem)
    · revert hmem
      decide
  intro h
  obtain ⟨-, m, k, hm, hm', heq⟩ := Variant.of_no_dot h hdot
  obtain rfl := numberedName_inj hrenamed hm' heq
  rcases hm with hname | hvariant
  · have hlen := length_lt_renamed name i
    rw [hname] at hlen
    omega
  · exact not_variant_renamed hdot i hvariant

/-! ## Where the loop ends -/

section Place

variable {Id : Type} [DecidableEq Id] {es : List (Dirent Id)} {old : Dirent Id} {left k : ℕ}

def DirAt (es : List (Dirent Id)) (n : Name) : Prop := ∃ d ∈ es, d.name = n ∧ d.isDir = true

def FileAt (es : List (Dirent Id)) (n : Name) (id : Id) : Prop :=
  ∃ d ∈ es, d.name = n ∧ d.isReg = true ∧ d.id = id

/-- What the loop finds at the candidate it ends with. -/
inductive EndsAt (es : List (Dirent Id)) (id : Id) (n : Name) : Place → Prop
  | skipped : FileAt es n id → EndsAt es id n .skipped
  | overwrite {d : Dirent Id} : d ∈ es → d.name = n → d.isReg = true → d.id ≠ id →
      EndsAt es id n (.overwrite n)
  | insert : (∀ d ∈ es, d.name = n → d.isReg = false ∧ d.isDir = false) → EndsAt es id n (.insert n)

theorem placeFrom_spec {p : Place}
    (h : placeFrom es old left (k + 1) (candidate old.name k) = some p) :
    ∃ j ≥ k, (∀ m, k ≤ m → m < j → DirAt es (candidate old.name m)) ∧
      EndsAt es old.id (candidate old.name j) p := by
  induction left generalizing k with
  | zero => cases h
  | succ left ih =>
    rw [placeFrom] at h
    split at h
    · rename_i hnone
      obtain rfl := Option.some.inj h
      refine ⟨k, le_rfl, fun m hm hm' => by omega, .insert fun d hd hname => ?_⟩
      have hd' := find?_eq_none.1 hnone d hd
      simpa [hname] using hd'
    · rename_i d hfind
      have hmem := mem_of_find?_eq_some hfind
      have hfound := find?_some hfind
      simp only [Bool.and_eq_true, decide_eq_true_eq, Bool.or_eq_true] at hfound
      obtain ⟨hname, hkind⟩ := hfound
      split at h
      · rename_i hreg
        split at h
        · rename_i hid
          obtain rfl := Option.some.inj h
          exact ⟨k, le_rfl, fun m hm hm' => by omega, .skipped ⟨d, hmem, hname, hreg, hid⟩⟩
        · rename_i hid
          obtain rfl := Option.some.inj h
          exact ⟨k, le_rfl, fun m hm hm' => by omega, .overwrite hmem hname hreg hid⟩
      · rename_i hreg
        have hdir : d.isDir = true := hkind.resolve_left hreg
        obtain ⟨j, hj, hbefore, hend⟩ := ih h
        refine ⟨j, by omega, fun m hm hm' => ?_, hend⟩
        by_cases heq : m = k
        · subst heq
          exact ⟨d, hmem, hname, hdir⟩
        · exact hbefore m (by omega) hm'

theorem placeFrom_none (h : placeFrom es old left (k + 1) (candidate old.name k) = none) :
    ∀ m < left, DirAt es (candidate old.name (k + m)) := by
  induction left generalizing k with
  | zero =>
    intro m hm
    omega
  | succ left ih =>
    rw [placeFrom] at h
    split at h
    · cases h
    · rename_i d hfind
      have hmem := mem_of_find?_eq_some hfind
      have hfound := find?_some hfind
      simp only [Bool.and_eq_true, decide_eq_true_eq, Bool.or_eq_true] at hfound
      obtain ⟨hname, hkind⟩ := hfound
      split at h
      · split at h <;> cases h
      · rename_i hreg
        intro m hm
        cases m with
        | zero => exact ⟨d, hmem, hname, hkind.resolve_left hreg⟩
        | succ m =>
          have hnext := ih h m (by omega)
          rwa [show k + 1 + m = k + (m + 1) by omega] at hnext

/-- **The loop ends**, and says where. -/
theorem place_spec (es : List (Dirent Id)) (old : Dirent Id) :
    ∃ p j, place es old = some p ∧ (∀ m < j, DirAt es (candidate old.name m)) ∧
      EndsAt es old.id (candidate old.name j) p := by
  cases hp : place es old with
  | some p =>
    obtain ⟨j, -, hbefore, hend⟩ := placeFrom_spec (k := 0) hp
    exact ⟨p, j, rfl, fun m hm => hbefore m (Nat.zero_le m) hm, hend⟩
  | none =>
    -- one more candidate than there are entries, each the name of an entry
    have hall := placeFrom_none (k := 0) hp
    have hsub : (range (es.length + 1)).map (candidate old.name) ⊆ es.map Dirent.name := by
      intro n hn
      obtain ⟨m, hm, rfl⟩ := mem_map.1 hn
      obtain ⟨d, hd, hname, -⟩ := hall m (mem_range.1 hm)
      rw [Nat.zero_add] at hname
      exact mem_map.2 ⟨d, hd, hname⟩
    have hnodup : ((range (es.length + 1)).map (candidate old.name)).Nodup :=
      nodup_range.map (candidate_injective old.name)
    have hlen := (hnodup.subperm hsub).length_le
    simp at hlen

end Place

end Server

end CloudFile
