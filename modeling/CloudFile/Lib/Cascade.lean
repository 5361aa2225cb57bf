/-
  Decisions by priority: sources are asked in order, and the first one that has an answer decides
  (`Answer`). `Agree` says in which ways two lists of sources come to the same decision. Both are
  what `firstSome` computes from the answers (`answer_iff`, `agree_iff`).
-/
import Mathlib.Data.List.Forall2

namespace Cascade

open Option

variable {α : Type*} {l l' : α → Prop} {ls ls' : List (α → Prop)} {os os' : List (Option α)}

def Silent (l : α → Prop) : Prop := ∀ a, ¬ l a

/-- The answer of the first source that has one. -/
inductive Answer : List (α → Prop) → α → Prop
  | here {l : α → Prop} {ls : List (α → Prop)} {a : α} : l a → Answer (l :: ls) a
  | next {l : α → Prop} {ls : List (α → Prop)} {a : α} :
      Silent l → Answer ls a → Answer (l :: ls) a

/-- Two lists of sources come to the same decision: those of one place give the same answer, or
    one is silent and the sources after it give the answer of the other. -/
inductive Agree : List (α → Prop) → List (α → Prop) → Prop
  | nil : Agree [] []
  | both {l l' : α → Prop} {ls ls' : List (α → Prop)} {a : α} :
      l a → l' a → Agree (l :: ls) (l' :: ls')
  | left {l l' : α → Prop} {ls ls' : List (α → Prop)} {a : α} :
      l a → Silent l' → Answer ls' a → Agree (l :: ls) (l' :: ls')
  | right {l l' : α → Prop} {ls ls' : List (α → Prop)} {a : α} :
      Silent l → l' a → Answer ls a → Agree (l :: ls) (l' :: ls')
  | neither {l l' : α → Prop} {ls ls' : List (α → Prop)} :
      Silent l → Silent l' → Agree ls ls' → Agree (l :: ls) (l' :: ls')

def firstSome : List (Option α) → Option α
  | [] => none
  | o :: os => o.or (firstSome os)

theorem firstSome_append (os os' : List (Option α)) :
    firstSome (os ++ os') = (firstSome os).or (firstSome os') := by
  induction os with
  | nil => rfl
  | cons o os ih => rw [List.cons_append, firstSome, firstSome, ih, Option.or_assoc]

abbrev Speak (os : List (Option α)) (ls : List (α → Prop)) : Prop :=
  List.Forall₂ (fun o l => ∀ a, o = some a ↔ l a) os ls

theorem speak_append (h : Speak os ls) (h' : Speak os' ls') : Speak (os ++ os') (ls ++ ls') :=
  List.rel_append h h'

theorem silent_iff {o : Option α} (h : ∀ a, o = some a ↔ l a) : Silent l ↔ o = none := by
  constructor
  · intro hl
    cases o with
    | none => rfl
    | some a => exact absurd ((h a).1 rfl) (hl a)
  · rintro rfl a hla
    cases (h a).2 hla

theorem answer_iff (h : Speak os ls) {a : α} : Answer ls a ↔ firstSome os = some a := by
  induction h with
  | nil =>
    constructor
    · intro ha
      cases ha
    · intro ha
      cases ha
  | @cons o l os ls ho _ ih =>
    constructor
    · intro ha
      cases ha with
      | here hla => rw [firstSome, (ho a).2 hla, some_or]
      | next hl ha => rw [firstSome, (silent_iff ho).1 hl, none_or, ih.1 ha]
    · intro ha
      cases o with
      | none => exact .next ((silent_iff ho).2 rfl) (ih.2 ha)
      | some b =>
        cases ha
        exact .here ((ho a).1 rfl)

theorem silent_answer_iff (h : Speak os ls) : Silent (Answer ls) ↔ firstSome os = none :=
  silent_iff fun _ => (answer_iff h).symm

/-- **When two decisions agree.** -/
theorem agree_iff (h : Speak os ls) (h' : Speak os' ls') (hlen : ls.length = ls'.length) :
    Agree ls ls' ↔ firstSome os = firstSome os' := by
  induction h generalizing os' ls' with
  | nil =>
    obtain rfl := List.length_eq_zero_iff.1 hlen.symm
    cases h'
    exact ⟨fun _ => rfl, fun _ => .nil⟩
  | @cons o l os ls ho hos ih =>
    cases h' with
    | nil => cases hlen
    | @cons o' l' os' ls' ho' hos' =>
      have ih := ih hos' (Nat.succ.inj hlen)
      constructor
      · intro hagree
        simp only [firstSome]
        cases hagree with
        | both hl hl' => rw [(ho _).2 hl, (ho' _).2 hl']; rfl
        | left hl hl' ha =>
          rw [(ho _).2 hl, (silent_iff ho').1 hl', none_or, (answer_iff hos').1 ha]
          rfl
        | right hl hl' ha =>
          rw [(silent_iff ho).1 hl, (ho' _).2 hl', none_or, (answer_iff hos).1 ha]
          rfl
        | neither hl hl' hagree =>
          rw [(silent_iff ho).1 hl, (silent_iff ho').1 hl', none_or, none_or,
            ih.1 hagree]
      · intro heq
        simp only [firstSome] at heq
        cases o with
        | none =>
          have hl := (silent_iff ho).2 rfl
          cases o' with
          | none => exact .neither hl ((silent_iff ho').2 rfl) (ih.2 heq)
          | some a => exact .right hl ((ho' a).1 rfl) ((answer_iff hos).2 heq)
        | some a =>
          cases o' with
          | none =>
            have hl' := (silent_iff ho').2 rfl
            exact .left ((ho a).1 rfl) hl' ((answer_iff hos').2 heq.symm)
          | some b =>
            cases heq
            exact .both ((ho a).1 rfl) ((ho' a).1 rfl)

end Cascade
