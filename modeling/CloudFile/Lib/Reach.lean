/-
  Graphs that are marked step by step, and machines that are run step by step. A marking that ends
  with an empty frontier is closed under children, so it has marked everything reachable
  (`Closed.reach`). What holds at first and is kept by each step holds in every state reached
  (`Run.induct`).
-/
import Mathlib.Logic.Relation
import Mathlib.Data.Set.Insert
import Mathlib.Data.List.Induction

namespace Marking

variable {α : Type*} {child : α → α → Prop} {P P' : α → Prop} {F V V' V'' : Set α}

/-- The marked nodes are fine, and their children are marked. -/
def Closed (child : α → α → Prop) (P : α → Prop) (V : Set α) : Prop :=
  ∀ a ∈ V, P a ∧ ∀ b, child a b → b ∈ V

/-- The step from the marked nodes `V` to `V'`: what is new is fine, and its children are
    marked or on the frontier. -/
structure Grows (child : α → α → Prop) (P : α → Prop) (F V V' : Set α) : Prop where
  sub : V ⊆ V'
  done : ∀ a ∈ V', a ∉ V → P a ∧ ∀ b, child a b → b ∈ V' ∨ b ∈ F

theorem Grows.refl : Grows child P F V V := ⟨subset_rfl, fun _ h h' => absurd h h'⟩

theorem Grows.trans {F' : Set α} (h : Grows child P F V V') (hP : ∀ a, P a → P' a)
    (hF : ∀ b ∈ F, b ∈ V'' ∨ b ∈ F') (h' : Grows child P' F' V' V'') :
    Grows child P' F' V V'' := by
  refine ⟨h.sub.trans h'.sub, fun a ha hnew => ?_⟩
  by_cases ha' : a ∈ V'
  · obtain ⟨hPa, hchild⟩ := h.done a ha' hnew
    refine ⟨hP a hPa, fun b hb => ?_⟩
    rcases hchild b hb with hb | hb
    · exact .inl (h'.sub hb)
    · exact hF b hb
  · exact h'.done a ha ha'

theorem Grows.insert {a : α} (hP : P a) (h : ∀ b, child a b → b ∈ V ∨ b ∈ F) :
    Grows child P F V (insert a V) := by
  refine ⟨Set.subset_insert a V, fun b hb hnew => ?_⟩
  obtain rfl := hb.resolve_right hnew
  exact ⟨hP, fun c hc => (h c hc).imp_left (Set.mem_insert_of_mem b)⟩

theorem Closed.grow (h : Closed child P V) (hP : ∀ a, P a → P' a)
    (hg : Grows child P' ∅ V V') : Closed child P' V' := by
  intro a ha
  by_cases hV : a ∈ V
  · exact ⟨hP a (h a hV).1, fun b hb => hg.sub ((h a hV).2 b hb)⟩
  · obtain ⟨hPa, hchild⟩ := hg.done a ha hV
    exact ⟨hPa, fun b hb => (hchild b hb).resolve_right (Set.notMem_empty b)⟩

theorem Closed.reach (h : Closed child P V) {a b : α} (ha : a ∈ V)
    (hab : Relation.ReflTransGen child a b) : b ∈ V ∧ P b := by
  have hb : b ∈ V := by
    induction hab with
    | refl => exact ha
    | tail _ hchild ih => exact (h _ ih).2 _ hchild
  exact ⟨hb, (h b hb).1⟩

end Marking

namespace Machine

variable {S E : Type*}

/-- A run from a state: its events, each of which meets a condition where it happens, and
    the state it ends in. -/
inductive Run (step : S → E → S → Prop) (ok : S → E → Prop) (s : S) : List E → S → Prop
  | nil : Run step ok s [] s
  | snoc {es : List E} {s' s'' : S} {e : E} : Run step ok s es s' → ok s' e → step s' e s'' →
      Run step ok s (es ++ [e]) s''

variable {step : S → E → S → Prop} {ok : S → E → Prop} {s s' : S} {es : List E} {I : S → Prop}

section

variable (h : Run step ok s es s')
include h

/-- What holds at first and is kept by every step that meets the condition holds in every
    state reached. -/
theorem Run.induct (hs : I s) (hstep : ∀ s e s', I s → ok s e → step s e s' → I s') : I s' := by
  induction h with
  | nil => exact hs
  | snoc _ hok hst ih => exact hstep _ _ _ ih hok hst

/-- A run may be read as a run of other steps under other conditions, with the help of an
    invariant. -/
theorem Run.imp {step' : S → E → S → Prop} {ok' : S → E → Prop} (hs : I s)
    (hstep : ∀ s s', ∀ e ∈ es, I s → ok s e → step s e s' → I s' ∧ ok' s e ∧ step' s e s') :
    Run step' ok' s es s' ∧ I s' := by
  induction h with
  | nil => exact ⟨.nil, hs⟩
  | snoc _ hok hst ih =>
    obtain ⟨hrun, hI⟩ := ih fun s s' e he => hstep s s' e (List.mem_append_left _ he)
    obtain ⟨hI', hok', hst'⟩ := hstep _ _ _ (by simp) hI hok hst
    exact ⟨.snoc hrun hok' hst', hI'⟩

/-- The events of a run may be asked to meet a further condition. -/
theorem Run.and {P : E → Prop} (hP : ∀ e ∈ es, P e) :
    Run step (fun s e => ok s e ∧ P e) s es s' :=
  (h.imp (I := fun _ => True) trivial fun _ _ e he _ hok hst => ⟨trivial, ⟨hok, hP e he⟩, hst⟩).1

theorem Run.ok_of_mem {e : E} (he : e ∈ es) : ∃ s, ok s e := by
  induction h with
  | nil => cases he
  | snoc _ hok _ ih =>
    rcases List.mem_append.1 he with he | he
    · exact ih he
    · exact ⟨_, List.mem_singleton.1 he ▸ hok⟩

end

theorem Run.of_foldlM {f : S → E → Option S} (hok : ∀ s, ∀ e ∈ es, ok s e)
    (h : es.foldlM f s = some s') : Run (fun s e s' => f s e = some s') ok s es s' := by
  induction es using List.reverseRecOn generalizing s' with
  | nil =>
    cases h
    exact .nil
  | append_singleton es e ih =>
    rw [List.foldlM_append] at h
    obtain ⟨s₁, hs₁, h⟩ := Option.bind_eq_some_iff.1 h
    rw [List.foldlM_cons] at h
    obtain ⟨s₂, hs₂, h⟩ := Option.bind_eq_some_iff.1 h
    cases h
    exact .snoc (ih (fun s e he => hok s e (List.mem_append_left _ he)) hs₁)
      (hok s₁ e (by simp)) hs₂

end Machine
