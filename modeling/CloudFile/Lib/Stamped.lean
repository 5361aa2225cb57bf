/-
  Tables whose entries carry stamps.

  An entry that comes into the table has a stamp that was never used before.
  So an entry that has gone does not come back (`Steps.gone`), and one that is
  there at two times was there all the time between them (`mem_between`).
  Nothing can be said of an entry that comes and goes between two times.
-/
import Mathlib.Logic.Relation
import Mathlib.Data.Set.Basic

namespace Stamped

variable {α σ : Type*} {stamp : α → σ}

/-- The entries, and the stamps that were used so far. -/
structure Table (stamp : α → σ) where
  entries : Set α
  used : Set σ
  tracked : ∀ a ∈ entries, stamp a ∈ used

/-- A change: entries may go, and new ones have unused stamps. -/
structure Step (s t : Table stamp) : Prop where
  used : s.used ⊆ t.used
  fresh : ∀ a ∈ t.entries, a ∈ s.entries ∨ stamp a ∉ s.used

def Steps : Table stamp → Table stamp → Prop := Relation.ReflTransGen Step

variable {s t u : Table stamp} {a : α}

theorem Steps.used_subset (h : Steps s t) : s.used ⊆ t.used := by
  induction h with
  | refl => exact subset_rfl
  | tail _ hstep ih => exact ih.trans hstep.used

/-- An entry that has gone does not come back. -/
theorem Steps.gone (h : Steps s t) (hused : stamp a ∈ s.used) (ha : a ∉ s.entries) :
    a ∉ t.entries := by
  induction h with
  | refl => exact ha
  | tail hsteps hstep ih =>
    intro hmem
    rcases hstep.fresh a hmem with hold | hnew
    · exact ih hold
    · exact hnew (Steps.used_subset hsteps hused)

/-- An entry that is there before and after is there in between. -/
theorem mem_between (hst : Steps s t) (htu : Steps t u) (hs : a ∈ s.entries)
    (hu : a ∈ u.entries) : a ∈ t.entries := by
  by_contra ht
  exact htu.gone (hst.used_subset (s.tracked a hs)) ht hu

end Stamped
