/-
  Fencing tokens.

  A register counts how often it was acquired and says who holds it.  Whoever
  acquires it gets the count as a token.  The token is good while the register
  is held under that count, and an acquisition or a drop ends that for ever:
  `Register.run_held`, `Register.holds_unique`.
-/
import Mathlib.Data.List.Basic

namespace Fencing

variable {H : Type*}

structure Register (H : Type*) where
  generation : ℕ
  holder : Option H

inductive Act (H : Type*) where
  | acquire (h : H)
  | drop
  | keep

namespace Register

def apply (r : Register H) : Act H → Register H
  | .acquire h => ⟨r.generation + 1, some h⟩
  | .drop => ⟨r.generation, none⟩
  | .keep => r

def run (r : Register H) (as : List (Act H)) : Register H := as.foldl apply r

/-- Held by `h` under the token `g`. -/
def Holds (r : Register H) (g : ℕ) (h : H) : Prop := r.generation = g ∧ r.holder = some h

variable {r : Register H} {a : Act H} {as : List (Act H)}

@[simp] theorem run_nil : r.run [] = r := rfl
@[simp] theorem run_cons : r.run (a :: as) = (r.apply a).run as := rfl

theorem generation_apply_le (r : Register H) (a : Act H) :
    r.generation ≤ (r.apply a).generation := by
  cases a with
  | acquire h =>
    show r.generation ≤ r.generation + 1
    omega
  | drop => exact Nat.le_refl _
  | keep => exact Nat.le_refl _

theorem generation_run_le (r : Register H) (as : List (Act H)) :
    r.generation ≤ (r.run as).generation := by
  induction as generalizing r with
  | nil => exact Nat.le_refl _
  | cons a as ih =>
    have hstep := generation_apply_le r a
    have hrest := ih (r.apply a)
    rw [run_cons]
    omega

/-- A register that nobody holds is held again only under a later token. -/
theorem lt_of_held_again {h : H} (hr : r.holder = none) (hh : (r.run as).holder = some h) :
    r.generation < (r.run as).generation := by
  induction as generalizing r with
  | nil =>
    rw [run_nil, hr] at hh
    cases hh
  | cons a as ih =>
    cases a with
    | acquire h' => exact Nat.lt_of_succ_le (generation_run_le (r.apply (.acquire h')) as)
    | drop => exact ih (r := r.apply .drop) rfl hh
    | keep => exact ih hr hh

/-- If a register is still held under the token it had, nothing has happened to it. -/
theorem run_held {h : H} (hh : (r.run as).Holds r.generation h) : ∀ a ∈ as, a = .keep := by
  induction as generalizing r with
  | nil => simp
  | cons a as ih =>
    obtain ⟨hgen, hheld⟩ := hh
    rw [run_cons] at hgen hheld
    cases a with
    | acquire h' =>
      have hle := generation_run_le (r.apply (.acquire h')) as
      have hsucc : (r.apply (.acquire h')).generation = r.generation + 1 := rfl
      omega
    | drop =>
      have hlt := lt_of_held_again (r := r.apply .drop) rfl hheld
      have hsame : (r.apply .drop).generation = r.generation := rfl
      omega
    | keep =>
      intro a ha
      rcases List.mem_cons.1 ha with rfl | ha
      · rfl
      · exact ih ⟨hgen, hheld⟩ a ha

theorem run_keep (h : ∀ a ∈ as, a = .keep) : r.run as = r := by
  induction as with
  | nil => rfl
  | cons a as ih =>
    rw [List.forall_mem_cons] at h
    obtain ⟨rfl, h⟩ := h
    exact ih h

/-- A token that is good after some actions was good before them. -/
theorem Holds.of_run {g : ℕ} {h h' : H} (hr : r.Holds g h) (hh : (r.run as).Holds g h') :
    h' = h ∧ ∀ a ∈ as, a = .keep := by
  have hkeep : ∀ a ∈ as, a = .keep := run_held (h := h') (by rw [hr.1]; exact hh)
  rw [run_keep hkeep] at hh
  exact ⟨Option.mem_unique hh.2 hr.2, hkeep⟩

end Register

end Fencing
