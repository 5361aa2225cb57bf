/-
  Streams of frames, each a header of fixed length that gives the length of what follows. A text
  is a concatenation of frames exactly when `longest` leaves nothing (`isConcat_iff`), and taking
  frames off the front does not change where `longest` ends (`Leads.longest_eq`).
-/
import Mathlib.Tactic.Common
import Mathlib.Algebra.Order.Group.Nat

namespace CloudFile

open List

/-- A format of frames over the symbols `β`. -/
structure Framing (β : Type) where
  headerLen : ℕ
  /-- every frame has some length -/
  headerLen_pos : 0 < headerLen
  valid : List β → Bool
  /-- how much follows a header -/
  size : List β → ℕ

structure Frame (β : Type) where
  header : List β
  content : List β
deriving DecidableEq

namespace Framing

variable {β : Type} {f : Frame β}

def encode (f : Frame β) : List β := f.header ++ f.content

variable (F : Framing β)

structure IsFrame (f : Frame β) : Prop where
  header_length : f.header.length = F.headerLen
  valid : F.valid f.header = true
  content_length : f.content.length = F.size f.header

/-- The frame at the front of `b`, and what is behind it. -/
def next (b : List β) : Option (Frame β × List β) :=
  if F.valid (b.take F.headerLen) = true ∧ F.headerLen ≤ b.length ∧
      F.headerLen + F.size (b.take F.headerLen) ≤ b.length then
    some (⟨b.take F.headerLen, (b.drop F.headerLen).take (F.size (b.take F.headerLen))⟩,
      b.drop (F.headerLen + F.size (b.take F.headerLen)))
  else none

variable {F : Framing β} {b rest : List β}

theorem IsFrame.encode_length (h : F.IsFrame f) :
    (encode f).length = F.headerLen + F.size f.header := by
  rw [encode, length_append, h.header_length, h.content_length]

theorem IsFrame.take_header (h : F.IsFrame f) (rest : List β) :
    (encode f ++ rest).take F.headerLen = f.header := by
  rw [encode, append_assoc, ← h.header_length, take_left]

theorem IsFrame.next_encode (h : F.IsFrame f) (rest : List β) :
    F.next (encode f ++ rest) = some (f, rest) := by
  have hhead := h.take_header rest
  have hlen := h.encode_length
  unfold next
  rw [hhead, if_pos ⟨h.valid, by rw [length_append]; omega, by rw [length_append]; omega⟩]
  have hcontent : ((encode f ++ rest).drop F.headerLen).take (F.size f.header) = f.content := by
    rw [encode, append_assoc, ← h.header_length, drop_left, ← h.content_length,
      take_left]
  rw [hcontent, ← hlen, drop_left]

theorem next_some (h : F.next b = some (f, rest)) :
    F.IsFrame f ∧ b = encode f ++ rest := by
  unfold next at h
  split at h
  next hc =>
    obtain ⟨hv, hle, hsize⟩ := hc
    cases h
    refine ⟨⟨?_, hv, ?_⟩, ?_⟩
    · rw [length_take, Nat.min_eq_left hle]
    · rw [length_take, length_drop]
      exact Nat.min_eq_left (by omega)
    · rw [encode, ← drop_drop, append_assoc, take_append_drop,
        take_append_drop]
  · cases h

theorem next_length_lt (h : F.next b = some (f, rest)) :
    rest.length < b.length := by
  obtain ⟨hf, rfl⟩ := F.next_some h
  have := F.headerLen_pos
  rw [length_append, hf.encode_length]
  omega

theorem next_nil : F.next [] = none := by
  have := F.headerLen_pos
  unfold next
  rw [if_neg]
  rintro ⟨-, hle, -⟩
  simp at hle
  omega

/-! ## The longest run of frames -/

/-- The frames at the front of `b`, and what is behind them. -/
def longest (b : List β) : List (Frame β) × List β :=
  match _h : F.next b with
  | none => ([], b)
  | some (f, rest) => (f :: (longest rest).1, (longest rest).2)
termination_by b.length
decreasing_by all_goals exact F.next_length_lt (by assumption)

theorem longest_none (h : F.next b = none) : F.longest b = ([], b) := by
  rw [longest]
  split
  · rfl
  · simp_all

theorem longest_some (h : F.next b = some (f, rest)) :
    F.longest b = (f :: (F.longest rest).1, (F.longest rest).2) := by
  rw [longest]
  split
  · simp_all
  · simp_all

/-- `b` is the frames `fs` and then `rest`. -/
inductive Leads : List β → List (Frame β) → List β → Prop where
  | nil (b : List β) : Leads b [] b
  | cons {b b' rest : List β} {f : Frame β} {fs : List (Frame β)} :
      F.next b = some (f, b') → Leads b' fs rest → Leads b (f :: fs) rest

variable {fs : List (Frame β)}

theorem leads_iff :
    F.Leads b fs rest ↔ (∀ f ∈ fs, F.IsFrame f) ∧ b = fs.flatMap encode ++ rest := by
  constructor
  · intro h
    induction h with
    | nil b => exact ⟨by simp, rfl⟩
    | cons hnext _ ih =>
      obtain ⟨hf, rfl⟩ := F.next_some hnext
      obtain ⟨hfs, rfl⟩ := ih
      exact ⟨forall_mem_cons.mpr ⟨hf, hfs⟩, by rw [flatMap_cons, append_assoc]⟩
  · induction fs generalizing b with
    | nil =>
      rintro ⟨-, rfl⟩
      exact Leads.nil _
    | cons f fs ih =>
      rintro ⟨hfs, rfl⟩
      obtain ⟨hf, hfs⟩ := forall_mem_cons.mp hfs
      rw [flatMap_cons, append_assoc]
      exact Leads.cons (hf.next_encode _) (ih ⟨hfs, rfl⟩)

/-- Reading frames at the front does not change where the run ends. -/
theorem Leads.longest_eq (h : F.Leads b fs rest) :
    F.longest b = (fs ++ (F.longest rest).1, (F.longest rest).2) := by
  induction h with
  | nil b => rfl
  | cons hnext _ ih => rw [F.longest_some hnext, ih, cons_append]

theorem longest_leads (b : List β) : F.Leads b (F.longest b).1 (F.longest b).2 := by
  induction hn : b.length using Nat.strong_induction_on generalizing b with
  | _ n ih =>
    cases hnext : F.next b with
    | none =>
      rw [F.longest_none hnext]
      exact Leads.nil b
    | some p =>
      obtain ⟨f, rest⟩ := p
      rw [F.longest_some hnext]
      exact Leads.cons hnext (ih _ (hn ▸ F.next_length_lt hnext) rest rfl)

/-- `b` is a concatenation of frames. -/
def IsConcat (b : List β) (fs : List (Frame β)) : Prop :=
  (∀ f ∈ fs, F.IsFrame f) ∧ b = fs.flatMap encode

theorem isConcat_iff :
    F.IsConcat b fs ↔ F.longest b = (fs, []) := by
  have hconcat : F.IsConcat b fs ↔ F.Leads b fs [] := by
    rw [leads_iff, append_nil, IsConcat]
  rw [hconcat]
  constructor
  · intro h
    rw [h.longest_eq, F.longest_none F.next_nil, append_nil]
  · intro h
    have := F.longest_leads b
    rwa [h] at this

end Framing

end CloudFile
