/-
  A bounded cache whose entries expire: the entries stand in the order of their last use, the
  newest first, and the last one leaves when there is no room.

  An index beside the list finds the entry of a key; a key has one entry, so the list alone says
  what the index holds.
-/
import Mathlib.Data.List.Basic
import Mathlib.Data.List.Nodup

namespace Lru

open List

/-- A value, its key and the time it expires. -/
structure Entry (K V : Type) where
  key : K
  value : V
  expires : ℕ

variable {K V : Type} [DecidableEq K]

/-! ## Entries -/

/-- The entries of the other keys. -/
def without (k : K) (es : List (Entry K V)) : List (Entry K V) := es.filter (·.key ≠ k)

/-- The entry of a key. -/
def find (k : K) (es : List (Entry K V)) : Option (Entry K V) := es.find? (·.key = k)

/-- The entry of a key, then the others. -/
def front (k : K) (es : List (Entry K V)) : List (Entry K V) := (find k es).toList ++ without k es

variable {k : K} {es : List (Entry K V)} {e : Entry K V}

theorem mem_of_find (h : find k es = some e) :
    e ∈ es ∧ e.key = k := by
  have hkey : decide (e.key = k) = true := find?_some (p := fun e : Entry K V => e.key = k) h
  exact ⟨mem_of_find?_eq_some h, of_decide_eq_true hkey⟩

theorem mem_of_mem_front (h : e ∈ front k es) :
    e ∈ es := by
  rcases mem_append.1 h with hfound | hother
  · exact (mem_of_find (Option.mem_toList.1 hfound)).1
  · exact (mem_filter.1 hother).1

theorem notMem_keys_without (k : K) (es : List (Entry K V)) :
    k ∉ (without k es).map Entry.key := by
  intro hk
  obtain ⟨e, he, rfl⟩ := mem_map.1 hk
  simpa using (mem_filter.1 he).2

theorem nodup_keys_without (h : (es.map Entry.key).Nodup) :
    ((without k es).map Entry.key).Nodup :=
  h.sublist ((filter_sublist (l := es)).map _)

theorem length_without_le (k : K) (es : List (Entry K V)) : (without k es).length ≤ es.length :=
  length_filter_le _ _

theorem length_without_lt (h : e ∈ es) :
    (without e.key es).length < es.length :=
  length_filter_lt_length_iff_exists.2 ⟨e, h, by simp⟩

/-! ## The cache -/

/-- The entries, the newest first: one for a key, and not too many. -/
structure Cache (K V : Type) (capacity : ℕ) where
  entries : List (Entry K V)
  nodup : (entries.map Entry.key).Nodup
  bounded : entries.length ≤ capacity

variable {capacity : ℕ}

namespace Cache

def empty : Cache K V capacity := ⟨[], nodup_nil, Nat.zero_le _⟩

theorem bounded_without (k : K) (c : Cache K V capacity) :
    (without k c.entries).length ≤ capacity :=
  Nat.le_trans (length_without_le k _) c.bounded

def remove (k : K) (c : Cache K V capacity) : Cache K V capacity :=
  ⟨without k c.entries, nodup_keys_without c.nodup, bounded_without k c⟩

theorem nodup_cons_without (e : Entry K V) {es : List (Entry K V)}
    (h : (es.map Entry.key).Nodup) : ((e :: without e.key es).map Entry.key).Nodup :=
  nodup_cons.2 ⟨notMem_keys_without _ _, nodup_keys_without h⟩

theorem nodup_front (k : K) (c : Cache K V capacity) :
    ((front k c.entries).map Entry.key).Nodup := by
  unfold front
  cases hfind : find k c.entries with
  | none => exact nodup_keys_without c.nodup
  | some e =>
    obtain ⟨-, rfl⟩ := mem_of_find hfind
    exact nodup_cons_without e c.nodup

theorem bounded_front (k : K) (c : Cache K V capacity) :
    (front k c.entries).length ≤ capacity := by
  unfold front
  cases hfind : find k c.entries with
  | none => exact bounded_without k c
  | some e =>
    obtain ⟨hmem, rfl⟩ := mem_of_find hfind
    exact Nat.le_trans (Nat.succ_le_of_lt (length_without_lt hmem)) c.bounded

/-- The entry of a key moves to the front. -/
def toFront (k : K) (c : Cache K V capacity) : Cache K V capacity :=
  ⟨front k c.entries, nodup_front k c, bounded_front k c⟩

/-- The value of a key at a time: an entry that has expired leaves, another moves to the
    front. -/
def get (now : ℕ) (k : K) (c : Cache K V capacity) : Option V × Cache K V capacity :=
  match find k c.entries with
  | none => (none, c)
  | some e => if now < e.expires then (some e.value, c.toFront k) else (none, c.remove k)

/-- The last entry leaves a list that has no room for another. -/
def makeRoom (capacity : ℕ) (es : List (Entry K V)) : List (Entry K V) :=
  if capacity ≤ es.length then es.dropLast else es

/-- The last entry leaves a list that has outgrown its room. -/
def trim (capacity : ℕ) (es : List (Entry K V)) : List (Entry K V) :=
  if capacity < es.length then es.dropLast else es

omit [DecidableEq K] in
theorem makeRoom_sublist (es : List (Entry K V)) : (makeRoom capacity es).Sublist es := by
  unfold makeRoom
  split
  · exact dropLast_sublist es
  · exact List.Sublist.refl es

omit [DecidableEq K] in
/-- **The two orders of eviction agree**: room is made before the entry comes, or after it. -/
theorem trim_cons (hpos : 0 < capacity) (e : Entry K V) (es : List (Entry K V)) :
    trim capacity (e :: es) = e :: makeRoom capacity es := by
  unfold trim makeRoom
  rw [length_cons]
  by_cases hfull : capacity ≤ es.length
  · have hne : es ≠ [] := ne_nil_of_length_pos (Nat.lt_of_lt_of_le hpos hfull)
    rw [if_pos hfull, if_pos (Nat.lt_succ_of_le hfull), dropLast_cons_of_ne_nil hne]
  · rw [if_neg hfull, if_neg (by omega)]

variable {e : Entry K V} {c : Cache K V capacity}

theorem nodup_put :
    ((e :: makeRoom capacity (without e.key c.entries)).map Entry.key).Nodup :=
  (nodup_cons_without e c.nodup).sublist (((makeRoom_sublist _).cons_cons e).map _)

theorem bounded_put (hpos : 0 < capacity) :
    (e :: makeRoom capacity (without e.key c.entries)).length ≤ capacity := by
  have hlen := bounded_without e.key c
  unfold makeRoom
  split <;> simp only [length_cons, length_dropLast] <;> omega

/-- A new entry at the front, in the place of the one its key had: room is made first. -/
def put (hpos : 0 < capacity) (e : Entry K V) (c : Cache K V capacity) : Cache K V capacity :=
  ⟨e :: makeRoom capacity (without e.key c.entries), nodup_put, bounded_put hpos⟩

theorem trim_put (hpos : 0 < capacity) (e : Entry K V) (c : Cache K V capacity) :
    trim capacity (e :: without e.key c.entries) = (put hpos e c).entries :=
  trim_cons hpos _ _

/-- A new entry at the front, in the place of the one its key had: the surplus leaves last. -/
def pushTrim (hpos : 0 < capacity) (e : Entry K V) (c : Cache K V capacity) :
    Cache K V capacity :=
  ⟨trim capacity (e :: without e.key c.entries), trim_put hpos e c ▸ (put hpos e c).nodup,
    trim_put hpos e c ▸ (put hpos e c).bounded⟩

/-! ## What every entry keeps -/

/-- Every entry's value is one of its key's. -/
def All (P : K → V → Prop) (c : Cache K V capacity) : Prop := ∀ e ∈ c.entries, P e.key e.value

variable {P : K → V → Prop} {c : Cache K V capacity}

omit [DecidableEq K] in
theorem All.empty : All P (empty : Cache K V capacity) := fun _ he => absurd he not_mem_nil

theorem All.remove (h : c.All P) (k : K) : (c.remove k).All P :=
  fun e he => h e (mem_filter.1 he).1

/-- A lookup keeps what holds of every entry, and what it answers is a value of the key. -/
theorem All.get (h : c.All P) (now : ℕ) (k : K) :
    (c.get now k).2.All P ∧ ∀ v ∈ (c.get now k).1, P k v := by
  unfold Cache.get
  split
  · exact ⟨h, by simp⟩
  · rename_i e hfind
    obtain ⟨hmem, rfl⟩ := mem_of_find hfind
    split
    · refine ⟨fun e' he' => h e' (mem_of_mem_front he'), fun v hv => ?_⟩
      rw [← Option.mem_some.1 hv]
      exact h e hmem
    · exact ⟨h.remove e.key, by simp⟩

theorem All.put (hpos : 0 < capacity) (h : c.All P) (he : P e.key e.value) :
    (c.put hpos e).All P := by
  intro e' he'
  rcases mem_cons.1 he' with rfl | hrest
  · exact he
  · exact h e' (mem_filter.1 ((makeRoom_sublist _).subset hrest)).1

theorem All.pushTrim (hpos : 0 < capacity) (h : c.All P) (he : P e.key e.value) :
    (c.pushTrim hpos e).All P := by
  intro e' he'
  exact h.put hpos he e' (trim_put hpos e c ▸ he')

end Cache

end Lru
