/-
  The synchronized walk over several lists in descending key order.

  Each list keeps a position; one round takes the largest key under any
  position, collects the entries that carry it into a row, and advances
  exactly those positions.  `rows_eq`: on strictly descending lists the rows
  are the lookups of each occurring key, taken in descending key order.
-/
import Mathlib.Data.List.Sort
import Mathlib.Algebra.Order.BigOperators.Group.List
import Mathlib.Algebra.Order.Ring.Nat

namespace SortedWalk

open List

variable {α K : Type} [LinearOrder K] (key : α → K)

/-- Strictly descending by key, hence without a repeated key. -/
def Desc (l : List α) : Prop := l.Pairwise fun a b => key b < key a

def UniqueKeys (l : List α) : Prop := (l.map key).Nodup

instance (l : List α) : Decidable (Desc key l) :=
  inferInstanceAs (Decidable (l.Pairwise fun a b => key b < key a))

instance (l : List α) : Decidable (UniqueKeys key l) :=
  inferInstanceAs (Decidable (l.map key).Nodup)

def find (k : K) (l : List α) : Option α := l.find? fun a => key a = k

/-- One comparison of the scan for the largest key. -/
def first (best : Option K) (l : List α) : Option K :=
  match l.head?, best with
  | none, _ => best
  | some a, none => some (key a)
  | some a, some k => if k < key a then some (key a) else best

/-- The largest key under the positions, scanned from the left. -/
def firstKey (ls : List (List α)) : Option K := ls.foldl (first key) none

/-- The entry under a position, if it carries the key. -/
def pick (k : K) : List α → Option α
  | [] => none
  | a :: _ => if key a = k then some a else none

def advance (k : K) : List α → List α
  | [] => []
  | a :: l => if key a = k then l else a :: l

/-- The rounds of the walk, as rows of entries of one key. -/
def walk : ℕ → List (List α) → List (List (Option α))
  | 0, _ => []
  | n + 1, ls => match firstKey key ls with
    | none => []
    | some k => ls.map (pick key k) :: walk n (ls.map (advance key k))

def walkKeys : ℕ → List (List α) → List K
  | 0, _ => []
  | n + 1, ls => match firstKey key ls with
    | none => []
    | some k => k :: walkKeys n (ls.map (advance key k))

/-- The walk with a round for every entry there is. -/
def rows (ls : List (List α)) : List (List (Option α)) := walk key (ls.map List.length).sum ls

def keys (ls : List (List α)) : List K := walkKeys key (ls.map List.length).sum ls

/-! ## Lookup in lists with unique keys -/

variable {key} {l : List α} {k : K} {a : α}

omit [LinearOrder K] in
theorem uniqueKeys_nil : UniqueKeys key ([] : List α) := nodup_nil

theorem Desc.uniqueKeys (h : Desc key l) : UniqueKeys key l :=
  pairwise_map.2 (h.imp fun hab => ne_of_gt hab)

theorem find_some (h : find key k l = some a) :
    a ∈ l ∧ key a = k :=
  ⟨mem_of_find?_eq_some h, by simpa using find?_some h⟩

theorem find_none : find key k l = none ↔ ∀ a ∈ l, key a ≠ k := by
  simp [find, find?_eq_none]

theorem find_of_mem (h : UniqueKeys key l) (ha : a ∈ l) :
    find key (key a) l = some a := by
  induction l with
  | nil => simp at ha
  | cons b l ih =>
    simp only [UniqueKeys, map_cons, nodup_cons, mem_map, not_exists,
      not_and] at h
    rcases mem_cons.1 ha with rfl | ha
    · simp [find]
    · have hne : key b ≠ key a := fun he => h.1 a ha he.symm
      rw [find, find?_cons_of_neg (by simpa using hne)]
      exact ih h.2 ha

theorem find_eq_some (h : UniqueKeys key l) :
    find key k l = some a ↔ a ∈ l ∧ key a = k :=
  ⟨find_some, fun ⟨ha, hk⟩ => hk ▸ find_of_mem h ha⟩

theorem desc_iff :
    Desc key l ↔ l.Pairwise (fun a b => key b ≤ key a) ∧ UniqueKeys key l := by
  refine ⟨fun h => ⟨h.imp le_of_lt, h.uniqueKeys⟩, fun ⟨h, hu⟩ => ?_⟩
  exact (h.and (pairwise_map.1 hu)).imp fun ⟨hle, hne⟩ => lt_of_le_of_ne hle (Ne.symm hne)

/-- A list with unique keys has one descending arrangement. -/
theorem desc_perm_eq {l' : List α} (h : Desc key l) (h' : Desc key l') (hp : l.Perm l') :
    l = l' :=
  hp.eq_of_pairwise (fun _ _ _ _ hab hba => absurd (hab.trans hba) (lt_irrefl _)) h h'

/-! ## The key of a round -/

/-- The keys the scan has seen: the one it holds and those under the positions. -/
def Seen (key : α → K) (best : Option K) (ls : List (List α)) (k : K) : Prop :=
  best = some k ∨ ∃ l ∈ ls, ∃ a, l.head? = some a ∧ key a = k

theorem foldl_first (ls : List (List α)) (best : Option K) :
    (ls.foldl (first key) best = none → ∀ k, ¬ Seen key best ls k) ∧
    ∀ k, ls.foldl (first key) best = some k →
      Seen key best ls k ∧ ∀ k', Seen key best ls k' → k' ≤ k := by
  induction ls generalizing best with
  | nil =>
    refine ⟨fun h k hs => ?_, fun k h => ⟨.inl h, fun k' hs => ?_⟩⟩
    · simp_all [Seen]
    · rcases hs with hs | ⟨l, hl, -⟩
      · simp only [foldl_nil] at h
        exact le_of_eq (Option.mem_unique hs h)
      · simp at hl
  | cons l ls ih =>
    obtain ⟨ihn, ihs⟩ := ih (first key best l)
    -- what the list in front contributes is held by the scan from then on
    have into : ∀ k, Seen key best (l :: ls) k →
        ∃ k', Seen key (first key best l) ls k' ∧ k ≤ k' := by
      intro k hk
      rcases hk with hk | ⟨l', hl', a, ha, rfl⟩
      · subst hk
        cases hl : l.head? with
        | none => exact ⟨k, .inl (by simp [first, hl]), le_rfl⟩
        | some a =>
          by_cases hlt : k < key a
          · exact ⟨key a, .inl (by simp [first, hl, hlt]), le_of_lt hlt⟩
          · exact ⟨k, .inl (by simp [first, hl, hlt]), le_rfl⟩
      · rcases mem_cons.1 hl' with rfl | hl'
        · cases best with
          | none => exact ⟨key a, .inl (by simp [first, ha]), le_rfl⟩
          | some k =>
            by_cases hlt : k < key a
            · exact ⟨key a, .inl (by simp [first, ha, hlt]), le_rfl⟩
            · exact ⟨k, .inl (by simp [first, ha, hlt]), not_lt.1 hlt⟩
        · exact ⟨key a, .inr ⟨l', hl', a, ha, rfl⟩, le_rfl⟩
    have back : ∀ k, Seen key (first key best l) ls k → Seen key best (l :: ls) k := by
      rintro k (hk | ⟨l', hl', a, ha, rfl⟩)
      · unfold first at hk
        split at hk
        · exact .inl hk
        · next a ha => exact .inr ⟨l, by simp, a, ha, by simpa using hk⟩
        · next a k' ha =>
          split_ifs at hk
          · exact .inr ⟨l, by simp, a, ha, by simpa using hk⟩
          · exact .inl hk
      · exact .inr ⟨l', mem_cons_of_mem _ hl', a, ha, rfl⟩
    refine ⟨fun h k hk => ?_, fun k h => ⟨back k (ihs k h).1, fun k' hk' => ?_⟩⟩
    · obtain ⟨k', hk', -⟩ := into k hk
      exact ihn h k' hk'
    · obtain ⟨k'', hk'', hle⟩ := into k' hk'
      exact hle.trans ((ihs k h).2 k'' hk'')

variable {ls : List (List α)}

theorem firstKey_none (h : firstKey key ls = none) :
    ∀ l ∈ ls, l = [] := by
  intro l hl
  cases l with
  | nil => rfl
  | cons a l => exact absurd (.inr ⟨_, hl, a, rfl, rfl⟩) ((foldl_first ls none).1 h (key a))

theorem firstKey_mem (h : firstKey key ls = some k) :
    ∃ l ∈ ls, ∃ a, l.head? = some a ∧ key a = k :=
  (((foldl_first ls none).2 k h).1).resolve_left (by simp)

theorem head_le_firstKey (h : firstKey key ls = some k) (hl : l ∈ ls) (ha : l.head? = some a) :
    key a ≤ k :=
  ((foldl_first ls none).2 k h).2 _ (.inr ⟨l, hl, a, ha, rfl⟩)

/-! ## One round -/

theorem pick_eq_find (h : Desc key l) (hle : ∀ a, l.head? = some a → key a ≤ k) :
    pick key k l = find key k l := by
  cases l with
  | nil => rfl
  | cons a l =>
    by_cases hk : key a = k
    · simp [pick, find, hk]
    · have hlt : ∀ b ∈ l, key b ≠ k := fun b hb =>
        ne_of_lt (((pairwise_cons.1 h).1 b hb).trans_le (hle a rfl))
      have hn : find key k (a :: l) = none := find_none.2 (by simpa [hk] using hlt)
      simp [pick, hk, hn]

theorem Desc.advance (h : Desc key l) (k : K) : Desc key (advance key k l) := by
  cases l with
  | nil => exact h
  | cons a l =>
    simp only [SortedWalk.advance]
    split_ifs
    exacts [(pairwise_cons.1 h).2, h]

theorem advance_lt (h : Desc key l) (hle : ∀ a, l.head? = some a → key a ≤ k) :
    ∀ b ∈ advance key k l, key b < k := by
  cases l with
  | nil => simp [advance]
  | cons a l =>
    have htl : ∀ b ∈ l, key b < k := fun b hb =>
      ((pairwise_cons.1 h).1 b hb).trans_le (hle a rfl)
    by_cases hk : key a = k
    · simpa [advance, hk] using htl
    · simpa [advance, hk] using ⟨lt_of_le_of_ne (hle a rfl) hk, htl⟩

theorem find_advance {k' : K} (l : List α) (h : k' ≠ k) :
    find key k' (advance key k l) = find key k' l := by
  cases l with
  | nil => rfl
  | cons a l =>
    by_cases hk : key a = k
    · have hn : ¬ key a = k' := fun he => h (he.symm.trans hk)
      simp [advance, hk, find, h.symm]
    · simp [advance, hk]

theorem mem_advance {b : α} (hb : b ∈ l) :
    key b = k ∨ b ∈ advance key k l := by
  cases l with
  | nil => simp at hb
  | cons a l =>
    by_cases hk : key a = k
    · rcases mem_cons.1 hb with rfl | hb
      · exact .inl hk
      · exact .inr (by simpa [advance, hk] using hb)
    · exact .inr (by simpa [advance, hk] using hb)

theorem advance_subset : advance key k l ⊆ l := by
  cases l with
  | nil => simp [advance]
  | cons a l => simp only [advance]; split_ifs <;> simp

theorem advance_length_le (k : K) (l : List α) : (advance key k l).length ≤ l.length := by
  cases l with
  | nil => simp [advance]
  | cons a l => simp only [advance]; split_ifs <;> simp

theorem advance_sum_lt (h : firstKey key ls = some k) :
    ((ls.map (advance key k)).map List.length).sum < (ls.map List.length).sum := by
  rw [map_map]
  obtain ⟨l, hl, a, ha, hk⟩ := firstKey_mem h
  refine sum_lt_sum _ _ (fun l _ => advance_length_le k l) ⟨l, hl, ?_⟩
  cases l with
  | nil => simp at ha
  | cons b l =>
    obtain rfl : b = a := by simpa using ha
    simp [advance, hk]

/-! ## The whole walk -/

theorem mem_walkKeys {n : ℕ} (h : k ∈ walkKeys key n ls) :
    ∃ l ∈ ls, ∃ a ∈ l, key a = k := by
  induction n generalizing ls with
  | zero => simp [walkKeys] at h
  | succ n ih =>
    simp only [walkKeys] at h
    split at h
    · simp at h
    · next k' hk' =>
      rcases mem_cons.1 h with rfl | h
      · obtain ⟨l, hl, a, ha, hk⟩ := firstKey_mem hk'
        exact ⟨l, hl, a, mem_of_head? ha, hk⟩
      · obtain ⟨l', hl', a, ha, hk⟩ := ih h
        obtain ⟨l, hl, rfl⟩ := mem_map.1 hl'
        exact ⟨l, hl, a, advance_subset ha, hk⟩

section Run

variable {ls : List (List α)} (hd : ∀ l ∈ ls, Desc key l)
include hd

theorem desc_map_advance (k : K) : ∀ l ∈ ls.map (advance key k), Desc key l := by
  intro l' hl'
  obtain ⟨l, hl, rfl⟩ := mem_map.1 hl'
  exact (hd l hl).advance k

variable {n : ℕ} {l₁ l₂ : List α}

theorem walkKeys_advance_lt {k : K} (h : firstKey key ls = some k) :
    ∀ k' ∈ walkKeys key n (ls.map (advance key k)), k' < k := by
  intro k' hk'
  obtain ⟨l', hl', a, ha, rfl⟩ := mem_walkKeys hk'
  obtain ⟨l, hl, rfl⟩ := mem_map.1 hl'
  exact advance_lt (hd l hl) (fun b hb => head_le_firstKey h hl hb) a ha

theorem walkKeys_pairwise (n : ℕ) : (walkKeys key n ls).Pairwise (· > ·) := by
  induction n generalizing ls with
  | zero => simp [walkKeys]
  | succ n ih =>
    simp only [walkKeys]
    split
    · exact List.Pairwise.nil
    · next k hk =>
      exact pairwise_cons.2 ⟨walkKeys_advance_lt hd hk, ih (desc_map_advance hd k)⟩

theorem walk_eq (n : ℕ) :
    walk key n ls = (walkKeys key n ls).map fun k => ls.map (find key k) := by
  induction n generalizing ls with
  | zero => rfl
  | succ n ih =>
    simp only [walk, walkKeys]
    split
    · rfl
    · next k hk =>
      have hrow : ls.map (pick key k) = ls.map (find key k) :=
        map_congr_left fun l hl =>
          pick_eq_find (hd l hl) fun a ha => head_le_firstKey hk hl ha
      rw [hrow, ih (desc_map_advance hd k), map_cons, List.cons.injEq]
      refine ⟨rfl, map_congr_left fun k' hk' => ?_⟩
      rw [map_map]
      exact map_congr_left fun l _ =>
        find_advance l (ne_of_lt (walkKeys_advance_lt hd hk k' hk'))

omit hd in
theorem mem_walkKeys_of_mem (hn : (ls.map List.length).sum ≤ n) {l : List α} {a : α} (hl : l ∈ ls)
    (ha : a ∈ l) : key a ∈ walkKeys key n ls := by
  induction n generalizing ls l with
  | zero =>
    have hpos : l.length ≤ (ls.map List.length).sum := le_sum_of_mem (mem_map_of_mem hl)
    have := length_pos_of_mem ha
    omega
  | succ n ih =>
    simp only [walkKeys]
    split
    · next h => rw [firstKey_none h l hl] at ha; simp at ha
    · next k hk =>
      rcases mem_advance (k := k) ha with he | hin
      · exact mem_cons.2 (.inl he)
      · have hlt := advance_sum_lt hk
        exact mem_cons_of_mem _ (ih (by omega) (mem_map_of_mem hl) hin)

omit hd in
/-- A row holds entries of one key, each of its own list, sorted or not. -/
theorem mem_walk {row : List (Option α)} (h : row ∈ walk key n [l₁, l₂]) :
    ∃ k a b, row = [a, b] ∧ (∀ x, a = some x → x ∈ l₁ ∧ key x = k) ∧
      ∀ y, b = some y → y ∈ l₂ ∧ key y = k := by
  have hpick : ∀ {k : K} {l : List α} {x : α}, pick key k l = some x → x ∈ l ∧ key x = k := by
    intro k l x hx
    cases l with
    | nil => cases hx
    | cons a l =>
      simp only [pick] at hx
      split_ifs at hx with hk
      cases hx
      exact ⟨mem_cons_self, hk⟩
  induction n generalizing l₁ l₂ with
  | zero => cases h
  | succ n ih =>
    simp only [walk] at h
    split at h
    · cases h
    next k hk =>
      rcases mem_cons.1 h with rfl | h
      · exact ⟨k, _, _, rfl, fun x => hpick, fun y => hpick⟩
      · obtain ⟨k', a, b, hrow, ha, hb⟩ := ih h
        exact ⟨k', a, b, hrow, fun x hx => ⟨advance_subset (ha x hx).1, (ha x hx).2⟩,
          fun y hy => ⟨advance_subset (hb y hy).1, (hb y hy).2⟩⟩

omit hd in
/-- Every entry is met, sorted or not. -/
theorem exists_mem_walk (hn : l₁.length + l₂.length ≤ n) {y : α} (hy : y ∈ l₂) :
    ∃ a, [a, some y] ∈ walk key n [l₁, l₂] := by
  induction n generalizing l₁ l₂ with
  | zero =>
    have := length_pos_of_mem hy
    omega
  | succ n ih =>
    simp only [walk]
    split
    next h =>
      rw [firstKey_none h l₂ (by simp)] at hy
      cases hy
    next k hk =>
      have hlt : (advance key k l₁).length + (advance key k l₂).length < l₁.length + l₂.length := by
        simpa using advance_sum_lt hk
      have hnext : y ∈ advance key k l₂ → ∃ a, [a, some y] ∈
          [l₁, l₂].map (pick key k) :: walk key n ([l₁, l₂].map (advance key k)) := fun hin => by
        have hle : (advance key k l₁).length + (advance key k l₂).length ≤ n := by omega
        obtain ⟨a, ha⟩ := ih hle hin
        exact ⟨a, mem_cons_of_mem _ ha⟩
      cases l₂ with
      | nil => cases hy
      | cons z l₂ =>
        by_cases hz : key z = k
        · rcases mem_cons.1 hy with rfl | hy
          · exact ⟨pick key k l₁, by simp [pick, hz]⟩
          · exact hnext (by simpa [advance, hz] using hy)
        · exact hnext (by simpa [advance, hz] using hy)

/-- **The rows of the walk** are the lookups of the occurring keys. -/
theorem rows_eq : rows key ls = (keys key ls).map fun k => ls.map (find key k) := walk_eq hd _

theorem keys_pairwise : (keys key ls).Pairwise (· > ·) := walkKeys_pairwise hd _

theorem keys_nodup : (keys key ls).Nodup := (keys_pairwise hd).imp fun h => ne_of_gt h

omit hd in
theorem mem_keys {k : K} : k ∈ keys key ls ↔ ∃ l ∈ ls, ∃ a ∈ l, key a = k :=
  ⟨mem_walkKeys, fun ⟨_, hl, _, ha, hk⟩ => hk ▸ mem_walkKeys_of_mem le_rfl hl ha⟩

end Run

end SortedWalk
