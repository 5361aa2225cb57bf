/-
  Worklists. A node that leaves the list puts those of its successors into it that never waited
  before, at places that are left open. A walk that ends has visited each reachable node once
  (`Walk.exact`). If the list is sorted by a rank that falls along the edges, a walk can be
  started again where it narrows (`Walk.restart`).
-/
import Mathlib.Logic.Relation
import Mathlib.Data.Set.Finite.Basic
import Mathlib.Data.List.Perm.Basic
import Mathlib.Data.Finset.Card

namespace Worklist

open List

variable {α : Type*}

/-- The nodes that wait, and all nodes that ever waited. -/
structure State (α : Type*) where
  waiting : List α
  seen : List α
deriving DecidableEq

def start (a : α) : State α := ⟨[a], [a]⟩

structure State.All (R : α → Prop) (s : State α) : Prop where
  waiting : ∀ b ∈ s.waiting, R b
  seen : ∀ b ∈ s.seen, R b

variable {R : α → Prop} {a : α}

theorem State.All.start (ha : R a) : (start a).All R :=
  ⟨fun _ hb => mem_singleton.1 hb ▸ ha, fun _ hb => mem_singleton.1 hb ▸ ha⟩

def Reach (next : α → List α) : α → α → Prop := Relation.ReflTransGen fun a b => b ∈ next a

theorem Reach.closed {next : α → List α} (hR : ∀ a, R a → ∀ b ∈ next a, R b) {b : α} (ha : R a)
    (h : Reach next a b) : R b := by
  induction h with
  | refl => exact ha
  | tail _ hb ih => exact hR _ ih _ hb

section Walk

variable [DecidableEq α] (insert : α → List α → List α) (next : α → List α)

def State.add (s : State α) (a : α) : State α :=
  if a ∈ s.seen then s else ⟨insert a s.waiting, a :: s.seen⟩

def State.addAll (s : State α) (l : List α) : State α := l.foldl (State.add insert) s

/-- The nodes that leave the list between two states, in their order. -/
inductive Walk : State α → List α → State α → Prop
  | nil {s : State α} : Walk s [] s
  | cons {a : α} {W seen V : List α} {s : State α} :
      Walk (State.addAll insert ⟨W, seen⟩ (next a)) V s → Walk ⟨a :: W, seen⟩ (a :: V) s

variable {insert next}

variable {a : α} {W seen V V' seen' : List α} {s t u : State α}

theorem Walk.step (hs : State.addAll insert ⟨W, seen⟩ (next a) = s) (h : Walk insert next s V t) :
    Walk insert next ⟨a :: W, seen⟩ (a :: V) t := by
  subst hs
  exact .cons h

theorem Walk.append (h : Walk insert next s V t) (h' : Walk insert next t V' u) :
    Walk insert next s (V ++ V') u := by
  induction h with
  | nil => exact h'
  | cons _ ih => exact .cons (ih h')

theorem Walk.split (h : Walk insert next s (V ++ V') u) :
    ∃ t, Walk insert next s V t ∧ Walk insert next t V' u := by
  induction V generalizing s with
  | nil => exact ⟨s, .nil, h⟩
  | cons a V ih =>
    cases h with
    | cons h =>
      obtain ⟨t, hV, hV'⟩ := ih h
      exact ⟨t, .cons hV, hV'⟩

theorem Walk.eq_of_nil (h : Walk insert next s [] t) : t = s := by
  cases h
  rfl

/-- A walk to the end goes through every state that another one reaches. -/
theorem Walk.remainder (h : Walk insert next s V t) (h' : Walk insert next s V' ⟨[], seen⟩) :
    ∃ V₂, V' = V ++ V₂ ∧ Walk insert next t V₂ ⟨[], seen⟩ := by
  induction h generalizing V' with
  | nil => exact ⟨V', rfl, h'⟩
  | cons _ ih =>
    cases h' with
    | cons h' =>
      obtain ⟨V₂, rfl, h₂⟩ := ih h'
      exact ⟨V₂, rfl, h₂⟩

theorem Walk.unique (h : Walk insert next s V ⟨[], seen⟩) (h' : Walk insert next s V' ⟨[], seen'⟩) :
    V' = V := by
  obtain ⟨V₂, rfl, h₂⟩ := h.remainder h'
  cases h₂
  exact append_nil V

/-! ## What has been visited -/

/-- The nodes that have left and those that wait are what was ever seen, each once. -/
structure Known (next : α → List α) (a : α) (V : List α) (s : State α) : Prop where
  nodup : (V ++ s.waiting).Nodup
  seen_iff : ∀ b, b ∈ s.seen ↔ b ∈ V ++ s.waiting
  root : a ∈ s.seen
  origin : ∀ b ∈ s.seen, b = a ∨ ∃ c ∈ V, b ∈ next c
  reach : ∀ b ∈ s.seen, Reach next a b

omit [DecidableEq α] in
theorem Known.start (a : α) : Known next a [] (start a) where
  nodup := nodup_singleton a
  seen_iff _ := Iff.rfl
  root := mem_singleton_self a
  origin _ hb := .inl (mem_singleton.1 hb)
  reach _ hb := mem_singleton.1 hb ▸ Relation.ReflTransGen.refl

variable {c : α}

omit [DecidableEq α] in
theorem Known.pop (h : Known next a V ⟨c :: W, seen⟩) :
    Known next a (V ++ [c]) ⟨W, seen⟩ where
  nodup := by simpa using h.nodup
  seen_iff b := by simpa using h.seen_iff b
  root := h.root
  origin b hb := (h.origin b hb).imp_right fun ⟨x, hx, hbx⟩ =>
    ⟨x, mem_append_left _ hx, hbx⟩
  reach := h.reach

variable (hins : ∀ a l, (insert a l).Perm (a :: l))
include hins

theorem Known.add {b : α} (h : Known next a V s) (hc : c ∈ V) (hb : b ∈ next c) :
    Known next a V (State.add insert s b) := by
  unfold State.add
  split_ifs with hseen
  · exact h
  · have hperm : (V ++ insert b s.waiting).Perm (b :: (V ++ s.waiting)) :=
      ((hins b s.waiting).append_left V).trans perm_middle
    have hreach : Reach next a c := h.reach c ((h.seen_iff c).2 (mem_append_left _ hc))
    refine ⟨?_, fun x => ?_, mem_cons_of_mem b h.root, ?_, ?_⟩
    · rw [hperm.nodup_iff, nodup_cons]
      exact ⟨fun hmem => hseen ((h.seen_iff b).2 hmem), h.nodup⟩
    · rw [hperm.mem_iff, mem_cons, mem_cons, h.seen_iff]
    · rintro x (_ | ⟨_, hx⟩)
      · exact .inr ⟨c, hc, hb⟩
      · exact h.origin x hx
    · rintro x (_ | ⟨_, hx⟩)
      · exact hreach.tail hb
      · exact h.reach x hx

omit hins in
theorem State.seen_subset_add (s : State α) (b : α) : s.seen ⊆ (State.add insert s b).seen := by
  unfold State.add
  split_ifs
  · exact List.Subset.refl _
  · exact subset_cons_self b s.seen

omit hins in
theorem State.mem_add_seen (s : State α) (b : α) : b ∈ (State.add insert s b).seen := by
  unfold State.add
  split_ifs with h
  · exact h
  · exact mem_cons_self

omit hins in
theorem State.addAll_seen (s : State α) (l : List α) :
    s.seen ⊆ (State.addAll insert s l).seen ∧ l ⊆ (State.addAll insert s l).seen := by
  induction l generalizing s with
  | nil => exact ⟨List.Subset.refl _, nil_subset _⟩
  | cons b l ih =>
    obtain ⟨hs, hl⟩ := ih (State.add insert s b)
    exact ⟨fun x hx => hs (State.seen_subset_add s b hx),
      cons_subset.2 ⟨hs (State.mem_add_seen s b), hl⟩⟩

variable {R : α → Prop} {l U : List α}

theorem State.All.addAll (h : s.All R) (hl : ∀ b ∈ l, R b) : (State.addAll insert s l).All R := by
  induction l generalizing s with
  | nil => exact h
  | cons x l ih =>
    have hx : R x := hl x mem_cons_self
    refine ih ?_ fun b hb => hl b (mem_cons_of_mem x hb)
    unfold State.add
    split_ifs
    · exact h
    · refine ⟨fun b hb => ?_, fun b hb => ?_⟩
      · rcases mem_cons.1 ((hins x s.waiting).mem_iff.1 hb) with rfl | hb
        · exact hx
        · exact h.waiting b hb
      · rcases mem_cons.1 hb with rfl | hb
        · exact hx
        · exact h.seen b hb

theorem Known.addAll (h : Known next a V s) (hc : c ∈ V) (hl : ∀ b ∈ l, b ∈ next c) :
    Known next a V (State.addAll insert s l) := by
  induction l generalizing s with
  | nil => exact h
  | cons b l ih =>
    exact ih (h.add hins hc (hl b mem_cons_self)) fun x hx => hl x (mem_cons_of_mem b hx)

/-- What a walk keeps: the successors of the nodes that have left were seen. -/
theorem Walk.known (h : Walk insert next s V' t) (hs : Known next a V s)
    (hcl : ∀ b ∈ V, next b ⊆ s.seen) :
    Known next a (V ++ V') t ∧ ∀ b ∈ V ++ V', next b ⊆ t.seen := by
  induction h generalizing V with
  | nil =>
    rw [append_nil]
    exact ⟨hs, hcl⟩
  | @cons c W seen V' t _ ih =>
    have hc : c ∈ V ++ [c] := mem_append_right V mem_cons_self
    have hcl' : ∀ b ∈ V ++ [c], next b ⊆ (State.addAll insert ⟨W, seen⟩ (next c)).seen := by
      obtain ⟨hseen, hnext⟩ := State.addAll_seen ⟨W, seen⟩ (next c)
      intro b hb
      rcases mem_append.1 hb with hb | hb
      · exact fun x hx => hseen (hcl b hb hx)
      · rw [mem_singleton.1 hb]
        exact hnext
    have h := ih (hs.pop.addAll hins hc fun _ h => h) hcl'
    rwa [append_assoc] at h

theorem Walk.known_start (h : Walk insert next (start a) V s) :
    Known next a V s ∧ ∀ b ∈ V, next b ⊆ s.seen :=
  h.known hins (Known.start a) (by simp)

/-- **A walk to the end** has visited each node that can be reached exactly once. -/
theorem Walk.exact (h : Walk insert next (start a) V ⟨[], seen⟩) :
    V.Nodup ∧ ∀ b, b ∈ V ↔ Reach next a b := by
  obtain ⟨hknown, hcl⟩ := h.known_start hins
  have hseen : ∀ b, b ∈ seen ↔ b ∈ V := fun b => by simpa using hknown.seen_iff b
  refine ⟨by simpa using hknown.nodup, fun b => ⟨fun hb => hknown.reach b ((hseen b).2 hb), ?_⟩⟩
  exact Reach.closed (fun x hx y hy => (hseen y).1 (hcl x hx hy)) ((hseen a).1 hknown.root)

/-- **Over a finite graph** a walk can be brought to its end. -/
theorem exists_walk (hfin : {b | Reach next a b}.Finite) :
    ∃ V seen, Walk insert next (start a) V ⟨[], seen⟩ := by
  -- each step visits one more of the nodes that can be reached
  suffices H : ∀ n V s, Walk insert next (start a) V s → hfin.toFinset.card ≤ V.length + n →
      ∃ V' seen, Walk insert next s V' ⟨[], seen⟩ from
    H hfin.toFinset.card [] (start a) .nil (by simp)
  intro n
  induction n with
  | zero =>
    rintro V ⟨_ | ⟨c, W⟩, seen⟩ h hn
    · exact ⟨[], seen, .nil⟩
    · have hpop := (h.known_start hins).1.pop
      have hlen : (V ++ [c]).length ≤ hfin.toFinset.card := by
        rw [← toFinset_card_of_nodup (nodup_append.1 hpop.nodup).1]
        refine Finset.card_le_card fun b hb => hfin.mem_toFinset.2 (hpop.reach b ?_)
        exact (hpop.seen_iff b).2 (mem_append_left _ (List.mem_toFinset.1 hb))
      rw [length_append, length_singleton] at hlen
      omega
  | succ n ih =>
    rintro V ⟨_ | ⟨c, W⟩, seen⟩ h hn
    · exact ⟨[], seen, .nil⟩
    · obtain ⟨V', seen', h'⟩ := ih (V ++ [c]) _ (h.append (.cons .nil)) (by simp; omega)
      exact ⟨c :: V', seen', .cons h'⟩

omit hins in
theorem Walk.cons_of_waiting (h : Walk insert next ⟨a :: W, seen⟩ V ⟨[], seen'⟩) :
    ∃ V', V = a :: V' := by
  cases h with
  | cons _ => exact ⟨_, rfl⟩

omit hins in
theorem Walk.root_mem (h : Walk insert next (start a) U s) (hU : U ≠ []) : a ∈ U := by
  unfold start at h
  cases h with
  | nil => exact absurd rfl hU
  | cons _ => exact mem_cons_self

omit hins in
theorem Walk.seen_subset (h : Walk insert next s V t) :
    s.seen ⊆ t.seen := by
  induction h with
  | nil => exact List.Subset.refl _
  | @cons a W seen V t _ ih =>
    have hadd : seen ⊆ (State.addAll insert ⟨W, seen⟩ (next a)).seen :=
      (State.addAll_seen ⟨W, seen⟩ (next a)).1
    exact fun x hx => ih (hadd hx)

/-- **The list has narrowed**: on a walk to the end, at most one node waits exactly if no node after
    the next one is a successor of a node that has left. -/
theorem Walk.narrow_iff {U₂ : List α} (h : Walk insert next (start a) U s)
    (h₂ : Walk insert next s U₂ ⟨[], seen⟩) (hU : U ≠ []) :
    s.waiting.length ≤ 1 ↔ ∀ w ∈ U₂.tail, ∀ v ∈ U, w ∉ next v := by
  obtain ⟨hknown, hcl⟩ := h.known_start hins
  obtain ⟨hall, -⟩ := (h.append h₂).known_start hins
  have hnodup : (U ++ U₂).Nodup := by simpa using hall.nodup
  obtain ⟨-, -, hdisj⟩ := nodup_append.1 hnodup
  obtain ⟨_ | ⟨x, W⟩, seen₁⟩ := s
  · cases h₂
    simp
  · obtain ⟨U₂, rfl⟩ := h₂.cons_of_waiting
    constructor
    · rintro hlen w hw v hv hnext
      obtain rfl : W = [] := length_eq_zero_iff.1 (by simpa using hlen)
      rcases mem_append.1 ((hknown.seen_iff w).1 (hcl v hv hnext)) with hwU | hwx
      · exact hdisj w hwU w (mem_cons_of_mem x hw) rfl
      · rw [mem_singleton.1 hwx] at hw
        exact (nodup_cons.1 (nodup_append.1 hnodup).2.1).1 hw
    · intro hno
      by_contra hlen
      obtain ⟨y, W, rfl⟩ : ∃ y W', W = y :: W' := by
        cases W with
        | nil => simp at hlen
        | cons y W => exact ⟨y, W, rfl⟩
      -- a second waiting node came in through a node that has left, and is visited later
      have hyU : y ∉ U := fun hy =>
        (nodup_append.1 hknown.nodup).2.2 y hy y (by simp) rfl
      have hxy : x ≠ y := by
        rintro rfl
        have := (nodup_append.1 hknown.nodup).2.1
        simp at this
      have hyseen : y ∈ seen₁ := (hknown.seen_iff y).2 (by simp)
      have hyV : y ∈ U ++ x :: U₂ := by simpa using (hall.seen_iff y).1 (h₂.seen_subset hyseen)
      rcases hknown.origin y hyseen with rfl | ⟨v, hv, hnext⟩
      · exact hyU (h.root_mem hU)
      · refine hno y ?_ v hv hnext
        simpa [hyU, hxy.symm] using hyV

/-! ## Starting again -/

theorem State.addAll_congr (hl : ∀ b ∈ l, R b) (hW : ∀ b ∈ W, R b)
    (hseen : ∀ b, R b → (b ∈ seen ↔ b ∈ seen')) :
    (State.addAll insert ⟨W, seen⟩ l).waiting = (State.addAll insert ⟨W, seen'⟩ l).waiting ∧
      (∀ b ∈ (State.addAll insert ⟨W, seen⟩ l).waiting, R b) ∧
      ∀ b, R b → (b ∈ (State.addAll insert ⟨W, seen⟩ l).seen ↔
        b ∈ (State.addAll insert ⟨W, seen'⟩ l).seen) := by
  induction l generalizing W seen seen' with
  | nil => exact ⟨rfl, hW, hseen⟩
  | cons x l ih =>
    have hx := hseen x (hl x mem_cons_self)
    have hl' : ∀ b ∈ l, R b := fun b hb => hl b (mem_cons_of_mem x hb)
    simp only [State.addAll, foldl_cons, State.add]
    by_cases hmem : x ∈ seen
    · rw [if_pos hmem, if_pos (hx.1 hmem)]
      exact ih hl' hW hseen
    · rw [if_neg hmem, if_neg fun h => hmem (hx.2 h)]
      refine ih hl' (fun b hb => ?_) fun b hb => ?_
      · rcases mem_cons.1 ((hins x W).mem_iff.1 hb) with rfl | hb
        · exact hl b mem_cons_self
        · exact hW b hb
      · rw [mem_cons, mem_cons, hseen b hb]

theorem Walk.congr_seen (hR : ∀ a, R a → ∀ b ∈ next a, R b) (h : Walk insert next s V t)
    (hW : ∀ b ∈ s.waiting, R b) (hseen : ∀ b, R b → (b ∈ s.seen ↔ b ∈ seen)) :
    ∃ seen', Walk insert next ⟨s.waiting, seen⟩ V ⟨t.waiting, seen'⟩ := by
  induction h generalizing seen with
  | nil => exact ⟨seen, .nil⟩
  | @cons a W seen₀ V t _ ih =>
    have ha : R a := hW a mem_cons_self
    obtain ⟨hwait, hRw, hs⟩ := State.addAll_congr hins (hR a ha)
      (fun b hb => hW b (mem_cons_of_mem a hb)) hseen
    obtain ⟨seen', h'⟩ := ih hRw hs
    rw [hwait] at h'
    exact ⟨seen', .cons h'⟩

omit hins in
/-- The waiting nodes are sorted by their rank, and no node that has left has a smaller one. -/
structure Sorted {β : Type*} [LinearOrder β] (rank : α → β) (V : List α) (W : List α) : Prop where
  pairwise : W.Pairwise fun x y => rank y ≤ rank x
  left : ∀ v ∈ V, ∀ w ∈ W, rank w ≤ rank v

section Ranked

variable {β : Type*} [LinearOrder β] {rank : α → β} {good : α → Prop}
  (hsort : ∀ a l, good a → (∀ b ∈ l, good b) → l.Pairwise (fun x y => rank y ≤ rank x) →
    (insert a l).Pairwise fun x y => rank y ≤ rank x)
  (hgood : ∀ a, good a → ∀ b ∈ next a, good b ∧ rank b < rank a)
include hsort

variable {V : List α}

theorem Sorted.addAll (seen : List α) (h : Sorted rank V W) (hW : ∀ b ∈ W, good b)
    (hl : ∀ b ∈ l, good b ∧ ∀ v ∈ V, rank b ≤ rank v) :
    Sorted rank V (State.addAll insert ⟨W, seen⟩ l).waiting ∧
      ∀ b ∈ (State.addAll insert ⟨W, seen⟩ l).waiting, good b := by
  induction l generalizing W seen with
  | nil => exact ⟨h, hW⟩
  | cons x l ih =>
    obtain ⟨hx, hxV⟩ := hl x mem_cons_self
    have hl' : ∀ b ∈ l, good b ∧ ∀ v ∈ V, rank b ≤ rank v := fun b hb =>
      hl b (mem_cons_of_mem x hb)
    simp only [State.addAll, foldl_cons, State.add]
    split_ifs
    · exact ih seen h hW hl'
    · have hmem : ∀ {b}, b ∈ insert x W → b = x ∨ b ∈ W := fun hb =>
        mem_cons.1 ((hins x W).mem_iff.1 hb)
      refine ih _ ⟨hsort x W hx hW h.pairwise, fun v hv w hw => ?_⟩ (fun b hb => ?_) hl'
      · rcases hmem hw with rfl | hw
        · exact hxV v hv
        · exact h.left v hv w hw
      · rcases hmem hb with rfl | hb
        · exact hx
        · exact hW b hb

include hgood

theorem Walk.sorted (h : Walk insert next s V' t) (hs : Sorted rank V s.waiting)
    (hW : ∀ b ∈ s.waiting, good b) :
    Sorted rank (V ++ V') t.waiting := by
  induction h generalizing V with
  | nil => rwa [append_nil]
  | @cons a W seen V' t _ ih =>
    obtain ⟨hfront, hrest⟩ := pairwise_cons.1 hs.pairwise
    have hpop : Sorted rank (V ++ [a]) W := by
      refine ⟨hrest, fun v hv w hw => ?_⟩
      rcases mem_append.1 hv with hv | hv
      · exact hs.left v hv w (mem_cons_of_mem a hw)
      · rw [mem_singleton.1 hv]
        exact hfront w hw
    have hnext : ∀ b ∈ next a, good b ∧ ∀ v ∈ V ++ [a], rank b ≤ rank v := by
      intro b hb
      obtain ⟨hb, hlt⟩ := hgood a (hW a mem_cons_self) b hb
      refine ⟨hb, fun v hv => ?_⟩
      rcases mem_append.1 hv with hv | hv
      · exact hlt.le.trans (hs.left v hv a mem_cons_self)
      · rw [mem_singleton.1 hv]
        exact hlt.le
    have h := hpop.addAll hins hsort seen (fun b hb => hW b (mem_cons_of_mem a hb)) hnext
    have h := ih h.1 h.2
    rwa [append_assoc] at h

omit hins hsort [DecidableEq α] in
theorem rank_lt_of_reach {b : α} (ha : good a) (h : Reach next a b) :
    good b ∧ (b = a ∨ rank b < rank a) := by
  induction h with
  | refl => exact ⟨ha, .inl rfl⟩
  | tail _ hb ih =>
    obtain ⟨hgb, hlt⟩ := hgood _ ih.1 _ hb
    refine ⟨hgb, .inr ?_⟩
    rcases ih.2 with rfl | h
    · exact hlt
    · exact hlt.trans h

/-- **Starting again**: from a single waiting node, the walk needs no memory. -/
theorem Walk.restart {r : α} (ha : good a) (h : Walk insert next (start a) V ⟨[r], seen⟩)
    (h' : Walk insert next (start r) V' t) :
    ∃ seen', Walk insert next (start a) (V ++ V') ⟨t.waiting, seen'⟩ := by
  obtain ⟨hknown, -⟩ := h.known_start hins
  have hr : good r :=
    (rank_lt_of_reach hgood ha (hknown.reach r ((hknown.seen_iff r).2 (by simp)))).1
  have hsorted : Sorted rank V [r] := by
    have hstart : Sorted rank [] [a] := ⟨pairwise_singleton _ a, by simp⟩
    exact h.sorted hins hsort hgood hstart (by simpa [start] using ha)
  -- nothing below the waiting node has been seen
  have hseen : ∀ b, Reach next r b → (b ∈ [r] ↔ b ∈ seen) := by
    intro b hb
    rw [hknown.seen_iff b, mem_append]
    refine ⟨.inr, fun hmem => hmem.resolve_left fun hV => ?_⟩
    rcases (rank_lt_of_reach hgood hr hb).2 with rfl | hlt
    · exact (nodup_append.1 hknown.nodup).2.2 b hV b (mem_singleton_self b) rfl
    · exact absurd (hsorted.left b hV r (mem_singleton_self r)) (not_le.2 hlt)
  obtain ⟨seen', h'⟩ := h'.congr_seen hins (R := Reach next r) (fun x hx y hy => hx.tail hy)
    (fun b hb => mem_singleton.1 hb ▸ Relation.ReflTransGen.refl) hseen
  exact ⟨seen', h.append h'⟩

end Ranked

end Walk

end Worklist
