/-
  The traversals of the commit history (`common/commit-mgr.c`) with all their modes, and with
  callbacks that may fail. Both take the commits in the order of a worklist (`Lib/Worklist.lean`),
  so a traversal in pages calls the callback on the same commits, in the same order
  (`traverseCommitTree_exhaustive`).
-/
import CloudFile.Gc.TraverseCommits
import CloudFile.Lib.Worklist

namespace CloudFile

open List

open Worklist (Walk State)

variable {Id : Type} [DecidableEq Id] (get : Id → Option (Commit Id)) {D : Type}

section Loops

variable (skipErrors : Bool) (func : Commit Id → D → Call D)

/-- The loop of `seaf_commit_manager_traverse_commit_tree_with_limit` -/
def withLimitLoop (limit : ℤ) :
    ℕ → ℤ → List (Commit Id) × List Id → D → Option (D × List (Commit Id))
  | _, _, ([], _), d => some (d, [])
  | 0, _, (_ :: _, _), _ => none
  | fuel + 1, count, (c :: list, hash), d => do
    let (d, stop, s) ← traverseRound get skipErrors func false c (list, hash) d
    if stop then withLimitLoop limit fuel count s d
    else if 0 < limit ∧ limit ≤ count + 1 ∧ s.1.length ≤ 1 then return (d, s.1)
    else withLimitLoop limit fuel (count + 1) s d

/-- `seaf_commit_manager_traverse_commit_tree_with_limit`: the data and `next_start_commit`. -/
def traverseCommitTreeWithLimit (limit : ℤ) (fuel : ℕ) (head : Id) (d : D) :
    Option (D × Option Id) := do
  let commit ← get head
  let (d, list) ← withLimitLoop get skipErrors func limit fuel 0 ([commit], [commit.commitId]) d
  return (d, list.head?.map Commit.commitId)

/-- The limited traversal, called again from each `next_start_commit` -/
def traversePages (limit : ℤ) (fuel : ℕ) : ℕ → Id → D → Option D
  | 0, _, _ => none
  | pages + 1, head, d => do
    let (d, next) ← traverseCommitTreeWithLimit get skipErrors func limit fuel head d
    next.elim (some d) fun head => traversePages limit fuel pages head d

end Loops

/-! ## The order of the visits -/

section Order

variable (goes : Commit Id → Bool)

def parentsOf (c : Commit Id) : List (Commit Id) :=
  if goes c then c.parents.filterMap get else []

/-- The ids that can be reached from a head through commits from which the traversal goes on. -/
def ReachableThrough : Id → Id → Prop :=
  Relation.ReflTransGen fun a b => ∃ c, get a = some c ∧ goes c = true ∧ b ∈ c.parents

/-- A history below a head: finitely many commits, each saved under its id. -/
structure History (head : Id) : Prop where
  saved : ∀ id c, get id = some c → c.commitId = id
  readable : ∀ id, ReachableThrough get goes head id → (get id).isSome = true
  finite : {id | ReachableThrough get goes head id}.Finite

variable {get goes}

omit [DecidableEq Id] in
theorem insertByTime_perm (c : Commit Id) (list : List (Commit Id)) :
    (insertByTime c list).Perm (c :: list) := perm_orderedInsert _ _ _

omit [DecidableEq Id] in
theorem mem_parentsOf {c p : Commit Id} :
    p ∈ parentsOf get goes c ↔ goes c = true ∧ ∃ id ∈ c.parents, get id = some p := by
  unfold parentsOf
  split_ifs with h <;> simp [h]

def Commit.InHistory (get : Id → Option (Commit Id)) (goes : Commit Id → Bool) (head : Id)
    (c : Commit Id) : Prop :=
  get c.commitId = some c ∧ ReachableThrough get goes head c.commitId

namespace History

variable {head : Id} (h : History get goes head)
include h

variable {c c₀ : Commit Id}

section

omit [DecidableEq Id]

theorem inHistory_of_get {id : Id} (hc : get id = some c)
    (hid : ReachableThrough get goes head id) :
    c.InHistory get goes head := by
  have := h.saved id c hc
  subst this
  exact ⟨hc, hid⟩

theorem parents_readable (hc : c.InHistory get goes head) (hgo : goes c = true) {p : Id}
    (hp : p ∈ c.parents) : ∃ q, get p = some q ∧ q.InHistory get goes head := by
  have hreach := hc.2.tail ⟨c, hc.1, hgo, hp⟩
  obtain ⟨q, hq⟩ := Option.isSome_iff_exists.1 (h.readable p hreach)
  exact ⟨q, hq, h.inHistory_of_get hq hreach⟩

theorem inHistory_parentsOf {p : Commit Id} (hc : c.InHistory get goes head)
    (hp : p ∈ parentsOf get goes c) : p.InHistory get goes head := by
  obtain ⟨hgo, id, hid, hget⟩ := mem_parentsOf.1 hp
  exact h.inHistory_of_get hget (hc.2.tail ⟨c, hc.1, hgo, hid⟩)

theorem reach_iff (h₀ : get head = some c₀) :
    Worklist.Reach (parentsOf get goes) c₀ c ↔ c.InHistory get goes head := by
  constructor
  · refine Worklist.Reach.closed (fun a ha b hb => h.inHistory_parentsOf ha hb) ?_
    exact h.inHistory_of_get h₀ Relation.ReflTransGen.refl
  · rintro ⟨hc, hreach⟩
    generalize c.commitId = id at hc hreach
    induction hreach generalizing c with
    | refl =>
      rw [h₀] at hc
      cases hc
      exact Relation.ReflTransGen.refl
    | tail _ hb ih =>
      obtain ⟨b, hgb, hgo, hp⟩ := hb
      exact (ih hgb).tail (mem_parentsOf.2 ⟨hgo, _, hp, hc⟩)

theorem finite_reach (h₀ : get head = some c₀) :
    {c | Worklist.Reach (parentsOf get goes) c₀ c}.Finite := by
  refine Set.Finite.of_injOn (fun c hc => ((h.reach_iff h₀).1 hc).2) ?_ h.finite
  intro a ha b hb hab
  have hget := ((h.reach_iff h₀).1 ha).1
  rw [hab, ((h.reach_iff h₀).1 hb).1] at hget
  exact (Option.some.inj hget).symm

end

end History

end Order

/-! ## The loops follow the order -/

section Follow

variable {get} {goes : Commit Id → Bool} {head : Id} {skipErrors allowTruncate : Bool}
  {func : Commit Id → D → Call D}

/-- The state of a loop, from the state of the worklist: the hash table holds ids. -/
def listAndHash (s : State (Commit Id)) : List (Commit Id) × List Id :=
  (s.waiting, s.seen.map Commit.commitId)

variable {seen W : List (Commit Id)} {q c : Commit Id} {s : State (Commit Id)} {I : D → Prop}
  {d : D} {fuel : ℕ}

omit [DecidableEq Id] in
theorem mem_hash_iff {p : Id} (hseen : ∀ x ∈ seen, get x.commitId = some x)
    (hq : get p = some q) (hsaved : ∀ id c, get id = some c → c.commitId = id) :
    p ∈ seen.map Commit.commitId ↔ q ∈ seen := by
  rw [mem_map]
  constructor
  · rintro ⟨x, hx, rfl⟩
    rw [hseen x hx] at hq
    cases hq
    exact hx
  · exact fun hmem => ⟨q, hmem, hsaved p q hq⟩

theorem insertParentCommit_eq {p : Id}
    (hseen : ∀ x ∈ s.seen, get x.commitId = some x) (hq : get p = some q)
    (hsaved : ∀ id c, get id = some c → c.commitId = id) :
    insertParentCommit get allowTruncate (listAndHash s) p =
      some (listAndHash (s.add insertByTime q)) := by
  have hmem : p ∈ (listAndHash s).2 ↔ q ∈ s.seen := mem_hash_iff hseen hq hsaved
  unfold insertParentCommit State.add
  by_cases h : q ∈ s.seen
  · rw [if_pos h, if_pos (hmem.2 h)]
  · rw [if_neg h, if_neg fun hp => h (hmem.1 hp), hq]
    have := hsaved p q hq
    subst this
    rfl

theorem insertParents_eq (h : History get goes head) (hs : s.All (Commit.InHistory get goes head))
    (hc : c.InHistory get goes head) (hgo : goes c = true) :
    insertParents get skipErrors allowTruncate c (listAndHash s) =
      some (listAndHash (s.addAll insertByTime (c.parents.filterMap get))) := by
  unfold insertParents
  have hps : ∀ p ∈ c.parents, ∃ q, get p = some q ∧ q.InHistory get goes head :=
    fun p hp => h.parents_readable hc hgo hp
  generalize c.parents = ps at hps
  induction ps generalizing s with
  | nil => rfl
  | cons p ps ih =>
    obtain ⟨q, hq, hin⟩ := hps p mem_cons_self
    have hins : insertParentCommit get allowTruncate (listAndHash s) p = _ :=
      insertParentCommit_eq (fun x hx => (hs.seen x hx).1) hq h.saved
    have hs' : (s.add insertByTime q).All (Commit.InHistory get goes head) :=
      hs.addAll insertByTime_perm (l := [q]) fun b hb => mem_singleton.1 hb ▸ hin
    rw [foldlM_cons, hins, filterMap_cons, hq]
    exact ih hs' fun x hx => hps x (mem_cons_of_mem p hx)

/-- A callback that stops where `goes` says so, while its data keeps an invariant. -/
structure Follows (P : Commit Id → Prop) (goes : Commit Id → Bool) (I : D → Prop)
    (func : Commit Id → D → Call D) : Prop where
  stop : ∀ c d, P c → I d → (func c d).stop = !goes c
  keeps : ∀ c d, P c → I d → I (func c d).data

omit [DecidableEq Id] in
theorem Follows.called {P : Commit Id → Prop} (hf : Follows P goes I func) {d' : D} (hc : P c)
    (hd : I d) (h : CloudFile.called skipErrors func d c = some d') : I d' := by
  unfold CloudFile.called at h
  split_ifs at h
  cases h
  exact hf.keeps c d hc hd

theorem traverseRound_eq (h : History get goes head)
    (hs : State.All (Commit.InHistory get goes head) ⟨W, seen⟩) (hc : c.InHistory get goes head)
    (hstop : (func c d).stop = !goes c) :
    traverseRound get skipErrors func allowTruncate c (listAndHash ⟨W, seen⟩) d =
      (called skipErrors func d c).map fun d' => (d', !goes c,
        listAndHash (State.addAll insertByTime ⟨W, seen⟩ (parentsOf get goes c))) := by
  unfold traverseRound parentsOf
  cases called skipErrors func d c with
  | none => rfl
  | some d' =>
    rw [hstop]
    cases hgo : goes c with
    | false => rfl
    | true =>
      simp only [Option.bind_eq_bind, insertParents_eq h hs hc hgo]
      rfl

/-- **The loop without a limit** calls the callback along the walk. -/
theorem traverseCommonLoop_walk (h : History get goes head)
    (hf : Follows (Commit.InHistory get goes head) goes I func) {V : List (Commit Id)}
    (hw : Walk insertByTime (parentsOf get goes) s V ⟨[], seen⟩)
    (hs : s.All (Commit.InHistory get goes head)) (hfuel : V.length ≤ fuel) (hd : I d) :
    traverseCommonLoop get skipErrors func allowTruncate fuel (listAndHash s) d =
      V.foldlM (called skipErrors func) d := by
  generalize ht : (⟨[], seen⟩ : State (Commit Id)) = t at hw
  induction hw generalizing fuel d with
  | nil =>
    subst ht
    cases fuel <;> rfl
  | @cons c W seen V t _ ih =>
    obtain ⟨fuel, rfl⟩ := Nat.exists_eq_add_of_le' (Nat.one_le_of_lt hfuel)
    have hc := hs.waiting c mem_cons_self
    have hs' : State.All (Commit.InHistory get goes head) ⟨W, seen⟩ :=
      ⟨fun b hb => hs.waiting b (mem_cons_of_mem c hb), hs.seen⟩
    show (traverseRound get skipErrors func allowTruncate c (listAndHash ⟨W, seen⟩) d).bind _ = _
    rw [traverseRound_eq h hs' hc (hf.stop c d hc hd), foldlM_cons]
    cases hcall : called skipErrors func d c with
    | none => rfl
    | some d' =>
      exact ih (hs'.addAll insertByTime_perm fun b hb => h.inHistory_parentsOf hc hb)
        (Nat.le_of_succ_le_succ hfuel) (hf.called hc hd hcall) ht

/-! ## Pages -/

/-- The commits that one call of the limited traversal visits, and the state it ends in. -/
inductive Page (get : Id → Option (Commit Id)) (goes : Commit Id → Bool) (limit : ℤ) :
    ℤ → State (Commit Id) → List (Commit Id) → State (Commit Id) → Prop
  | done {count : ℤ} {seen : List (Commit Id)} : Page get goes limit count ⟨[], seen⟩ [] ⟨[], seen⟩
  | stop {count : ℤ} {c : Commit Id} {W seen V : List (Commit Id)} {t : State (Commit Id)} :
      goes c = false → Page get goes limit count ⟨W, seen⟩ V t →
      Page get goes limit count ⟨c :: W, seen⟩ (c :: V) t
  | full {count : ℤ} {c : Commit Id} {W seen : List (Commit Id)} {t : State (Commit Id)} :
      goes c = true → t = State.addAll insertByTime ⟨W, seen⟩ (parentsOf get goes c) →
      (0 < limit ∧ limit ≤ count + 1 ∧ t.waiting.length ≤ 1) →
      Page get goes limit count ⟨c :: W, seen⟩ [c] t
  | more {count : ℤ} {c : Commit Id} {W seen V : List (Commit Id)} {s t : State (Commit Id)} :
      goes c = true → s = State.addAll insertByTime ⟨W, seen⟩ (parentsOf get goes c) →
      ¬(0 < limit ∧ limit ≤ count + 1 ∧ s.waiting.length ≤ 1) →
      Page get goes limit (count + 1) s V t → Page get goes limit count ⟨c :: W, seen⟩ (c :: V) t

variable {limit count : ℤ} {s t : State (Commit Id)} {V : List (Commit Id)}

omit [DecidableEq Id] in
theorem parentsOf_stop (hgo : goes c = false) : parentsOf get goes c = [] := by
  simp [parentsOf, hgo]

section Page

variable (hp : Page get goes limit count s V t)
include hp

theorem Page.walk :
    Walk insertByTime (parentsOf get goes) s V t := by
  induction hp with
  | done => exact .nil
  | stop hgo _ ih =>
    refine .cons ?_
    rw [parentsOf_stop hgo]
    exact ih
  | full _ ht _ =>
    subst ht
    exact .cons .nil
  | more _ hs _ _ ih =>
    subst hs
    exact .cons ih

theorem Page.waiting_le : t.waiting.length ≤ 1 := by
  induction hp with
  | done => simp
  | stop _ _ ih => exact ih
  | full _ _ hfull => exact hfull.2.2
  | more _ _ _ _ ih => exact ih

theorem Page.waiting_of_unlimited (hlimit : limit ≤ 0) : t.waiting = [] := by
  induction hp with
  | done => rfl
  | stop _ _ ih => exact ih
  | full _ _ hfull => omega
  | more _ _ _ _ ih => exact ih

theorem Page.ne_nil (hs : s.waiting ≠ []) : V ≠ [] := by
  cases hp with
  | done => exact absurd rfl hs
  | stop _ _ => simp
  | full _ _ _ => simp
  | more _ _ _ _ => simp

theorem Page.last_goes (ht : t.waiting ≠ []) : ∃ U b, V = U ++ [b] ∧ goes b = true := by
  induction hp with
  | done => exact absurd rfl ht
  | @stop _ c _ _ _ _ _ _ ih =>
    obtain ⟨U, b, rfl, hb⟩ := ih ht
    exact ⟨c :: U, b, rfl, hb⟩
  | @full _ c _ _ _ hgo _ _ => exact ⟨[], c, rfl, hgo⟩
  | @more _ c _ _ _ _ _ _ _ _ _ ih =>
    obtain ⟨U, b, rfl, hb⟩ := ih ht
    exact ⟨c :: U, b, rfl, hb⟩

end Page

theorem Page.not_narrow (hp : Page get goes 1 count s V t) (hcount : 0 ≤ count)
    {U U' : List (Commit Id)} {b : Commit Id} {s' : State (Commit Id)} (hV : V = U ++ b :: U')
    (hU' : U' ≠ []) (hb : goes b = true)
    (hw : Walk insertByTime (parentsOf get goes) s (U ++ [b]) s') : ¬ s'.waiting.length ≤ 1 := by
  induction hp generalizing U with
  | done => simp at hV
  | stop hgo _ ih =>
    cases U with
    | nil =>
      cases hV
      rw [hgo] at hb
      cases hb
    | cons x U =>
      cases hV
      cases hw with
      | cons hw =>
        rw [parentsOf_stop hgo] at hw
        exact ih hcount rfl hw
  | full _ _ _ =>
    cases U with
    | nil =>
      cases hV
      exact absurd rfl hU'
    | cons x U => simp at hV
  | more _ hs hfull _ ih =>
    subst hs
    cases U with
    | nil =>
      cases hV
      cases hw with
      | cons hw =>
        rw [hw.eq_of_nil]
        intro hlen
        exact hfull ⟨by decide, by omega, hlen⟩
    | cons x U =>
      cases hV
      cases hw with
      | cons hw => exact ih (by omega) rfl hw

theorem exists_page {V₀ : List (Commit Id)}
    (hw : Walk insertByTime (parentsOf get goes) s V₀ ⟨[], seen⟩) (limit count : ℤ) :
    ∃ V t, Page get goes limit count s V t := by
  generalize ht : (⟨[], seen⟩ : State (Commit Id)) = t at hw
  induction hw generalizing count with
  | nil =>
    subst ht
    exact ⟨[], _, .done⟩
  | @cons c W seen V₀ t _ ih =>
    cases hgo : goes c with
    | false =>
      obtain ⟨V, t, hp⟩ := ih count ht
      rw [parentsOf_stop hgo] at hp
      exact ⟨c :: V, t, .stop hgo hp⟩
    | true =>
      by_cases hfull : 0 < limit ∧ limit ≤ count + 1 ∧
          (State.addAll insertByTime ⟨W, seen⟩ (parentsOf get goes c)).waiting.length ≤ 1
      · exact ⟨[c], _, .full hgo rfl hfull⟩
      · obtain ⟨V, t, hp⟩ := ih (count + 1) ht
        exact ⟨c :: V, t, .more hgo rfl hfull hp⟩

theorem withLimitLoop_round (h : History get goes head)
    (hf : Follows (Commit.InHistory get goes head) goes I func)
    (hs : State.All (Commit.InHistory get goes head) ⟨c :: W, seen⟩)
    (hs₁ : s = State.addAll insertByTime ⟨W, seen⟩ (parentsOf get goes c)) (hd : I d) :
    s.All (Commit.InHistory get goes head) ∧
    withLimitLoop get skipErrors func limit (fuel + 1) count (listAndHash ⟨c :: W, seen⟩) d =
      (called skipErrors func d c).bind fun d' =>
        if goes c = false then withLimitLoop get skipErrors func limit fuel count (listAndHash s) d'
        else if 0 < limit ∧ limit ≤ count + 1 ∧ s.waiting.length ≤ 1 then some (d', s.waiting)
        else withLimitLoop get skipErrors func limit fuel (count + 1) (listAndHash s) d' := by
  have hc := hs.waiting c mem_cons_self
  have hs' : State.All (Commit.InHistory get goes head) ⟨W, seen⟩ :=
    ⟨fun b hb => hs.waiting b (mem_cons_of_mem c hb), hs.seen⟩
  subst hs₁
  refine ⟨hs'.addAll insertByTime_perm fun b hb => h.inHistory_parentsOf hc hb, ?_⟩
  show (traverseRound get skipErrors func false c (listAndHash ⟨W, seen⟩) d).bind _ = _
  rw [traverseRound_eq h hs' hc (hf.stop c d hc hd)]
  cases called skipErrors func d c with
  | none => rfl
  | some d' => cases hgo : goes c <;> rfl

/-- **The loop with a limit** calls the callback along the page. -/
theorem withLimitLoop_page (h : History get goes head)
    (hf : Follows (Commit.InHistory get goes head) goes I func)
    (hp : Page get goes limit count s V t) (hs : s.All (Commit.InHistory get goes head))
    (hfuel : V.length ≤ fuel) (hd : I d) :
    withLimitLoop get skipErrors func limit fuel count (listAndHash s) d =
      (V.foldlM (called skipErrors func) d).map (·, t.waiting) := by
  induction hp generalizing fuel d with
  | done => cases fuel <;> rfl
  | @stop count c W seen V t hgo _ ih =>
    obtain ⟨fuel, rfl⟩ := Nat.exists_eq_add_of_le' (Nat.one_le_of_lt hfuel)
    have hnext : ⟨W, seen⟩ = State.addAll insertByTime ⟨W, seen⟩ (parentsOf get goes c) := by
      rw [parentsOf_stop hgo]
      rfl
    obtain ⟨hs', hround⟩ := withLimitLoop_round h hf hs hnext hd
    rw [hround, foldlM_cons]
    cases hcall : called skipErrors func d c with
    | none => rfl
    | some d' =>
      simp only [if_pos hgo]
      exact ih hs' (Nat.le_of_succ_le_succ hfuel)
        (hf.called (hs.waiting c mem_cons_self) hd hcall)
  | @full count c W seen t hgo hnext hfull =>
    obtain ⟨fuel, rfl⟩ := Nat.exists_eq_add_of_le' (Nat.one_le_of_lt hfuel)
    rw [(withLimitLoop_round h hf hs hnext hd).2, foldlM_cons]
    cases called skipErrors func d c with
    | none => rfl
    | some d' => simp [hgo, hfull]
  | @more count c W seen V s t hgo hnext hfull _ ih =>
    obtain ⟨fuel, rfl⟩ := Nat.exists_eq_add_of_le' (Nat.one_le_of_lt hfuel)
    obtain ⟨hs', hround⟩ := withLimitLoop_round h hf hs hnext hd
    rw [hround, foldlM_cons]
    cases hcall : called skipErrors func d c with
    | none => rfl
    | some d' =>
      simp only [hgo, Bool.true_eq_false, if_neg hfull]
      exact ih hs' (Nat.le_of_succ_le_succ hfuel)
        (hf.called (hs.waiting c mem_cons_self) hd hcall)

end Follow

/-! ## Falling times -/

section Times

variable {get} {goes : Commit Id → Bool} {head : Id}

/-- The times of the commits of a history are below `2 ^ 31` and fall along the links to the
    parents. -/
def Descending (get : Id → Option (Commit Id)) (goes : Commit Id → Bool) (head : Id) : Prop :=
  ∀ c : Commit Id, c.InHistory get goes head → c.ctime.toNat < 2 ^ 31 ∧
    ∀ p ∈ c.parents, ∀ q, get p = some q → q.ctime.toNat < c.ctime.toNat

omit [DecidableEq Id] in
theorem compareCommitByTime_nonpos_iff {a b : Commit Id} (ha : a.ctime.toNat < 2 ^ 31)
    (hb : b.ctime.toNat < 2 ^ 31) :
    compareCommitByTime a b ≤ 0 ↔ b.ctime.toNat ≤ a.ctime.toNat := by
  have hnat : (b.ctime - a.ctime).toUInt32.toBitVec.toNat =
      (2 ^ 64 - a.ctime.toNat + b.ctime.toNat) % 2 ^ 64 % 2 ^ 32 := by
    show (b.ctime - a.ctime).toUInt32.toNat = _
    rw [UInt64.toNat_toUInt32, UInt64.toNat_sub]
  have hdiff : compareCommitByTime a b = (b.ctime.toNat : ℤ) - a.ctime.toNat := by
    show (b.ctime - a.ctime).toUInt32.toBitVec.toInt = _
    rw [BitVec.toInt_eq_toNat_cond]
    split <;> omega
  omega

omit [DecidableEq Id] in
theorem insertByTime_sorted (hd : Descending get goes head) (c : Commit Id)
    (list : List (Commit Id)) (hc : c.InHistory get goes head)
    (hlist : ∀ b ∈ list, b.InHistory get goes head)
    (hs : list.Pairwise fun x y => y.ctime.toNat ≤ x.ctime.toNat) :
    (insertByTime c list).Pairwise fun x y => y.ctime.toNat ≤ x.ctime.toNat := by
  induction list with
  | nil => exact pairwise_singleton _ c
  | cons b list ih =>
    have hle := compareCommitByTime_nonpos_iff (hd c hc).1 (hd b (hlist b mem_cons_self)).1
    obtain ⟨hb, hs'⟩ := pairwise_cons.1 hs
    unfold insertByTime
    rw [orderedInsert_cons]
    split_ifs with h
    · refine pairwise_cons.2 ⟨fun x hx => ?_, hs⟩
      rcases mem_cons.1 hx with rfl | hx
      · exact hle.1 h
      · exact (hb x hx).trans (hle.1 h)
    · refine pairwise_cons.2 ⟨fun x hx => ?_,
        ih (fun x hx => hlist x (mem_cons_of_mem b hx)) hs'⟩
      rcases mem_cons.1 ((insertByTime_perm c list).mem_iff.1 hx) with rfl | hx
      · exact (not_le.1 fun hcb => h (hle.2 hcb)).le
      · exact hb x hx

variable (h : History get goes head) (hd : Descending get goes head)
include h hd

variable {c : Commit Id} {V : List (Commit Id)} {t : State (Commit Id)} {limit : ℤ} {I : D → Prop}
  {skipErrors : Bool} {func : Commit Id → D → Call D} {d : D}

omit hd in
theorem inHistory_of_walk (hc : c.InHistory get goes head)
    (hw : Walk insertByTime (parentsOf get goes) (Worklist.start c) V t) :
    ∀ b ∈ V ++ t.waiting, b.InHistory get goes head := by
  intro b hb
  obtain ⟨hknown, -⟩ := hw.known_start insertByTime_perm
  exact Worklist.Reach.closed (fun x hx y hy => h.inHistory_parentsOf hx hy) hc
    (hknown.reach b ((hknown.seen_iff b).2 hb))

omit hd in
theorem exists_walk_of_inHistory (hc : c.InHistory get goes head) :
    ∃ V seen, Walk insertByTime (parentsOf get goes) (Worklist.start c) V ⟨[], seen⟩ := by
  obtain ⟨c₀, h₀⟩ := Option.isSome_iff_exists.1 (h.readable head Relation.ReflTransGen.refl)
  refine Worklist.exists_walk insertByTime_perm ((h.finite_reach h₀).subset fun b hb => ?_)
  exact ((h.reach_iff h₀).2 hc).trans hb

/-- **A page** is the first part of the walk; if it leaves a commit, the rest is the walk that
    starts at that commit. -/
theorem Page.rest {V₁ seen : List (Commit Id)} {count : ℤ} (hc : c.InHistory get goes head)
    (hw : Walk insertByTime (parentsOf get goes) (Worklist.start c) V ⟨[], seen⟩)
    (hp : Page get goes limit count (Worklist.start c) V₁ t) :
    t.waiting = [] ∧ V = V₁ ∨ ∃ r V₂ seen', t.waiting = [r] ∧ V = V₁ ++ V₂ ∧
      r.InHistory get goes head ∧
      Walk insertByTime (parentsOf get goes) (Worklist.start r) V₂ ⟨[], seen'⟩ := by
  have hwp := hp.walk
  have hlen := hp.waiting_le
  obtain ⟨W, seen₁⟩ := t
  rcases W with _ | ⟨r, _ | ⟨_, _⟩⟩
  · exact .inl ⟨rfl, hwp.unique hw⟩
  · have hr : r.InHistory get goes head := inHistory_of_walk h hc hwp r (by simp)
    obtain ⟨V₂, seen', hw₂⟩ := exists_walk_of_inHistory h hr
    obtain ⟨seen'', hall⟩ := hwp.restart insertByTime_perm (insertByTime_sorted hd) (by
      intro a ha b hb
      obtain ⟨-, id, hid, hget⟩ := mem_parentsOf.1 hb
      exact ⟨h.inHistory_parentsOf ha hb, (hd a ha).2 id hid b hget⟩) hc hw₂
    exact .inr ⟨r, V₂, seen', rfl, hall.unique hw, hr, hw₂⟩
  · simp at hlen

omit h hd [DecidableEq Id] in
theorem Follows.foldlM {P : Commit Id → Prop} (hf : Follows P goes I func) (hV : ∀ c ∈ V, P c)
    {d' : D} (hI : I d) (hfold : V.foldlM (CloudFile.called skipErrors func) d = some d') :
    I d' := by
  induction V generalizing d with
  | nil =>
    cases hfold
    exact hI
  | cons c V ih =>
    obtain ⟨d₁, hd₁, hfold⟩ := Option.bind_eq_some_iff.1 hfold
    exact ih (fun x hx => hV x (mem_cons_of_mem c hx))
      (hf.called (hV c mem_cons_self) hI hd₁) hfold

section

variable (hf : Follows (Commit.InHistory get goes head) goes I func)
include hf

omit hd in
theorem traverseCommitTreeWithLimit_page
    (hc : c.InHistory get goes head) (hp : Page get goes limit 0 (Worklist.start c) V t) {fuel : ℕ}
    (hfuel : V.length ≤ fuel) (hI : I d) :
    traverseCommitTreeWithLimit get skipErrors func limit fuel c.commitId d =
      (V.foldlM (called skipErrors func) d).map
        fun d => (d, t.waiting.head?.map Commit.commitId) := by
  have hloop : withLimitLoop get skipErrors func limit fuel 0 ([c], [c.commitId]) d =
      (V.foldlM (called skipErrors func) d).map (·, t.waiting) :=
    withLimitLoop_page h hf hp (.start hc) hfuel hI
  unfold traverseCommitTreeWithLimit
  rw [hc.1, Option.bind_eq_bind, Option.bind_some, hloop]
  cases V.foldlM (called skipErrors func) d <;> rfl

/-- **All pages together** call the callback along the walk. -/
theorem traversePages_walk {seen : List (Commit Id)} (hc : c.InHistory get goes head)
    (hw : Walk insertByTime (parentsOf get goes) (Worklist.start c) V ⟨[], seen⟩) {fuel pages : ℕ}
    (hfuel : V.length ≤ fuel) (hpages : V.length ≤ pages) (hI : I d) :
    traversePages get skipErrors func limit fuel pages c.commitId d =
      V.foldlM (called skipErrors func) d := by
  -- each page visits at least the commit it starts at
  induction pages generalizing c V seen d with
  | zero =>
    rw [Nat.le_zero, length_eq_zero_iff] at hpages
    subst hpages
    cases hw
  | succ pages ih =>
    obtain ⟨V₁, t, hp⟩ := exists_page hw limit 0
    have hne : 0 < V₁.length := length_pos_iff.2 (hp.ne_nil (by simp [Worklist.start]))
    have hV₁ : ∀ b ∈ V₁, b.InHistory get goes head := fun b hb =>
      inHistory_of_walk h hc hp.walk b (mem_append_left _ hb)
    unfold traversePages
    rcases Page.rest h hd hc hw hp with ⟨ht, rfl⟩ | ⟨r, V₂, seen', ht, rfl, hr, hw₂⟩
    · rw [traverseCommitTreeWithLimit_page h hf hc hp hfuel hI, ht]
      cases V.foldlM (called skipErrors func) d <;> rfl
    · rw [length_append] at hfuel hpages
      rw [traverseCommitTreeWithLimit_page h hf hc hp (by omega) hI, ht, foldlM_append]
      cases hfold : V₁.foldlM (called skipErrors func) d with
      | none => rfl
      | some d₁ => exact ih hr hw₂ (by omega) (by omega) (hf.foldlM hV₁ hI hfold)

end

end Times

/-! ## Stopping earlier -/

section Mono

variable {get} {goes goes' : Commit Id → Bool} {head : Id}
  (hgoes : ∀ c, goes c = true → goes' c = true)
include hgoes

section

omit [DecidableEq Id]

theorem ReachableThrough.mono {id : Id}
    (h : ReachableThrough get goes head id) : ReachableThrough get goes' head id :=
  Relation.ReflTransGen.mono (fun _ _ ⟨c, hc, hgo, hp⟩ => ⟨c, hc, hgoes c hgo, hp⟩) _ _ h

theorem Commit.InHistory.mono {c : Commit Id}
    (h : c.InHistory get goes head) : c.InHistory get goes' head :=
  ⟨h.1, ReachableThrough.mono hgoes h.2⟩

theorem History.mono (h : History get goes' head) : History get goes head where
  saved := h.saved
  readable id hid := h.readable id (ReachableThrough.mono hgoes hid)
  finite := h.finite.subset fun _ hid => ReachableThrough.mono hgoes hid

theorem Descending.mono (h : Descending get goes' head) : Descending get goes head :=
  fun c hc => h c (hc.mono hgoes)

end

end Mono

/-! ## Histories given by a list -/

section OfList

def lookupCommit (cs : List (Commit Id)) (id : Id) : Option (Commit Id) :=
  cs.find? fun c => decide (c.commitId = id)

variable {cs : List (Commit Id)} {goes : Commit Id → Bool} {head : Id}

theorem lookupCommit_some {id : Id} {c : Commit Id} (h : lookupCommit cs id = some c) :
    c ∈ cs ∧ c.commitId = id := by
  have hid := find?_some h
  exact ⟨mem_of_find?_eq_some h, of_decide_eq_true hid⟩

theorem History.ofList (hhead : head ∈ cs.map Commit.commitId)
    (hparents : ∀ c ∈ cs, ∀ p ∈ c.parents, p ∈ cs.map Commit.commitId) :
    History (lookupCommit cs) goes head := by
  have hmem : ∀ id, ReachableThrough (lookupCommit cs) goes head id →
      id ∈ cs.map Commit.commitId := by
    intro id hid
    induction hid with
    | refl => exact hhead
    | tail _ hb _ =>
      obtain ⟨c, hc, -, hp⟩ := hb
      exact hparents c (lookupCommit_some hc).1 _ hp
  refine ⟨fun id c hc => (lookupCommit_some hc).2, fun id hid => ?_, ?_⟩
  · obtain ⟨c, hc, hid⟩ := mem_map.1 (hmem id hid)
    exact find?_isSome.2 ⟨c, hc, decide_eq_true hid⟩
  · exact (finite_toSet (cs.map Commit.commitId)).subset hmem

theorem Descending.ofList (hcs : ∀ c ∈ cs, c.ctime.toNat < 2 ^ 31 ∧ ∀ p ∈ c.parents, ∀ q ∈ cs,
    q.commitId = p → q.ctime.toNat < c.ctime.toNat) : Descending (lookupCommit cs) goes head := by
  intro c hc
  obtain ⟨hlt, hp⟩ := hcs c (lookupCommit_some hc.1).1
  exact ⟨hlt, fun p hmem q hq => hp p hmem q (lookupCommit_some hq).1 (lookupCommit_some hq).2⟩

end OfList

/-! ## All commits, once -/

def Reachable (get : Id → Option (Commit Id)) (head : Id) (id : Id) : Prop :=
  ReachableThrough get (fun _ => true) head id

/-- **The traversals are exhaustive and do not repeat**: a callback that never stops is called on
    each reachable commit once, also by pages if times fall along the links. -/
theorem traverseCommitTree_exhaustive {get : Id → Option (Commit Id)} {head : Id}
    (h : History get (fun _ => true) head) (skipErrors : Bool) {func : Commit Id → D → Call D}
    (hgo : ∀ c d, (func c d).stop = false) :
    ∃ V : List (Commit Id), (V.map Commit.commitId).Nodup ∧
      (∀ id, id ∈ V.map Commit.commitId ↔ Reachable get head id) ∧
      (∀ c ∈ V, get c.commitId = some c) ∧
      (∀ allowTruncate fuel d, V.length ≤ fuel →
        traverseCommitTreeCommon get skipErrors func allowTruncate fuel head d =
          V.foldlM (called skipErrors func) d) ∧
      (Descending get (fun _ => true) head → ∀ limit : ℤ, 1 ≤ limit → ∀ fuel pages d,
        V.length ≤ fuel → V.length ≤ pages →
        traversePages get skipErrors func limit fuel pages head d =
          V.foldlM (called skipErrors func) d) := by
  obtain ⟨c, hget⟩ := Option.isSome_iff_exists.1 (h.readable head Relation.ReflTransGen.refl)
  have hc := h.inHistory_of_get hget Relation.ReflTransGen.refl
  have hid : c.commitId = head := h.saved head c hget
  have hf : Follows (Commit.InHistory get (fun _ => true) head) (fun _ => true) (fun _ => True)
      func := ⟨fun c d _ _ => hgo c d, fun _ _ _ _ => trivial⟩
  obtain ⟨V, seen, hw⟩ := exists_walk_of_inHistory h hc
  obtain ⟨hnodup, hmem⟩ := hw.exact insertByTime_perm
  have hV : ∀ b, b ∈ V ↔ b.InHistory get (fun _ => true) head := fun b =>
    (hmem b).trans (h.reach_iff hget)
  refine ⟨V, ?_, fun id => ?_, fun b hb => ((hV b).1 hb).1, fun allowTruncate fuel d hfuel => ?_,
    fun hd limit _ fuel pages d hfuel hpages => ?_⟩
  · refine hnodup.map_on fun a ha b hb hab => ?_
    have hgeta := ((hV a).1 ha).1
    rw [hab, ((hV b).1 hb).1] at hgeta
    exact (Option.some.inj hgeta).symm
  · rw [mem_map]
    constructor
    · rintro ⟨b, hb, rfl⟩
      exact ((hV b).1 hb).2
    · intro hreach
      obtain ⟨b, hb⟩ := Option.isSome_iff_exists.1 (h.readable id hreach)
      exact ⟨b, (hV b).2 (h.inHistory_of_get hb hreach), h.saved id b hb⟩
  · unfold traverseCommitTreeCommon
    rw [hget]
    exact traverseCommonLoop_walk h hf hw (.start hc) hfuel trivial
  · rw [← hid]
    exact traversePages_walk h hd hf hc hw hfuel hpages trivial

def mergedCommits : List (Commit ℕ) :=
  [⟨1, 11, 100, none, none⟩, ⟨2, 12, 200, some 1, none⟩, ⟨3, 13, 200, some 1, none⟩,
    ⟨4, 14, 300, some 2, some 3⟩]

def noteCommit (c : Commit ℕ) (ids : List ℕ) : Call (List ℕ) := ⟨c.commitId :: ids, true, false⟩

theorem traverseCommitTree_exhaustive_merged :
    Descending (lookupCommit mergedCommits) (fun _ => true) 4 ∧
    ∃ V : List (Commit ℕ), (V.map Commit.commitId).Nodup ∧
      (∀ id, id ∈ V.map Commit.commitId ↔ Reachable (lookupCommit mergedCommits) 4 id) ∧
      traverseCommitTreeCommon (lookupCommit mergedCommits) false noteCommit false V.length 4 [] =
        V.foldlM (called false noteCommit) [] ∧
      traversePages (lookupCommit mergedCommits) false noteCommit 1 V.length V.length 4 [] =
        V.foldlM (called false noteCommit) [] := by
  have h : History (lookupCommit mergedCommits) (fun _ => true) 4 :=
    History.ofList (by decide) (by decide)
  have hd : Descending (lookupCommit mergedCommits) (fun _ => true) 4 :=
    Descending.ofList (by decide)
  have hgo : ∀ c ids, (noteCommit c ids).stop = false := fun _ _ => rfl
  obtain ⟨V, hnodup, hmem, -, hall, hpages⟩ := traverseCommitTree_exhaustive h false hgo
  exact ⟨hd, V, hnodup, hmem, hall false V.length [] le_rfl,
    hpages hd 1 le_rfl V.length V.length [] le_rfl le_rfl⟩

end CloudFile
