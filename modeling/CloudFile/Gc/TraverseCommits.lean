/-
  The traversal of the commits of a library (`common/commit-mgr.c`: `traverse_commit_tree_common`)
  and the callbacks of the garbage collector (`server/gc/gc-core.c`). Commits wait in a list
  sorted by time; the visited ones are closed under the parents that the callback does not cut off
  (`traverseCommitTree_spec`).
-/
import CloudFile.Gc.TraverseTree
import Mathlib.Data.List.Sort

namespace CloudFile

open Marking List Option

abbrev RepoId := List Char

/-- `SeafCommit`, as far as the traversal reads it. -/
structure Commit (Id : Type) where
  commitId : Id
  rootId : Id
  ctime : UInt64
  parentId : Option Id
  secondParentId : Option Id
deriving DecidableEq

variable {Id : Type}

def Commit.parents (c : Commit Id) : List Id := c.parentId.toList ++ c.secondParentId.toList

/-- The commit objects of each library, under their ids. -/
structure CommitStore (Id : Type) where
  get : RepoId → Id → Option (Commit Id)
  saved : ∀ repo id c, get repo id = some c → c.commitId = id

/-- `compare_commit_by_time`: the difference, truncated to an `int`. -/
def compareCommitByTime (a b : Commit Id) : ℤ := (b.ctime - a.ctime).toUInt32.toInt32.toInt

section Walk

variable [DecidableEq Id] (get : Id → Option (Commit Id)) {D : Type}

/-- What a `CommitTraverseFunc` leaves: the data, whether it succeeded, and whether the
    traversal should not go down from this commit. -/
structure Call (D : Type) where
  data : D
  ok : Bool
  stop : Bool

/-- A callback whose failure leaves nothing to read. -/
def Call.ofOption (d : D) : Option (D × Bool) → Call D
  | some (d', stop) => ⟨d', true, stop⟩
  | none => ⟨d, false, false⟩

/-- `g_list_insert_sorted_with_data` with `compare_commit_by_time` -/
def insertByTime (c : Commit Id) (list : List (Commit Id)) : List (Commit Id) :=
  list.orderedInsert (fun a b => compareCommitByTime a b ≤ 0) c

/-- `insert_parent_commit`: the waiting commits, and the ids of all commits that were ever
    waiting. -/
def insertParentCommit (allowTruncate : Bool) (s : List (Commit Id) × List Id) (parentId : Id) :
    Option (List (Commit Id) × List Id) :=
  if parentId ∈ s.2 then some s
  else match get parentId with
    | some p => some (insertByTime p s.1, parentId :: s.2)
    | none => if allowTruncate then some s else none

/-- Both parents go into the list; with `skip_errors`, a failure leaves the list as it is. -/
def insertParents (skipErrors allowTruncate : Bool) (c : Commit Id)
    (s : List (Commit Id) × List Id) : Option (List (Commit Id) × List Id) :=
  c.parents.foldlM (fun s p => (insertParentCommit get allowTruncate s p).or
    (if skipErrors then some s else none)) s

variable (skipErrors : Bool) (func : Commit Id → D → Call D)

/-- The callback, as the loops call it: a failure ends the traversal unless errors are
    skipped. -/
def called (d : D) (c : Commit Id) : Option D :=
  if (func c d).ok = false ∧ skipErrors = false then none else some (func c d).data

/-- The body of the loops, up to the test of a limit -/
def traverseRound (allowTruncate : Bool) (c : Commit Id) (s : List (Commit Id) × List Id) (d : D) :
    Option (D × Bool × List (Commit Id) × List Id) := do
  let d' ← called skipErrors func d c
  if (func c d).stop then return (d', true, s)
  let s ← insertParents get skipErrors allowTruncate c s
  return (d', false, s)

/-- The loop of `traverse_commit_tree_common`; the fuel bounds the number of rounds. -/
def traverseCommonLoop (allowTruncate : Bool) :
    ℕ → List (Commit Id) × List Id → D → Option D
  | _, ([], _), d => some d
  | 0, (_ :: _, _), _ => none
  | fuel + 1, (c :: list, hash), d => do
    let (d, _, s) ← traverseRound get skipErrors func allowTruncate c (list, hash) d
    traverseCommonLoop allowTruncate fuel s d

/-- `traverse_commit_tree_common` -/
def traverseCommitTreeCommon (allowTruncate : Bool) (fuel : ℕ) (head : Id) (d : D) : Option D := do
  let commit ← get head
  traverseCommonLoop get skipErrors func allowTruncate fuel ([commit], [commit.commitId]) d

/-- `seaf_commit_manager_traverse_commit_tree` without `skip_errors` -/
def traverseCommitTree (func : Commit Id → D → Option (D × Bool)) (fuel : ℕ) (head : Id) (d : D) :
    Option D :=
  traverseCommitTreeCommon get false (fun c d => .ofOption d (func c d)) false fuel head d

end Walk

/-! ## What is visited -/

section Visits

variable [DecidableEq Id] {get : Id → Option (Commit Id)} {D : Type}
  {func : Commit Id → D → Option (D × Bool)} {list : List (Commit Id)} {hash : List Id} {d d' : D}
  {fuel : ℕ} {c : Commit Id} {V : D → Set Id} {child : Id → Id → Prop} {I : D → Prop}

theorem insertParents_spec {c : Commit Id} {list list' : List (Commit Id)} {hash hash' : List Id}
    (hget : ∀ id c, get id = some c → c.commitId = id)
    (h : insertParents get false false c (list, hash) = some (list', hash')) :
    list ⊆ list' ∧ hash ⊆ hash' ∧ c.parents ⊆ hash' ∧
      (∀ c ∈ list', c ∈ list ∨ get c.commitId = some c) ∧
      ∀ id ∈ hash', id ∈ hash ∨ ∃ c ∈ list', c.commitId = id := by
  unfold insertParents at h
  generalize c.parents = ps at h
  induction ps generalizing list hash with
  | nil =>
    cases h
    exact ⟨List.Subset.refl _, List.Subset.refl _, nil_subset _, fun _ hc => .inl hc,
      fun _ hid => .inl hid⟩
  | cons p ps ih =>
    rw [foldlM_cons] at h
    obtain ⟨⟨list₁, hash₁⟩, hp, h⟩ := bind_eq_some_iff.1 h
    obtain ⟨hlist, hhash, hps, hnew, hwait⟩ := ih h
    rw [if_neg Bool.false_ne_true, or_none] at hp
    unfold insertParentCommit at hp
    split at hp
    · next hknown =>
      cases hp
      exact ⟨hlist, hhash, cons_subset.2 ⟨hhash hknown, hps⟩, hnew, hwait⟩
    · cases hc : get p with
      | none => simp [hc] at hp
      | some c =>
        rw [hc] at hp
        cases hp
        have hmem : ∀ {x}, x ∈ insertByTime c list ↔ x = c ∨ x ∈ list := by simp [insertByTime]
        refine ⟨fun x hx => hlist (hmem.2 (.inr hx)), fun x hx => hhash (mem_cons_of_mem p hx),
          cons_subset.2 ⟨hhash mem_cons_self, hps⟩, fun x hx => ?_, fun id hid => ?_⟩
        · rcases hnew x hx with hx | hx
          · rcases hmem.1 hx with rfl | hx
            · exact .inr (by rw [hget p x hc, hc])
            · exact .inl hx
          · exact .inr hx
        · rcases hwait id hid with hid | hid
          · rcases mem_cons.1 hid with rfl | hid
            · exact .inr ⟨c, hlist (hmem.2 (.inl rfl)), hget id c hc⟩
            · exact .inl hid
          · exact .inr hid

theorem traverseRound_spec {stop : Bool} {list₁ : List (Commit Id)} {hash₁ : List Id}
    (hget : ∀ id c, get id = some c → c.commitId = id)
    (h : traverseRound get false (fun c d => .ofOption d (func c d)) false c (list, hash) d =
      some (d', stop, list₁, hash₁)) :
    func c d = some (d', stop) ∧ list ⊆ list₁ ∧ hash ⊆ hash₁ ∧
      (stop = false → c.parents ⊆ hash₁) ∧
      (∀ c ∈ list₁, c ∈ list ∨ get c.commitId = some c) ∧
      ∀ id ∈ hash₁, id ∈ hash ∨ ∃ c ∈ list₁, c.commitId = id := by
  cases hfunc : func c d with
  | none => simp [traverseRound, called, hfunc, Call.ofOption] at h
  | some r =>
    obtain ⟨d₁, _ | _⟩ := r <;>
      simp only [traverseRound, called, hfunc, Call.ofOption, Bool.true_eq_false, false_and,
        if_false, Option.bind_eq_bind, bind_some, if_true, Bool.false_eq_true] at h
    · obtain ⟨⟨list₂, hash₂⟩, hins, h⟩ := bind_eq_some_iff.1 h
      cases h
      obtain ⟨hlist, hhash, hps, hnew, hwait⟩ := insertParents_spec hget hins
      exact ⟨rfl, hlist, hhash, fun _ => hps, hnew, hwait⟩
    · cases h
      exact ⟨rfl, List.Subset.refl _, List.Subset.refl _, by simp, fun _ hc => .inl hc,
        fun _ hid => .inl hid⟩

/-- What one call of the callback does to the visited commits `V`: it adds the commit, and cuts
    off no parent it should go on to, unless it does not stop. -/
structure Visits (V : D → Set Id) (child : Id → Id → Prop) (c : Commit Id) (d d' : D)
    (stop : Bool) : Prop where
  mem : c.commitId ∈ V d'
  grows : Grows child (fun _ => True) {p | stop = false ∧ p ∈ c.parents} (V d) (V d')

abbrev Visited (V : D → Set Id) (child : Id → Id → Prop) (d d' : D) : Prop :=
  Grows child (fun _ => True) ∅ (V d) (V d')

omit [DecidableEq Id] in
theorem Visits.trans {d₁ : D} {stop : Bool} (h : Visits V child c d d₁ stop)
    (hps : stop = false → c.parents ⊆ hash) (hhash : ∀ id ∈ hash, id ∈ V d')
    (h' : Visited V child d₁ d') : Visited V child d d' :=
  h.grows.trans (fun _ h => h) (fun p hp => .inl (hhash p (hps hp.1 hp.2))) h'

section

variable (hget : ∀ id c, get id = some c → c.commitId = id)
include hget

/-- **The loop** visits all that waits and, from there, all parents that are not cut off. -/
theorem traverseCommonLoop_spec
    (hfunc : ∀ c d d' stop, get c.commitId = some c → I d → func c d = some (d', stop) → I d' ∧
      Visits V child c d d' stop)
    (fuel : ℕ) (hI : I d) (hlist : ∀ c ∈ list, get c.commitId = some c)
    (hhash : ∀ id ∈ hash, id ∈ V d ∨ ∃ c ∈ list, c.commitId = id)
    (h : traverseCommonLoop get false (fun c d => .ofOption d (func c d)) false fuel (list, hash)
      d = some d') :
    I d' ∧ Visited V child d d' ∧ (∀ c ∈ list, c.commitId ∈ V d') ∧ ∀ id ∈ hash, id ∈ V d' := by
  induction fuel generalizing list hash d with
  | zero =>
    cases list with
    | nil =>
      rw [traverseCommonLoop] at h
      cases h
      exact ⟨hI, .refl, by simp, fun id hid => (hhash id hid).resolve_right (by simp)⟩
    | cons c list => cases h
  | succ fuel ih =>
    cases list with
    | nil =>
      rw [traverseCommonLoop] at h
      cases h
      exact ⟨hI, .refl, by simp, fun id hid => (hhash id hid).resolve_right (by simp)⟩
    | cons c list =>
      obtain ⟨⟨d₁, stop, list₁, hash₁⟩, hround, hrest⟩ := bind_eq_some_iff.1 h
      obtain ⟨hc, hl, hh, hps, hnew, hwait⟩ := traverseRound_spec hget hround
      obtain ⟨hI₁, hvisits⟩ := hfunc c d d₁ stop (hlist c mem_cons_self) hI hc
      have hlist₁ : ∀ x ∈ list₁, get x.commitId = some x := fun x hx =>
        (hnew x hx).elim (fun hx => hlist x (mem_cons_of_mem c hx)) id
      have hhash₁ : ∀ id ∈ hash₁, id ∈ V d₁ ∨ ∃ x ∈ list₁, x.commitId = id := by
        intro id hid
        rcases hwait id hid with hid | hid
        · rcases hhash id hid with hid | ⟨x, hx, rfl⟩
          · exact .inl (hvisits.grows.sub hid)
          · rcases mem_cons.1 hx with rfl | hx
            · exact .inl hvisits.mem
            · exact .inr ⟨x, hl hx, rfl⟩
        · exact .inr hid
      obtain ⟨hI', hvisited, hdone, hknown⟩ := ih hI₁ hlist₁ hhash₁ hrest
      refine ⟨hI', hvisits.trans hps hknown hvisited, ?_, fun id hid => hknown id (hh hid)⟩
      rintro x (_ | ⟨_, hx⟩)
      · exact hvisited.sub hvisits.mem
      · exact hdone x (hl hx)

/-- **The traversal from a head**: the first call of the callback may be special. -/
theorem traverseCommitTree_spec {head : Id}
    (hfirst : ∀ c d₁ stop, get head = some c → func c d = some (d₁, stop) → I d₁ ∧
      Visits V child c d d₁ stop)
    (hfunc : ∀ c d d' stop, get c.commitId = some c → I d → func c d = some (d', stop) → I d' ∧
      Visits V child c d d' stop)
    (h : traverseCommitTree get func fuel head d = some d') :
    I d' ∧ Visited V child d d' ∧ head ∈ V d' := by
  obtain ⟨c, hc, h⟩ := bind_eq_some_iff.1 h
  cases fuel with
  | zero => cases h
  | succ fuel =>
    obtain ⟨⟨d₁, stop, list₁, hash₁⟩, hround, hrest⟩ := bind_eq_some_iff.1 h
    obtain ⟨hcall, -, hh, hps, hnew, hwait⟩ := traverseRound_spec hget hround
    obtain ⟨hI₁, hvisits⟩ := hfirst c d₁ stop hc hcall
    obtain ⟨hI', hvisited, -, hknown⟩ := traverseCommonLoop_spec hget hfunc fuel hI₁
      (fun x hx => (hnew x hx).resolve_left (by simp))
      (fun id hid => (hwait id hid).imp_left fun hid => by
        rw [mem_singleton] at hid
        exact hid ▸ hvisits.mem) hrest
    refine ⟨hI', hvisits.trans hps hknown hvisited, ?_⟩
    rw [← hget head c hc]
    exact hvisited.sub hvisits.mem

end

end Visits

/-! ## The callbacks of the garbage collector -/

/-- `SeafRepo`, as the garbage collector loads it. -/
structure Repo (Id : Type) where
  id : RepoId
  head : Id
  isVirtual : Bool

/-- `GCData`; the index is shared by the data of a library and of its virtual libraries. -/
structure GCData (Id : Type) where
  repo : Repo Id
  visited : List Id
  visitedCommits : List Id
  truncateTime : ℤ
  traversedHead : Bool

def gcDataNew (repo : Repo Id) (truncateTime : ℤ) : GCData Id := ⟨repo, [], [], truncateTime, false⟩

def Commit.time (c : Commit Id) : ℤ := c.ctime.toInt64.toInt

section Callbacks

variable [ObjectId Id] [DecidableEq Id] (sha256 : Id → ℕ → UInt64) (st : FsStore Id) (fuel : ℕ)

/-- What both callbacks do with a new commit: traverse its tree and note the commit. -/
def visitCommit (c : Commit Id) (index : GCIndex) (data : GCData Id) :
    Option (GCIndex × GCData Id) := do
  let m ← traverseTree sha256 st fuel ⟨index, data.visited⟩ c.rootId
  return (m.index, { data with
    visited := m.visited, visitedCommits := c.commitId :: data.visitedCommits })

def traverseCommit (c : Commit Id) (s : GCIndex × GCData Id) :
    Option ((GCIndex × GCData Id) × Bool) :=
  let (index, data) := s
  -- visited from an earlier head
  if c.commitId ∈ data.visitedCommits then some (s, true)
  else
    let stop := data.truncateTime = 0 ∨
      (0 < data.truncateTime ∧ c.time < data.truncateTime ∧ data.traversedHead = true)
    (visitCommit sha256 st fuel c index { data with traversedHead := true }).map (·, decide stop)

def traverseBaseCommit (c : Commit Id) (s : GCIndex × GCData Id) :
    Option ((GCIndex × GCData Id) × Bool) :=
  let (index, data) := s
  if c.commitId ∈ data.visitedCommits then some (s, true)
  else (visitCommit sha256 st fuel c index data).map (·, true)

end Callbacks

/-! ## Retained commits -/

/-- The parents of the commit are retained too. -/
def KeepsParents (truncateTime : ℤ) (head : Id) (c : Commit Id) : Prop :=
  truncateTime < 0 ∨ (0 < truncateTime ∧ (c.commitId = head ∨ truncateTime ≤ c.time))

def RetainedParent (get : Id → Option (Commit Id)) (truncateTime : ℤ) (head : Id) (a b : Id) :
    Prop :=
  ∃ c, get a = some c ∧ KeepsParents truncateTime head c ∧ b ∈ c.parents

/-- The commits of a library that are retained: the head, and parents of retained commits. -/
def Retained (get : Id → Option (Commit Id)) (truncateTime : ℤ) (head : Id) : Id → Prop :=
  Relation.ReflTransGen (RetainedParent get truncateTime head) head

section Good

variable [ObjectId Id] [DecidableEq Id] {sha256 : Id → ℕ → UInt64} {st : FsStore Id}
  {commits : CommitStore Id} {index index' : GCIndex} {data data' : GCData Id} {fuel : ℕ}
  {s s' : GCIndex × GCData Id} {c : Commit Id} {stop : Bool} {truncateTime : ℤ} {head : Id}

/-- The marked objects are closed, and the trees of the visited commits are in the index. -/
structure Good (sha256 : Id → ℕ → UInt64) (st : FsStore Id) (commits : CommitStore Id)
    (index : GCIndex) (data : GCData Id) : Prop where
  closed : Marks.Closed sha256 st ⟨index, data.visited⟩
  covered : ∀ id ∈ data.visitedCommits, ∃ c, commits.get data.repo.id id = some c ∧
    Covered sha256 st index c.rootId

theorem good_new (repo : Repo Id) (truncateTime : ℤ) :
    Good sha256 st commits index (gcDataNew repo truncateTime) :=
  ⟨fun _ h => absurd h not_mem_nil, fun _ h => absurd h not_mem_nil⟩

theorem Good.extends (h : Good sha256 st commits index data)
    (he : index.Extends sha256 index') : Good sha256 st commits index' data := by
  refine ⟨fun id hid => ?_, fun id hid => ?_⟩
  · obtain ⟨hkept, hchild⟩ := h.closed id hid
    exact ⟨hkept.extends he, hchild⟩
  · obtain ⟨c, hc, hcov⟩ := h.covered id hid
    exact ⟨c, hc, hcov.extends he⟩

theorem visitCommit_spec {c : Commit Id} (hg : Good sha256 st commits index data)
    (hc : commits.get data.repo.id c.commitId = some c)
    (h : visitCommit sha256 st fuel c index data = some (index', data')) :
    Good sha256 st commits index' data' ∧ index.Extends sha256 index' ∧
      data' = { data with visited := data'.visited,
                          visitedCommits := c.commitId :: data.visitedCommits } := by
  obtain ⟨m, hm, h⟩ := bind_eq_some_iff.1 h
  cases h
  obtain ⟨htrav, hcov⟩ := traverseTree_spec hg.closed hm
  refine ⟨⟨htrav.closed hg.closed, ?_⟩, htrav.extends_, rfl⟩
  rintro id (_ | ⟨_, hid⟩)
  · exact ⟨c, hc, hcov⟩
  · obtain ⟨c', hc', hcov'⟩ := hg.covered id hid
    exact ⟨c', hc', hcov'.extends htrav.extends_⟩

/-- What a callback does with a commit, visited or not. -/
structure Called (sha256 : Id → ℕ → UInt64) (st : FsStore Id) (commits : CommitStore Id)
    (c : Commit Id) (s s' : GCIndex × GCData Id) : Prop where
  good : Good sha256 st commits s'.1 s'.2
  extends_ : s.1.Extends sha256 s'.1
  repo : s'.2.repo = s.2.repo
  truncateTime : s'.2.truncateTime = s.2.truncateTime
  visited : s'.2.visitedCommits =
    if c.commitId ∈ s.2.visitedCommits then s.2.visitedCommits
    else c.commitId :: s.2.visitedCommits

def visits (s : GCIndex × GCData Id) : Set Id := {id | id ∈ s.2.visitedCommits}

theorem traverseCommit_called (hg : Good sha256 st commits s.1 s.2)
    (hc : commits.get s.2.repo.id c.commitId = some c)
    (h : traverseCommit sha256 st fuel c s = some (s', stop)) :
    Called sha256 st commits c s s' ∧
      (c.commitId ∉ s.2.visitedCommits → s'.2.traversedHead = true ∧
        (stop = true ↔ s.2.truncateTime = 0 ∨ (0 < s.2.truncateTime ∧
          c.time < s.2.truncateTime ∧ s.2.traversedHead = true))) ∧
      (s.2.traversedHead = true → s'.2.traversedHead = true) := by
  obtain ⟨index, data⟩ := s
  dsimp only [traverseCommit] at h
  split_ifs at h with hvisited
  · cases h
    exact ⟨⟨hg, .refl, rfl, rfl, (if_pos hvisited).symm⟩, fun hn => absurd hvisited hn, id⟩
  · obtain ⟨⟨index', data'⟩, hv, h⟩ := map_eq_some_iff.1 h
    cases h
    have hg' : Good sha256 st commits index { data with traversedHead := true } :=
      ⟨hg.closed, hg.covered⟩
    obtain ⟨hgood, hext, hdata⟩ := visitCommit_spec hg' hc hv
    rw [hdata] at hgood ⊢
    exact ⟨⟨hgood, hext, rfl, rfl, (if_neg hvisited).symm⟩, fun _ => ⟨rfl, decide_eq_true_iff⟩,
      fun _ => rfl⟩

theorem traverseBaseCommit_called (hg : Good sha256 st commits s.1 s.2)
    (hc : commits.get s.2.repo.id c.commitId = some c)
    (h : traverseBaseCommit sha256 st fuel c s = some (s', stop)) :
    Called sha256 st commits c s s' := by
  obtain ⟨index, data⟩ := s
  dsimp only [traverseBaseCommit] at h
  split_ifs at h with hvisited
  · cases h
    exact ⟨hg, .refl, rfl, rfl, (if_pos hvisited).symm⟩
  · obtain ⟨⟨index', data'⟩, hv, h⟩ := map_eq_some_iff.1 h
    cases h
    obtain ⟨hgood, hext, hdata⟩ := visitCommit_spec hg hc hv
    rw [hdata] at hgood ⊢
    exact ⟨hgood, hext, rfl, rfl, (if_neg hvisited).symm⟩

omit [ObjectId Id] [DecidableEq Id] in
theorem not_stop {traversedHead : Bool} (hkeep : KeepsParents truncateTime head c)
    (hhead : c.commitId = head → traversedHead = false)
    (hstop : stop = true ↔ truncateTime = 0 ∨ (0 < truncateTime ∧ c.time < truncateTime ∧
      traversedHead = true)) :
    stop = false := by
  rw [← Bool.not_eq_true, hstop]
  rintro (rfl | ⟨hpos, hold, htrav⟩)
  · rcases hkeep with h | ⟨h, -⟩ <;> exact lt_irrefl _ h
  · rcases hkeep with h | ⟨-, h | h⟩
    · exact lt_asymm h hpos
    · simp [hhead h] at htrav
    · exact absurd hold (not_lt.2 h)

omit [ObjectId Id] in
theorem visits_of_called (h : s'.2.visitedCommits =
      if c.commitId ∈ s.2.visitedCommits then s.2.visitedCommits else c.commitId ::
      s.2.visitedCommits)
    {child : Id → Id → Prop}
    (hchild : c.commitId ∉ s.2.visitedCommits → ∀ p, child c.commitId p → stop = false ∧
      p ∈ c.parents) :
    Visits visits child c s s' stop := by
  unfold visits
  split_ifs at h with hvisited
  · exact ⟨by simpa [h] using hvisited, by rw [h]; exact .refl⟩
  · refine ⟨by simp [h], ?_⟩
    rw [h, setOf_mem_cons]
    exact .insert trivial fun p hp => .inr (hchild hvisited p hp)

theorem traverseCommitTree_good
    {func : Commit Id → GCIndex × GCData Id → Option ((GCIndex × GCData Id) × Bool)}
    (hfunc : ∀ {c s s' stop}, Good sha256 st commits s.1 s.2 →
      commits.get s.2.repo.id c.commitId = some c → func c s = some (s', stop) →
      Called sha256 st commits c s s')
    (hg : Good sha256 st commits s.1 s.2)
    (h : traverseCommitTree (commits.get s.2.repo.id) func fuel head s = some s') :
    Good sha256 st commits s'.1 s'.2 ∧ s.1.Extends sha256 s'.1 ∧ s'.2.repo = s.2.repo ∧
      s.2.visitedCommits ⊆ s'.2.visitedCommits ∧ head ∈ s'.2.visitedCommits := by
  have hget := fun id c => commits.saved s.2.repo.id id c
  have hcall : ∀ c x x' stop, commits.get s.2.repo.id c.commitId = some c →
      (Good sha256 st commits x.1 x.2 ∧ s.1.Extends sha256 x.1 ∧ x.2.repo = s.2.repo) →
      func c x = some (x', stop) →
      (Good sha256 st commits x'.1 x'.2 ∧ s.1.Extends sha256 x'.1 ∧ x'.2.repo = s.2.repo) ∧
        Visits visits (fun _ _ => False) c x x' stop := by
    rintro c x x' stop hc ⟨hgood, hext, hrepo⟩ hx
    have hcalled := hfunc hgood (by rwa [hrepo]) hx
    exact ⟨⟨hcalled.good, hext.trans hcalled.extends_, hcalled.repo.trans hrepo⟩,
      visits_of_called hcalled.visited fun _ _ hp => hp.elim⟩
  obtain ⟨⟨hgood, hext, hrepo⟩, hvisited, hhead⟩ := traverseCommitTree_spec hget
    (fun c x stop hc => hcall c s x stop (by rwa [hget _ c hc]) ⟨hg, .refl, rfl⟩) hcall h
  exact ⟨hgood, hext, hrepo, hvisited.sub, hhead⟩

/-- **The first traversal of a library** visits its retained commits. -/
theorem populate_spec {repo : Repo Id}
    (h : traverseCommitTree (commits.get repo.id) (traverseCommit sha256 st fuel) fuel repo.head
      (index, gcDataNew repo truncateTime) = some s') :
    Good sha256 st commits s'.1 s'.2 ∧ index.Extends sha256 s'.1 ∧ s'.2.repo = repo ∧
      ∀ id, Retained (commits.get repo.id) truncateTime repo.head id →
        id ∈ s'.2.visitedCommits := by
  have hget := fun id c => commits.saved repo.id id c
  let child := RetainedParent (commits.get repo.id) truncateTime repo.head
  let I : GCIndex × GCData Id → Prop := fun x => Good sha256 st commits x.1 x.2 ∧
    index.Extends sha256 x.1 ∧ x.2.repo = repo ∧ x.2.truncateTime = truncateTime ∧
    x.2.traversedHead = true ∧ repo.head ∈ x.2.visitedCommits
  -- the head is visited first, whatever its time is
  have hfirst : ∀ c x stop, commits.get repo.id repo.head = some c →
      traverseCommit sha256 st fuel c (index, gcDataNew repo truncateTime) = some (x, stop) →
      I x ∧ Visits visits child c (index, gcDataNew repo truncateTime) x stop := by
    intro c x stop hc hx
    have hid := hget _ c hc
    obtain ⟨hcalled, hnew, -⟩ := traverseCommit_called (good_new repo truncateTime)
      (show commits.get repo.id c.commitId = some c by rw [hid, hc]) hx
    obtain ⟨htrav, hstop⟩ := hnew not_mem_nil
    refine ⟨⟨hcalled.good, hcalled.extends_, hcalled.repo, hcalled.truncateTime, htrav, ?_⟩,
      visits_of_called hcalled.visited ?_⟩
    · rw [hcalled.visited, hid]
      simp [gcDataNew]
    · rintro - p ⟨c', hc', hkeep, hp⟩
      obtain rfl := mem_unique hc (hid ▸ hc')
      exact ⟨not_stop hkeep (fun _ => rfl) hstop, hp⟩
  have hcall : ∀ c x x' stop, commits.get repo.id c.commitId = some c → I x →
      traverseCommit sha256 st fuel c x = some (x', stop) →
      I x' ∧ Visits visits child c x x' stop := by
    rintro c x x' stop hc ⟨hgood, hext, hrepo, htime, htrav, hhead⟩ hx
    obtain ⟨hcalled, hnew, hkeep⟩ := traverseCommit_called hgood (by rwa [hrepo]) hx
    refine ⟨⟨hcalled.good, hext.trans hcalled.extends_, hcalled.repo.trans hrepo,
      hcalled.truncateTime.trans htime, hkeep htrav, ?_⟩, visits_of_called hcalled.visited ?_⟩
    · rw [hcalled.visited]
      split_ifs
      · exact hhead
      · exact mem_cons_of_mem _ hhead
    · rintro hunvisited p ⟨c', hc', hkeeps, hp⟩
      obtain rfl := mem_unique hc hc'
      have hstop := (hnew hunvisited).2
      rw [htime] at hstop
      exact ⟨not_stop hkeeps (fun heq => absurd (heq ▸ hhead) hunvisited) hstop, hp⟩
  obtain ⟨⟨hgood, hext, hrepo, -⟩, hvisited, hhead⟩ :=
    traverseCommitTree_spec hget hfirst hcall h
  refine ⟨hgood, hext, hrepo, fun id hid => ?_⟩
  have hclosed : Closed child (fun _ => True) (visits s') :=
    Closed.grow (fun a ha => absurd ha not_mem_nil) (fun _ h => h) hvisited
  exact (hclosed.reach hhead hid).1

end Good

end CloudFile
