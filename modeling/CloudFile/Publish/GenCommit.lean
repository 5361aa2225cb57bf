/-
  Publishing with retries (`fileserver/fileop.go`, `server/repo-op.c`). Other writers may move the
  head between any two accesses, so every attempt comes with the row it finds under the lock
  (`Attempt`). `genNewCommit` reads the record again before the next attempt, `fastForwardOrMerge`
  does not.
-/
import CloudFile.Publish.UpdateBranch

namespace CloudFile

variable {Id : Type}

/-! ## One attempt -/

/-- Why a commit is not published. -/
inductive PublishErr where
  | load
  /-- the files could not be added to the tree -/
  | post
  /-- `ErrConflict`, `SEAF_ERR_CONCURRENT_UPLOAD` -/
  | conflict
  | merge
  | save
  | update (e : UpdateErr)
  | noRepo
  | stopped
deriving DecidableEq

/-- What an attempt to publish finds, and what `repomgr.Get` reads after it. -/
structure Attempt (Id : Type) where
  load : Id → Option (Commit Id)
  load_id : ∀ id c, load id = some c → c.commitId = id
  /-- the merged root of the base, head and remote roots -/
  merge : Id → Id → Id → Option Id
  /-- the id of a commit with this parent, second parent and root -/
  newId : Id → Option Id → Id → Id
  ctime : UInt64
  save : Bool
  row : Option Id
  steps : UpdateSteps
  nextHead : Option Id

/-- The commit of an attempt. -/
def Attempt.newCommit (a : Attempt Id) (parentId : Id) (secondParentId : Option Id) (root : Id) :
    Commit Id :=
  ⟨a.newId parentId secondParentId root, root, a.ctime, some parentId, secondParentId⟩

/-- How an attempt went, where no commit means another attempt is needed; and the row after
    its transaction. -/
structure Tried (Id : Type) where
  result : Except PublishErr (Option (Commit Id))
  row : Option Id

/-- How a publication went, and the row before and after each of its transactions. -/
structure Publication (Id : Type) where
  result : Except PublishErr (Commit Id)
  rows : List (Option Id × Option Id)

section Attempt

-- the server's branch update
variable (update : UpdateSteps → Option Id → Id → Id → Option Id → Updated Id)

/-- The move of the head; a lost race is none. -/
def publishCommit (a : Attempt Id) (commit : Commit Id) (oldCommitID : Id) (second : Option Id) :
    Tried Id :=
  match update a.steps a.row commit.commitId oldCommitID second with
  | ⟨.ok (), row⟩ => ⟨.ok (some commit), row⟩
  | ⟨.error .headConflict, row⟩ => ⟨.ok none, row⟩
  | ⟨.error e, row⟩ => ⟨.error (.update e), row⟩

/-- `genCommitNeedRetry`, and the body of the loop of `gen_new_commit_guarded` -/
def genCommitNeedRetry [DecidableEq Id] (a : Attempt Id) (repoHead : Id) (base commit : Commit Id)
    (newRoot : Id) (handleConcurrentUpdate : Bool) : Tried Id :=
  match a.load repoHead with
  | none => ⟨.error .load, a.row⟩
  | some currentHead =>
    if base.commitId ≠ currentHead.commitId then
      if !handleConcurrentUpdate then ⟨.error .conflict, a.row⟩
      else match a.merge base.rootId currentHead.rootId newRoot with
        | none => ⟨.error .merge, a.row⟩
        | some mergedRoot =>
          if !a.save then ⟨.error .save, a.row⟩
          else publishCommit update a
            (a.newCommit currentHead.commitId (some commit.commitId) mergedRoot)
            currentHead.commitId (some commit.commitId)
    else publishCommit update a commit currentHead.commitId none

/-- A loop after one attempt; `retry` is what follows if another one is needed. -/
def Tried.orRetry (t : Tried Id) (row : Option Id) (retry : Publication Id) : Publication Id :=
  match t.result with
  | .error e => ⟨.error e, [(row, t.row)]⟩
  | .ok (some commit) => ⟨.ok commit, [(row, t.row)]⟩
  | .ok none => ⟨retry.result, (row, t.row) :: retry.rows⟩

/-- The loop of `genNewCommit` and `gen_new_commit_guarded`; the record is read before each retry.
    -/
def genLoop (attempt : Attempt Id → Id → Tried Id) (handleConcurrentUpdate : Bool)
    (as : ℕ → Attempt Id) : ℕ → ℕ → Id → Publication Id
  | 0, k, repoHead => (attempt (as k) repoHead).orRetry (as k).row
      ⟨.error (if handleConcurrentUpdate then .stopped else .conflict), []⟩
  | left + 1, k, repoHead => (attempt (as k) repoHead).orRetry (as k).row
      (if handleConcurrentUpdate then
        match (as k).nextHead with
        | none => ⟨.error .noRepo, []⟩
        | some head => genLoop attempt handleConcurrentUpdate as left (k + 1) head
      else ⟨.error .conflict, []⟩)

/-- `MAX_RETRY_COUNT` -/
def maxRetryCnt : ℕ := 10

end Attempt

namespace Fileserver

variable [DecidableEq Id]

/-- `genNewCommit`, for the record with the head `repoHead`; `saved` is what
    `commitmgr.Save` answers for the new commit. -/
def genNewCommit (as : ℕ → Attempt Id) (saved : Bool) (repoHead : Id) (base : Commit Id)
    (newRoot : Id) (handleConcurrentUpdate checkGC : Bool) (lastGCID : Option GcId) :
    Publication Id :=
  let commit := (as 0).newCommit base.commitId none newRoot
  if !saved then ⟨.error .save, []⟩
  else genLoop (fun a head => genCommitNeedRetry (updateBranch checkGC lastGCID) a head base commit
    newRoot handleConcurrentUpdate) handleConcurrentUpdate as maxRetryCnt 0 repoHead

/-- The loop of `fastForwardOrMerge`: the record stays the same. -/
def forwardLoop (attempt : Attempt Id → Tried Id) (as : ℕ → Attempt Id) : ℕ → ℕ → Publication Id
  | 0, k => (attempt (as k)).orRetry (as k).row ⟨.error .stopped, []⟩
  | left + 1, k => (attempt (as k)).orRetry (as k).row (forwardLoop attempt as left (k + 1))

/-- `fastForwardOrMerge`; `hasLastGCID` is none if it cannot be read. -/
def fastForwardOrMerge (as : ℕ → Attempt Id) (hasLastGCID : Option Bool) (lastGCID : Option GcId)
    (repoHead : Id) (base newCommit : Commit Id) : Publication Id :=
  match hasLastGCID with
  | none => ⟨.error .load, []⟩
  | some checkGC =>
    forwardLoop (fun a => genCommitNeedRetry (updateBranch checkGC lastGCID) a repoHead base
      newCommit newCommit.rootId true) as 3 0

end Fileserver

namespace Server

variable [DecidableEq Id]

/-- `gen_new_commit_guarded`: the record is read at the start; `repoHead` is its head, if the
    library exists. -/
def genNewCommit (as : ℕ → Attempt Id) (saved : Bool) (repoHead : Option Id) (base : Commit Id)
    (newRoot : Id) (handleConcurrentUpdate checkGc : Bool) (lastGcId : Option GcId) :
    Publication Id :=
  match repoHead with
  | none => ⟨.error .noRepo, []⟩
  | some head =>
    let commit := (as 0).newCommit base.commitId none newRoot
    if !saved then ⟨.error .save, []⟩
    else genLoop (fun a head => genCommitNeedRetry
      (fun s row new old _ => testAndUpdateBranch checkGc lastGcId s row new old) a head base commit
      newRoot handleConcurrentUpdate) handleConcurrentUpdate as maxRetryCnt 0 head

end Server

/-! ## What an attempt does -/

section Spec

variable {attempt : Attempt Id → Id → Tried Id} {handle : Bool} {as : ℕ → Attempt Id}
  {e : PublishErr} {left k : ℕ}

/-- The commit given, or a merge of the head and the commit given. -/
def IsOrMerges (c commit : Commit Id) (head : Id) : Prop :=
  c = commit ∨ c.parentId = some head ∧ c.secondParentId = some commit.commitId

/-- An attempt publishes or leaves the row alone. -/
def Tried.Sound (t : Tried Id) (row : Option Id) : Prop :=
  (∀ c, t.result ≠ .ok (some c)) → t.row = row

theorem orRetry_rows {t : Tried Id} {row : Option Id} {retry : Publication Id} (ht : t.Sound row)
    (hretry : ∀ e, retry.result = .error e → ∀ p ∈ retry.rows, p.2 = p.1)
    (h : (t.orRetry row retry).result = .error e) :
    ∀ p ∈ (t.orRetry row retry).rows, p.2 = p.1 := by
  unfold Tried.orRetry at h ⊢
  cases hr : t.result with
  | error e' => simpa using ht (by simp [hr])
  | ok o =>
    cases o with
    | some c => simp [hr] at h
    | none =>
      simp only [hr] at h ⊢
      intro p hp
      rcases List.mem_cons.1 hp with rfl | hp
      · exact ht (by simp [hr])
      · exact hretry e h p hp

theorem genLoop_rows (h : ∀ k head, (attempt (as k) head).Sound (as k).row)
    {repoHead : Id} (hr : (genLoop attempt handle as left k repoHead).result = .error e) :
    ∀ p ∈ (genLoop attempt handle as left k repoHead).rows, p.2 = p.1 := by
  induction left generalizing k repoHead e with
  | zero => exact orRetry_rows (h k repoHead) (by simp) hr
  | succ left ih =>
    refine orRetry_rows (h k repoHead) ?_ hr
    intro e' he'
    cases handle with
    | false => simp
    | true =>
      cases hn : (as k).nextHead with
      | none => simp
      | some head =>
        simp only [hn] at he' ⊢
        exact ih he'

variable [DecidableEq Id] {a : Attempt Id} {checkGC saved : Bool} {lastGCID : Option GcId}
  {repoHead newRoot old : Id} {base commit c : Commit Id} {second : Option Id}

theorem postPass_of_true {s : UpdateSteps} (h : s.postPass true = true) (second : Bool) :
    s.postPass second = true := by
  cases second with
  | true => exact h
  | false =>
    simp only [UpdateSteps.postPass, Bool.and_eq_true] at h ⊢
    exact ⟨rfl, h.2⟩

theorem publishCommit_sound (hpost : a.steps.postPass true = true) :
    (publishCommit (Fileserver.updateBranch checkGC lastGCID) a c old second).Sound a.row := by
  intro h
  unfold publishCommit at h ⊢
  cases hr : refusal a.steps .headConflict checkGC lastGCID a.row old with
  | none =>
    rw [updateBranch_set hr, postPass_of_true hpost] at h
    exact absurd rfl (h c)
  | some e =>
    rw [updateBranch_refused hr]
    cases e <;> rfl

section Cases

variable {update : UpdateSteps → Option Id → Id → Id → Option Id → Updated Id}

/-- **An attempt** fails before it publishes, or is one publication against the record's head. -/
theorem genCommitNeedRetry_cases (a : Attempt Id) (repoHead : Id) (base commit : Commit Id)
    (newRoot : Id) (handle : Bool) :
    (∃ e, (e = .conflict → handle = false) ∧
      genCommitNeedRetry update a repoHead base commit newRoot handle = ⟨.error e, a.row⟩) ∨
    ∃ c second, IsOrMerges c commit repoHead ∧
      genCommitNeedRetry update a repoHead base commit newRoot handle =
        publishCommit update a c repoHead second := by
  unfold genCommitNeedRetry
  cases hload : a.load repoHead with
  | none => exact .inl ⟨.load, nofun, rfl⟩
  | some currentHead =>
    obtain rfl := a.load_id _ _ hload
    by_cases hbase : base.commitId = currentHead.commitId
    · exact .inr ⟨commit, none, .inl rfl, by simp [hbase]⟩
    · simp only [ne_eq, hbase, not_false_iff]
      cases handle with
      | false => exact .inl ⟨.conflict, fun _ => rfl, rfl⟩
      | true =>
        cases hmerge : a.merge base.rootId currentHead.rootId newRoot with
        | none => exact .inl ⟨.merge, nofun, rfl⟩
        | some mergedRoot =>
          cases hsave : a.save with
          | false => exact .inl ⟨.save, nofun, rfl⟩
          | true =>
            exact .inr ⟨a.newCommit currentHead.commitId (some commit.commitId) mergedRoot,
              some commit.commitId, .inr ⟨rfl, rfl⟩, rfl⟩

end Cases

theorem genCommitNeedRetry_sound (hpost : a.steps.postPass true = true) :
    (genCommitNeedRetry (Fileserver.updateBranch checkGC lastGCID) a repoHead base commit newRoot
      handle).Sound a.row := by
  rcases genCommitNeedRetry_cases a repoHead base commit newRoot handle with
    ⟨e, -, h⟩ | ⟨c, second, -, h⟩
  · rw [h]
    exact fun _ => rfl
  · rw [h]
    exact publishCommit_sound hpost

theorem genNewCommit_rows (hpost : ∀ k, (as k).steps.postPass true = true)
    (h : (Fileserver.genNewCommit as saved repoHead base newRoot handle checkGC lastGCID).result =
      .error e) :
    ∀ p ∈ (Fileserver.genNewCommit as saved repoHead base newRoot handle checkGC lastGCID).rows,
      p.2 = p.1 := by
  unfold Fileserver.genNewCommit at h ⊢
  cases saved with
  | false => simp
  | true => exact genLoop_rows (fun k head => genCommitNeedRetry_sound (hpost k)) h

/-! ## When an upload has to start again -/

section Conflict

variable {update : UpdateSteps → Option Id → Id → Id → Option Id → Updated Id}

variable {left : ℕ}

theorem genLoop_unhandled (hu : ComparesRow update) :
    let p := genLoop (fun a head => genCommitNeedRetry update a head base commit newRoot false)
      false as left 0 repoHead
    ((∃ c, p.result = .ok c) → repoHead = base.commitId ∧ (as 0).row = some base.commitId) ∧
    (p.result = .error .conflict →
      ¬ (repoHead = base.commitId ∧ (as 0).row = some base.commitId)) := by
  intro p
  have hp : p = (genCommitNeedRetry update (as 0) repoHead base commit newRoot false).orRetry
      (as 0).row ⟨.error .conflict, []⟩ := by
    cases left <;> rfl
  rw [hp]
  cases hload : (as 0).load repoHead with
  | none => simp [genCommitNeedRetry, hload, Tried.orRetry]
  | some currentHead =>
    obtain rfl := (as 0).load_id _ _ hload
    by_cases hbase : base.commitId = currentHead.commitId
    · have hok := hu.ok (as 0).steps (as 0).row commit.commitId currentHead.commitId none
      have hno := hu.conflict (as 0).steps (as 0).row commit.commitId currentHead.commitId none
      simp only [genCommitNeedRetry, hload, hbase, ne_eq, not_true_eq_false, publishCommit]
      cases hup : update (as 0).steps (as 0).row commit.commitId currentHead.commitId none with
      | mk result row =>
        rw [hup] at hok hno
        cases result with
        | ok _ => simpa [Tried.orRetry] using hok rfl
        | error e =>
          cases e with
          | headConflict => simpa [Tried.orRetry] using hno rfl
          | _ => simp [Tried.orRetry]
    · simp [genCommitNeedRetry, hload, hbase, Tried.orRetry, Ne.symm hbase]

theorem genLoop_handled {k : ℕ} {head : Id} :
    (genLoop (fun a head => genCommitNeedRetry update a head base commit newRoot true) true as
      left k head).result ≠ .error .conflict := by
  have hattempt : ∀ k head (retry : Publication Id), retry.result ≠ .error .conflict →
      ((genCommitNeedRetry update (as k) head base commit newRoot true).orRetry (as k).row
        retry).result ≠ .error .conflict := by
    intro k head retry hretry
    have hpub : ∀ c old second,
        ((publishCommit update (as k) c old second).orRetry (as k).row retry).result ≠
          .error .conflict := by
      intro c old second
      unfold publishCommit
      split <;> simp [Tried.orRetry, hretry]
    rcases genCommitNeedRetry_cases (as k) head base commit newRoot true with
      ⟨e, he, h⟩ | ⟨c, second, -, h⟩
    · rw [h]
      simp only [Tried.orRetry, ne_eq, Except.error.injEq]
      exact fun hc => absurd (he hc) (by simp)
    · rw [h]
      exact hpub c head second
  induction left generalizing k head with
  | zero => exact hattempt k head _ (by simp)
  | succ left ih =>
    refine hattempt k head _ ?_
    cases (as k).nextHead with
    | none => simp
    | some head' => exact ih

/-- A commit was published without a merge only from the base, and an upload starts again only if
    the head is another one. -/
def Publication.TellsHead (p : Publication Id) (c : Prop) : Prop :=
  ((∃ commit, p.result = .ok commit) → c) ∧ (p.result = .error .conflict → ¬ c)

theorem genLoop_tellsHead (hu : ComparesRow update) :
    (genLoop (fun a head => genCommitNeedRetry update a head base commit newRoot handle) handle as
      left 0 repoHead).TellsHead
        (handle = true ∨ repoHead = base.commitId ∧ (as 0).row = some base.commitId) := by
  cases handle with
  | true => exact ⟨fun _ => .inl rfl, fun h => absurd h genLoop_handled⟩
  | false =>
    obtain ⟨hok, hno⟩ := genLoop_unhandled hu
    refine ⟨fun h => .inr (hok h), fun h hc => hno h ?_⟩
    simpa using hc

theorem Fileserver.genNewCommit_tellsHead :
    (genNewCommit as saved repoHead base newRoot handle checkGC lastGCID).TellsHead
      (handle = true ∨ repoHead = base.commitId ∧ (as 0).row = some base.commitId) := by
  unfold genNewCommit
  cases saved with
  | false => simp [Publication.TellsHead]
  | true => exact genLoop_tellsHead updateBranch_compares

theorem Server.genNewCommit_tellsHead {genHead : Option Id} :
    (genNewCommit as saved genHead base newRoot handle checkGC lastGCID).TellsHead
      (handle = true ∨ genHead = some base.commitId ∧ (as 0).row = some base.commitId) := by
  unfold genNewCommit
  cases genHead with
  | none => simp [Publication.TellsHead]
  | some head =>
    cases saved with
    | false => simp [Publication.TellsHead]
    | true => simpa using genLoop_tellsHead testAndUpdateBranch_compares

end Conflict

/-! ## A lost race -/

/-- Storage, merge and database do not fail, and nothing but the head refuses. -/
structure Attempt.Succeeds (a : Attempt Id) (checkGC : Bool) (lastGCID : Option GcId)
    (repoHead : Id) : Prop where
  load : (a.load repoHead).isSome
  merge : ∀ b h r, (a.merge b h r).isSome
  save : a.save = true
  pass : a.steps.Pass checkGC lastGCID
  post : a.steps.postPass true = true

/-- The head moves from some commit to the given one or to its merge with that commit. -/
def Publication.Publishes (p : Publication Id) (commit : Commit Id) : Prop :=
  ∃ c head, p.result = .ok c ∧ p.rows.getLast? = some (some head, some c.commitId) ∧
    IsOrMerges c commit head

theorem genCommitNeedRetry_succeeds (base commit : Commit Id) (newRoot : Id)
    (hs : a.Succeeds checkGC lastGCID repoHead) :
    ∃ c second, IsOrMerges c commit repoHead ∧
      genCommitNeedRetry (Fileserver.updateBranch checkGC lastGCID) a repoHead base commit newRoot
        true = publishCommit (Fileserver.updateBranch checkGC lastGCID) a c repoHead second := by
  obtain ⟨currentHead, hload⟩ := Option.isSome_iff_exists.1 hs.load
  obtain rfl := a.load_id _ _ hload
  obtain ⟨mergedRoot, hmerge⟩ :=
    Option.isSome_iff_exists.1 (hs.merge base.rootId currentHead.rootId newRoot)
  by_cases hbase : base.commitId = currentHead.commitId
  · exact ⟨commit, none, .inl rfl, by simp [genCommitNeedRetry, hload, hbase]⟩
  · refine ⟨a.newCommit currentHead.commitId (some commit.commitId) mergedRoot,
      some commit.commitId, .inr ⟨rfl, rfl⟩, ?_⟩
    simp only [genCommitNeedRetry, hload, ne_eq, hbase, not_false_iff, if_true, Bool.not_true,
      Bool.false_eq_true, if_false, hmerge, hs.save]

omit [DecidableEq Id] in
theorem orRetry_ne_nil (t : Tried Id) (row : Option Id) (retry : Publication Id) :
    (t.orRetry row retry).rows ≠ [] := by
  unfold Tried.orRetry
  split <;> simp

omit [DecidableEq Id] in
theorem publishes_cons {p : Publication Id} (hne : p.rows ≠ []) (r : Option Id × Option Id) :
    (Publication.mk p.result (r :: p.rows)).Publishes commit ↔ p.Publishes commit := by
  have hlast : (r :: p.rows).getLast? = p.rows.getLast? := by
    obtain ⟨r', rows, hrows⟩ := List.exists_cons_of_ne_nil hne
    rw [hrows, List.getLast?_cons_cons]
  simp only [Publication.Publishes, hlast]

theorem genCommitNeedRetry_won (hs : a.Succeeds checkGC lastGCID repoHead)
    (hrow : a.row = some repoHead) (retry : Publication Id) :
    ((genCommitNeedRetry (Fileserver.updateBranch checkGC lastGCID) a repoHead base commit newRoot
      true).orRetry a.row retry).Publishes commit := by
  obtain ⟨c, second, hc, hattempt⟩ := genCommitNeedRetry_succeeds base commit newRoot hs
  have hr := refusal_eq_none (m := .headConflict).2 ⟨hs.pass, hrow⟩
  rw [hattempt, publishCommit, updateBranch_set hr, postPass_of_true hs.post]
  exact ⟨c, repoHead, rfl, by simp [Tried.orRetry, hrow], hc⟩

theorem genCommitNeedRetry_lost (hs : a.Succeeds checkGC lastGCID repoHead)
    (hrow : a.row ≠ some repoHead) (retry : Publication Id) :
    (genCommitNeedRetry (Fileserver.updateBranch checkGC lastGCID) a repoHead base commit newRoot
      true).orRetry a.row retry = ⟨retry.result, (a.row, a.row) :: retry.rows⟩ := by
  obtain ⟨c, second, -, hattempt⟩ := genCommitNeedRetry_succeeds base commit newRoot hs
  rw [hattempt, publishCommit, updateBranch_refused (refusal_of_pass hs.pass hrow (.inl rfl))]
  rfl

theorem forwardLoop_publishes_iff (hs : ∀ j, (as j).Succeeds checkGC lastGCID repoHead) :
    (Fileserver.forwardLoop (fun a => genCommitNeedRetry (Fileserver.updateBranch checkGC lastGCID)
        a repoHead base commit newRoot true) as left k).Publishes commit ↔
      ∃ j ≤ left, (as (k + j)).row = some repoHead := by
  induction left generalizing k with
  | zero =>
    unfold Fileserver.forwardLoop
    by_cases hrow : (as k).row = some repoHead
    · exact iff_of_true (genCommitNeedRetry_won (hs k) hrow _) ⟨0, le_rfl, hrow⟩
    · rw [genCommitNeedRetry_lost (hs k) hrow]
      refine iff_of_false ?_ ?_
      · rintro ⟨c', head, hr, -⟩
        cases hr
      · rintro ⟨j, hj, h⟩
        obtain rfl : j = 0 := by omega
        exact hrow h
  | succ left ih =>
    unfold Fileserver.forwardLoop
    by_cases hrow : (as k).row = some repoHead
    · exact iff_of_true (genCommitNeedRetry_won (hs k) hrow _) ⟨0, Nat.zero_le _, hrow⟩
    · -- the race is lost: the next attempt is made with the same record
      have hstep : (∃ j ≤ left + 1, (as (k + j)).row = some repoHead) ↔
          ∃ j ≤ left, (as (k + 1 + j)).row = some repoHead := by
        constructor
        · rintro ⟨j, hj, h⟩
          cases j with
          | zero => exact absurd h hrow
          | succ j =>
            refine ⟨j, by omega, ?_⟩
            rwa [show k + 1 + j = k + (j + 1) by omega]
        · rintro ⟨j, hj, h⟩
          refine ⟨j + 1, by omega, ?_⟩
          rwa [show k + (j + 1) = k + 1 + j by omega]
      have hne : (Fileserver.forwardLoop (fun a => genCommitNeedRetry
          (Fileserver.updateBranch checkGC lastGCID) a repoHead base commit newRoot true) as left
          (k + 1)).rows ≠ [] := by
        cases left <;> exact orRetry_ne_nil _ _ _
      rw [genCommitNeedRetry_lost (hs k) hrow, hstep, ← ih]
      exact publishes_cons hne _

/-- **A lost race of `fastForwardOrMerge`.** Where nothing fails, the call publishes exactly if at
    one of its four attempts the head is the one of the record. -/
theorem fastForwardOrMerge_publishes_iff {base newCommit : Commit Id}
    (hs : ∀ k, (as k).Succeeds checkGC lastGCID repoHead) :
    (Fileserver.fastForwardOrMerge as (some checkGC) lastGCID repoHead base newCommit).Publishes
        newCommit ↔
      ∃ k ≤ 3, (as k).row = some repoHead := by
  rw [Fileserver.fastForwardOrMerge, forwardLoop_publishes_iff hs]
  simp only [Nat.zero_add]

end Spec

/-! ## A head that moved once -/

/-- Steps that all pass; there is no row in `GCID`. -/
def passingSteps : UpdateSteps where
  aclPreflight := true
  editPrepare := true
  beginTx := true
  gcId := some none
  branchRead := true
  aclFinal := true
  guardCheck := true
  execUpdate := true
  commit := true
  secondUpdated := ⟨true, some false⟩
  newUpdated := ⟨true, some false⟩

def rootCommit (id : ℕ) : Commit ℕ := ⟨id, id, 0, none, none⟩

theorem rootCommit_id (id : ℕ) (c : Commit ℕ) (h : some (rootCommit id) = some c) :
    c.commitId = id := by
  cases h
  rfl

def plainAttempt (head : ℕ) : Attempt ℕ where
  load id := some (rootCommit id)
  load_id := rootCommit_id
  merge _ _ _ := some 50
  newId parent _ _ := parent + 100
  ctime := 0
  save := true
  row := some head
  steps := passingSteps
  nextHead := some head

theorem plainAttempt_succeeds (head repoHead : ℕ) :
    (plainAttempt head).Succeeds false none repoHead where
  load := rfl
  merge _ _ _ := rfl
  save := rfl
  pass := ⟨rfl, rfl, rfl, nofun, rfl, rfl, rfl, rfl, rfl⟩
  post := rfl

theorem race_won :
    (Fileserver.fastForwardOrMerge (fun k => plainAttempt (if k = 0 then 2 else 1)) (some false)
      none 1 (rootCommit 0) (rootCommit 7)).Publishes (rootCommit 7) :=
  (fastForwardOrMerge_publishes_iff fun _ => plainAttempt_succeeds _ _).2 ⟨1, by decide, rfl⟩

/-- **A race that stays lost**: the head has moved from 1 to 2 before the first attempt, and all
    four attempts fail. -/
theorem race_stays_lost :
    ((plainAttempt 2).Succeeds false none 1 ∧ (plainAttempt 2).row = some 2) ∧
    (Fileserver.fastForwardOrMerge (fun _ => plainAttempt 2) (some false) none 1 (rootCommit 1)
      (rootCommit 7)).result = .error .stopped ∧
    (Fileserver.fastForwardOrMerge (fun _ => plainAttempt 2) (some false) none 1 (rootCommit 1)
      (rootCommit 7)).rows = List.replicate 4 (some 2, some 2) ∧
    ¬ (Fileserver.fastForwardOrMerge (fun _ => plainAttempt 2) (some false) none 1 (rootCommit 1)
      (rootCommit 7)).Publishes (rootCommit 7) := by
  refine ⟨⟨plainAttempt_succeeds 2 1, rfl⟩, rfl, rfl, ?_⟩
  rintro ⟨c, head, hr, -⟩
  cases hr

end CloudFile
