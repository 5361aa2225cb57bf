/-
  The publication of one commit (`fileserver/fileop.go`, `common/branch-mgr.c`). Both servers ask
  the ACL and the edit guards and then compare and set the row of `Branch` in one transaction.
  What each step answers is a parameter (`UpdateSteps`). The file server has further steps after
  it that can fail.
-/
import CloudFile.Gc.Machine

namespace CloudFile

variable {Id : Type}

/-! ## The model -/

/-- Why the head is not moved. -/
inductive UpdateErr where
  | aclDenied
  | guardDenied
  | database
  | gcConflict
  /-- `ErrConflict`, `SEAF_BRANCH_UPDATE_HEAD_CONFLICT` -/
  | headConflict
  /-- a step after the transaction -/
  | branchUpdated
deriving DecidableEq

/-- What `UpdateRepoInfo` and `IsVirtualRepo` answer. -/
structure OnUpdated where
  repoInfo : Bool
  isVirtual : Option Bool

/-- What the steps of a publication answer. -/
structure UpdateSteps where
  aclPreflight : Bool
  editPrepare : Bool
  beginTx : Bool
  /-- the row of `GCID`, if it can be read -/
  gcId : Option (Option GcId)
  branchRead : Bool
  aclFinal : Bool
  guardCheck : Bool
  execUpdate : Bool
  commit : Bool
  secondUpdated : OnUpdated
  newUpdated : OnUpdated

/-- The error of the first check that fails. -/
def firstFailed {E : Type} : List (Bool × E) → Option E
  | [] => none
  | (ok, e) :: checks => if ok then firstFailed checks else some e

/-- The steps up to the transaction, in their order; `missing` is the error for a row that does
    not exist, and `row` the commit under its lock. -/
def updateChecks [DecidableEq Id] (s : UpdateSteps) (missing : UpdateErr) (checkGC : Bool)
    (lastGCID : Option GcId) (row : Option Id) (oldCommitID : Id) : List (Bool × UpdateErr) :=
  [(s.aclPreflight, .aclDenied), (s.editPrepare, .guardDenied), (s.beginTx, .database),
    (!checkGC || s.gcId.isSome, .database), (!checkGC || s.gcId = some lastGCID, .gcConflict),
    (s.branchRead, .database), (row.isSome, missing), (row = some oldCommitID, .headConflict),
    (s.aclFinal, .aclDenied), (s.guardCheck, .guardDenied), (s.execUpdate, .database),
    (s.commit, .database)]

/-- The step that refuses the publication, if one does. -/
def refusal [DecidableEq Id] (s : UpdateSteps) (missing : UpdateErr) (checkGC : Bool)
    (lastGCID : Option GcId) (row : Option Id) (oldCommitID : Id) : Option UpdateErr :=
  firstFailed (updateChecks s missing checkGC lastGCID row oldCommitID)

/-- The result, and the row of the head. -/
structure Updated (Id : Type) where
  result : Except UpdateErr Unit
  row : Option Id

namespace Fileserver

/-- `onBranchUpdated`; a failed notification is not an error. -/
def onBranchUpdated (o : OnUpdated) (updateRepoInfo : Bool) : Bool :=
  (!updateRepoInfo || o.repoInfo) && o.isVirtual.isSome

/-- The head moves if no check refuses. -/
def updateBranch [DecidableEq Id] (checkGC : Bool) (lastGCID : Option GcId) (s : UpdateSteps)
    (row : Option Id) (newCommitID oldCommitID : Id) (secondParentID : Option Id) : Updated Id :=
  match refusal s .headConflict checkGC lastGCID row oldCommitID with
  | some e => ⟨.error e, row⟩
  | none =>
    if secondParentID.isSome && !onBranchUpdated s.secondUpdated false then
      ⟨.error .branchUpdated, some newCommitID⟩
    else if !onBranchUpdated s.newUpdated true then ⟨.error .branchUpdated, some newCommitID⟩
    else ⟨.ok (), some newCommitID⟩

end Fileserver

namespace Server

/-- `test_and_update_branch`: a row that does not exist is no race for the head, and nothing
    after the transaction fails. -/
def testAndUpdateBranch [DecidableEq Id] (checkGc : Bool) (lastGcId : Option GcId)
    (s : UpdateSteps) (row : Option Id) (newCommitId oldCommitId : Id) : Updated Id :=
  match refusal s .database checkGc lastGcId row oldCommitId with
  | some e => ⟨.error e, row⟩
  | none => ⟨.ok (), some newCommitId⟩

end Server

/-! ## When a publication goes through -/

/-- Everything but the comparison of the head passes. -/
structure UpdateSteps.Pass (s : UpdateSteps) (checkGC : Bool) (lastGCID : Option GcId) : Prop where
  aclPreflight : s.aclPreflight = true
  editPrepare : s.editPrepare = true
  beginTx : s.beginTx = true
  gcId : checkGC = true → s.gcId = some lastGCID
  branchRead : s.branchRead = true
  aclFinal : s.aclFinal = true
  guardCheck : s.guardCheck = true
  execUpdate : s.execUpdate = true
  commit : s.commit = true

/-- The steps of the file server after the transaction pass. -/
def UpdateSteps.postPass (s : UpdateSteps) (second : Bool) : Bool :=
  (!second || Fileserver.onBranchUpdated s.secondUpdated false) &&
    Fileserver.onBranchUpdated s.newUpdated true

variable [DecidableEq Id] {s : UpdateSteps} {m : UpdateErr} {checkGC : Bool}
  {lastGCID : Option GcId} {row : Option Id} {old new : Id} {second : Option Id}

omit [DecidableEq Id] in
theorem firstFailed_eq_none {E : Type} {checks : List (Bool × E)} :
    firstFailed checks = none ↔ ∀ c ∈ checks, c.1 = true := by
  induction checks with
  | nil => simp [firstFailed]
  | cons c checks ih =>
    obtain ⟨ok, e⟩ := c
    cases ok <;> simp [firstFailed, ih]

theorem refusal_eq_none :
    refusal s m checkGC lastGCID row old = none ↔ s.Pass checkGC lastGCID ∧ row = some old := by
  rw [refusal, firstFailed_eq_none]
  simp only [updateChecks, List.forall_mem_cons, List.not_mem_nil, false_imp_iff, implies_true,
    and_true, Bool.or_eq_true, Bool.not_eq_true', decide_eq_true_eq]
  constructor
  · rintro ⟨h1, h2, h3, -, h5, h6, -, h8, h9, h10, h11, h12⟩
    have hgc : checkGC = true → s.gcId = some lastGCID := by
      intro hc
      exact h5.resolve_left (by simp [hc])
    exact ⟨⟨h1, h2, h3, hgc, h6, h9, h10, h11, h12⟩, h8⟩
  · rintro ⟨⟨h1, h2, h3, hgc, h6, h9, h10, h11, h12⟩, rfl⟩
    have hsome : checkGC = false ∨ s.gcId = some lastGCID := by
      cases hc : checkGC with
      | false => exact .inl rfl
      | true => exact .inr (hgc hc)
    exact ⟨h1, h2, h3, hsome.imp_right fun h => by simp [h], hsome, h6, rfl, rfl, h9, h10, h11, h12⟩

theorem refusal_of_pass (hp : s.Pass checkGC lastGCID) (hne : row ≠ some old)
    (hm : m = .headConflict ∨ row.isSome = true) :
    refusal s m checkGC lastGCID row old = some .headConflict := by
  have hgc : (!checkGC || s.gcId = some lastGCID) = true := by
    cases hc : checkGC with
    | false => rfl
    | true => simp [hp.gcId hc]
  have hread : (!checkGC || s.gcId.isSome) = true := by
    cases hc : checkGC with
    | false => rfl
    | true => simp [hp.gcId hc]
  simp only [refusal, updateChecks, firstFailed, hp.aclPreflight, hp.editPrepare, hp.beginTx,
    hread, hgc, hp.branchRead, if_true, hne, decide_false, Bool.false_eq_true, if_false]
  rcases hm with rfl | hsome
  · split_ifs <;> rfl
  · rw [if_pos hsome]

omit [DecidableEq Id] in
theorem mem_of_firstFailed {E : Type} {checks : List (Bool × E)} {e : E}
    (h : firstFailed checks = some e) : (false, e) ∈ checks := by
  induction checks with
  | nil => simp [firstFailed] at h
  | cons c checks ih =>
    obtain ⟨ok, e'⟩ := c
    cases ok with
    | false =>
      obtain rfl : e' = e := by simpa [firstFailed] using h
      exact List.mem_cons_self
    | true => exact List.mem_cons_of_mem _ (ih (by simpa [firstFailed] using h))

theorem row_of_headConflict (h : refusal s m checkGC lastGCID row old = some .headConflict) :
    row ≠ some old := by
  rintro rfl
  have hmem := mem_of_firstFailed h
  simp [updateChecks] at hmem

theorem updateBranch_refused {e : UpdateErr}
    (h : refusal s .headConflict checkGC lastGCID row old = some e) :
    Fileserver.updateBranch checkGC lastGCID s row new old second = ⟨.error e, row⟩ := by
  rw [Fileserver.updateBranch, h]

theorem updateBranch_set (h : refusal s .headConflict checkGC lastGCID row old = none) :
    Fileserver.updateBranch checkGC lastGCID s row new old second =
      ⟨if s.postPass second.isSome then .ok () else .error .branchUpdated, some new⟩ := by
  rw [Fileserver.updateBranch, h, UpdateSteps.postPass]
  cases second.isSome <;> cases Fileserver.onBranchUpdated s.secondUpdated false <;>
    cases Fileserver.onBranchUpdated s.newUpdated true <;> rfl

/-- A publication that succeeds has found the old commit in the row, and one with a conflict has
    not. -/
structure ComparesRow (update : UpdateSteps → Option Id → Id → Id → Option Id → Updated Id) :
    Prop where
  ok : ∀ s row new old second, (update s row new old second).result = .ok () → row = some old
  conflict : ∀ s row new old second,
    (update s row new old second).result = .error .headConflict → row ≠ some old

theorem Fileserver.updateBranch_compares :
    ComparesRow (updateBranch checkGC lastGCID : _ → Option Id → _) := by
  constructor
  · intro s row new old second h
    cases hr : refusal s .headConflict checkGC lastGCID row old with
    | none => exact (refusal_eq_none.1 hr).2
    | some e => simp [updateBranch_refused hr] at h
  · intro s row new old second h
    cases hr : refusal s .headConflict checkGC lastGCID row old with
    | none =>
      rw [updateBranch_set hr] at h
      simp only at h
      split_ifs at h
      simp at h
    | some e =>
      obtain rfl : e = .headConflict := by simpa [updateBranch_refused hr] using h
      exact row_of_headConflict hr

theorem Server.testAndUpdateBranch_compares :
    ComparesRow fun s (row : Option Id) new old _ =>
      testAndUpdateBranch checkGC lastGCID s row new old := by
  constructor
  · intro s row new old _ h
    cases hr : refusal s .database checkGC lastGCID row old with
    | none => exact (refusal_eq_none.1 hr).2
    | some e => simp [testAndUpdateBranch, hr] at h
  · intro s row new old _ h
    cases hr : refusal s .database checkGC lastGCID row old with
    | none => simp [testAndUpdateBranch, hr] at h
    | some e =>
      obtain rfl : e = .headConflict := by simpa [testAndUpdateBranch, hr] using h
      exact row_of_headConflict hr

/-- **When an error of `updateBranch` means that the row is as before.** -/
theorem updateBranch_error_iff :
    ((∃ e, (Fileserver.updateBranch checkGC lastGCID s row new old second).result = .error e) →
        (Fileserver.updateBranch checkGC lastGCID s row new old second).row = row) ↔
      ¬ (s.Pass checkGC lastGCID ∧ row = some old ∧ new ≠ old ∧
        s.postPass second.isSome = false) := by
  cases hr : refusal s .headConflict checkGC lastGCID row old with
  | some e =>
    rw [updateBranch_refused hr]
    have hno : ¬ (s.Pass checkGC lastGCID ∧ row = some old) := by
      rw [← refusal_eq_none (m := .headConflict), hr]
      simp
    constructor
    · rintro - ⟨hp, hrow, -⟩
      exact hno ⟨hp, hrow⟩
    · intro _ _
      rfl
  | none =>
    obtain ⟨hp, rfl⟩ := refusal_eq_none.1 hr
    rw [updateBranch_set hr]
    cases hpost : s.postPass second.isSome with
    | true => simp
    | false => simp [hp, eq_comm]

end CloudFile
