/-
  Renaming a library (`fileserver/virtual_repo.go`: `editRepo`,
  `editRepoNeedRetry`).

  The loop calls the helper once, in its init statement, and the helper
  asks for a retry also when the head has been set.
-/
import CloudFile.Publish.GenCommit
import CloudFile.Publish.Metadata

namespace CloudFile

namespace Fileserver

variable {Id : Type} [DecidableEq Id]

/-- What the steps of a call of `editRepoNeedRetry` find. -/
structure EditAttempt (Id : Type) where
  repo : Option (RepoRec Id)
  /-- the head commit of the record -/
  parent : Option (CommitRec Id)
  now : ℤ
  newId : CommitRec Id → Id
  save : Bool
  row : Option Id
  steps : UpdateSteps

/-- The errors of `seafile_edit_repo`. -/
inductive EditRepoErr where
  | noArguments
  | noLibrary
  | load
  | save
  | stopped

/-- A commit that was handed to `updateBranch`, and why its transaction has refused it. -/
structure EditCall (Id : Type) where
  commit : CommitRec Id
  head : Id
  refused : Option UpdateErr

/-- The commit of the record, with the new name and description -/
def editCommit (repo : RepoRec Id) (parent : CommitRec Id) (name desc user : Name) (now : ℤ) :
    CommitRec Id :=
  { repoToCommit repo (newCommitRec repo.headCommitID parent.rootID
      (if user = [] then parent.creatorName else user)
      "Changed library name or description".toList now) with
    repoName := if name = [] then repo.name else name
    repoDesc := if desc = [] then repo.desc else desc }

/-- One attempt: whether to try again. -/
def editRepoNeedRetry (a : EditAttempt Id) (name desc user : Name) :
    Except EditRepoErr Bool × List (EditCall Id) :=
  match a.repo, a.parent with
  | none, _ => (.error .noLibrary, [])
  | _, none => (.error .load, [])
  | some repo, some parent =>
    let commit := editCommit repo parent name desc user a.now
    if !a.save then (.error .save, [])
    else
      let call := ⟨commit, repo.headCommitID,
        refusal a.steps .headConflict false none a.row repo.headCommitID⟩
      match (updateBranch false none a.steps a.row (a.newId commit) repo.headCommitID none).result
        with
      | .error _ => (.ok true, [call])
      | .ok () => (.ok true, [call])

/-- The loop of `editRepo` with so many retries to go; nothing in it sets `retry` or `err`. -/
def editLoop : Except EditRepoErr Bool → ℕ → Except EditRepoErr Unit
  | .error e, _ => .error e
  | .ok false, _ => .ok ()
  | .ok true, 0 => .error .stopped
  | .ok true, left + 1 => editLoop (.ok true) left

/-- `editRepo`; `as k` is what a `k`-th call of the helper would find. -/
def editRepo (as : ℕ → EditAttempt Id) (name desc user : Name) :
    Except EditRepoErr Unit × List (EditCall Id) :=
  if name = [] ∧ desc = [] then (.error .noArguments, [])
  else
    let (first, calls) := editRepoNeedRetry (as 0) name desc user
    (editLoop first 3, calls)

/-! ## What is reported -/

/-- The head was set to a commit on it that has the new name and description. -/
def EditCall.Publishes (c : EditCall Id) (name desc : Name) : Prop :=
  c.refused = none ∧ c.commit.parentID = some c.head ∧ (name ≠ [] → c.commit.repoName = name) ∧
    (desc ≠ [] → c.commit.repoDesc = desc)

/-- Success means one publication, and a lost race another attempt, up to three times. -/
structure EditTruthful (name desc : Name) (r : Except EditRepoErr Unit × List (EditCall Id)) :
    Prop where
  told : r.1 = .ok () ↔ ∃ c ∈ r.2, c.Publishes name desc
  once : r.2.Pairwise fun c c' => ¬ (c.Publishes name desc ∧ c'.Publishes name desc)
  retried : ∀ i < 3, ∀ c, r.2[i]? = some c → c.refused = some .headConflict → i + 1 < r.2.length

theorem editLoop_retry (left : ℕ) : editLoop (.ok true) left = .error .stopped := by
  induction left with
  | zero => rfl
  | succ left ih => exact ih

omit [DecidableEq Id] in
theorem editTruthful_nil (name desc : Name) (e : EditRepoErr) :
    EditTruthful name desc ((.error e, []) : _ × List (EditCall Id)) :=
  ⟨by simp, .nil, by simp⟩

omit [DecidableEq Id] in
theorem editTruthful_singleton {name desc : Name} {e : EditRepoErr} {c : EditCall Id} :
    EditTruthful name desc (.error e, [c]) ↔
      ¬ c.Publishes name desc ∧ c.refused ≠ some .headConflict := by
  constructor
  · intro h
    refine ⟨fun hc => ?_, fun hc => ?_⟩
    · cases h.told.2 ⟨c, List.mem_singleton_self c, hc⟩
    · exact absurd (h.retried 0 (by decide) c rfl hc) (by simp)
  · rintro ⟨hpub, hlost⟩
    refine ⟨by simpa using hpub, List.pairwise_singleton _ _, fun i _ c' hc' href => ?_⟩
    obtain rfl : c = c' := List.mem_singleton.1 (List.mem_of_getElem? hc') |>.symm
    exact absurd href hlost

/-- Whatever `updateBranch` returns, the helper asks for a retry. -/
theorem editRepoNeedRetry_reached {a : EditAttempt Id} {repo : RepoRec Id} {parent : CommitRec Id}
    (hrepo : a.repo = some repo) (hparent : a.parent = some parent) (hsave : a.save = true)
    (name desc user : Name) :
    editRepoNeedRetry a name desc user = (.ok true, [⟨editCommit repo parent name desc user a.now,
      repo.headCommitID, refusal a.steps .headConflict false none a.row repo.headCommitID⟩]) := by
  simp only [editRepoNeedRetry, hrepo, hparent, hsave, Bool.not_true, Bool.false_eq_true, if_false]
  split <;> rfl

omit [DecidableEq Id] in
theorem editCommit_publishes_iff {repo : RepoRec Id} {parent : CommitRec Id}
    {name desc user : Name} {now : ℤ} {refused : Option UpdateErr} :
    EditCall.Publishes ⟨editCommit repo parent name desc user now, repo.headCommitID, refused⟩
      name desc ↔ refused = none := by
  refine and_iff_left ⟨?_, fun h => if_neg h, fun h => if_neg h⟩
  simp only [editCommit, repoToCommit]
  split_ifs <;> rfl

/-- **A rename is reported truthfully** exactly if no head is compared, or something else than the
    comparison refuses the publication. -/
theorem editRepo_truthful_iff (as : ℕ → EditAttempt Id) (name desc user : Name) :
    EditTruthful name desc (editRepo as name desc user) ↔
      ((name ≠ [] ∨ desc ≠ []) → (as 0).save = true → (as 0).parent.isSome →
        ∀ repo, (as 0).repo = some repo → ∃ e, e ≠ .headConflict ∧
          refusal (as 0).steps .headConflict false none (as 0).row repo.headCommitID = some e) := by
  rw [editRepo]
  split_ifs with hargs
  · exact iff_of_true (editTruthful_nil ..) fun h => absurd hargs (by tauto)
  have hgiven : name ≠ [] ∨ desc ≠ [] := by tauto
  cases hrepo : (as 0).repo with
  | none =>
    simp only [editRepoNeedRetry, hrepo, editLoop]
    exact iff_of_true (editTruthful_nil ..) (by simp)
  | some repo =>
    cases hparent : (as 0).parent with
    | none =>
      simp only [editRepoNeedRetry, hrepo, hparent, editLoop]
      exact iff_of_true (editTruthful_nil ..) (by simp)
    | some parent =>
      cases hsave : (as 0).save with
      | false =>
        simp only [editRepoNeedRetry, hrepo, hparent, hsave]
        exact iff_of_true (editTruthful_nil ..) (by simp)
      | true =>
        simp only [editRepoNeedRetry_reached hrepo hparent hsave, editLoop_retry,
          editTruthful_singleton, editCommit_publishes_iff, hgiven, forall_true_left,
          Option.isSome_some, Option.some.injEq, forall_eq']
        cases refusal (as 0).steps .headConflict false none (as 0).row repo.headCommitID <;> simp

def landingEdit : EditAttempt ℕ where
  repo := some ⟨['n'], [], [], 0, 1, 9, false, 0, [], [], [], [], [], [], 1⟩
  parent := some ⟨9, ['u'], [], 0, none, ['n'], [], [], 0, [], [], [], [], [], [], 1, 0⟩
  now := 0
  newId _ := 2
  save := true
  row := some 1
  steps := passingSteps

/-- **A rename that has landed is reported as failed.** -/
theorem landed_rename_fails :
    (editRepo (fun _ => landingEdit) ['m'] [] ['u']).1 = .error .stopped ∧
      (updateBranch false none passingSteps (some 1) 2 1 none).row = some 2 ∧
      ∃ c ∈ (editRepo (fun _ => landingEdit) ['m'] [] ['u']).2, c.Publishes ['m'] [] :=
  ⟨rfl, by decide, _, List.mem_singleton_self _, by decide, rfl, fun _ => rfl, (absurd rfl ·)⟩

end Fileserver

end CloudFile
