/-
  Replacing a file on the condition that the head is a given commit (`server/repo-op.c`). The call
  takes one step from one access of the row of `Branch` to the next, and other publishers may set
  the row in between. With the strict head it compares and sets the row in one transaction; a lost
  race ends the call.
-/
import CloudFile.Lib.GLibPath
import CloudFile.Publish.GenCommit
import CloudFile.Write.Rewrite
import CloudFile.FileOp.SubjectPaths

namespace CloudFile

open GoPath GLibPath List

variable {Id : Type}

/-! ## The call -/

/-- `SEAF_ERR_...` -/
inductive SeafErr where
  | general
  | badArgs
  | concurrentUpload
  | gcConflict
deriving DecidableEq

/-- An error with its code. -/
structure GErr where
  code : SeafErr
  message : String
deriving DecidableEq

/-- What a call reads of the record of the library, besides the head. -/
structure PutRepo where
  isVirtual : Bool
  /-- `repo->status == REPO_STATUS_NORMAL` -/
  isNormal : Bool
  encrypted : Bool

/-- The arguments of a call, and what its steps answer. -/
structure PutFile (Id : Type) [ObjectId Id] where
  parentDir : Name
  fileName : Name
  user : Name
  headId : Option Id
  mtime : ℤ
  isObjectIdValid : Id → Bool
  /-- `g_access` of the temporary file -/
  tempFile : Bool
  repo : Option PutRepo
  load : Id → Option (Commit Id)
  load_id : ∀ id c, load id = some c → c.commitId = id
  store : FsStore Id
  /-- `CF_FILEOP_PREPARE` -/
  prepare : Except GErr Unit
  decryptKey : Bool
  gcId : Option GcId
  /-- the id and size `seaf_fs_manager_index_blocks` computes -/
  indexed : Option (Id × ℤ)
  clock : ℤ
  writeObj : Id → Bool
  now : ℕ → ℤ
  sqlite : Bool
  /-- the branch update of a call without new content -/
  steps : UpdateSteps
  /-- whether the record can be read again, before each attempt -/
  reread : ℕ → Bool
  addCommit : Bool
  attempts : ℕ → Attempt Id

/-- How a call succeeds: the file, and the commit if one was published. -/
structure PutDone (Id : Type) where
  fileId : Id
  commit : Option Id
deriving DecidableEq

namespace Server

/-- A name that is not taken. -/
def shouldIgnoreFile (filename : Name) : Bool :=
  (filename.splitOn '/').contains ['.', '.'] || (String.ofList filename).utf8ByteSize ≥ 256 ||
    '/' ∈ filename

/-- The mode of a new file. -/
def stdFileMode : UInt32 := sIfreg ||| 0o644

variable [ObjectId Id] [DecidableEq Id]

/-- The directory has the name. -/
def checkFileExists (st : FsStore Id) (rootId : Id) (parentDir filename : Name) : Bool :=
  match getSeafdirByPath st rootId parentDir with
  | .error _ => false
  | .ok dir => dir.entries.any fun dent => dent.name = filename

/-- The file is replaced in the tree. -/
def doPutFile (writeObj : Id → Bool) (now : ℕ → ℤ) (st : FsStore Id) (rootId : Id)
    (parentDir : Name) (dent : Dirent Id) : Option (Written Id Unit) :=
  rewriteRecursive writeObj now (fun entries => some (replaceEntry dent entries, ())) st rootId
    (toPathNames (stripSlash parentDir))

/-- The error a failed publication gives. -/
def publishError : PublishErr → GErr
  | .load | .noRepo => ⟨.general, "Invalid repo"⟩
  | .conflict => ⟨.concurrentUpload, "Concurrent upload"⟩
  | .merge => ⟨.general, "Internal error"⟩
  | .save => ⟨.general, "Failed to add commit"⟩
  | .update .aclDenied | .update .guardDenied =>
    ⟨.general, "CloudFile authority unavailable or fenced"⟩
  | .update .gcConflict => ⟨.gcConflict, "GC Conflict"⟩
  | .update _ => ⟨.general, "Branch update failed (not a HEAD conflict)"⟩
  | .stopped => ⟨.general, "Concurrent update"⟩
  | .post => ⟨.general, "Failed to put file"⟩

/-- The error of the branch update of a call without new content. -/
def noopError (e : UpdateErr) : GErr where
  code := match e with
    | .gcConflict => .gcConflict
    | .headConflict => .concurrentUpload
    | _ => .general
  message := "Conditional no-op could not be committed"

/-- The merge commit that an attempt adds to the store. -/
def mergeCommits (a : Attempt Id) (repoHead : Id) (base commit : Commit Id) (newRoot : Id)
    (handleConcurrentUpdate : Bool) : List (Commit Id) :=
  match a.load repoHead with
  | none => []
  | some currentHead =>
    if base.commitId ≠ currentHead.commitId && handleConcurrentUpdate && a.save then
      (a.merge base.rootId currentHead.rootId newRoot).toList.map fun mergedRoot =>
        a.newCommit currentHead.commitId (some commit.commitId) mergedRoot
    else []

end Server

/-! ## Its steps -/

/-- Where a call is, with what it has computed so far. -/
inductive PutPhase (Id : Type) where
  | start
  | opened (repo : PutRepo) (base : Commit Id)
  /-- the file has the new content already -/
  | unchanged (base : Commit Id) (fileId : Id)
  | changed (base : Commit Id) (fileId newRoot : Id)
  /-- in `gen_new_commit_guarded`, with the head of the record -/
  | attempting (k : ℕ) (repoHead : Id) (base : Commit Id) (fileId newRoot : Id)
  | retrying (k : ℕ) (base : Commit Id) (fileId newRoot : Id)
  | done (result : Except GErr (PutDone Id))

/-- The row of `Branch`, the commits this call has added, and where the call is. -/
structure PutState (Id : Type) where
  row : Option Id
  added : List (Commit Id)
  phase : PutPhase Id

/-- A step of the call, or another publisher setting the row. -/
inductive PutEvent (Id : Type) where
  | step
  | other (row : Option Id)

namespace PutFile

variable [ObjectId Id] [DecidableEq Id]

/-- Up to the comparison of the record's head; `row` is the head the record is read with. -/
def openHead (strictHead : Bool) (c : PutFile Id) (row : Option Id) :
    Except GErr (PutRepo × Commit Id) :=
  if strictHead && !c.headId.any c.isObjectIdValid then
    .error ⟨.badArgs, "An explicit valid expected head is required"⟩
  else if !c.tempFile then .error ⟨.badArgs, "Invalid input file"⟩
  else match row, c.repo with
    | some head, some repo => match c.load (c.headId.getD head) with
      | none => .error ⟨.badArgs, "Invalid commit"⟩
      | some base =>
        if strictHead && (repo.isVirtual || !repo.isNormal) then
          .error ⟨.badArgs, "Conditional replacement requires a writable non-virtual repository"⟩
        else if strictHead && c.headId ≠ some head then
          .error ⟨.concurrentUpload, "Concurrent upload"⟩
        else .ok (repo, base)
    | _, _ => .error ⟨.badArgs, "Invalid repo"⟩

/-- The new entry. -/
def newDent (c : PutFile Id) (hex : Id) (size : ℤ) : Dirent Id :=
  .new Server.stdFileMode hex c.fileName (if c.mtime ≤ 0 then c.clock else c.mtime) c.user size

/-- From there to the branch update or to `gen_new_commit`. -/
def work (c : PutFile Id) (repo : PutRepo) (base : Commit Id) : Except GErr (PutPhase Id) :=
  let canonPath := Server.getCanonicalPath c.parentDir
  if Server.shouldIgnoreFile c.fileName then .error ⟨.badArgs, "Invalid filename"⟩
  else if ['/', '/'] <:+: c.parentDir then .error ⟨.badArgs, "Invalid parent dir"⟩
  else if !Server.checkFileExists c.store base.rootId canonPath c.fileName then
    .error ⟨.badArgs, "file does not exist"⟩
  else match c.prepare with
    | .error e => .error e
    | .ok () =>
      if repo.encrypted && !c.decryptKey then .error ⟨.general, "Passwd is not set"⟩
      else match c.indexed with
        | none => .error ⟨.general, "Failed to index blocks"⟩
        | some (hex, size) =>
          let dent := c.newDent hex size
          let oldFile := Server.pathToObjId c.store base.rootId
            (gBuildPath [c.parentDir, c.fileName])
          if oldFile.toOption.join.map Prod.fst = some dent.id then .ok (.unchanged base hex)
          else match Server.doPutFile c.writeObj c.now c.store base.rootId canonPath dent with
            | none => .error ⟨.general, "Failed to put file"⟩
            | some w => .ok (.changed base hex w.dirID)

/-- `seaf_branch_manager_test_and_update_branch`, which does not look for the garbage collection
    under SQLite. -/
def update (c : PutFile Id) (steps : UpdateSteps) (row : Option Id) (new old : Id) : Updated Id :=
  Server.testAndUpdateBranch (!c.sqlite) c.gcId steps row new old

/-- The new commit. -/
def newCommit (c : PutFile Id) (base : Commit Id) (newRoot : Id) : Commit Id :=
  (c.attempts 0).newCommit base.commitId none newRoot

/-- An attempt of `gen_new_commit_guarded`, with the row it finds. -/
def attempt (strictHead : Bool) (c : PutFile Id) (row : Option Id) (k : ℕ) (repoHead : Id)
    (base : Commit Id) (newRoot : Id) : Tried Id :=
  genCommitNeedRetry (fun s row new old _ => c.update s row new old)
    { c.attempts k with row := row } repoHead base (c.newCommit base newRoot) newRoot (!strictHead)

/-- `put_file_with_condition`, from one access of the row to the next. -/
def next (strictHead : Bool) (c : PutFile Id) (s : PutState Id) : PutState Id :=
  match s.phase with
  | .start => match c.openHead strictHead s.row with
    | .error e => { s with phase := .done (.error e) }
    | .ok (repo, base) => { s with phase := .opened repo base }
  | .opened repo base => match c.work repo base with
    | .error e => { s with phase := .done (.error e) }
    | .ok phase => { s with phase := phase }
  | .unchanged base fileId =>
    if !strictHead then { s with phase := .done (.ok ⟨fileId, none⟩) }
    else match c.update c.steps s.row base.commitId base.commitId with
      | ⟨.error e, row⟩ => { s with row := row, phase := .done (.error (Server.noopError e)) }
      | ⟨.ok (), row⟩ => { s with row := row, phase := .done (.ok ⟨fileId, none⟩) }
  | .changed base fileId newRoot => match s.row with
    | none => { s with phase := .done (.error (Server.publishError .noRepo)) }
    | some repoHead =>
      if !c.reread 0 then { s with phase := .done (.error (Server.publishError .noRepo)) }
      else if !c.addCommit then { s with phase := .done (.error (Server.publishError .save)) }
      else { s with
        added := c.newCommit base newRoot :: s.added
        phase := .attempting 0 repoHead base fileId newRoot }
  | .attempting k repoHead base fileId newRoot =>
    let t := c.attempt strictHead s.row k repoHead base newRoot
    { row := t.row
      added := Server.mergeCommits (c.attempts k) repoHead base (c.newCommit base newRoot) newRoot
        (!strictHead) ++ s.added
      phase := match t.result with
        | .error e => .done (.error (Server.publishError e))
        | .ok (some commit) => .done (.ok ⟨fileId, some commit.commitId⟩)
        | .ok none =>
          if strictHead then .done (.error (Server.publishError .conflict))
          else if k < maxRetryCnt then .retrying (k + 1) base fileId newRoot
          else .done (.error (Server.publishError .stopped)) }
  | .retrying k base fileId newRoot => match s.row with
    | none => { s with phase := .done (.error (Server.publishError .noRepo)) }
    | some repoHead =>
      if !c.reread k then { s with phase := .done (.error (Server.publishError .noRepo)) }
      else { s with phase := .attempting k repoHead base fileId newRoot }
  | .done _ => s

/-- An event of a call with the strict head, `seaf_repo_manager_put_file_if_head`. -/
def event (c : PutFile Id) (s : PutState Id) : PutEvent Id → PutState Id
  | .step => c.next true s
  | .other row => { s with row := row }

/-- The state after the events since the call began. -/
def putFileIfHead (c : PutFile Id) (row : Option Id) (es : List (PutEvent Id)) : PutState Id :=
  es.foldl c.event ⟨row, [], .start⟩

end PutFile

/-! ## What a step does -/

namespace PutFile

variable [ObjectId Id] [DecidableEq Id] {c : PutFile Id} {s : PutState Id} {row : Option Id}
  {base : Commit Id} {fileId newRoot : Id}

theorem openHead_ok {repo : PutRepo} (h : c.openHead true row = .ok (repo, base)) :
    c.headId = some base.commitId ∧ row = some base.commitId := by
  unfold openHead at h
  split_ifs at h
  cases row with
  | none => simp at h
  | some head =>
    cases hrepo : c.repo with
    | none => simp [hrepo] at h
    | some repo' =>
      cases hload : c.load (c.headId.getD head) with
      | none => simp [hrepo, hload] at h
      | some base' =>
        simp only [hrepo, hload, Bool.true_and, decide_eq_true_eq] at h
        split_ifs at h with _ hhead
        obtain rfl : base' = base := (Prod.mk.inj (Except.ok.inj h)).2
        rw [not_not] at hhead
        rw [hhead] at hload
        rw [hhead, c.load_id _ _ hload]
        exact ⟨rfl, rfl⟩

theorem work_cases {repo : PutRepo} {phase : PutPhase Id} (h : c.work repo base = .ok phase) :
    (∃ fileId, phase = .unchanged base fileId) ∨
      ∃ fileId newRoot, phase = .changed base fileId newRoot := by
  -- the checks in their order: all but the last two ends are errors
  unfold work at h
  dsimp only at h
  split at h
  · cases h
  split at h
  · cases h
  split at h
  · cases h
  split at h
  · cases h
  split at h
  · cases h
  split at h
  · cases h
  split at h
  · exact .inl ⟨_, (Except.ok.inj h).symm⟩
  split at h
  · cases h
  · exact .inr ⟨_, _, (Except.ok.inj h).symm⟩

theorem update_cases (c : PutFile Id) (steps : UpdateSteps) (row : Option Id) (new old : Id) :
    c.update steps row new old = ⟨.ok (), some new⟩ ∧ row = some old ∨
      ∃ e, c.update steps row new old = ⟨.error e, row⟩ := by
  unfold update Server.testAndUpdateBranch
  cases h : refusal steps .database (!c.sqlite) c.gcId row old with
  | none => exact .inl ⟨rfl, (refusal_eq_none.1 h).2⟩
  | some e => exact .inr ⟨e, rfl⟩

theorem attempt_cases (k : ℕ) (repoHead : Id) :
    (∀ commit, (c.attempt true row k repoHead base newRoot).result ≠ .ok (some commit)) ∧
        (c.attempt true row k repoHead base newRoot).row = row ∨
      (c.attempt true row k repoHead base newRoot).result =
          .ok (some (c.newCommit base newRoot)) ∧
        row = some base.commitId ∧
        (c.attempt true row k repoHead base newRoot).row =
          some (c.newCommit base newRoot).commitId := by
  unfold attempt genCommitNeedRetry
  cases hload : (c.attempts k).load repoHead with
  | none => exact .inl ⟨by simp, rfl⟩
  | some currentHead =>
    by_cases hbase : base.commitId = currentHead.commitId
    · simp only [hbase, ne_eq, not_true_eq_false, publishCommit]
      rcases update_cases c (c.attempts k).steps row (c.newCommit base newRoot).commitId
        currentHead.commitId with ⟨hup, hrow⟩ | ⟨e, hup⟩
      · rw [hup]
        exact .inr ⟨rfl, hrow, rfl⟩
      · rw [hup]
        cases e <;> exact .inl ⟨by simp, rfl⟩
    · left
      simp [hbase]

omit [ObjectId Id] in
theorem mergeCommits_unhandled (a : Attempt Id) (repoHead : Id) (base commit : Commit Id)
    (newRoot : Id) : Server.mergeCommits a repoHead base commit newRoot false = [] := by
  unfold Server.mergeCommits
  cases a.load repoHead <;> simp

end PutFile

/-! ## Runs -/

namespace PutFile

variable [ObjectId Id] [DecidableEq Id] {c : PutFile Id} {s : PutState Id} {row : Option Id}
  {es : List (PutEvent Id)}

/-- The base of a call under way is the expected commit. -/
def Expects (c : PutFile Id) : PutPhase Id → Prop
  | .start | .done _ => True
  | .opened _ base | .unchanged base _ | .changed base _ _ | .attempting _ _ base _ _
  | .retrying _ base _ _ => c.headId = some base.commitId

/-- No merge commits are added, and the base is the expected commit. -/
structure Sound (c : PutFile Id) (s : PutState Id) : Prop where
  added : ∀ commit ∈ s.added, commit.secondParentId = none
  expects : c.Expects s.phase

/-- The step leaves the row, and does not end the call with success. -/
def Waits (s s' : PutState Id) : Prop :=
  s'.row = s.row ∧ ∀ d, s'.phase = .done (.ok d) → s.phase = .done (.ok d)

/-- The step finds the expected commit in the row, and ends the call with the commit it sets. -/
def Sets (c : PutFile Id) (s s' : PutState Id) (d : PutDone Id) : Prop :=
  s'.phase = .done (.ok d) ∧ ∃ expected, c.headId = some expected ∧ s.row = some expected ∧
    s'.row = some (d.commit.getD expected)

theorem next_sound (h : c.Sound s) : c.Sound (c.next true s) := by
  obtain ⟨row, added, phase⟩ := s
  obtain ⟨hadded, hexpects⟩ := h
  cases phase with
  | start =>
    simp only [next]
    split
    · exact ⟨hadded, trivial⟩
    · next repo base hopen => exact ⟨hadded, (openHead_ok hopen).1⟩
  | opened repo base =>
    simp only [next]
    split
    · exact ⟨hadded, trivial⟩
    · next phase hwork =>
      refine ⟨hadded, ?_⟩
      rcases work_cases hwork with ⟨fileId, rfl⟩ | ⟨fileId, newRoot, rfl⟩
      · exact hexpects
      · exact hexpects
  | unchanged base fileId =>
    simp only [next]
    split_ifs
    · exact ⟨hadded, trivial⟩
    · split <;> exact ⟨hadded, trivial⟩
  | changed base fileId newRoot =>
    simp only [next]
    split
    · exact ⟨hadded, trivial⟩
    · split_ifs
      · exact ⟨hadded, trivial⟩
      · exact ⟨hadded, trivial⟩
      · exact ⟨forall_mem_cons.2 ⟨rfl, hadded⟩, hexpects⟩
  | attempting k repoHead base fileId newRoot =>
    refine ⟨?_, ?_⟩
    · simpa only [next, Bool.not_true, mergeCommits_unhandled, nil_append] using hadded
    · simp only [next]
      split <;> trivial
  | retrying k base fileId newRoot =>
    simp only [next]
    split
    · exact ⟨hadded, trivial⟩
    · split_ifs
      · exact ⟨hadded, trivial⟩
      · exact ⟨hadded, hexpects⟩
  | done r => exact ⟨hadded, trivial⟩

/-- **A step** leaves the row alone, or is the one at which the call takes effect. -/
theorem next_cases (h : c.Sound s) :
    Waits s (c.next true s) ∨ (∀ r, s.phase ≠ .done r) ∧ ∃ d, c.Sets s (c.next true s) d := by
  obtain ⟨row, added, phase⟩ := s
  have hexpects := h.expects
  cases phase with
  | start =>
    left
    simp only [next]
    split <;> exact ⟨rfl, by simp⟩
  | opened repo base =>
    left
    simp only [next]
    split
    · exact ⟨rfl, by simp⟩
    · next phase hwork =>
      refine ⟨rfl, ?_⟩
      rcases work_cases hwork with ⟨fileId, rfl⟩ | ⟨fileId, newRoot, rfl⟩
      · simp
      · simp
  | unchanged base fileId =>
    simp only [next, Bool.not_true, Bool.false_eq_true]
    rcases update_cases c c.steps row base.commitId base.commitId with ⟨hup, hrow⟩ | ⟨e, hup⟩
    · rw [hup]
      exact .inr ⟨by simp, ⟨fileId, none⟩, rfl, _, hexpects, hrow, rfl⟩
    · rw [hup]
      exact .inl ⟨rfl, by simp⟩
  | changed base fileId newRoot =>
    left
    simp only [next]
    split
    · exact ⟨rfl, by simp⟩
    · split_ifs <;> exact ⟨rfl, by simp⟩
  | attempting k repoHead base fileId newRoot =>
    simp only [next]
    rcases attempt_cases k repoHead with ⟨hno, hrow⟩ | ⟨hresult, hrow, hrow'⟩
    · refine .inl ⟨hrow, ?_⟩
      intro d hd
      split at hd
      · cases hd
      · next commit hresult => exact absurd hresult (hno commit)
      · cases hd
    · refine .inr ⟨by simp, ⟨fileId, some (c.newCommit base newRoot).commitId⟩, ?_, _, hexpects,
        hrow, hrow'⟩
      rw [hresult]
  | retrying k base fileId newRoot =>
    left
    simp only [next]
    split
    · exact ⟨rfl, by simp⟩
    · split_ifs <;> exact ⟨rfl, by simp⟩
  | done r => exact .inl ⟨rfl, fun _ hd => hd⟩

/-- The next step does not move the head. -/
def LeavesRow (c : PutFile Id) (row : Option Id) (pre : List (PutEvent Id)) : Prop :=
  (c.putFileIfHead row (pre ++ [.step])).row = (c.putFileIfHead row pre).row

/-- The step after `pre` finds the expected commit in the row and sets that of the result; the other
    steps leave the row. -/
structure TakesEffect (c : PutFile Id) (row : Option Id) (es : List (PutEvent Id))
    (d : PutDone Id) (pre : List (PutEvent Id)) : Prop where
  within : pre ++ [.step] <+: es
  sets : ∃ expected, c.headId = some expected ∧
    (c.putFileIfHead row pre).row = some expected ∧
    (c.putFileIfHead row (pre ++ [.step])).row = some (d.commit.getD expected)
  alone : ∀ pre', pre' ++ [.step] <+: es → pre' ≠ pre → c.LeavesRow row pre'

theorem putFileIfHead_concat (c : PutFile Id) (row : Option Id) (es : List (PutEvent Id))
    (e : PutEvent Id) :
    c.putFileIfHead row (es ++ [e]) = c.event (c.putFileIfHead row es) e := foldl_concat ..

theorem putFileIfHead_sound (c : PutFile Id) (row : Option Id) (es : List (PutEvent Id)) :
    c.Sound (c.putFileIfHead row es) := by
  induction es using reverseRecOn with
  | nil => exact ⟨by simp [putFileIfHead], trivial⟩
  | append_singleton es e ih =>
    rw [putFileIfHead_concat]
    cases e with
    | step => exact next_sound ih
    | other row' => exact ⟨ih.added, ih.expects⟩

theorem putFileIfHead_cases (es : List (PutEvent Id)) :
    (∀ d, (c.putFileIfHead row es).phase ≠ .done (.ok d)) ∧
        (∀ pre, pre ++ [.step] <+: es → c.LeavesRow row pre) ∨
      ∃ d pre, (c.putFileIfHead row es).phase = .done (.ok d) ∧ c.TakesEffect row es d pre := by
  induction es using reverseRecOn with
  | nil =>
    left
    refine ⟨fun d => by simp [putFileIfHead], fun pre hpre => ?_⟩
    exact absurd (prefix_nil.1 hpre) (concat_ne_nil _ _)
  | append_singleton es e ih =>
    have hlast : ∀ {pre : List (PutEvent Id)}, pre ++ [.step] <+: es ++ [e] →
        pre ++ [.step] <+: es ∨ pre = es ∧ e = .step := by
      intro pre hpre
      rcases prefix_concat_iff.1 hpre with heq | hpre
      · obtain ⟨hes, he⟩ := append_inj' heq rfl
        exact .inr ⟨hes, (singleton_inj.1 he).symm⟩
      · exact .inl hpre
    have hconcat := putFileIfHead_concat c row es e
    cases e with
    | other row' =>
      have hphase : (c.putFileIfHead row (es ++ [.other row'])).phase =
          (c.putFileIfHead row es).phase := by rw [hconcat]; rfl
      have hpre : ∀ {pre : List (PutEvent Id)}, pre ++ [.step] <+: es ++ [.other row'] →
          pre ++ [.step] <+: es := fun hp => (hlast hp).resolve_right fun h => by cases h.2
      rw [hphase]
      rcases ih with ⟨hno, hquiet⟩ | ⟨d, pre, hd, heffect⟩
      · exact .inl ⟨hno, fun pre hp => hquiet pre (hpre hp)⟩
      · exact .inr ⟨d, pre, hd, heffect.within.trans (prefix_append _ _), heffect.sets,
          fun pre' hp hne => heffect.alone pre' (hpre hp) hne⟩
    | step =>
      rcases next_cases (putFileIfHead_sound c row es) with hwait | ⟨hopen, d, hsets⟩
      · have hleaves : c.LeavesRow row es := by
          rw [LeavesRow, hconcat]
          exact hwait.1
        rcases ih with ⟨hno, hquiet⟩ | ⟨d, pre, hd, heffect⟩
        · left
          refine ⟨fun d hd => ?_, fun pre hp => ?_⟩
          · rw [hconcat] at hd
            exact hno d (hwait.2 d hd)
          · rcases hlast hp with hp | ⟨rfl, -⟩
            · exact hquiet pre hp
            · exact hleaves
        · right
          refine ⟨d, pre, ?_, heffect.within.trans (prefix_append _ _), heffect.sets, ?_⟩
          · rw [hconcat, event, next, hd]
            exact hd
          · intro pre' hp hne
            rcases hlast hp with hp | ⟨rfl, -⟩
            · exact heffect.alone pre' hp hne
            · exact hleaves
      · right
        obtain ⟨hphase, expected, hhead, hrow, hrow'⟩ := hsets
        have hquiet : ∀ pre, pre ++ [.step] <+: es → c.LeavesRow row pre := by
          rcases ih with ⟨-, hquiet⟩ | ⟨d', pre, hd, -⟩
          · exact hquiet
          · exact absurd hd (hopen _)
        refine ⟨d, es, ?_, prefix_rfl, ⟨expected, hhead, hrow, ?_⟩, ?_⟩
        · rw [hconcat]
          exact hphase
        · rw [hconcat]
          exact hrow'
        · intro pre' hp hne
          exact (hlast hp).elim (hquiet pre') fun h => absurd h.1 hne

/-- The request gets to the comparison of the head. -/
def fit (c : PutFile Id) : Bool :=
  c.headId.any c.isObjectIdValid && c.tempFile &&
    c.repo.any (fun repo => !repo.isVirtual && repo.isNormal) && (c.headId.bind c.load).isSome

theorem openHead_differs {head : Id} (h : c.headId ≠ some head) :
    ∃ e, c.openHead true (some head) = .error e ∧
      e.code = if c.fit then .concurrentUpload else .badArgs := by
  unfold openHead fit
  cases hhead : c.headId with
  | none => exact ⟨_, rfl, rfl⟩
  | some expected =>
    have hne : expected ≠ head := fun heq => h (hhead.trans (congrArg some heq))
    cases hvalid : c.isObjectIdValid expected with
    | false => simp [hvalid]
    | true =>
      cases htemp : c.tempFile with
      | false => simp [hvalid]
      | true =>
        cases hrepo : c.repo with
        | none => simp [hvalid]
        | some repo =>
          cases hload : c.load expected with
          | none => simp [hvalid, hload]
          | some base =>
            cases hvirtual : repo.isVirtual <;> cases hnormal : repo.isNormal <;>
              simp [hvalid, hload, hvirtual, hnormal, hne]

theorem putFileIfHead_differs
    (h : ∀ pre, pre <+: es → ∃ head, (c.putFileIfHead row pre).row = some head ∧
      c.headId ≠ some head) :
    (c.putFileIfHead row es).phase = .start ∨
      ∃ e, (c.putFileIfHead row es).phase = .done (.error e) ∧
        e.code = if c.fit then .concurrentUpload else .badArgs := by
  induction es using reverseRecOn with
  | nil => exact .inl rfl
  | append_singleton es e ih =>
    obtain ⟨head, hrow, hne⟩ := h es (prefix_append _ _)
    have hbefore := ih fun pre hpre => h pre (hpre.trans (prefix_append _ _))
    rw [putFileIfHead_concat]
    cases e with
    | other row' => exact hbefore
    | step =>
      right
      rcases hbefore with hstart | ⟨e, hdone, hcode⟩
      · obtain ⟨e, hopen, hcode⟩ := openHead_differs hne
        exact ⟨e, by simp [event, next, hstart, hrow, hopen], hcode⟩
      · exact ⟨e, by rw [event, next, hdone]; exact hdone, hcode⟩

end PutFile

/-! ## The theorem -/

/-- **`put_file_if_head` is a compare and set** on the row, whatever others do between its steps: it
    takes effect at one instant, or reports a head that was another one all the time. -/
theorem putFileIfHead_linearizable [ObjectId Id] [DecidableEq Id] (c : PutFile Id)
    (row : Option Id) (es : List (PutEvent Id)) :
    (∀ d, (c.putFileIfHead row es).phase = .done (.ok d) → ∃ pre, c.TakesEffect row es d pre) ∧
    (∀ e, (c.putFileIfHead row es).phase = .done (.error e) →
      (∀ pre, pre ++ [.step] <+: es → c.LeavesRow row pre) ∧
      ((∀ pre, pre <+: es → ∃ head, (c.putFileIfHead row pre).row = some head ∧
        c.headId ≠ some head) → e.code = if c.fit then .concurrentUpload else .badArgs)) ∧
    ∀ commit ∈ (c.putFileIfHead row es).added, commit.secondParentId = none := by
  refine ⟨?_, ?_, (PutFile.putFileIfHead_sound c row es).added⟩
  · intro d hd
    rcases PutFile.putFileIfHead_cases es with ⟨hno, -⟩ | ⟨d', pre, hd', heffect⟩
    · exact absurd hd (hno d)
    · obtain rfl : d' = d := by simpa [hd'] using hd
      exact ⟨pre, heffect⟩
  · intro e he
    constructor
    · rcases PutFile.putFileIfHead_cases es with ⟨-, hquiet⟩ | ⟨d, pre, hd, -⟩
      · exact hquiet
      · rw [he] at hd
        cases hd
    · intro hdiffers
      rcases PutFile.putFileIfHead_differs hdiffers with hstart | ⟨e', he', hcode⟩
      · rw [he] at hstart
        cases hstart
      · obtain rfl : e' = e := by simpa [he'] using he
        exact hcode

/-! ## A file that cannot be read -/

def unreadableAttempt : Attempt ℕ where
  load _ := none
  load_id := by simp
  merge _ _ _ := none
  newId _ _ root := root
  ctime := 0
  save := true
  row := none
  steps := passingSteps
  nextHead := none

/-- A request to replace `f`, with an input file that cannot be read. -/
def unreadablePut : PutFile ℕ where
  parentDir := ['/']
  fileName := ['f']
  user := ['u']
  headId := some 1
  mtime := 0
  isObjectIdValid _ := true
  tempFile := false
  repo := some ⟨false, true, false⟩
  load _ := none
  load_id := by simp
  store := .empty
  prepare := .ok ()
  decryptKey := true
  gcId := none
  indexed := none
  clock := 0
  writeObj _ := true
  now _ := 0
  sqlite := false
  steps := passingSteps
  reread _ := true
  addCommit := true
  attempts _ := unreadableAttempt

/-- The head is never the expected commit, and the call does not report that. -/
theorem putFileIfHead_not_mismatch :
    unreadablePut.headId = some 1 ∧ (unreadablePut.putFileIfHead (some 2) []).row = some 2 ∧
    (unreadablePut.putFileIfHead (some 2) [.step]).row = some 2 ∧
    (unreadablePut.putFileIfHead (some 2) [.step]).phase =
      .done (.error ⟨.badArgs, "Invalid input file"⟩) :=
  ⟨rfl, rfl, rfl, rfl⟩

end CloudFile
