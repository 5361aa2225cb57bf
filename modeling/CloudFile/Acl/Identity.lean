/-
  Whom a publication of the sync protocol is authorized for (`server/http-server.c`,
  `common/branch-mgr.c`). A request with a token is refused while the library has a rule. If one
  comes into force later, `test_and_update_branch` asks about the creator in the commit, a name
  that the client has written (`actor`).
-/
import CloudFile.Acl.TwoPhase
import CloudFile.Edit.Protection
import CloudFile.Sync.InvalidPath

namespace CloudFile

variable {Id D : Type} [ObjectId Id] [CommitId Id] [DecidableEq Id] [DecidableEq D]

/-! ## Tokens and permissions -/

/-- The answers of the sync protocol. -/
inductive HttpRes where
  | ok
  | badReq
  | forbidden
  | servErr
  | conflict
  | noQuota
  | blockMissing
deriving DecidableEq

/-- What a token stands for. -/
structure TokenInfo where
  repoId : Name
  email : Name

/-- What `validate_token` finds. -/
structure TokenReads where
  ok : ReadsOk
  /-- the token in the headers -/
  token : Option Name
  cache : Name → Option TokenInfo
  /-- `seaf_repo_manager_get_email_by_token` -/
  email : Name → Name → Option Name

/-- What `check_permission` finds for an upload. -/
structure PermReads where
  cached : Name → Bool
  status : ℤ
  perm : Name → Option Name

/-- The queries of `check`, with `LIMIT 1`. -/
def checkReads (ok : ReadsOk) (origin : Option Name) (rows : Scope → List AclRow) : ProofReads where
  rows sc := if ok.rows sc then some ((rows sc).take 1) else none
  origin := if ok.origin then some origin else none

namespace Server

/-- Whether the library has rules. -/
def checkScope : Option (List AclRow) → ℤ
  | none => -1
  | some rows => if rows = [] then 0 else -2

/-- `check`, without a transaction. -/
def cfV2AclUnscoped (repoId : Name) (reads : ProofReads) : ℤ :=
  if checkScope (reads.rows .library) ≠ 0 then checkScope (reads.rows .library)
  else match reads.origin with
    | none => -1
    | some none => 0
    | some (some origin) =>
      if origin.length ≠ 36 || origin = repoId then -1 else checkScope (reads.rows .origin)

/-- The user of the token, or the reply. -/
def validateToken (repoId : Name) (acl : ProofReads) (t : TokenReads) : Except HttpRes Name :=
  if cfV2AclUnscoped repoId acl < 0 then .error .forbidden
  else match t.token with
    | none => .error .badReq
    | some token => match t.cache token with
      | some info => if info.repoId ≠ repoId then .error .forbidden else .ok info.email
      | none => match t.email repoId token with
        | none => .error .forbidden
        | some email => .ok email

/-- `check_permission` for an upload; 0 is `REPO_STATUS_NORMAL`. -/
def checkPermission (p : PermReads) (username : Name) : Bool :=
  p.cached username ||
    (p.status = 0 || p.status = -1) && (p.perm username).any fun perm => perm ≠ ['r']

end Server

/-! ## Commits with their creators -/

/-- The stored objects, and the creators of the commits. -/
structure SyncStore (Id : Type) [ObjectId Id] [CommitId Id] where
  objects : Objects Id
  creators : Id → Option Name

/-- The objects with more of them. -/
def SyncStore.add (s more : SyncStore Id) : SyncStore Id where
  objects := s.objects.add more.objects
  creators id := if (s.objects.commits id).isSome then s.creators id else more.creators id

/-- One commit. -/
def SyncStore.ofCommit (rootId : Id) (text : Name) (ctime : UInt64)
    (parentId secondParentId : Option Id) (creatorName : Option Name) : SyncStore Id where
  objects :=
    { fs := FsStore.empty
      commits := fun id => if id = computeCommitID rootId text ctime then
        some ⟨id, rootId, ctime, parentId, secondParentId⟩ else none
      saved := fun id c h => by
        obtain ⟨rfl, h⟩ := Option.ite_none_right_eq_some.1 h
        obtain rfl := Option.some.inj h
        exact ⟨rfl, text, rfl⟩ }
  creators _ := creatorName

/-- An uploaded commit; `sane` is whether `commit_from_json_object` accepts the fields that are
    not read. -/
structure CommitJson (Id : Type) where
  repoId : Name
  rootId : Id
  creatorName : Option Name
  text : Name
  ctime : UInt64
  parentId : Option Id
  secondParentId : Option Id
  sane : Bool

/-- In lower case. -/
def asciiDown (name : Name) : Name := name.map Char.toLower

/-- `seaf_commit_from_data` -/
def CommitJson.stored (j : CommitJson Id) : SyncStore Id :=
  .ofCommit j.rootId j.text j.ctime j.parentId j.secondParentId (j.creatorName.map asciiDown)

/-- The commit with another creator. -/
def CommitJson.withCreator (name : Option Name) (j : CommitJson Id) : CommitJson Id :=
  { j with creatorName := name }

/-! ## The rules over time -/

/-- The rules at successive times, with any number of changes between two of them. -/
structure RuleHistory where
  tables : ℕ → AclTables
  steps : ∀ n, RuleSteps (tables n) (tables (n + 1))

/-- The states of the rules in one check. -/
def RuleHistory.interleaving (r : RuleHistory) (n : ℕ) : Interleaving where
  atLibrary := r.tables n
  atOrigin := r.tables (n + 1)
  atHub := r.tables (n + 2)
  atCommit := r.tables (n + 3)
  toOrigin := r.steps n
  toHub := r.steps (n + 1)
  toCommit := r.steps (n + 2)

/-- The rules one check reads. -/
def RuleHistory.read (r : RuleHistory) (n : ℕ) : Scope → List AclRow := (r.interleaving n).read

/-! ## The handlers -/

/-- What an attempt of `fast_forward_or_merge` finds. -/
structure SyncAttempt (Id : Type) [ObjectId Id] [CommitId Id] where
  /-- what other requests have stored -/
  others : SyncStore Id
  /-- the head of the library, if it can be read -/
  head : Option Id
  merge : Id → Id → Id → Option Id
  /-- the description of a merge -/
  desc : Id → Id → Id → Name
  ctime : UInt64
  /-- what `seaf_commit_manager_add_commit` answers for a merge -/
  added : Bool
  /-- whether `test_and_update_branch` finds the library -/
  aclRepo : Bool
  virtualRepo : Option Bool
  fuel : ℕ
  ok : ReadsOk
  okFinal : ReadsOk
  steps : UpdateSteps
  row : Option Id

/-- What the two requests of a client find, in a library whose rules change. -/
structure SyncRun (Id : Type) [ObjectId Id] [CommitId Id] where
  repoId : Name
  origin : Option Name
  rules : RuleHistory
  store : SyncStore Id
  /-- the GC id of the token, if there is one -/
  lastGcId : Option (Option GcId)
  putToken : TokenReads
  putPerm : PermReads
  /-- what `seaf_commit_manager_add_commit` answers -/
  putAdded : Bool
  /-- the GC id of the library, if it is found -/
  putGcId : Option (Option GcId)
  /-- what other requests store between the two -/
  between : SyncStore Id
  /-- the commit to publish, if its id is valid -/
  newCommitId : Option Id
  updateToken : TokenReads
  updatePerm : PermReads
  updateRepo : Bool
  fuel : ℕ
  quota : Bool
  verifyClientBlocks : Bool
  blocks : Bool
  attempts : ℕ → SyncAttempt Id

/-- How `fast_forward_or_merge`, or an attempt of it, ends. -/
inductive Forwarded where
  | done
  | failed
  | gcConflict
  | retry
deriving DecidableEq

namespace Server

/-- The user the Hub is asked about: the creator of the commit. -/
def actor (a : SyncAttempt Id) (s : SyncStore Id) (commitId : Id) : Name :=
  if a.aclRepo && (s.objects.commits commitId).isSome then (s.creators commitId).getD [] else []

/-- What `compute_commit_id` hashes besides the root and the time. -/
def mergeText (creatorName : Option Name) (desc : Name) : Name :=
  frame (creatorID :: creatorName.toList ++ [desc])

section Handlers

variable (sha256 : Name → D) (hub : AclTables → Hub) (e : SyncRun Id)

/-- What both phases of `test_and_update_branch` see. -/
def syncPublisher (a : SyncAttempt Id) (s : SyncStore Id) (checkGc : Bool) (lastGcId : Option GcId)
    (old new : Id) : AclPublisher Id D :=
  .server s.objects a.fuel a.virtualRepo (actor a s new) old new checkGc lastGcId a.steps a.row

/-- `test_and_update_branch` in the `k`-th attempt, after the four readings of the two token
    checks. -/
def syncUpdate (k : ℕ) (s : SyncStore Id) (lastGcId : Option (Option GcId)) (old new : Id) :
    Updated Id :=
  let a := e.attempts k
  let x := e.rules.interleaving (4 + 4 * k)
  let pub : AclPublisher Id D := syncPublisher a s lastGcId.isSome lastGcId.join old new
  let proof := pub.phaseA sha256 (hub x.atHub) e.repoId (proofReads a.ok e.origin x.read)
  let final := proof.any fun p =>
    pub.phaseB sha256 e.repoId (proofReads a.okFinal e.origin x.atCommit.rows) p
  testAndUpdateBranch lastGcId.isSome lastGcId.join
    { a.steps with aclPreflight := proof.isSome, aclFinal := final } a.row new old

/-- What follows an update: every failure but a conflict with the GC leads to another attempt. -/
def forwarded (u : Updated Id) : Forwarded :=
  match u.result with
  | .ok () => .done
  | .error .gcConflict => .gcConflict
  | .error _ => .retry

/-- The body of the loop. The head is a commit of another request. -/
def forwardOnce (k : ℕ) (s : SyncStore Id) (lastGcId : Option (Option GcId))
    (base new : Commit Id) (creatorName : Option Name) : Forwarded × SyncStore Id :=
  let a := e.attempts k
  match a.head >>= a.others.objects.commits with
  | none => (.failed, s)
  | some currentHead =>
    if base.commitId ≠ currentHead.commitId then
      match a.merge base.rootId currentHead.rootId new.rootId with
      | none => (.failed, s)
      | some mergedRoot =>
        if !a.added then (.failed, s)
        else
          let text := mergeText creatorName (a.desc mergedRoot currentHead.rootId new.rootId)
          let s := s.add (.ofCommit mergedRoot text a.ctime (some currentHead.commitId)
            (some new.commitId) creatorName)
          (forwarded (syncUpdate sha256 hub e k s lastGcId currentHead.commitId
            (computeCommitID mergedRoot text a.ctime)), s)
    else (forwarded (syncUpdate sha256 hub e k s lastGcId currentHead.commitId new.commitId), s)

/-- The attempts to move the head. -/
def forwardLoop (lastGcId : Option (Option GcId)) (base new : Commit Id)
    (creatorName : Option Name) : ℕ → ℕ → SyncStore Id → Forwarded
  | 0, _, _ => .failed
  | left + 1, k, s =>
    let tried := forwardOnce sha256 hub e k (s.add (e.attempts k).others) lastGcId base new
      creatorName
    if tried.1 = .retry then forwardLoop lastGcId base new creatorName left (k + 1) tried.2
    else tried.1

/-- `fast_forward_or_merge`, with three retries. -/
def fastForwardOrMerge (s : SyncStore Id) (lastGcId : Option (Option GcId))
    (base new : Commit Id) : Forwarded :=
  forwardLoop sha256 hub e lastGcId base new (s.creators new.commitId) 4 0 s

/-- `put_commit_cb`: the reply, what is stored, and the GC id of the token. -/
def putCommit (body : Option (CommitJson Id)) :
    HttpRes × SyncStore Id × Option (Option GcId) :=
  match validateToken e.repoId (checkReads e.putToken.ok e.origin (e.rules.read 0)) e.putToken with
  | .error status => (status, e.store, e.lastGcId)
  | .ok username =>
    if !checkPermission e.putPerm username then (.forbidden, e.store, e.lastGcId)
    else match body with
      | none => (.badReq, e.store, e.lastGcId)
      | some j =>
        if !j.sane || j.repoId ≠ e.repoId then (.badReq, e.store, e.lastGcId)
        else if !e.putAdded then (.servErr, e.store, e.lastGcId)
        else match e.putGcId with
          | none => (.servErr, e.store.add j.stored, e.lastGcId)
          | some gcId => (.ok, e.store.add j.stored, some gcId)

/-- `put_update_branch_cb` -/
def putUpdateBranch (s : SyncStore Id) (lastGcId : Option (Option GcId)) : HttpRes :=
  match e.newCommitId with
  | none => .badReq
  | some newCommitId =>
    match validateToken e.repoId (checkReads e.updateToken.ok e.origin (e.rules.read 2))
      e.updateToken with
    | .error status => status
    | .ok username =>
      if !checkPermission e.updatePerm username then .forbidden
      else if !e.updateRepo then .servErr
      else match s.objects.commits newCommitId with
        | none => .servErr
        | some new => match new.parentId >>= s.objects.commits with
          | none => .badReq
          | some base =>
            if includeInvalidPath s.objects.fs e.fuel base new then .badReq
            else if !e.quota then .noQuota
            else if e.verifyClientBlocks && !e.blocks then .blockMissing
            else match fastForwardOrMerge sha256 hub e s lastGcId base new with
              | .done => .ok
              | .gcConflict => .conflict
              | _ => .servErr

/-- The two requests of an upload. -/
def syncRun (body : Option (CommitJson Id)) : HttpRes × HttpRes :=
  let uploaded := putCommit e body
  (uploaded.1, putUpdateBranch sha256 hub e (uploaded.2.1.add e.between) uploaded.2.2)

end Handlers

end Server

/-! ## Where no rule is found, nobody is asked about -/

theorem Server.checkScope_nonneg {rows : Option (List AclRow)} (h : 0 ≤ Server.checkScope rows) :
    rows = some [] := by
  cases rows with
  | none => simp [checkScope] at h
  | some rows =>
    simp only [checkScope] at h
    split_ifs at h with hnil
    · rw [hnil]
    · omega

variable {ok : ReadsOk} {origin : Option Name} {rows : Scope → List AclRow}

theorem Server.cfV2AclUnscoped_nonneg {repoId : Name}
    (h : 0 ≤ Server.cfV2AclUnscoped repoId (checkReads ok origin rows)) :
    ∀ sc, InScope origin sc → rows sc = [] := by
  have hnone : ∀ sc,
      0 ≤ checkScope ((checkReads ok origin rows).rows sc) → rows sc = [] := by
    intro sc hsc
    have hread := checkScope_nonneg hsc
    simp only [checkReads, Option.ite_none_right_eq_some, Option.some.injEq] at hread
    rcases List.take_eq_nil_iff.1 hread.2 with h | h
    · omega
    · exact h
  unfold cfV2AclUnscoped at h
  split_ifs at h with hlib
  · have hzero := checkScope_nonneg h
    simp [hzero, checkScope] at hlib
  · have hlibrary := hnone .library (by omega)
    intro sc hsc
    cases sc with
    | library => exact hlibrary
    | origin =>
      obtain ⟨o, rfl⟩ := Option.isSome_iff_exists.1 (hsc.resolve_left (by simp))
      cases hok : ok.origin with
      | false => simp [checkReads, hok] at h
      | true =>
        have horigin : (checkReads ok (some o) rows).origin = some (some o) := by
          simp [checkReads, hok]
        simp only [horigin] at h
        split_ifs at h
        · omega
        · exact hnone .origin h

theorem Server.validateToken_ok {repoId username : Name} {t : TokenReads}
    (h : Server.validateToken repoId (checkReads ok origin rows) t = .ok username) :
    ∀ sc, InScope origin sc → rows sc = [] := by
  unfold validateToken at h
  split_ifs at h with hcheck
  exact cfV2AclUnscoped_nonneg (not_lt.1 hcheck)

omit [DecidableEq D] in
theorem Server.phaseA_unprotected {sha256 : Name → D} {hub : Hub} {repoID : Name}
    (hrows : ∀ sc, InScope origin sc → rows sc = []) (a : SyncAttempt Id) (s : SyncStore Id)
    (checkGc : Bool) (lastGcId : Option GcId) (old new : Id) :
    (Server.syncPublisher a s checkGc lastGcId old new).phaseA sha256 hub repoID
      (proofReads ok origin rows) =
        Server.cfV2AclProof sha256 repoID (proofReads ok origin rows) := by
  simp only [syncPublisher, AclPublisher.phaseA]
  cases hp : cfV2AclProof sha256 repoID (proofReads ok origin rows) with
  | none => rfl
  | some p =>
    obtain ⟨origin', hproves⟩ := cfV2AclProof_proves hp
    have hopen : p.isProtected = false := by
      obtain ⟨rfl, hgot⟩ := hproves.mem_got
      rw [Bool.eq_false_iff, ne_eq, hproves.isProtected]
      rintro ⟨sc, hsc, hne⟩
      obtain ⟨r, hr⟩ := List.exists_mem_of_ne_nil _ hne
      rw [hgot sc hsc, hrows sc hsc] at hr
      cases hr
    simp [hopen]

omit [ObjectId Id] [CommitId Id] in
theorem testAndUpdateBranch_result (checkGc : Bool) (lastGcId : Option GcId) (steps : UpdateSteps)
    (row : Option Id) (old new new' : Id) :
    (Server.testAndUpdateBranch checkGc lastGcId steps row new old).result =
      (Server.testAndUpdateBranch checkGc lastGcId steps row new' old).result := by
  unfold Server.testAndUpdateBranch
  split
  · rfl
  · rfl

section TwoRuns

variable {sha256 : Name → D} {hub hub' : AclTables → Hub} {e : SyncRun Id} {n k : ℕ}
  {s s' : SyncStore Id} {lastGcId : Option (Option GcId)} {name name' : Option Name}
  {base new : Commit Id}

/-- No rule is read in so many attempts. -/
def SyncRun.Unruled (e : SyncRun Id) (attempts : ℕ) : Prop :=
  ∀ k < attempts, ∀ sc, InScope e.origin sc → e.rules.read (4 + 4 * k) sc = []

variable (h : e.Unruled n)

include h

theorem syncUpdate_forwarded (hk : k < n) {old new new' : Id} :
    Server.forwarded (Server.syncUpdate sha256 hub e k s lastGcId old new) =
      Server.forwarded (Server.syncUpdate sha256 hub' e k s' lastGcId old new') := by
  have hrows : ∀ sc, InScope e.origin sc → (e.rules.interleaving (4 + 4 * k)).read sc = [] := h k hk
  unfold Server.forwarded Server.syncUpdate
  simp only [Server.phaseA_unprotected hrows]
  rw [testAndUpdateBranch_result _ _ _ _ _ new new']
  rfl

theorem forwardOnce_eq (hk : k < n) :
    (Server.forwardOnce sha256 hub e k s lastGcId base new name).1 =
      (Server.forwardOnce sha256 hub' e k s' lastGcId base new name').1 := by
  simp only [Server.forwardOnce]
  cases (e.attempts k).head >>= (e.attempts k).others.objects.commits with
  | none => rfl
  | some head =>
    by_cases hbase : base.commitId = head.commitId
    · simp only [hbase, ne_eq, not_true_eq_false]
      exact syncUpdate_forwarded h hk
    · simp only [hbase, ne_eq, not_false_eq_true]
      cases (e.attempts k).merge base.rootId head.rootId new.rootId with
      | none => rfl
      | some root =>
        cases hadded : (e.attempts k).added with
        | false => rfl
        | true =>
          exact syncUpdate_forwarded h hk

theorem forwardLoop_eq {left : ℕ} (hle : k + left ≤ n) :
    Server.forwardLoop sha256 hub e lastGcId base new name left k s =
      Server.forwardLoop sha256 hub' e lastGcId base new name' left k s' := by
  -- the stores of the two runs grow apart, with the merges of each
  induction left generalizing k s s' with
  | zero => rfl
  | succ left ih =>
    have honce : (Server.forwardOnce sha256 hub e k (s.add (e.attempts k).others) lastGcId base new
          name).1 =
        (Server.forwardOnce sha256 hub' e k (s'.add (e.attempts k).others) lastGcId base new
          name').1 :=
      forwardOnce_eq h (by omega)
    unfold Server.forwardLoop
    simp only [honce]
    split_ifs
    · exact ih (by omega)
    · rfl

omit h

theorem putCommit_withCreator (e : SyncRun Id) (body : Option (CommitJson Id))
    (name name' : Option Name) :
    let up := Server.putCommit e (body.map (CommitJson.withCreator name))
    let up' := Server.putCommit e (body.map (CommitJson.withCreator name'))
    up.1 = up'.1 ∧ up.2.1.objects = up'.2.1.objects ∧ up.2.2 = up'.2.2 := by
  intro up up'
  cases body with
  | none => exact ⟨rfl, rfl, rfl⟩
  | some j =>
    simp only [up, up', Option.map_some, Server.putCommit, CommitJson.withCreator]
    cases Server.validateToken e.repoId _ e.putToken with
    | error status => exact ⟨rfl, rfl, rfl⟩
    | ok username =>
      simp only
      cases Server.checkPermission e.putPerm username with
      | false => exact ⟨rfl, rfl, rfl⟩
      | true =>
        cases !j.sane || decide (j.repoId ≠ e.repoId) with
        | true => exact ⟨rfl, rfl, rfl⟩
        | false =>
          cases e.putAdded with
          | false => exact ⟨rfl, rfl, rfl⟩
          | true =>
            cases e.putGcId with
            | none => exact ⟨rfl, rfl, rfl⟩
            | some gcId => exact ⟨rfl, rfl, rfl⟩

/-- Every rule that an attempt finds was in force when the token was checked. -/
def SyncRun.NoNewRule (e : SyncRun Id) : Prop :=
  ∀ k < 4, ∀ sc, InScope e.origin sc → ∀ row ∈ e.rules.read (4 + 4 * k) sc, row ∈ e.rules.read 2 sc

theorem putUpdateBranch_eq (h : e.NoNewRule) (hs : s.objects = s'.objects)
    (lastGcId : Option (Option GcId)) :
    Server.putUpdateBranch sha256 hub e s lastGcId =
      Server.putUpdateBranch sha256 hub' e s' lastGcId := by
  unfold Server.putUpdateBranch
  cases e.newCommitId with
  | none => rfl
  | some newCommitId =>
    cases htoken : Server.validateToken e.repoId
        (checkReads e.updateToken.ok e.origin (e.rules.read 2)) e.updateToken with
    | error status => rfl
    | ok username =>
      have hunruled : e.Unruled 4 := by
        intro k hk sc hsc
        rw [List.eq_nil_iff_forall_not_mem]
        intro row hrow
        have hold := h k hk sc hsc row hrow
        rw [Server.validateToken_ok htoken sc hsc] at hold
        cases hold
      have hloop : ∀ base new, Server.fastForwardOrMerge sha256 hub e s lastGcId base new =
          Server.fastForwardOrMerge sha256 hub' e s' lastGcId base new := by
        intro base new
        exact forwardLoop_eq hunruled (by omega)
      simp only [hs, hloop]

end TwoRuns

/-- **The creator of a commit decides nothing** unless a rule comes into force after the token is
    checked: the replies do not depend on it. -/
theorem sync_replies_independent_of_creator {sha256 : Name → D} {e : SyncRun Id} (h : e.NoNewRule)
    (hub hub' : AclTables → Hub) (body : Option (CommitJson Id)) (name name' : Option Name) :
    Server.syncRun sha256 hub e (body.map (CommitJson.withCreator name)) =
      Server.syncRun sha256 hub' e (body.map (CommitJson.withCreator name')) := by
  obtain ⟨hstatus, hobjects, hgc⟩ := putCommit_withCreator e body name name'
  unfold Server.syncRun
  ext1
  · exact hstatus
  · simp only [hgc]
    refine putUpdateBranch_eq h ?_ _
    simp only [SyncStore.add, hobjects]

def noRules : AclTables where
  rows _ := []
  used := []
  tracked := nofun

def unruled : RuleHistory where
  tables _ := noRules
  steps _ := Relation.ReflTransGen.refl

/-- A rule comes into force after the token of the update is checked. -/
def ruledLate : RuleHistory where
  tables n := if n < 4 then noRules else noRules.insert .library ownRule
  steps n := by
    rcases lt_trichotomy n 3 with hn | rfl | hn
    · rw [if_pos (by omega), if_pos (by omega)]
      exact Relation.ReflTransGen.refl
    · exact Relation.ReflTransGen.single (.insert (by decide) (by decide))
    · rw [if_neg (by omega), if_neg (by omega)]
      exact Relation.ReflTransGen.refl

def mToken : TokenReads := ⟨⟨fun _ => true, true⟩, some ['t'], fun _ => none, fun _ _ => some ['m']⟩

def fStore : SyncStore ℕ where
  objects := .ofRoot fTrees (seafDirId fDir)
  creators _ := none

def fUpload : CommitJson ℕ :=
  ⟨fRepoID, seafDirId fModified, none, creatorID, 1, some fOld.commitId, none, true⟩

def mRun (rules : RuleHistory) : SyncRun ℕ where
  repoId := fRepoID
  origin := none
  rules := rules
  store := fStore
  lastGcId := none
  putToken := mToken
  putPerm := ⟨fun _ => false, 0, fun _ => some ['r', 'w']⟩
  putAdded := true
  putGcId := some none
  between := fStore
  newCommitId := some fNew.commitId
  updateToken := mToken
  updatePerm := ⟨fun _ => false, 0, fun _ => some ['r', 'w']⟩
  updateRepo := true
  fuel := 1
  quota := true
  verifyClientBlocks := false
  blocks := true
  attempts _ :=
    { others := fStore
      head := some fOld.commitId
      merge := fun _ _ _ => none
      desc := fun _ _ _ => []
      ctime := 2
      added := true
      aclRepo := true
      virtualRepo := some false
      fuel := 1
      ok := ⟨fun _ => true, true⟩
      okFinal := ⟨fun _ => true, true⟩
      steps := ⟨true, true, true, some none, true, true, true, true, true, ⟨true, some false⟩,
        ⟨true, some false⟩⟩
      row := some fOld.commitId }

def uHub (_ : AclTables) : Hub := fun r => some ⟨200, r.username = ['u'], "cf-acl-v1"⟩

theorem unruled_replies_equal :
    Server.syncRun id uHub (mRun unruled) (some (fUpload.withCreator (some ['m']))) =
        Server.syncRun id uHub (mRun unruled) (some (fUpload.withCreator (some ['u']))) ∧
      Server.syncRun id uHub (mRun unruled) (some (fUpload.withCreator (some ['u']))) =
        (.ok, .ok) := by
  have hquiet : (mRun unruled).NoNewRule := by
    intro k _ sc _ row hrow
    cases sc with
    | library => exact hrow
    | origin => exact hrow
  exact ⟨sync_replies_independent_of_creator hquiet uHub uHub (some fUpload) _ _, by decide +kernel⟩

/-- The user `m` is refused under the own name, and publishes under the name of `u`. -/
theorem borrowed_creator_publishes :
    Server.syncRun id uHub (mRun ruledLate) (some (fUpload.withCreator (some ['m']))) =
        (.ok, .servErr) ∧
      Server.syncRun id uHub (mRun ruledLate) (some (fUpload.withCreator (some ['u']))) =
        (.ok, .ok) := by
  decide +kernel

end CloudFile
