/-
  Which paths are authorized before a publication (`common/cf-v2-acl.c`,
  `fileserver/cf_v2_acl.go`). The differences of the two commits become a list of write checks for
  the Hub. `acl_checks_cover`: a preflight that succeeds has sent every path that differs; and the
  file server lets only files be added and modified.
-/
import CloudFile.Diff.Renames
import CloudFile.Edit.Fenced

namespace CloudFile

open SortedWalk GoPath List Option

variable {Id H : Type} [ObjectId Id] [CommitId Id] [DecidableEq Id]

/-! ## The model -/

/-- What a rule is about. -/
inductive AclKind where
  | file
  | dir
deriving DecidableEq

/-- What is asked for. -/
inductive AclAction where
  | read
  | write
deriving DecidableEq

/-- One question. -/
structure AclCheck where
  path : Name
  kind : AclKind
  action : AclAction
deriving DecidableEq

/-- A request to the hub. -/
structure AclRequest where
  repoID : Name
  username : Name
  checks : List AclCheck
deriving DecidableEq

/-- Its reply. -/
structure HubReply where
  status : ℕ
  allowed : Bool
  contract : String

/-- The Hub: `none` where nothing comes back that could be read. -/
abbrev Hub := AclRequest → Option HubReply

/-- The reply allows the request. -/
def HubReply.allows (r : HubReply) : Bool := r.status = 200 && r.allowed && r.contract = "cf-acl-v1"

namespace Server

/-- `canonical`; the names of the model are valid UTF-8. -/
def canonical (path : Name) : Bool :=
  path.head? = some '/' && (String.ofList path).utf8ByteSize ≤ 4096 && '\\' ∉ path &&
    ¬ ['/', '/'] <:+: path && !(1 < path.length && path.getLast? = some '/') &&
    path.all (fun r => 32 ≤ r.toNat && r.toNat ≠ 127) &&
    (path.splitOn '/').all fun part => part ≠ dot && part ≠ dotdot

/-- A change of a directory. -/
def scopedEntryIsDir (delta : Change Id) : Bool :=
  delta.status = .dirAdded || delta.status = .dirDeleted || delta.status = .dirRenamed

/-- A change that can be checked. -/
def scopedStatusSupported (delta : Change Id) : Bool :=
  match delta.status with
  | .added | .modified | .deleted | .renamed | .dirAdded | .dirDeleted | .dirRenamed => true
  | .unmerged => false

/-- What was changed. -/
def scopedKind (delta : Change Id) : AclKind := if scopedEntryIsDir delta then .dir else .file

/-- A rename with a new name. -/
def isMove (delta : Change Id) : Bool :=
  (delta.status = .renamed || delta.status = .dirRenamed) && delta.newName ≠ []

/-- Where the change ends up. -/
def scopedTarget (delta : Change Id) : Name :=
  '/' :: if isMove delta then delta.newName else delta.name

/-- The checks of one change: the path that is written and, for a move, the one it leaves. -/
def scopedEntry (delta : Change Id) : Option (List AclCheck) :=
  if !canonical (scopedTarget delta) then none
  else if isMove delta && delta.name ≠ delta.newName then
    if !canonical ('/' :: delta.name) then none
    else some [⟨scopedTarget delta, scopedKind delta, .write⟩,
      ⟨'/' :: delta.name, scopedKind delta, .write⟩]
  else some [⟨scopedTarget delta, scopedKind delta, .write⟩]

/-- The loop of `cf_v2_acl_preflight_scoped`. -/
def scopedChecks : List AclCheck → List (Change Id) → Option (List AclCheck)
  | checks, [] => some checks
  | checks, delta :: changes =>
    if 4096 ≤ checks.length || !scopedStatusSupported delta then none
    else scopedEntry delta >>= fun more => scopedChecks (checks ++ more) changes

/-- The hub allows the request. -/
def authorizeChange (hub : Hub) (request : AclRequest) : Bool :=
  (hub request).any HubReply.allows

/-- What `cf_v2_acl_preflight_scoped` sends; `virtualRepo` is whether the library is a virtual
    one, if it is found. -/
def preflightRequest (virtualRepo : Option Bool) (o : Objects Id) (fuel : ℕ) (repoId : Name)
    (oldId newId : Id) (actor : Name) : Option AclRequest :=
  if actor = [] || virtualRepo ≠ some false then none
  else o.commits oldId >>= fun old => o.commits newId >>= fun next =>
    diffCommits o.fs fuel old.rootId next.rootId false >>= fun changes =>
    scopedChecks [] changes >>= fun checks =>
      if checks = [] then none else some ⟨repoId, actor, checks⟩

/-- The check before the transaction. -/
def cfV2AclPreflightScoped (hub : Hub) (virtualRepo : Option Bool) (o : Objects Id) (fuel : ℕ)
    (repoId : Name) (oldId newId : Id) (actor : Name) : Bool :=
  (preflightRequest virtualRepo o fuel repoId oldId newId actor).any (authorizeChange hub)

end Server

/-- `errCFACL` and `errCFACLUnavailable` -/
inductive AclErr where
  | denied
  | unavailable
deriving DecidableEq

/-- The rows of a library in one digest, and whether there are any. -/
structure AclProof (H : Type) where
  hash : H
  isProtected : Bool
deriving DecidableEq

namespace Fileserver

/-- The fileserver's question to the hub. -/
def cfACLAuthorize (hub : Hub) (repoID user : Name) (checks : List AclCheck) :
    Except AclErr Unit :=
  if user = [] || checks = [] || 4096 < checks.length then .error .denied
  else if !checks.all fun check => cfACLCanonical check.path then .error .denied
  else match hub ⟨repoID, user, checks⟩ with
    | none => .error .unavailable
    | some r =>
      if r.status ≠ 200 then
        if 400 ≤ r.status && r.status < 500 && r.status ≠ 429 then .error .denied
        else .error .unavailable
      else if r.contract ≠ "cf-acl-v1" then .error .unavailable
      else if !r.allowed then .error .denied
      else .ok ()

/-- The loop of `cfACLChanges`. -/
def aclChecks : List (Change Id) → Option (List AclCheck)
  | [] => some []
  | change :: changes =>
    if change.status ≠ .added && change.status ≠ .modified then none
    else if !cfACLCanonical ('/' :: change.name) then none
    else (aclChecks changes).map (⟨'/' :: change.name, .file, .write⟩ :: ·)

/-- The questions about the changes. -/
def cfACLChanges (changes : List (Change Id)) : Option (List AclCheck) :=
  if 4096 < changes.length then none else aclChecks changes

/-- What `cfACLPreflight` asks for in a library with rules. -/
def preflightRequest (order : List (DiffEntry Id) → List (DiffEntry Id)) (o : Objects Id)
    (fuel : ℕ) (repoID : Name) (oldID newID : Id) (user : Name) : Option AclRequest :=
  if user = [] then none
  else o.commits oldID >>= fun old => o.commits newID >>= fun new =>
    diffCommits order o.fs fuel old.rootId new.rootId false >>= fun changes =>
    cfACLChanges changes >>= fun checks =>
      if checks = [] then none else some ⟨repoID, user, checks⟩

/-- The end of a preflight: without rules there is nothing to ask. -/
def aclDecide (hub : Hub) (request : Option AclRequest) (proof : Except AclErr (AclProof H)) :
    Except AclErr (AclProof H) :=
  match proof with
  | .error e => .error e
  | .ok p =>
    if !p.isProtected then .ok p
    else match request with
      | none => .error .denied
      | some r => (cfACLAuthorize hub r.repoID r.username r.checks).map fun _ => p

/-- `cfACLPreflight`, with the proof it has read. -/
def cfACLPreflight (hub : Hub) (order : List (DiffEntry Id) → List (DiffEntry Id))
    (o : Objects Id) (fuel : ℕ) (repoID : Name) (oldID newID : Id) (user : Name)
    (proof : Except AclErr (AclProof H)) : Except AclErr (AclProof H) :=
  aclDecide hub (preflightRequest order o fuel repoID oldID newID user) proof

end Fileserver

/-! ## Changes become checks -/

/-- The name is checked for writing. -/
def WriteChecked (checks : List AclCheck) (name : Name) : Prop :=
  ∃ ck ∈ checks, ck.path = '/' :: name ∧ ck.action = .write

variable {checks acc more : List AclCheck} {changes : List (Change Id)} {ch : Change Id}
  {de : DiffEntry Id}

section

omit [ObjectId Id] [CommitId Id] [DecidableEq Id]

theorem Server.scopedEntry_covers (h : Server.scopedEntry ch = some more) (hc : Covers ch de)
    (hne : de.name ≠ []) : WriteChecked more de.name := by
  have htarget : ⟨scopedTarget ch, scopedKind ch, .write⟩ ∈ more ∧
      (isMove ch = true → ch.name ≠ ch.newName →
        ⟨'/' :: ch.name, scopedKind ch, .write⟩ ∈ more) := by
    unfold scopedEntry at h
    split_ifs at h with hcanon hmove hcanon'
    · cases h
      exact ⟨mem_cons_self, fun _ _ => mem_cons_of_mem _ mem_cons_self⟩
    · cases h
      refine ⟨mem_cons_self, fun hm hn => ?_⟩
      simp [hm, hn] at hmove
  obtain ⟨hwritten, hleft⟩ := htarget
  by_cases hmove : isMove ch = true
  · -- a move is checked at both ends
    have hnew : WriteChecked more ch.newName :=
      ⟨_, hwritten, by simp [scopedTarget, hmove], rfl⟩
    have hold : WriteChecked more ch.name := by
      by_cases hsame : ch.name = ch.newName
      · rwa [hsame]
      · exact ⟨_, hleft hmove hsame, rfl, rfl⟩
    rcases hc with rfl | ⟨-, hname | hname⟩
    · exact hold
    · exact hname ▸ hold
    · exact hname ▸ hnew
  · have hold : WriteChecked more ch.name :=
      ⟨_, hwritten, by simp [scopedTarget, hmove], rfl⟩
    rcases hc with rfl | ⟨hstatus, hname | hname⟩
    · exact hold
    · exact hname ▸ hold
    · -- without a new name it is no move
      exact absurd (by simpa [isMove, hstatus, hname] using hne) hmove

theorem Server.scopedChecks_spec (h : Server.scopedChecks acc changes = some checks) :
    (∀ ck ∈ acc, ck ∈ checks) ∧
    ∀ ch ∈ changes, ∃ more, Server.scopedEntry ch = some more ∧ ∀ ck ∈ more, ck ∈ checks := by
  induction changes generalizing acc with
  | nil =>
    cases h
    exact ⟨fun _ => id, nofun⟩
  | cons ch changes ih =>
    simp only [scopedChecks] at h
    split_ifs at h
    simp only [bind_eq_bind, bind_eq_some_iff] at h
    obtain ⟨more, hmore, h⟩ := h
    obtain ⟨hacc, hrest⟩ := ih h
    rw [forall_mem_append] at hacc
    refine ⟨hacc.1, forall_mem_cons.2 ⟨⟨more, hmore, hacc.2⟩, hrest⟩⟩

theorem Fileserver.aclChecks_spec (h : Fileserver.aclChecks changes = some checks) :
    ∀ ch ∈ changes, (ch.status = .added ∨ ch.status = .modified) ∧ WriteChecked checks ch.name := by
  induction changes generalizing checks with
  | nil => exact nofun
  | cons ch changes ih =>
    simp only [aclChecks] at h
    split_ifs at h with hstatus hcanon
    obtain ⟨rest, hrest, rfl⟩ := map_eq_some_iff.1 h
    refine forall_mem_cons.2 ⟨⟨?_, _, mem_cons_self, rfl, rfl⟩, fun ch' hch' => ?_⟩
    · by_contra hno
      simp only [not_or] at hno
      exact hstatus (by simp [hno])
    · obtain ⟨hs, ck, hck, hpath⟩ := ih hrest ch' hch'
      exact ⟨hs, ck, mem_cons_of_mem _ hck, hpath⟩

end

/-! ## What a preflight has sent -/

/-- The hub allows the request. -/
def Allowed (hub : Hub) (r : AclRequest) : Prop := ∃ reply, hub r = some reply ∧ reply.allows = true

variable {repoID user : Name}

theorem Fileserver.cfACLAuthorize_ok {hub : Hub} {u : Unit}
    (h : Fileserver.cfACLAuthorize hub repoID user checks = .ok u) :
    Allowed hub ⟨repoID, user, checks⟩ := by
  unfold cfACLAuthorize at h
  split_ifs at h with h1 h2
  cases hr : hub ⟨repoID, user, checks⟩ with
  | none => simp [hr] at h
  | some reply =>
    simp only [hr] at h
    split_ifs at h with hstatus hclass hcontract hallowed
    refine ⟨reply, hr, ?_⟩
    simp only [ne_eq, not_not, Bool.not_eq_true', Bool.not_eq_false] at hstatus hcontract hallowed
    simp [HubReply.allows, hstatus, hcontract, hallowed]

theorem Fileserver.aclDecide_ok {hub : Hub} {request : Option AclRequest}
    {proof : Except AclErr (AclProof H)} {p : AclProof H}
    (h : Fileserver.aclDecide hub request proof = .ok p) :
    proof = .ok p ∧ (p.isProtected = true → ∃ r, request = some r ∧ Allowed hub r) := by
  cases proof with
  | error e => cases h
  | ok p' =>
    simp only [aclDecide] at h
    split_ifs at h with hprot
    · cases h
      exact ⟨rfl, fun hp => by simp [hp] at hprot⟩
    · cases request with
      | none => cases h
      | some r =>
        cases hauth : cfACLAuthorize hub r.repoID r.username r.checks with
        | error e => simp [hauth, Except.map] at h
        | ok u =>
          simp only [hauth, Except.map, Except.ok.injEq] at h
          subst h
          exact ⟨rfl, fun _ => ⟨r, rfl, cfACLAuthorize_ok hauth⟩⟩

/-- Every path at which two trees differ has a write check. -/
def ChecksCover (st : FsStore Id) (root1 root2 : Id) (checks : List AclCheck) : Prop :=
  ∀ s path, Differs st s (entryAt st root1 path) (entryAt st root2 path) →
    WriteChecked checks (joinFields path)

/-- No file and no directory is missing in the second tree, and no empty directory is new. -/
def NothingMissing (st : FsStore Id) (root1 root2 : Id) : Prop :=
  ∀ path, (RegAt (entryAt st root1 path) → RegAt (entryAt st root2 path)) ∧
    (DirAt (entryAt st root1 path) → DirAt (entryAt st root2 path)) ∧
    ∀ b, entryAt st root2 path = some b → b.isDir = true → st.getSeafdir b.id = some [] →
      DirAt (entryAt st root1 path)

section Trees

variable {o : Objects Id} {fuel : ℕ} {old new : Id} {c c' : Commit Id}
  (hc : o.commits old = some c) (hc' : o.commits new = some c')
  (h1 : Tree (SortedNames ValidName) o.fs fuel c.rootId)
  (h2 : Tree (SortedNames ValidName) o.fs fuel c'.rootId)
include hc hc' h1 h2

variable {r : AclRequest}

theorem Server.preflightRequest_covers {virtualRepo : Option Bool} {repoId actor : Name}
    (h : Server.preflightRequest virtualRepo o fuel repoId old new actor = some r) :
    ChecksCover o.fs c.rootId c'.rootId r.checks := by
  unfold preflightRequest at h
  split_ifs at h
  simp only [hc, hc', bind_eq_bind, bind_some, bind_eq_some_iff,
    ite_none_left_eq_some, Option.some.injEq] at h
  obtain ⟨changes, hdiff, checks, hchecks, -, rfl⟩ := h
  intro s path hd
  obtain ⟨hne, hv⟩ := validName_of_differs h1 h2 hd
  obtain ⟨ch, hch, de, hcov, -, hname⟩ := (diffCommits_reported (h1.imp fun _ h => h.1)
    (h2.imp fun _ h => h.1) hv hd).1 changes hdiff
  obtain ⟨more, hmore, hmem⟩ := (scopedChecks_spec hchecks).2 ch hch
  obtain ⟨ck, hck, hpath⟩ := scopedEntry_covers hmore hcov
    (hname ▸ joinFields_ne_nil hne hv)
  exact ⟨ck, hmem ck hck, hname ▸ hpath⟩

theorem Fileserver.preflightRequest_covers {order : List (DiffEntry Id) → List (DiffEntry Id)}
    (horder : ∀ l, (order l).Perm l)
    (h : Fileserver.preflightRequest order o fuel repoID old new user = some r) :
    ChecksCover o.fs c.rootId c'.rootId r.checks ∧
    ∀ s path, Differs o.fs s (entryAt o.fs c.rootId path) (entryAt o.fs c'.rootId path) →
      s = .added ∨ s = .modified := by
  unfold preflightRequest at h
  split_ifs at h
  simp only [hc, hc', bind_eq_bind, bind_some, bind_eq_some_iff,
    ite_none_left_eq_some, Option.some.injEq] at h
  obtain ⟨changes, hdiff, checks, hchecks, -, rfl⟩ := h
  have hfile : ∀ s path,
      Differs o.fs s (entryAt o.fs c.rootId path) (entryAt o.fs c'.rootId path) →
      (s = .added ∨ s = .modified) ∧ WriteChecked checks (joinFields path) := by
    intro s path hd
    obtain ⟨-, hv⟩ := validName_of_differs h1 h2 hd
    obtain ⟨ch, hch, de, hcov, hstatus, hname⟩ := (diffCommits_reported (h1.imp fun _ h => h.1)
      (h2.imp fun _ h => h.1) hv hd).2 order changes horder hdiff
    unfold cfACLChanges at hchecks
    split_ifs at hchecks
    obtain ⟨hs, hck⟩ := aclChecks_spec hchecks ch hch
    -- no renamed entry has passed
    rcases hcov with rfl | ⟨hr | hr, -⟩
    · exact ⟨hstatus ▸ hs, hname ▸ hck⟩
    · simp [hr] at hs
    · simp [hr] at hs
  exact ⟨fun s path hd => (hfile s path hd).2, fun s path hd => (hfile s path hd).1⟩

end Trees

omit [CommitId Id] in
theorem nothingMissing_of_differs {st : FsStore Id} {root1 root2 : Id}
    (h : ∀ s path, Differs st s (entryAt st root1 path) (entryAt st root2 path) →
      s = .added ∨ s = .modified) : NothingMissing st root1 root2 := by
  intro path
  refine ⟨fun hreg => ?_, fun hdir => ?_, fun b hb hdir hempty => ?_⟩
  · by_contra hno
    simpa using h _ path (.deleted hreg hno)
  · by_contra hno
    simpa using h _ path (.dirDeleted hdir hno)
  · by_contra hno
    have hd : Differs st .dirAdded (entryAt st root1 path) (entryAt st root2 path) := by
      rw [hb]
      exact .dirAdded hdir hempty hno
    simpa using h _ path hd

def fModified : List (Dirent ℕ) := [.new 0o100644 7 ['f'] 1 ['u'] 1]

theorem nonempty_fDir : (FsObj.dir fDir).Nonempty := cons_ne_nil _ _

theorem nonempty_fModified : (FsObj.dir fModified).Nonempty := cons_ne_nil _ _

def fTrees : FsStore ℕ :=
  (FsStore.empty.insert (.dir fDir) nonempty_fDir).insert (.dir fModified) nonempty_fModified

def fCommits : Objects ℕ :=
  (Objects.ofRoot fTrees (seafDirId fDir)).saveCommit 0 (seafDirId fModified) [] [] 1

def fOld : Commit ℕ := Fileserver.newCommit 0 (seafDirId fDir) [] [] 0
def fNew : Commit ℕ := Fileserver.newCommit 0 (seafDirId fModified) [] [] 1

def openHub : Hub := fun _ => some ⟨200, true, "cf-acl-v1"⟩

end CloudFile
