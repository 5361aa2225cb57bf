/-
  The requests of the edit agent on one library (`fileserver/cf_v2_edit_agent.go`). Each is one
  transaction on the rows `Branch` and `cf_edit_guard` (`EditDb`); objects and commits are stored
  outside of it (`Objects`). What the database, the storage and the clocks answer is part of the
  request.
-/
import CloudFile.Write.Rewrite
import CloudFile.Gc.Machine
import Mathlib.Data.List.AList

namespace CloudFile

open GoPath

variable {Id D α : Type}

/-! ## Answers -/

/-- The refusals; a checkout that finds the file checked out says by whom, and until when. -/
inductive EditErr where
  | method
  | invalidCheckout
  | badProof
  | sqlUnavailable
  | versionChanged
  | checkedOut (holder : Option (Name × ℤ))
  | generationExhausted
  | ioError
  | staleGuard
  | permissionChanged
  | gcUnavailable
  | gcChanged
  | nativeFs
  | nativeCommit
  | branchFailed
deriving DecidableEq

/-- The HTTP status. -/
def EditErr.status : EditErr → ℕ
  | .method => 405
  | .invalidCheckout | .badProof => 400
  | .permissionChanged => 403
  | .versionChanged | .checkedOut _ | .staleGuard | .gcChanged => 409
  | _ => 503

/-- The code in the body. -/
def EditErr.code : EditErr → String
  | .method => "METHOD"
  | .invalidCheckout => "INVALID_CHECKOUT"
  | .badProof => "BAD_PROOF"
  | .sqlUnavailable => "SQL_UNAVAILABLE"
  | .versionChanged => "VERSION_CHANGED"
  | .checkedOut _ => "CHECKED_OUT"
  | .generationExhausted => "GENERATION_EXHAUSTED"
  | .ioError => "IO_ERROR"
  | .staleGuard => "STALE_GUARD"
  | .permissionChanged => "PERMISSION_CHANGED"
  | .gcUnavailable => "GC_UNAVAILABLE"
  | .gcChanged => "GC_CHANGED"
  | .nativeFs => "NATIVE_FS"
  | .nativeCommit => "NATIVE_COMMIT"
  | .branchFailed => "BRANCH_FAILED"

theorem EditErr.status_ne_ok (e : EditErr) : e.status ≠ 200 := by
  cases e <;> simp [status]

section Handlers

variable {ε β : Type} {e : ε}

/-- A check that a handler answers with `e` where it fails. -/
def require (ok : Bool) (e : ε) : Except ε Unit := if ok then .ok () else .error e

/-- A value that a handler cannot go on without. -/
def orFail (v : Option α) (e : ε) : Except ε α := v.elim (.error e) .ok

@[simp] theorem require_ok {ok : Bool} {u : Unit} : require ok e = .ok u ↔ ok = true := by
  cases ok <;> simp [require]

@[simp] theorem orFail_ok {v : Option α} {a : α} : orFail v e = .ok a ↔ v = some a := by
  cases v <;> simp [orFail]

@[simp] theorem bind_ok {x : Except ε α} {f : α → Except ε β} {b : β} :
    (x >>= f) = .ok b ↔ ∃ a, x = .ok a ∧ f a = .ok b := by
  cases x with
  | error e => exact ⟨nofun, nofun⟩
  | ok a => exact ⟨fun h => ⟨a, rfl, h⟩, by rintro ⟨_, ⟨rfl⟩, h⟩; exact h⟩

theorem orFail_some_bind (a : α) (e : ε) (f : α → Except ε β) : (orFail (some a) e >>= f) = f a :=
  rfl

end Handlers

/-! ## Commits -/

/-- Commit ids: an ideal hash of the root, the texts of the commit one after the other, and
    its time.  The parents are not hashed. -/
class CommitId (Id : Type) where
  computeCommitID : Id → Name → UInt64 → Id
  computeCommitID_injective : ∀ {root text ctime root' text' ctime'},
    computeCommitID root text ctime = computeCommitID root' text' ctime' →
      root = root' ∧ text = text' ∧ ctime = ctime'

export CommitId (computeCommitID computeCommitID_injective)

section NatCommitId

/-- A text as a number, without a clash. -/
def textCode (text : Name) : ℕ := text.foldr (fun c n => c.toNat + 1 + 4194304 * n) 0

theorem charToNat_lt (c : Char) : c.toNat < 1114112 := by
  have hvalid : c.toNat < 55296 ∨ 57343 < c.toNat ∧ c.toNat < 1114112 := c.valid
  omega

theorem textCode_injective : Function.Injective textCode := by
  intro s
  induction s with
  | nil =>
    intro t h
    cases t with
    | nil => rfl
    | cons c t =>
      simp only [textCode, List.foldr_nil, List.foldr_cons] at h
      omega
  | cons c s ih =>
    intro t h
    cases t with
    | nil =>
      simp only [textCode, List.foldr_nil, List.foldr_cons] at h
      omega
    | cons c' t =>
      have hc := charToNat_lt c
      have hc' := charToNat_lt c'
      have hcode : c.toNat + 1 + 4194304 * textCode s = c'.toNat + 1 + 4194304 * textCode t := h
      have hchar : c.toNat = c'.toNat := by omega
      rw [charToNat_injective hchar, ih (show textCode s = textCode t by omega)]

instance : CommitId ℕ where
  computeCommitID root text ctime := Nat.pair (Nat.pair root (textCode text)) ctime.toNat
  computeCommitID_injective h := by
    rw [Nat.pair_eq_pair, Nat.pair_eq_pair] at h
    exact ⟨h.1.1, textCode_injective h.1.2, UInt64.toNat_inj.1 h.2⟩

end NatCommitId

variable [ObjectId Id] [CommitId Id]

/-- The stored objects of a library: commits lie under their hashes. -/
structure Objects (Id : Type) [ObjectId Id] [CommitId Id] where
  fs : FsStore Id
  commits : Id → Option (Commit Id)
  saved : ∀ id c, commits id = some c →
    c.commitId = id ∧ ∃ text, computeCommitID c.rootId text c.ctime = id

/-- The creator of every commit of an edit. -/
def creatorID : Name := List.replicate 40 '0'

/-- `NewCommit`; the id does not depend on the parent. -/
def Fileserver.newCommit (parentID newRoot : Id) (user desc : Name) (ctime : UInt64) : Commit Id :=
  ⟨computeCommitID newRoot (creatorID ++ user ++ desc) ctime, newRoot, ctime, some parentID, none⟩

/-- `commitmgr.Save`: a commit of that id is not written again. -/
def Objects.saveCommit [DecidableEq Id] (o : Objects Id) (parentID newRoot : Id) (user desc : Name)
    (ctime : UInt64) : Objects Id where
  fs := o.fs
  commits id :=
    if (o.commits id).isNone &&
        id = (Fileserver.newCommit parentID newRoot user desc ctime).commitId then
      some (Fileserver.newCommit parentID newRoot user desc ctime)
    else o.commits id
  saved id c h := by
    split_ifs at h with hid
    · cases h
      simp only [Bool.and_eq_true, decide_eq_true_eq] at hid
      exact ⟨hid.2.symm, _, hid.2.symm⟩
    · exact o.saved id c h

/-! ## The rows -/

/-- A checkout, as a row of `cf_edit_guard` holds it. -/
structure Guard (Id D : Type) where
  id : Name
  owner : Name
  proofDigest : D
  baseID : Id
  expires : ℤ
deriving DecidableEq

/-- A row of `cf_edit_guard`: either all columns of the checkout are set or all are NULL. -/
structure GuardRow (Id D : Type) where
  generation : UInt64
  guard : Option (Guard Id D)
deriving DecidableEq

/-- The rows of the library: the head in `Branch`, and the guards by path. -/
structure EditDb (Id D : Type) where
  head : Option Id
  guards : AList fun _ : Name => GuardRow Id D

/-- The objects and the tables of a library. -/
structure EditState (Id D : Type) [ObjectId Id] [CommitId Id] where
  objects : Objects Id
  db : EditDb Id D

/-- A row of the guards is written. -/
def EditDb.setGuard (db : EditDb Id D) (path : Name) (row : GuardRow Id D) : EditDb Id D :=
  { db with guards := db.guards.insert path row }

/-! ## Requests -/

/-- What a ticket allows. -/
inductive EditMode where
  | localView
  | optimisticEdit
  | exclusiveEdit
deriving DecidableEq

/-- `cfACLCanonical`; the names of the model are valid UTF-8. -/
def cfACLCanonical (value : Name) : Bool :=
  (String.ofList value).utf8ByteSize ≤ 4096 && value.head? = some '/' && clean value = value &&
    '\\' ∉ value && value.all fun r => 32 ≤ r.toNat && r.toNat ≠ 127

/-- A ticket, with what `cfEditClaimsFor` checks of its path. -/
structure EditClaims (Id : Type) where
  subject : Name
  filePath : Name
  baseID : Id
  mode : EditMode
  canonical : cfACLCanonical filePath = true
  notRoot : filePath ≠ ['/']

/-- `cfEditProof`: what a request shows of a checkout. -/
structure EditProof where
  guardID : Name
  generation : UInt64
  proof : Name
deriving DecidableEq

/-- The readings of `time.Now` and of `UTC_TIMESTAMP(6)`, in nanoseconds. -/
structure Clock where
  now : ℤ
  utc : ℤ

/-- Ten minutes, in nanoseconds. -/
def leaseTime : ℤ := 600000000000

/-- The body of a checkout. -/
structure CheckoutBody (Id : Type) where
  baseID : Id
  terminalType : Name
  terminalName : Name

/-- A checkout: the statements that succeed, the random key and the new guard id. -/
structure CheckoutRequest (Id : Type) where
  isPost : Bool
  body : Option (CheckoutBody Id)
  clock : Clock
  beginTx : Bool
  readHead : Bool
  insertRow : Bool
  readRow : Bool
  randRead : Option (List UInt8)
  guardID : Name
  updateRow : Bool
  audit : Bool
  commit : Bool

/-- What the holder of a guard may ask for. -/
inductive GuardAction where
  | renew
  | release
deriving DecidableEq

/-- A request about a guard, and how its steps turn out. -/
structure GuardRequest where
  isPost : Bool
  body : Option EditProof
  clock : Clock
  beginTx : Bool
  readHead : Bool
  readRow : Bool
  updateRow : Bool
  audit : Bool
  commit : Bool

/-- How a file is saved. -/
inductive PublishAction where
  | optimistic
  | commit
  | checkin
deriving DecidableEq

/-- A publication, as `cfEditCommit` gets it; `guarded` is
    `CheckoutEnabledForRepo && V2GuardAvailable`. -/
structure PublishRequest (Id : Type) where
  action : PublishAction
  base : Id
  proof : EditProof
  fileID : Id
  size : ℤ
  gcID : Option GcId
  guarded : Bool
  clock : Clock
  preflight : Bool
  beginTx : Bool
  /-- the row of `GCID`, if it can be read -/
  readGc : Option (Option GcId)
  readHead : Bool
  readRow : Bool
  aclFinal : Bool
  /-- the time of the new entry, and of the directories with so many names to go -/
  mtime : ℤ
  dirTime : ℕ → ℤ
  ctime : UInt64
  writeObj : Id → Bool
  saveCommit : Bool
  updateRow : Bool
  updateBranch : Bool
  audit : Bool
  commit : Bool

/-- The answer to a checkout. -/
structure Issued (Id : Type) where
  proof : EditProof
  baseID : Id
deriving DecidableEq

/-- The answer to a request that succeeds. -/
inductive EditOk (Id : Type) where
  | checkout (issued : Issued Id)
  | guard (action : GuardAction)
  | published (fileID resultCommitID : Id) (checkedIn : Bool)
deriving DecidableEq

/-! ## The handlers -/

/-- A text of so many hex digits. -/
def cfEditHex (s : Name) (size : ℕ) : Bool :=
  s.length = size && s.all fun b => ('0' ≤ b && b ≤ '9') || ('a' ≤ b && b ≤ 'f')

/-- A hex digit. -/
def hexDigit (n : ℕ) : Char := if n < 10 then Char.ofNat (48 + n) else Char.ofNat (87 + n)

/-- `hex.EncodeToString` -/
def hexEncode (key : List UInt8) : Name :=
  key.flatMap fun b => [hexDigit (b.toNat / 16), hexDigit (b.toNat % 16)]

/-- The terminals a checkout may name. -/
def terminalTypes : List Name :=
  ["windows".toList, "macos".toList, "linux".toList, "other".toList]

namespace Fileserver

variable [DecidableEq Id] [DecidableEq D] (sha256 : Name → D)

/-- `cfEditActual`: the regular file at a path, and the head commit. -/
def cfEditActual (o : Objects Id) (head : Id) (path : Name) : Option (Id × Commit Id) :=
  o.commits head >>= fun c => found (getObjIDByPath o.fs c.rootId path) >>= fun r =>
    if sIsReg r.2 then some (r.1, c) else none

/-- `cfEditVerified`; a stored digest is always one of 32 bytes. -/
def cfEditVerified (c : EditClaims Id) (row : GuardRow Id D) (p : EditProof)
    (expiredAllowed : Bool) (now : ℤ) : Bool :=
  match row.guard with
  | none => false
  | some g => g.id ≠ [] && g.id = p.guardID && g.owner = c.subject &&
      row.generation =
        p.generation && cfEditHex p.proof 64 && (expiredAllowed || now < g.expires) &&
      sha256 p.proof = g.proofDigest

/-- `cfEditResumable`; `current` is empty if the file was not looked up. -/
def cfEditResumable (g : Guard Id D) (current : Option Id) (now : ℤ) : Bool :=
  now < g.expires || current = some g.baseID

/-- The transaction of `cfEditCheckout`. -/
def cfEditCheckoutTx (o : Objects Id) (c : EditClaims Id) (q : CheckoutRequest Id)
    (db : EditDb Id D) : Except EditErr (Issued Id × EditDb Id D) :=
  orFail (if q.readHead then db.head else none) .sqlUnavailable >>= fun head =>
  orFail (cfEditActual o head c.filePath) .versionChanged >>= fun actual =>
  require (actual.1 = c.baseID) .versionChanged >>= fun _ =>
  require q.insertRow .sqlUnavailable >>= fun _ =>
  -- `ON DUPLICATE KEY UPDATE`: a row that exists stays as it is
  let row := (db.guards.lookup c.filePath).getD ⟨0, none⟩
  require q.readRow .sqlUnavailable >>= fun _ =>
  (match row.guard with
    | some g => require (g.id = [] || g.expires ≤ q.clock.now)
        (.checkedOut (some (g.owner, g.expires)))
    | none => .ok ()) >>= fun _ =>
  require (row.generation ≠ 0xFFFFFFFFFFFFFFFF) .generationExhausted >>= fun _ =>
  orFail q.randRead .ioError >>= fun key =>
  require q.updateRow .sqlUnavailable >>= fun _ =>
  require q.audit .sqlUnavailable >>= fun _ =>
  .ok (⟨⟨q.guardID, row.generation + 1, hexEncode key⟩, actual.1⟩,
    db.setGuard c.filePath ⟨row.generation + 1, some ⟨q.guardID, c.subject,
      sha256 (hexEncode key), actual.1, q.clock.utc + leaseTime⟩⟩)

/-- What `cfEditCheckout` asks of the body. -/
def checkoutBodyOk (c : EditClaims Id) (b : CheckoutBody Id) : Bool :=
  b.baseID = c.baseID && (String.ofList b.terminalName).utf8ByteSize ≤ 128 &&
    terminalTypes.contains b.terminalType

/-- A checkout takes the guard of the file. -/
def cfEditCheckout (o : Objects Id) (c : EditClaims Id) (q : CheckoutRequest Id)
    (db : EditDb Id D) : Except EditErr (Issued Id × EditDb Id D) :=
  require (q.isPost && c.mode = .exclusiveEdit) .method >>= fun _ =>
  require (q.body.any (checkoutBodyOk c)) .invalidCheckout >>= fun _ =>
  require q.beginTx .sqlUnavailable >>= fun _ =>
  cfEditCheckoutTx sha256 o c q db >>= fun r =>
  require q.commit .sqlUnavailable >>= fun _ => .ok r

/-- A lease that ran out is renewed for the same file only. -/
def renewCurrent (o : Objects Id) (c : EditClaims Id) (now : ℤ) (head : Id) (g : Guard Id D) :
    Except EditErr (Option Id) :=
  if now < g.expires then .ok none
  else orFail ((cfEditActual o head c.filePath).map fun r => some r.1) .staleGuard

/-- What an action makes of a guard. -/
def guardAfter (g : Guard Id D) (utc : ℤ) : GuardAction → Option (Guard Id D)
  | .renew => some { g with expires := utc + leaseTime }
  | .release => none

/-- The holder renews or releases the guard. -/
def cfEditGuardAction (o : Objects Id) (c : EditClaims Id) (q : GuardRequest)
    (action : GuardAction) (db : EditDb Id D) : Except EditErr (EditDb Id D) :=
  require (q.isPost && c.mode = .exclusiveEdit) .method >>= fun _ =>
  orFail q.body .badProof >>= fun p =>
  require q.beginTx .sqlUnavailable >>= fun _ =>
  orFail (if q.readHead then db.head else none) .sqlUnavailable >>= fun head =>
  orFail (if q.readRow then db.guards.lookup c.filePath else none) .staleGuard >>= fun row =>
  require (cfEditVerified sha256 c row p true q.clock.now) .staleGuard >>= fun _ =>
  orFail row.guard .staleGuard >>= fun g =>
  (match action with
    | .renew => renewCurrent o c q.clock.now head g >>= fun current =>
        require (cfEditResumable g current q.clock.now) .staleGuard
    | .release => .ok ()) >>= fun _ =>
  require q.updateRow .sqlUnavailable >>= fun _ =>
  require (action = .renew || q.audit) .sqlUnavailable >>= fun _ =>
  require q.commit .sqlUnavailable >>= fun _ =>
  .ok (db.setGuard c.filePath ⟨row.generation, guardAfter g q.clock.utc action⟩)

/-- Somebody has the path checked out, by the clock of the database. -/
def heldAt (db : EditDb Id D) (path : Name) (utc : ℤ) : Bool :=
  (db.guards.lookup path).any fun row => row.guard.any fun g => utc < g.expires

/-- What `cfEditCommit` asks of the guard row. -/
def commitGuard (c : EditClaims Id) (q : PublishRequest Id) (db : EditDb Id D) :
    Except EditErr Unit :=
  match q.action with
  | .optimistic => require (!q.guarded || q.readRow && !heldAt db c.filePath q.clock.utc)
      (.checkedOut none)
  | .commit | .checkin =>
    orFail (if q.readRow then db.guards.lookup c.filePath else none) .staleGuard >>= fun row =>
    require (row.guard.map Guard.baseID = some q.base &&
      cfEditVerified sha256 c row q.proof false q.clock.now) .staleGuard

/-- The new entry of the file. -/
def editDent (c : EditClaims Id) (q : PublishRequest Id) : Dirent Id :=
  Dirent.new (sIfreg ||| 0o644) q.fileID (base c.filePath) q.mtime c.subject q.size

/-- The description of the commit. -/
def editDesc (c : EditClaims Id) : Name := "Modified ".toList ++ base c.filePath

/-- The commit of an edited file and the objects with it; a file that is not edited needs
    none. -/
def commitFile (o : Objects Id) (c : EditClaims Id) (q : PublishRequest Id) (head rootID : Id) :
    Except EditErr (Id × Objects Id) :=
  if q.fileID = q.base then .ok (head, o)
  else
    orFail (doPutFile q.writeObj q.dirTime o.fs rootID (dir c.filePath) (editDent c q))
      .nativeFs >>= fun w =>
    let cm := newCommit head w.dirID c.subject (editDesc c) q.ctime
    require ((o.commits cm.commitId).isSome || q.saveCommit) .nativeCommit >>= fun _ =>
    .ok (cm.commitId,
      ({ o with fs := w.store }).saveCommit head w.dirID c.subject (editDesc c) q.ctime)

/-- The guard row after a publication; the statements ask for the guard id again. -/
def publishedGuard (c : EditClaims Id) (q : PublishRequest Id) (db : EditDb Id D) : EditDb Id D :=
  match db.guards.lookup c.filePath with
  | none => db
  | some row => match q.action, row.guard with
    | .commit, some g => if g.id = q.proof.guardID then
        db.setGuard c.filePath ⟨row.generation, some { g with baseID := q.fileID }⟩ else db
    | .checkin, some g => if g.id = q.proof.guardID then
        db.setGuard c.filePath ⟨row.generation, none⟩ else db
    | _, _ => db

/-- A save lands as a commit on the head. -/
def cfEditCommit (o : Objects Id) (c : EditClaims Id) (q : PublishRequest Id)
    (db : EditDb Id D) : Except EditErr (EditOk Id × Objects Id × EditDb Id D) :=
  require q.preflight .permissionChanged >>= fun _ =>
  require q.beginTx .sqlUnavailable >>= fun _ =>
  orFail q.readGc .gcUnavailable >>= fun current =>
  require (current = q.gcID) .gcChanged >>= fun _ =>
  orFail (if q.readHead then db.head else none) .sqlUnavailable >>= fun head =>
  orFail (cfEditActual o head c.filePath) .versionChanged >>= fun actual =>
  require (actual.1 = q.base) .versionChanged >>= fun _ =>
  commitGuard sha256 c q db >>= fun _ =>
  require q.aclFinal .permissionChanged >>= fun _ =>
  commitFile o c q head actual.2.rootId >>= fun r =>
  require (q.action = .optimistic || q.updateRow) .sqlUnavailable >>= fun _ =>
  require (head = r.1 || q.updateBranch) .branchFailed >>= fun _ =>
  require (q.action ≠ .checkin || q.audit) .sqlUnavailable >>= fun _ =>
  require q.commit .sqlUnavailable >>= fun _ =>
  .ok (.published q.fileID r.1 (q.action = .checkin), r.2,
    { publishedGuard c q db with head := some r.1 })

end Fileserver

/-! ## Runs -/

/-- The requests on a library, and the publications that do not go through the edit agent. -/
inductive EditEvent (Id : Type) [ObjectId Id] [CommitId Id] where
  | checkout (c : EditClaims Id) (q : CheckoutRequest Id)
  | guard (action : GuardAction) (c : EditClaims Id) (q : GuardRequest)
  | publish (c : EditClaims Id) (q : PublishRequest Id)
  | other (objects : Objects Id) (head : Option Id)

variable [DecidableEq Id] [DecidableEq D]

/-- The answer to a request; `none` for what is no request. -/
abbrev EditAnswer (Id : Type) := Option (Except EditErr (EditOk Id))

/-- The status of an answer. -/
def answerStatus : EditAnswer Id → ℕ
  | none => 0
  | some (.ok _) => 200
  | some (.error e) => e.status

/-- The answer, and the state after it: `defer tx.Rollback()` leaves the rows of a failed request
    as they were. -/
def settle (s : EditState Id D) (r : Except EditErr (EditOk Id × EditState Id D)) :
    EditAnswer Id × EditState Id D :=
  match r with
  | .error e => (some (.error e), s)
  | .ok r => (some (.ok r.1), r.2)

/-- One event. -/
def EditState.exec (sha256 : Name → D) (s : EditState Id D) :
    EditEvent Id → EditAnswer Id × EditState Id D
  | .checkout c q => settle s
      ((Fileserver.cfEditCheckout sha256 s.objects c q s.db).map fun r =>
        (.checkout r.1, ⟨s.objects, r.2⟩))
  | .guard action c q => settle s
      ((Fileserver.cfEditGuardAction sha256 s.objects c q action s.db).map fun db =>
        (.guard action, ⟨s.objects, db⟩))
  | .publish c q => settle s
      ((Fileserver.cfEditCommit sha256 s.objects c q s.db).map fun r => (r.1, ⟨r.2.1, r.2.2⟩))
  | .other objects head => (none, ⟨objects, { s.db with head := head }⟩)

/-- A sequence of events. -/
def EditState.run (sha256 : Name → D) (s : EditState Id D) (es : List (EditEvent Id)) :
    EditState Id D :=
  es.foldl (fun s e => (s.exec sha256 e).2) s

end CloudFile
