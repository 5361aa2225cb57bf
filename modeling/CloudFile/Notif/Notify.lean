/-
  Notifications of changed folder permissions (`notification-server/client.go`,
  `notification-server/event.go`). A client has one field for its user, which every subscription
  sets anew, and a user list that is `nil` stands for everyone. An event reaches only those it is
  for if clients keep to one user and the query for a group does not fail.
-/
import CloudFile.Gc.TraverseCommits
import Mathlib.Data.Finset.Basic
import Mathlib.Data.List.ReduceOption

namespace CloudFile

/-- `myClaims` -/
structure NotifClaims where
  exp : ℤ
  repoID : RepoId
  userName : Name

/-- The clients and the subscriptions.  The user in the token a client last subscribed with is
    noted for the proofs only. -/
structure NotifState where
  user : ℕ → Name
  repos : ℕ → RepoId → Option ℤ
  subscribers : RepoId → Finset ℕ
  accepted : ℕ → RepoId → Option Name

/-- The token is `none` if it does not parse. -/
def checkToken (now : ℤ) (token : Option NotifClaims) (repoID : RepoId) : Option (Name × ℤ) := do
  let claims ← token
  if claims.repoID ≠ repoID ∨ claims.exp ≤ now then none else return (claims.userName, claims.exp)

namespace NotifState

variable (s : NotifState) (c : ℕ) (repoID : RepoId)

/-- No subscription. -/
def init : NotifState := ⟨fun _ => [], fun _ _ => none, fun _ => ∅, fun _ _ => none⟩

/-- A client subscribes. -/
def subscribe (user : Name) (exp : ℤ) : NotifState where
  user := Function.update s.user c user
  repos c' r := if c' = c ∧ r = repoID then some exp else s.repos c' r
  subscribers := Function.update s.subscribers repoID (insert c (s.subscribers repoID))
  accepted c' r := if c' = c ∧ r = repoID then some user else s.accepted c' r

/-- A client leaves. -/
def unsubscribe : NotifState :=
  { s with
    repos := fun c' r => if c' = c ∧ r = repoID then none else s.repos c' r
    subscribers := Function.update s.subscribers repoID ((s.subscribers repoID).erase c) }

end NotifState

/-- A round of the loops of `handleMessage`. -/
inductive NotifRound
  | subscribe (c : ℕ) (repoID : RepoId) (token : Option NotifClaims) (now : ℤ)
  | unsubscribe (c : ℕ) (repoID : RepoId)

/-- One message of a client. -/
def NotifState.handle (s : NotifState) : NotifRound → NotifState
  | .subscribe c repoID token now =>
    (checkToken now token repoID).elim s fun (user, exp) => s.subscribe c repoID user exp
  | .unsubscribe c repoID => s.unsubscribe c repoID

/-- A client subscribes as the user it is, or to its only repository. -/
def SameUser (s : NotifState) : NotifRound → Prop
  | .subscribe c repoID token now => ∀ user exp, checkToken now token repoID = some (user, exp) →
      s.user c = user ∨ ∀ r ≠ repoID, s.repos c r = none
  | .unsubscribe _ _ => True

/-- The permission of a folder has changed. -/
structure FolderPermEvent where
  repoID : RepoId
  user : Name
  group : ℤ

/-- How the query for the members of a group goes; a row that cannot be scanned is `none`. -/
structure GroupQuery where
  prepared : Bool
  queried : Bool
  rows : List (Option Name)
  ended : Bool

/-- No step of the query fails. -/
def GroupQuery.Answered (q : GroupQuery) : Prop :=
  q.prepared = true ∧ q.queried = true ∧ q.ended = true

/-- The members of a group, `none` for the `nil` map after an error. -/
def getGroupMembers (q : GroupQuery) : Option (List Name) :=
  if q.prepared && q.queried && q.ended then some q.rows.reduceOption else none

/-- The users to notify, `none` for everyone. -/
def FolderPermEvent.userList (ev : FolderPermEvent) (db : ℤ → GroupQuery) : Option (List Name) :=
  if ev.user ≠ [] then some [ev.user]
  else if ev.group ≠ -1 then getGroupMembers (db ev.group) else none

/-- `nil` stands for everyone. -/
def needToNotif (userList : Option (List Name)) (user : Name) : Bool :=
  userList.all fun users => users.contains user

/-- The clients to which the event is sent. -/
def notify (s : NotifState) (ev : FolderPermEvent) (db : ℤ → GroupQuery) : Finset ℕ :=
  (s.subscribers ev.repoID).filter fun c => needToNotif (ev.userList db) (s.user c)

/-- The event is for the user, or for a group of theirs. -/
def FolderPermEvent.IsFor (ev : FolderPermEvent) (groups : ℤ → List Name) (user : Name) : Prop :=
  if ev.user ≠ [] then user = ev.user else user ∈ groups ev.group

/-- A subscriber has the repository in its map, and its user is the one of the token. -/
structure NotifState.Agree (s : NotifState) : Prop where
  listed : ∀ c r, c ∈ s.subscribers r → (s.repos c r).isSome
  token : ∀ c r, (s.repos c r).isSome → s.accepted c r = some (s.user c)

theorem NotifState.Agree.handle {s : NotifState} (h : s.Agree) (e : NotifRound)
    (hok : SameUser s e) : (s.handle e).Agree := by
  obtain ⟨hlisted, htoken⟩ := h
  cases e with
  | subscribe c repoID token now =>
    simp only [SameUser] at hok
    simp only [NotifState.handle]
    cases hcheck : checkToken now token repoID with
    | none => exact ⟨hlisted, htoken⟩
    | some p =>
      have hsame := hok p.1 p.2 hcheck
      constructor <;> simp only [Option.elim, subscribe, Function.update] <;> grind
  | unsubscribe c repoID =>
    constructor <;> simp only [NotifState.handle, unsubscribe, Function.update] <;> grind

/-- **An event reaches only those it is for**, if clients subscribe as one user each and the
    query for a group does not fail. -/
theorem notify_addressed {rounds : List NotifRound} {s : NotifState}
    (h : Machine.Run (fun s e s' => s.handle e = s') SameUser .init rounds s)
    (ev : FolderPermEvent) (haddressed : ev.user ≠ [] ∨ ev.group ≠ -1) (groups : ℤ → List Name)
    (db : ℤ → GroupQuery) (hquery : ev.user = [] → (db ev.group).Answered ∧
      ∀ u, some u ∈ (db ev.group).rows → u ∈ groups ev.group) :
    ∀ c ∈ notify s ev db, ∃ u, s.accepted c ev.repoID = some u ∧ ev.IsFor groups u := by
  have hagree : s.Agree := h.induct ⟨by simp [NotifState.init], by simp [NotifState.init]⟩
    fun s e s' hs hok hstep => hstep ▸ hs.handle e hok
  intro c hc
  obtain ⟨hsub, hneed⟩ := Finset.mem_filter.1 hc
  refine ⟨s.user c, hagree.token c _ (hagree.listed c _ hsub), ?_⟩
  unfold FolderPermEvent.userList needToNotif at hneed
  unfold FolderPermEvent.IsFor
  split_ifs with huser
  · simpa [huser] using hneed
  · obtain ⟨⟨hprep, hasked, hend⟩, hrows⟩ := hquery (not_not.1 huser)
    have hgroup := haddressed.resolve_left huser
    refine hrows _ (List.reduceOption_mem_iff.1 ?_)
    simpa [huser, hgroup, getGroupMembers, hprep, hasked, hend] using hneed

/-- Client 1 subscribes as `a`, and client 2 as `b`. -/
def twoUsers : NotifState :=
  (NotifState.init.handle (.subscribe 1 ['r'] (some ⟨9, ['r'], ['a']⟩) 0)).handle
    (.subscribe 2 ['r'] (some ⟨9, ['r'], ['b']⟩) 0)

/-- A group that has the member `a`. -/
def groupOfA : GroupQuery := ⟨true, true, [none, some ['a']], true⟩

theorem notify_twoUsers :
    notify twoUsers ⟨['r'], [], 5⟩ (fun _ => groupOfA) = {1} ∧
    ∃ u, twoUsers.accepted 1 ['r'] = some u ∧
      FolderPermEvent.IsFor ⟨['r'], [], 5⟩ (fun _ => [['a']]) u := by
  have hrun : Machine.Run (fun s e s' => s.handle e = s') SameUser .init _ twoUsers :=
    .snoc (.snoc .nil (by simp [SameUser, NotifState.init]) rfl)
      (by simp [SameUser, NotifState.init, NotifState.handle, checkToken, NotifState.subscribe]) rfl
  refine ⟨by decide, notify_addressed hrun ⟨['r'], [], 5⟩ (by decide) (fun _ => [['a']])
    (fun _ => groupOfA) (fun _ => ⟨⟨rfl, rfl, rfl⟩, fun u hu => ?_⟩) 1 (by decide)⟩
  simpa [groupOfA] using hu

/-- A client with tokens of two users gets what is for the second one in the first repository, and
    what is for a group that cannot be asked for. -/
theorem notify_wrong_user :
    (1 ∈ notify (twoUsers.handle (.subscribe 1 ['q'] (some ⟨9, ['q'], ['b']⟩) 0))
        ⟨['r'], ['b'], -1⟩ (fun _ => groupOfA) ∧
      (twoUsers.handle (.subscribe 1 ['q'] (some ⟨9, ['q'], ['b']⟩) 0)).accepted 1 ['r'] =
        some ['a']) ∧
    2 ∈ notify twoUsers ⟨['r'], [], 5⟩ (fun _ => ⟨true, false, [], true⟩) := by
  decide

end CloudFile
