/-
  Edit guards are fenced. The row of a path in `cf_edit_guard` is a register with fencing tokens
  (`Lib/Fencing.lean`): each request acquires it, drops it or leaves it alone (`register_exec`),
  and a proof is accepted only while the register is held under it (`holds_of_accepted`).
-/
import CloudFile.Edit.Agent
import CloudFile.Lib.Fencing

namespace CloudFile

open Fencing List Option

variable {Id D : Type} [ObjectId Id] [CommitId Id] [DecidableEq Id] [DecidableEq D]
  {sha256 : Name → D} {o : Objects Id} {db db' : EditDb Id D} {c : EditClaims Id} {path : Name}

/-! ## What the handlers do -/

/-- The row of a path; a checkout inserts it where there is none. -/
def EditDb.row (db : EditDb Id D) (path : Name) : GuardRow Id D :=
  (db.guards.lookup path).getD ⟨0, none⟩

variable (r : GuardRow Id D)

omit [ObjectId Id] [CommitId Id] [DecidableEq Id] [DecidableEq D] in
theorem row_setGuard (path path' : Name) :
    (db.setGuard path r).row path' = if path' = path then r else db.row path' := by
  unfold EditDb.row EditDb.setGuard
  split_ifs with h
  · rw [h, AList.lookup_insert]
    rfl
  · rw [AList.lookup_insert_ne h]

variable {r row : GuardRow Id D} {p : EditProof} {q : PublishRequest Id}

section

omit [ObjectId Id] [CommitId Id] [DecidableEq Id] [DecidableEq D]

theorem row_of_lookup (h : db.guards.lookup path = some r) :
    db.row path = r := by
  rw [EditDb.row, h]
  rfl

theorem lookup_of_guard {g : Guard Id D} (h : (db.row path).guard = some g) :
    ∃ r, db.guards.lookup path = some r ∧ r.guard = some g := by
  cases hrow : db.guards.lookup path with
  | none =>
    rw [EditDb.row, hrow] at h
    cases h
  | some r => exact ⟨r, rfl, row_of_lookup hrow ▸ h⟩

theorem readRow_some {ok : Bool} (h : (if ok then db.guards.lookup path else none) = some r) :
    db.guards.lookup path = some r := by
  split_ifs at h
  exact h

end

/-- The proof is that of the guard. -/
structure Verified (sha256 : Name → D) (c : EditClaims Id) (row : GuardRow Id D) (p : EditProof)
    (g : Guard Id D) : Prop where
  guard : row.guard = some g
  id : g.id = p.guardID
  owner : g.owner = c.subject
  generation : row.generation = p.generation
  digest : g.proofDigest = sha256 p.proof

omit [ObjectId Id] [CommitId Id] [DecidableEq Id] in
theorem cfEditVerified_spec {expiredAllowed : Bool} {now : ℤ}
    (h : Fileserver.cfEditVerified sha256 c row p expiredAllowed now = true) :
    ∃ g, Verified sha256 c row p g ∧ (expiredAllowed = false → now < g.expires) := by
  unfold Fileserver.cfEditVerified at h
  cases hg : row.guard with
  | none => simp [hg] at h
  | some g =>
    simp only [hg, Bool.and_eq_true, decide_eq_true_eq, Bool.or_eq_true] at h
    obtain ⟨⟨⟨⟨⟨⟨-, hid⟩, howner⟩, hgen⟩, -⟩, hexp⟩, hdig⟩ := h
    refine ⟨g, ⟨hg, hid, howner, hgen, hdig.symm⟩, fun hfalse => ?_⟩
    exact hexp.resolve_left (by simp [hfalse])

omit [DecidableEq D] in
theorem cfEditCheckout_spec {q : CheckoutRequest Id} {i : Issued Id}
    (h : Fileserver.cfEditCheckout sha256 o c q db = .ok (i, db')) :
    (db.row c.filePath).generation ≠ 0xFFFFFFFFFFFFFFFF ∧
    i.proof.generation = (db.row c.filePath).generation + 1 ∧
    ∃ base expires, db' = db.setGuard c.filePath ⟨i.proof.generation,
      some ⟨i.proof.guardID, c.subject, sha256 i.proof.proof, base, expires⟩⟩ := by
  simp only [Fileserver.cfEditCheckout, Fileserver.cfEditCheckoutTx, bind_ok, require_ok,
    Except.ok.injEq] at h
  obtain ⟨-, -, -, -, -, -, r, ⟨head, -, actual, -, -, -, -, -, -, -, -, -, -, hmax, key, -, -, -,
    -, -, rfl⟩, -, -, hr⟩ := h
  obtain ⟨rfl, rfl⟩ := Prod.mk.inj hr
  exact ⟨by simpa [EditDb.row] using hmax, rfl, _, _, rfl⟩

theorem cfEditGuardAction_spec {q : GuardRequest} {action : GuardAction}
    (h : Fileserver.cfEditGuardAction sha256 o c q action db = .ok db') :
    ∃ row p g, db.guards.lookup c.filePath = some row ∧ q.body = some p ∧
      Verified sha256 c row p g ∧
      db' = db.setGuard c.filePath
        ⟨row.generation, Fileserver.guardAfter g q.clock.utc action⟩ := by
  simp only [Fileserver.cfEditGuardAction, bind_ok, require_ok, orFail_ok, Except.ok.injEq] at h
  obtain ⟨-, -, p, hp, -, -, head, -, row, hrow, -, hver, g, hg, -, -, -, -, -, -, -, -, rfl⟩ := h
  obtain ⟨g', hver, -⟩ := cfEditVerified_spec hver
  obtain rfl := mem_unique hver.guard hg
  exact ⟨row, p, g', readRow_some hrow, hp, hver, rfl⟩

omit [ObjectId Id] [CommitId Id] in
theorem commitGuard_spec (h : Fileserver.commitGuard sha256 c q db = .ok ())
    (ha : q.action ≠ .optimistic) :
    ∃ row g, db.guards.lookup c.filePath = some row ∧ Verified sha256 c row q.proof g ∧
      g.baseID = q.base ∧ q.clock.now < g.expires := by
  have hrun : ∃ row, (if q.readRow then db.guards.lookup c.filePath else none) = some row ∧
      (row.guard.map Guard.baseID = some q.base ∧
        Fileserver.cfEditVerified sha256 c row q.proof false q.clock.now = true) := by
    unfold Fileserver.commitGuard at h
    cases hact : q.action with
    | optimistic => exact absurd hact ha
    | commit | checkin =>
      simp only [hact, bind_ok, orFail_ok, require_ok, Bool.and_eq_true, decide_eq_true_eq] at h
      exact h
  obtain ⟨row, hrow, hbase, hver⟩ := hrun
  obtain ⟨g, hver, hexp⟩ := cfEditVerified_spec hver
  rw [hver.guard] at hbase
  exact ⟨row, g, readRow_some hrow, hver, Option.some.inj hbase, hexp rfl⟩

theorem cfEditCommit_spec {ok : EditOk Id} {o' : Objects Id}
    (h : Fileserver.cfEditCommit sha256 o c q db = .ok (ok, o', db')) :
    ∃ head actual r, db.head = some head ∧
      Fileserver.cfEditActual o head c.filePath = some actual ∧ actual.1 = q.base ∧
      Fileserver.commitGuard sha256 c q db = .ok () ∧
      Fileserver.commitFile o c q head actual.2.rootId = .ok r ∧
      ok = .published q.fileID r.1 (q.action = .checkin) ∧ o' = r.2 ∧
      db' = { Fileserver.publishedGuard c q db with head := some r.1 } := by
  simp only [Fileserver.cfEditCommit, bind_ok, require_ok, orFail_ok, Except.ok.injEq,
    decide_eq_true_eq] at h
  obtain ⟨-, -, -, -, -, -, -, -, head, hhead, actual, hactual, -, hbase, ⟨⟩, hguard, -, -, r, hr,
    -, -, -, -, -, -, -, -, rfl, rfl, rfl⟩ := h
  have hhead' : db.head = some head := by
    split_ifs at hhead
    exact hhead
  exact ⟨head, actual, r, hhead', hactual, hbase, hguard, hr, rfl, rfl, rfl⟩

omit [ObjectId Id] [CommitId Id] [DecidableEq Id] [DecidableEq D] in
theorem publishedGuard_optimistic (ha : q.action = .optimistic) :
    Fileserver.publishedGuard c q db = db := by
  unfold Fileserver.publishedGuard
  cases db.guards.lookup c.filePath with
  | none => rfl
  | some row => simp [ha]

/-! ## The row as a register -/

/-- Who holds a guard. -/
def Guard.holder (g : Guard Id D) : Name × Name × D := (g.id, g.owner, g.proofDigest)

/-- A row as a fenced register. -/
def GuardRow.register (row : GuardRow Id D) : Register (Name × Name × D) :=
  ⟨row.generation.toNat, row.guard.map Guard.holder⟩

/-- The register of a path. -/
def EditState.register (s : EditState Id D) (path : Name) : Register (Name × Name × D) :=
  (s.db.row path).register

variable (sha256) in
/-- The event succeeds. -/
def Accepted (s : EditState Id D) (e : EditEvent Id) : Prop :=
  ∃ ok, (s.exec sha256 e).1 = some (.ok ok)

variable (sha256) in
/-- What an event does to the register of a path. -/
def EditState.act (s : EditState Id D) (path : Name) (e : EditEvent Id) : Act (Name × Name × D) :=
  match e, (s.exec sha256 e).1 with
  | .checkout c _, some (.ok (.checkout i)) => if c.filePath = path then
      .acquire (i.proof.guardID, c.subject, sha256 i.proof.proof) else .keep
  | .guard .release c _, some (.ok _) => if c.filePath = path then .drop else .keep
  | .publish c q, some (.ok _) => if c.filePath = path ∧ q.action = .checkin then .drop else .keep
  | _, _ => .keep

variable (sha256) in
theorem exec_checkout (s : EditState Id D) (c : EditClaims Id) (q : CheckoutRequest Id) :
    (∃ e, s.exec sha256 (.checkout c q) = (some (.error e), s)) ∨
    ∃ i db', Fileserver.cfEditCheckout sha256 s.objects c q s.db = .ok (i, db') ∧
      s.exec sha256 (.checkout c q) = (some (.ok (.checkout i)), ⟨s.objects, db'⟩) := by
  cases h : Fileserver.cfEditCheckout sha256 s.objects c q s.db with
  | error e => exact .inl ⟨e, by rw [EditState.exec, h]; rfl⟩
  | ok r => exact .inr ⟨r.1, r.2, rfl, by rw [EditState.exec, h]; rfl⟩

variable (sha256) in
theorem exec_guard (s : EditState Id D) (action : GuardAction) (c : EditClaims Id)
    (q : GuardRequest) :
    (∃ e, s.exec sha256 (.guard action c q) = (some (.error e), s)) ∨
    ∃ db', Fileserver.cfEditGuardAction sha256 s.objects c q action s.db = .ok db' ∧
      s.exec sha256 (.guard action c q) = (some (.ok (.guard action)), ⟨s.objects, db'⟩) := by
  cases h : Fileserver.cfEditGuardAction sha256 s.objects c q action s.db with
  | error e => exact .inl ⟨e, by rw [EditState.exec, h]; rfl⟩
  | ok db' => exact .inr ⟨db', rfl, by rw [EditState.exec, h]; rfl⟩

variable (sha256) in
theorem exec_publish (s : EditState Id D) (c : EditClaims Id) (q : PublishRequest Id) :
    (∃ e, s.exec sha256 (.publish c q) = (some (.error e), s)) ∨
    ∃ ok o' db', Fileserver.cfEditCommit sha256 s.objects c q s.db = .ok (ok, o', db') ∧
      s.exec sha256 (.publish c q) = (some (.ok ok), ⟨o', db'⟩) := by
  cases h : Fileserver.cfEditCommit sha256 s.objects c q s.db with
  | error e => exact .inl ⟨e, by rw [EditState.exec, h]; rfl⟩
  | ok r => exact .inr ⟨r.1, r.2.1, r.2.2, rfl, by rw [EditState.exec, h]; rfl⟩

theorem toNat_succ {g : UInt64} (h : g ≠ 0xFFFFFFFFFFFFFFFF) : (g + 1).toNat = g.toNat + 1 := by
  have hlt := g.toNat_lt
  have hne : g.toNat ≠ 18446744073709551615 := fun he => h (UInt64.toNat_inj.1 he)
  show (g.toNat + 1) % 2 ^ 64 = g.toNat + 1
  omega

omit [ObjectId Id] [CommitId Id] [DecidableEq Id] [DecidableEq D] in
theorem register_setGuard (path path' : Name) :
    ((db.setGuard path r).row path').register =
      if path' = path then r.register else (db.row path').register := by
  rw [row_setGuard]
  split_ifs <;> rfl

omit [ObjectId Id] [CommitId Id] in
theorem register_publishedGuard (h : Fileserver.commitGuard sha256 c q db = .ok ()) (path : Name) :
    ((Fileserver.publishedGuard c q db).row path).register =
      (db.row path).register.apply
        (if c.filePath = path ∧ q.action = .checkin then .drop else .keep) := by
  cases ha : q.action with
  | optimistic =>
    rw [publishedGuard_optimistic ha]
    simp [Register.apply]
  | commit =>
    obtain ⟨row, g, hrow, hver, -⟩ := commitGuard_spec h (by simp [ha])
    have hrun : Fileserver.publishedGuard c q db =
        db.setGuard c.filePath ⟨row.generation, some { g with baseID := q.fileID }⟩ := by
      simp [Fileserver.publishedGuard, hrow, ha, hver.guard, hver.id]
    rw [hrun, register_setGuard]
    split_ifs with hpath hfalse hfalse
    · simp at hfalse
    · subst hpath
      rw [row_of_lookup hrow]
      simp [Register.apply, GuardRow.register, hver.guard, Guard.holder]
    · simp at hfalse
    · rfl
  | checkin =>
    obtain ⟨row, g, hrow, hver, -⟩ := commitGuard_spec h (by simp [ha])
    have hrun : Fileserver.publishedGuard c q db =
        db.setGuard c.filePath ⟨row.generation, none⟩ := by
      simp [Fileserver.publishedGuard, hrow, ha, hver.guard, hver.id]
    rw [hrun, register_setGuard]
    by_cases hpath : c.filePath = path
    · subst hpath
      rw [row_of_lookup hrow]
      simp [Register.apply, GuardRow.register]
    · simp [hpath, Ne.symm hpath, Register.apply]

theorem register_exec (s : EditState Id D) (path : Name) (e : EditEvent Id) :
    (s.exec sha256 e).2.register path = (s.register path).apply (s.act sha256 path e) := by
  cases e with
  | checkout c q =>
    rcases exec_checkout sha256 s c q with ⟨e, he⟩ | ⟨i, db', hrun, he⟩
    · simp [EditState.act, he, Register.apply]
    · obtain ⟨hmax, hgen, base, expires, rfl⟩ := cfEditCheckout_spec hrun
      simp only [EditState.act, he, EditState.register, register_setGuard, @eq_comm _ path]
      split_ifs with hpath
      · subst hpath
        simp [Register.apply, GuardRow.register, Guard.holder, hgen, toNat_succ hmax]
      · rfl
  | guard action c q =>
    rcases exec_guard sha256 s action c q with ⟨e, he⟩ | ⟨db', hrun, he⟩
    · cases action <;> simp [EditState.act, he, Register.apply]
    · obtain ⟨row, p, g, hrow, -, hver, rfl⟩ := cfEditGuardAction_spec hrun
      cases action with
      | renew =>
        simp only [EditState.act, he, EditState.register, register_setGuard]
        split_ifs with hpath
        · subst hpath
          rw [row_of_lookup hrow]
          simp [Register.apply, GuardRow.register, Fileserver.guardAfter, hver.guard, Guard.holder]
        · rfl
      | release =>
        simp only [EditState.act, he, EditState.register, register_setGuard, @eq_comm _ path]
        split_ifs with hpath
        · subst hpath
          rw [row_of_lookup hrow]
          rfl
        · rfl
  | publish c q =>
    rcases exec_publish sha256 s c q with ⟨e, he⟩ | ⟨ok, o', db', hrun, he⟩
    · simp [EditState.act, he, Register.apply]
    · obtain ⟨head, actual, r, -, -, -, hguard, -, rfl, rfl, rfl⟩ := cfEditCommit_spec hrun
      simp only [EditState.act, he]
      exact register_publishedGuard hguard path
  | other objects head => rfl

/-! ## Proofs that are shown -/

/-- A request of `user` on `path` that shows the proof `t`. -/
inductive Presents (path user : Name) (t : EditProof) : EditEvent Id → Prop
  | guard {action : GuardAction} {c : EditClaims Id} {q : GuardRequest} : c.filePath = path →
      c.subject = user → q.body = some t → Presents path user t (.guard action c q)
  | publish {c : EditClaims Id} {q : PublishRequest Id} : c.filePath = path → c.subject = user →
      q.proof = t → q.action ≠ .optimistic → Presents path user t (.publish c q)

/-- The proof is that of the path's guard. -/
def Current (sha256 : Name → D) (s : EditState Id D) (path : Name) (t : EditProof) : Prop :=
  (s.db.row path).generation = t.generation ∧
    ∃ g, (s.db.row path).guard = some g ∧ g.id = t.guardID ∧ g.proofDigest = sha256 t.proof

/-- The path has a guard that has not run out. -/
def Unexpired (s : EditState Id D) (path : Name) (now : ℤ) : Prop :=
  ∃ g, (s.db.row path).guard = some g ∧ now < g.expires

variable {s : EditState Id D} {e : EditEvent Id} {user : Name} {t : EditProof}

omit [ObjectId Id] [CommitId Id] [DecidableEq Id] [DecidableEq D] in
theorem Verified.holds {g : Guard Id D} (h : Verified sha256 c row p g) :
    row.register.Holds p.generation.toNat (p.guardID, c.subject, sha256 p.proof) := by
  refine ⟨congrArg UInt64.toNat h.generation, ?_⟩
  rw [GuardRow.register, h.guard, map_some, Guard.holder, h.id, h.owner, h.digest]

omit [DecidableEq Id] [DecidableEq D] in
theorem current_of_holds
    (h : (s.register path).Holds t.generation.toNat (t.guardID, user, sha256 t.proof)) :
    Current sha256 s path t := by
  obtain ⟨hgen, hheld⟩ := h
  refine ⟨UInt64.toNat_inj.1 hgen, ?_⟩
  obtain ⟨g, hg, hholder⟩ := map_eq_some_iff.1 hheld
  simp only [Guard.holder, Prod.mk.injEq] at hholder
  exact ⟨g, hg, hholder.1, hholder.2.2⟩

theorem holds_of_accepted (hp : Presents path user t e) (h : Accepted sha256 s e) :
    (s.register path).Holds t.generation.toNat (t.guardID, user, sha256 t.proof) := by
  obtain ⟨ok, hok⟩ := h
  cases hp with
  | @guard action c q hpath huser hbody =>
    subst hpath huser
    rcases exec_guard sha256 s action c q with ⟨e, he⟩ | ⟨db', hrun, -⟩
    · simp [he] at hok
    · obtain ⟨row, p, g, hrow, hp, hver, -⟩ := cfEditGuardAction_spec hrun
      obtain rfl := mem_unique hp hbody
      rw [EditState.register, row_of_lookup hrow]
      exact hver.holds
  | @publish c q hpath huser hproof haction =>
    subst hpath huser hproof
    rcases exec_publish sha256 s c q with ⟨e, he⟩ | ⟨ok, o', db', hrun, -⟩
    · simp [he] at hok
    · obtain ⟨-, -, -, -, -, -, hguard, -⟩ := cfEditCommit_spec hrun
      obtain ⟨row, g, hrow, hver, -⟩ := commitGuard_spec hguard haction
      rw [EditState.register, row_of_lookup hrow]
      exact hver.holds

theorem unexpired_of_accepted (hp : Presents path user t (.publish c q))
    (h : Accepted sha256 s (.publish c q)) : Unexpired s path q.clock.now := by
  obtain ⟨ok, hok⟩ := h
  cases hp with
  | publish hpath _ _ haction =>
    subst hpath
    rcases exec_publish sha256 s c q with ⟨e, he⟩ | ⟨ok, o', db', hrun, -⟩
    · simp [he] at hok
    · obtain ⟨-, -, -, -, -, -, hguard, -⟩ := cfEditCommit_spec hrun
      obtain ⟨row, g, hrow, hver, -, hexp⟩ := commitGuard_spec hguard haction
      exact ⟨g, by rw [row_of_lookup hrow, hver.guard], hexp⟩

variable (sha256) in
/-- A successful checkout of `path` by `user` that returns the proof `t`. -/
def Issues (s : EditState Id D) (e : EditEvent Id) (path user : Name) (t : EditProof) : Prop :=
  ∃ c q base, e = .checkout c q ∧ c.filePath = path ∧ c.subject = user ∧
    (s.exec sha256 e).1 = some (.ok (.checkout ⟨t, base⟩))

variable (sha256) in
/-- A successful checkout, release or checkin of `path`. -/
def Supersedes (s : EditState Id D) (e : EditEvent Id) (path : Name) : Prop :=
  Accepted sha256 s e ∧ match e with
    | .checkout c _ => c.filePath = path
    | .guard action c _ => action = .release ∧ c.filePath = path
    | .publish c q => q.action = .checkin ∧ c.filePath = path
    | .other _ _ => False

theorem act_of_issues (h : Issues sha256 s e path user t) :
    s.act sha256 path e = .acquire (t.guardID, user, sha256 t.proof) := by
  obtain ⟨c, q, base, rfl, rfl, rfl, hok⟩ := h
  simp [EditState.act, hok]

theorem holds_of_issues (h : Issues sha256 s e path user t) :
    ((s.exec sha256 e).2.register path).Holds t.generation.toNat
      (t.guardID, user, sha256 t.proof) := by
  have hact := act_of_issues h
  obtain ⟨c, q, base, rfl, rfl, rfl, hok⟩ := h
  rw [register_exec, hact]
  refine ⟨?_, rfl⟩
  rcases exec_checkout sha256 s c q with ⟨e, he⟩ | ⟨i, db', hrun, he⟩
  · simp [he] at hok
  · obtain ⟨hmax, hgen, -⟩ := cfEditCheckout_spec hrun
    obtain rfl : i = ⟨t, base⟩ := by simpa [he] using hok
    rw [hgen, toNat_succ hmax]
    rfl

theorem act_ne_keep (h : Supersedes sha256 s e path) : s.act sha256 path e ≠ .keep := by
  obtain ⟨⟨ok, hok⟩, hkind⟩ := h
  cases e with
  | checkout c q =>
    rcases exec_checkout sha256 s c q with ⟨e, he⟩ | ⟨i, db', -, he⟩
    · simp [he] at hok
    · have hpath : c.filePath = path := hkind
      simp [EditState.act, he, hpath]
  | guard action c q =>
    obtain ⟨rfl, hpath⟩ : action = .release ∧ c.filePath = path := hkind
    simp [EditState.act, hok, hpath]
  | publish c q =>
    simp [EditState.act, hok, hkind]
  | other objects head => exact hkind.elim

/-! ## Whole runs -/

variable (sha256) in
/-- What a sequence of events does to it. -/
def EditState.acts (s : EditState Id D) (path : Name) :
    List (EditEvent Id) → List (Act (Name × Name × D))
  | [] => []
  | e :: es => s.act sha256 path e :: (s.exec sha256 e).2.acts path es

theorem run_append (s : EditState Id D) (es es' : List (EditEvent Id)) :
    s.run sha256 (es ++ es') = (s.run sha256 es).run sha256 es' :=
  foldl_append

theorem run_cons (s : EditState Id D) (e : EditEvent Id) (es : List (EditEvent Id)) :
    s.run sha256 (e :: es) = (s.exec sha256 e).2.run sha256 es := rfl

theorem register_run (s : EditState Id D) (path : Name) (es : List (EditEvent Id)) :
    (s.run sha256 es).register path = (s.register path).run (s.acts sha256 path es) := by
  induction es generalizing s with
  | nil => rfl
  | cons e es ih =>
    rw [run_cons, ih, register_exec]
    rfl

theorem acts_append (s : EditState Id D) (path : Name) (a b : List (EditEvent Id)) :
    s.acts sha256 path (a ++ b) = s.acts sha256 path a ++ (s.run sha256 a).acts sha256 path b := by
  induction a generalizing s with
  | nil => rfl
  | cons e a ih => exact congrArg (s.act sha256 path e :: ·) (ih _)

variable {e' : EditEvent Id} {user' : Name} {es a b : List (EditEvent Id)} {t' : EditProof}

/-- A proof that is accepted has been current ever since the checkout that has returned it. -/
theorem kept_of_accepted (hi : Issues sha256 s e path user t)
    (hp : Presents path user' t e') (h : Accepted sha256 (s.run sha256 (e :: es)) e') :
    user' = user ∧ ∀ a ∈ (s.exec sha256 e).2.acts sha256 path es, a = .keep := by
  have hend := holds_of_accepted hp h
  rw [run_cons, register_run] at hend
  obtain ⟨hsame, hkeep⟩ := (holds_of_issues hi).of_run hend
  simp only [Prod.mk.injEq, true_and, and_true] at hsame
  exact ⟨hsame, hkeep⟩

theorem not_supersedes_of_accepted {x : EditEvent Id} (hi : Issues sha256 s e path user t)
    (hp : Presents path user' t e') (h : Accepted sha256 (s.run sha256 (e :: (a ++ x :: b))) e') :
    ¬ Supersedes sha256 (s.run sha256 (e :: a)) x path := by
  intro hsup
  obtain ⟨-, hkeep⟩ := kept_of_accepted hi hp h
  rw [acts_append] at hkeep
  exact act_ne_keep hsup (hkeep _ (mem_append_right _ mem_cons_self))

theorem not_accepted_of_not_current (hi : Issues sha256 s e path user t)
    (hp : Presents path user' t e') (hc : ¬ Current sha256 (s.run sha256 (e :: a)) path t) :
    ¬ Accepted sha256 (s.run sha256 (e :: (a ++ b))) e' := by
  intro h
  obtain ⟨-, hkeep⟩ := kept_of_accepted hi hp h
  rw [acts_append] at hkeep
  have hkept := Register.run_keep (r := (s.exec sha256 e).2.register path)
    fun x hx => hkeep x (mem_append_left _ hx)
  have hheld := holds_of_issues hi
  rw [← hkept, ← register_run] at hheld
  exact hc (current_of_holds hheld)

/-- The generation of a path. -/
def EditState.generation (s : EditState Id D) (path : Name) : ℕ :=
  (s.db.row path).generation.toNat

theorem issues_of_acquire {h : Name × Name × D} (hact : s.act sha256 path e = .acquire h) :
    ∃ user t, Issues sha256 s e path user t := by
  cases e with
  | checkout c q =>
    rcases exec_checkout sha256 s c q with ⟨e, he⟩ | ⟨i, db', -, he⟩
    · simp [EditState.act, he] at hact
    · simp only [EditState.act, he] at hact
      split_ifs at hact with hpath
      exact ⟨c.subject, i.proof, c, q, i.baseID, rfl, hpath, rfl, by rw [he]⟩
  | guard action c q =>
    rcases exec_guard sha256 s action c q with ⟨e, he⟩ | ⟨db', -, he⟩
    · cases action <;> simp [EditState.act, he] at hact
    · cases action with
      | renew => simp [EditState.act] at hact
      | release =>
        simp only [EditState.act, he] at hact
        split_ifs at hact
  | publish c q =>
    rcases exec_publish sha256 s c q with ⟨e, he⟩ | ⟨ok, o', db', -, he⟩
    · simp [EditState.act, he] at hact
    · simp only [EditState.act, he] at hact
      split_ifs at hact
  | other objects head => simp [EditState.act] at hact

/-- The generation grows by one at a checkout and nowhere else. -/
theorem generation_exec (s : EditState Id D) (path : Name) (e : EditEvent Id) :
    ((∃ user t, Issues sha256 s e path user t) →
      (s.exec sha256 e).2.generation path = s.generation path + 1) ∧
    ((¬ ∃ user t, Issues sha256 s e path user t) →
      (s.exec sha256 e).2.generation path = s.generation path) := by
  have hreg : ((s.exec sha256 e).2.register path).generation =
      ((s.register path).apply (s.act sha256 path e)).generation := by
    rw [register_exec]
  constructor
  · rintro ⟨user, t, hi⟩
    rw [act_of_issues hi] at hreg
    exact hreg
  · intro hno
    cases hact : s.act sha256 path e with
    | acquire h => exact absurd (issues_of_acquire hact) hno
    | drop | keep =>
      rw [hact] at hreg
      exact hreg

/-- The proof was issued in the run. -/
def IssuedIn (sha256 : Name → D) (s : EditState Id D) (es : List (EditEvent Id)) (path : Name)
    (t : EditProof) : Prop :=
  ∃ a e b user, es = a ++ e :: b ∧ Issues sha256 (s.run sha256 a) e path user t

/-- Some request that shows the proof would be accepted. -/
def Acceptable (sha256 : Name → D) (s : EditState Id D) (path : Name) (t : EditProof) : Prop :=
  ∃ e user, Presents path user t e ∧ Accepted sha256 s e

theorem eq_of_acceptable {m b' : List (EditEvent Id)}
    (hi : Issues sha256 (s.run sha256 a) e path user t)
    (hi' : Issues sha256 (s.run sha256 (a ++ m)) e' path user' t') (hm : e :: b = m ++ e' :: b')
    (h : Acceptable sha256 (s.run sha256 (a ++ e :: b)) path t) : t = t' := by
  obtain ⟨c', q', base', rfl, hpath', -, hok'⟩ := hi'
  cases m with
  | nil =>
    obtain ⟨rfl, -⟩ := List.cons.inj hm
    obtain ⟨c, q, base, -, -, -, hok⟩ := hi
    rw [append_nil] at hok'
    have heq := hok.symm.trans hok'
    simp only [some.injEq, Except.ok.injEq, EditOk.checkout.injEq, Issued.mk.injEq] at heq
    exact heq.1
  | cons x m =>
    -- the second checkout is one of the events after the first
    obtain ⟨rfl, rfl⟩ := List.cons.inj hm
    obtain ⟨e', u, hp, hacc⟩ := h
    rw [run_append] at hok' hacc
    exact (not_supersedes_of_accepted hi hp hacc ⟨⟨_, hok'⟩, hpath'⟩).elim

theorem acceptable_unique (h : IssuedIn sha256 s es path t) (h' : IssuedIn sha256 s es path t')
    (ha : Acceptable sha256 (s.run sha256 es) path t)
    (ha' : Acceptable sha256 (s.run sha256 es) path t') : t = t' := by
  obtain ⟨a, e, b, user, rfl, hi⟩ := h
  obtain ⟨a', e', b', user', hes, hi'⟩ := h'
  rcases append_eq_append_iff.1 hes with ⟨m, rfl, hm⟩ | ⟨m, rfl, hm⟩
  · exact eq_of_acceptable hi hi' hm ha
  · rw [hes] at ha'
    exact (eq_of_acceptable hi' hi hm ha').symm

/-- **Edit guards are fenced**: the generation counts the checkouts, and a proof is accepted only
    from its user and until it is superseded; at most one is acceptable at a time. -/
theorem edit_guards_fenced (sha256 : Name → D) (s : EditState Id D) (path : Name) :
    (∀ es e, ((∃ user t, Issues sha256 (s.run sha256 es) e path user t) →
        (s.run sha256 (es ++ [e])).generation path = (s.run sha256 es).generation path + 1) ∧
      ((¬ ∃ user t, Issues sha256 (s.run sha256 es) e path user t) →
        (s.run sha256 (es ++ [e])).generation path = (s.run sha256 es).generation path)) ∧
    (∀ before e between e' user user' t, Issues sha256 (s.run sha256 before) e path user t →
      Presents path user' t e' →
      Accepted sha256 (s.run sha256 (before ++ e :: between)) e' →
      user' = user ∧
      (∀ a x b, between = a ++ x :: b →
        ¬ Supersedes sha256 (s.run sha256 (before ++ e :: a)) x path) ∧
      (∀ c q, e' = .publish c q →
        Unexpired (s.run sha256 (before ++ e :: between)) path q.clock.now)) ∧
    (∀ before e a b e' user user' t, Issues sha256 (s.run sha256 before) e path user t →
      Presents path user' t e' →
      ¬ Current sha256 (s.run sha256 (before ++ e :: a)) path t →
      ¬ Accepted sha256 (s.run sha256 (before ++ e :: (a ++ b))) e') ∧
    (∀ es t t', IssuedIn sha256 s es path t → IssuedIn sha256 s es path t' →
      Acceptable sha256 (s.run sha256 es) path t → Acceptable sha256 (s.run sha256 es) path t' →
      t = t') := by
  refine ⟨fun es e => ?_, ?_, ?_, fun es t t' => acceptable_unique⟩
  · rw [run_append]
    exact generation_exec _ path e
  · intro before e between e' user user' t hi hp h
    rw [run_append] at h
    obtain ⟨huser, -⟩ := kept_of_accepted hi hp h
    refine ⟨huser, ?_, ?_⟩
    · rintro a x b rfl
      rw [run_append]
      exact not_supersedes_of_accepted hi hp h
    · rintro c q rfl
      rw [run_append]
      exact unexpired_of_accepted hp h
  · intro before e a b e' user user' t hi hp hc
    rw [run_append] at hc ⊢
    exact not_accepted_of_not_current hi hp hc

/-! ## A released checkout -/

/-- No objects. -/
def Objects.empty : Objects ℕ := ⟨FsStore.empty, fun _ => none, by simp⟩

/-- A library with one commit. -/
def Objects.ofRoot (fs : FsStore ℕ) (root : ℕ) : Objects ℕ :=
  Objects.saveCommit
    { Objects.empty with fs := fs, saved := by simp [Objects.empty] } 0 root [] [] 0

/-- Its head. -/
def rootHead (root : ℕ) : ℕ := (Fileserver.newCommit 0 root [] [] 0).commitId

def fDir : List (Dirent ℕ) := [.new 0o100644 5 ['f'] 0 ['u'] 1]

def fLibrary : EditState ℕ Name :=
  ⟨.ofRoot (FsStore.empty.insert (.dir fDir) (List.cons_ne_nil _ _)) (seafDirId fDir),
    ⟨some (rootHead (seafDirId fDir)), ∅⟩⟩

def fTicket : EditClaims ℕ where
  subject := ['u']
  filePath := ['/', 'f']
  baseID := 5
  mode := .exclusiveEdit
  canonical := by decide
  notRoot := by decide

def fCheckout : CheckoutRequest ℕ where
  isPost := true
  body := some ⟨5, "linux".toList, []⟩
  clock := ⟨0, 0⟩
  beginTx := true
  readHead := true
  insertRow := true
  readRow := true
  randRead := some (List.replicate 32 0)
  guardID := ['g']
  updateRow := true
  audit := true
  commit := true

def fProof : EditProof := ⟨['g'], 1, List.replicate 64 '0'⟩

def fRelease : GuardRequest where
  isPost := true
  body := some fProof
  clock := ⟨1, 1⟩
  beginTx := true
  readHead := true
  readRow := true
  updateRow := true
  audit := true
  commit := true

theorem released_proof_stays_refused :
    Issues id fLibrary (.checkout fTicket fCheckout) ['/', 'f'] ['u'] fProof ∧
    Accepted id (fLibrary.run id [.checkout fTicket fCheckout]) (.guard .release fTicket fRelease) ∧
    ∀ b e user, Presents ['/', 'f'] user fProof e → ¬ Accepted id (fLibrary.run id
      (.checkout fTicket fCheckout :: .guard .release fTicket fRelease :: b)) e := by
  have hi : Issues id fLibrary (.checkout fTicket fCheckout) ['/', 'f'] ['u'] fProof :=
    ⟨fTicket, fCheckout, 5, rfl, rfl, rfl, by decide +kernel⟩
  refine ⟨hi, ⟨.guard .release, by decide +kernel⟩, fun b e user hp => ?_⟩
  refine (edit_guards_fenced id fLibrary ['/', 'f']).2.2.1 [] _ [_] b e ['u'] user fProof hi hp ?_
  rintro ⟨-, g, hg, -⟩
  have hnone : ((fLibrary.run id [.checkout fTicket fCheckout,
      .guard .release fTicket fRelease]).db.row ['/', 'f']).guard = none := by decide +kernel
  cases hg

end CloudFile
