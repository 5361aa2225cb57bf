/-
  Two-phase authorization. A publication reads the rules and asks the Hub before its transaction,
  and compares the proofs under the lock of `Branch`. No revision is used twice, so equal proofs
  mean that no rule which was read has changed; one that came and went in between leaves no trace
  (`Undisturbed`).
-/
import CloudFile.Acl.Proof
import CloudFile.Lib.Stamped
import CloudFile.Publish.UpdateBranch

namespace CloudFile

open List Option

variable {Id D : Type} [ObjectId Id] [CommitId Id] [DecidableEq Id] [DecidableEq D]

/-! ## Rules that change -/

/-- The rules of the library and of its origin, and the revisions used so far. -/
structure AclTables where
  rows : Scope → List AclRow
  used : List Name
  tracked : ∀ sc, ∀ r ∈ rows sc, r.revision ∈ used

variable {sc sc' : Scope} {r row : AclRow} {rows : Scope → List AclRow} {s : AclTables}

theorem mem_update {l : List AclRow}
    (h : r ∈ Function.update rows sc l sc') : r ∈ rows sc' ∨ sc' = sc ∧ r ∈ l := by
  by_cases hsc : sc' = sc
  · subst hsc
    rw [Function.update_self] at h
    exact .inr ⟨rfl, h⟩
  · rw [Function.update_of_ne hsc] at h
    exact .inl h

/-- A new rule. -/
def AclTables.insert (s : AclTables) (sc : Scope) (row : AclRow) : AclTables where
  rows := Function.update s.rows sc (row :: s.rows sc)
  used := row.revision :: s.used
  tracked sc' r hr := by
    rcases mem_update hr with hr | ⟨-, hr⟩
    · exact List.mem_cons_of_mem _ (s.tracked sc' r hr)
    · rcases List.mem_cons.1 hr with rfl | hr
      · exact List.mem_cons_self
      · exact List.mem_cons_of_mem _ (s.tracked sc r hr)

/-- A rule leaves. -/
def AclTables.delete (s : AclTables) (sc : Scope) (row : AclRow) : AclTables where
  rows := Function.update s.rows sc ((s.rows sc).filter (· ≠ row))
  used := s.used
  tracked sc' r hr := by
    rcases mem_update hr with hr | ⟨-, hr⟩
    · exact s.tracked sc' r hr
    · exact s.tracked sc r (List.mem_of_mem_filter hr)

/-- A change of one rule.  A row that is inserted or edited gets a new revision. -/
inductive RuleStep : AclTables → AclTables → Prop
  | insert {s : AclTables} {sc : Scope} {row : AclRow} : (∀ r ∈ s.rows sc, r.key ≠ row.key) →
      row.revision ∉ s.used → RuleStep s (s.insert sc row)
  | delete {s : AclTables} {sc : Scope} {row : AclRow} : RuleStep s (s.delete sc row)
  | edit {s : AclTables} {sc : Scope} {old new : AclRow} : old ∈ s.rows sc → new.key = old.key →
      new.revision ∉ s.used → RuleStep s ((s.delete sc old).insert sc new)

/-- Any changes of the rules. -/
def RuleSteps : AclTables → AclTables → Prop := Relation.ReflTransGen RuleStep

/-- The rules as a table whose stamps are the revisions. -/
def AclTables.table (s : AclTables) : Stamped.Table fun e : Scope × AclRow => e.2.revision where
  entries := {e | e.2 ∈ s.rows e.1}
  used := {v | v ∈ s.used}
  tracked e he := s.tracked e.1 e.2 he

theorem mem_rows_insert (h : r ∈ (s.insert sc row).rows sc') :
    r ∈ s.rows sc' ∨ r = row := by
  rcases mem_update h with h | ⟨rfl, h⟩
  · exact .inl h
  · exact (mem_cons.1 h).symm

theorem mem_rows_delete (h : r ∈ (s.delete sc row).rows sc') : r ∈ s.rows sc' := by
  rcases mem_update h with h | ⟨rfl, h⟩
  · exact h
  · exact mem_of_mem_filter h

theorem RuleStep.stamped {t : AclTables} (h : RuleStep s t) : Stamped.Step s.table t.table := by
  cases h with
  | insert _ hfresh =>
    refine ⟨fun v => mem_cons_of_mem _, fun e he => ?_⟩
    rcases mem_rows_insert he with he | he
    · exact .inl he
    · exact .inr fun hused => hfresh (he ▸ hused)
  | delete => exact ⟨subset_rfl, fun e he => .inl (mem_rows_delete he)⟩
  | edit _ _ hfresh =>
    refine ⟨fun v => mem_cons_of_mem _, fun e he => ?_⟩
    rcases mem_rows_insert he with he | he
    · exact .inl (mem_rows_delete he)
    · exact .inr fun hused => hfresh (he ▸ hused)

theorem RuleSteps.stamped {t : AclTables} (h : RuleSteps s t) :
    Stamped.Steps s.table t.table := by
  induction h with
  | refl => exact Relation.ReflTransGen.refl
  | tail _ hstep ih => exact Relation.ReflTransGen.tail ih hstep.stamped

/-! ## A publication among them -/

/-- The rules at the two readings, when the Hub is asked, and at the commit -/
structure Interleaving where
  atLibrary : AclTables
  atOrigin : AclTables
  atHub : AclTables
  atCommit : AclTables
  toOrigin : RuleSteps atLibrary atOrigin
  toHub : RuleSteps atOrigin atHub
  toCommit : RuleSteps atHub atCommit

/-- The rules the proof reads. -/
def Interleaving.read (x : Interleaving) : Scope → List AclRow
  | .library => x.atLibrary.rows .library
  | .origin => x.atOrigin.rows .origin

/-- Which statements of a proof succeed. -/
structure ReadsOk where
  rows : Scope → Bool
  origin : Bool

/-- The reads of a proof, some of which fail. -/
def proofReads (ok : ReadsOk) (origin : Option Name) (rows : Scope → List AclRow) : ProofReads where
  rows sc := if ok.rows sc then some (scanRows (rows sc)) else none
  origin := if ok.origin then some origin else none

/-- The publications, each with what its other steps answer. -/
inductive AclPublisher (Id D : Type) [ObjectId Id] [CommitId Id] where
  /-- `test_and_update_branch` -/
  | server (o : Objects Id) (fuel : ℕ) (virtualRepo : Option Bool) (actor : Name) (old new : Id)
      (checkGc : Bool) (lastGcId : Option GcId) (steps : UpdateSteps) (row : Option Id)
  /-- `updateBranch` -/
  | fileserver (o : Objects Id) (fuel : ℕ) (order : MapOrder Id) (user : Name) (old new : Id)
      (checkGC : Bool) (lastGCID : Option GcId) (steps : UpdateSteps) (row second : Option Id)
  /-- `cfEditCommit` -/
  | edit (s : EditState Id D) (c : EditClaims Id) (q : PublishRequest Id)

theorem toOption_eq_some {ε α : Type} {x : Except ε α} {a : α} :
    x.toOption = some a ↔ x = .ok a := by
  cases x <;> simp [Except.toOption]

theorem isOk_iff {ε α : Type} {x : Except ε α} : x.isOk = true ↔ ∃ a, x = .ok a := by
  cases x <;> simp [Except.isOk, Except.toBool]

namespace AclPublisher

/-- The request to the hub. -/
def request (repoID : Name) : AclPublisher Id D → Option AclRequest
  | .server o fuel virtualRepo actor old new _ _ _ _ =>
    Server.preflightRequest virtualRepo o fuel repoID old new actor
  | .fileserver o fuel order user old new _ _ _ _ _ =>
    Fileserver.preflightRequest order.order o fuel repoID old new user
  | .edit _ c _ => if c.subject = [] || !cfACLCanonical c.filePath then none
      else some ⟨repoID, c.subject, [⟨c.filePath, .file, .write⟩]⟩

/-- The first phase: the proof that is kept, if nothing is refused. -/
def phaseA (sha256 : Name → D) (hub : Hub) (repoID : Name) (reads : ProofReads) :
    AclPublisher Id D → Option (AclProof D)
  | .server o fuel virtualRepo actor old new _ _ _ _ =>
    Server.cfV2AclProof sha256 repoID reads >>= fun p =>
      if p.isProtected &&
        !Server.cfV2AclPreflightScoped hub virtualRepo o fuel repoID old new actor then none
      else some p
  | .fileserver o fuel order user old new _ _ _ _ _ =>
    (Fileserver.cfACLPreflight hub order.order o fuel repoID old new user
      (Fileserver.cfACLCurrentProof sha256 repoID reads)).toOption
  | .edit _ c _ => (Fileserver.cfEditPermissionPreflight hub repoID c.subject c.filePath
      (Fileserver.cfACLCurrentProof sha256 repoID reads)).toOption

/-- The check in the transaction. -/
def phaseB (sha256 : Name → D) (repoID : Name) (reads : ProofReads) (p : AclProof D) :
    AclPublisher Id D → Bool
  | .server .. => (Server.cfV2AclProof sha256 repoID reads).any fun p' => p.hash = p'.hash
  | _ => (Fileserver.cfACLFinal sha256 repoID reads p).isOk

/-- The publication commits, given how the two phases went. -/
def CommitsIf (sha256 : Name → D) (preflight final : Bool) : AclPublisher Id D → Prop
  | .server _ _ _ _ old new checkGc lastGcId steps row =>
    (Server.testAndUpdateBranch checkGc lastGcId
      { steps with aclPreflight := preflight, aclFinal := final } row new old).result = .ok ()
  | .fileserver _ _ _ _ old new checkGC lastGCID steps row second =>
    -- an error of a step after the transaction
    (Fileserver.updateBranch checkGC lastGCID
      { steps with aclPreflight := preflight, aclFinal := final } row new old second).result ∈
      [.ok (), .error .branchUpdated]
  | .edit s c q =>
    Accepted sha256 s (.publish c { q with preflight := preflight, aclFinal := final })

/-- The publication commits among changes of the rules, which the Hub decides by. -/
def Commits (sha256 : Name → D) (hub : AclTables → Hub) (repoID : Name) (origin : Option Name)
    (ok ok' : ReadsOk) (x : Interleaving) (pub : AclPublisher Id D) : Prop :=
  pub.CommitsIf sha256
    (pub.phaseA sha256 (hub x.atHub) repoID (proofReads ok origin x.read)).isSome
    ((pub.phaseA sha256 (hub x.atHub) repoID (proofReads ok origin x.read)).any fun p =>
      pub.phaseB sha256 repoID (proofReads ok' origin x.atCommit.rows) p)

/-! ## Both phases have passed -/

variable {sha256 : Name → D} {hub : Hub} {repoID : Name} {reads : ProofReads}
  {pub : AclPublisher Id D} {p : AclProof D}

theorem CommitsIf.passed {preflight final : Bool} (h : pub.CommitsIf sha256 preflight final) :
    preflight = true ∧ final = true := by
  cases pub with
  | server o fuel virtualRepo actor old new checkGc lastGcId steps row =>
    simp only [CommitsIf, Server.testAndUpdateBranch] at h
    split at h
    · cases h
    · next hr =>
      obtain ⟨hpass, -⟩ := refusal_eq_none.1 hr
      exact ⟨hpass.aclPreflight, hpass.aclFinal⟩
  | fileserver o fuel order user old new checkGC lastGCID steps row second =>
    simp only [CommitsIf] at h
    cases hr : refusal { steps with aclPreflight := preflight, aclFinal := final } .headConflict
        checkGC lastGCID row old with
    | none =>
      obtain ⟨hpass, -⟩ := refusal_eq_none.1 hr
      exact ⟨hpass.aclPreflight, hpass.aclFinal⟩
    | some e =>
      rw [updateBranch_refused hr] at h
      obtain rfl : e = .branchUpdated := by simpa using h
      have hmem := mem_of_firstFailed hr
      simp [updateChecks] at hmem
  | edit s c q =>
    obtain ⟨ok, hok⟩ := h
    rcases exec_publish sha256 s c { q with preflight := preflight, aclFinal := final } with
      ⟨e, he⟩ | ⟨ok, o', db', hrun, -⟩
    · simp [he] at hok
    · simp only [Fileserver.cfEditCommit, bind_ok, require_ok, orFail_ok] at hrun
      obtain ⟨-, hpre, -, -, -, -, -, -, head, -, actual, -, -, -, -, -, -, hfinal, -⟩ := hrun
      exact ⟨hpre, hfinal⟩

omit [DecidableEq D] in
theorem phaseA_spec (h : pub.phaseA sha256 hub repoID reads = some p) :
    (∃ origin, Proves sha256 repoID reads origin reads.got p) ∧
      (p.isProtected = true → ∃ r, pub.request repoID = some r ∧ Allowed hub r) := by
  cases pub with
  | server o fuel virtualRepo actor old new checkGc lastGcId steps row =>
    simp only [phaseA, bind_eq_bind, bind_eq_some_iff, ite_none_left_eq_some,
      Option.some.injEq] at h
    obtain ⟨p', hproof, hno, rfl⟩ := h
    refine ⟨Server.cfV2AclProof_proves hproof, fun hprot => ?_⟩
    have hpre : Server.cfV2AclPreflightScoped hub virtualRepo o fuel repoID old new actor := by
      simpa [hprot] using hno
    obtain ⟨r, hr, hauth⟩ := (Option.any_eq_true _ _).1 hpre
    obtain ⟨reply, hreply, hallows⟩ := (Option.any_eq_true _ _).1 hauth
    exact ⟨r, hr, reply, hreply, hallows⟩
  | fileserver o fuel order user old new checkGC lastGCID steps row second =>
    obtain ⟨hproof, hasked⟩ := Fileserver.aclDecide_ok (toOption_eq_some.1 h)
    exact ⟨Fileserver.cfACLCurrentProof_proves hproof, hasked⟩
  | edit s c q =>
    obtain ⟨hproof, hasked⟩ := Fileserver.aclDecide_ok (toOption_eq_some.1 h)
    exact ⟨Fileserver.cfACLCurrentProof_proves hproof, hasked⟩

omit [DecidableEq Id] in
theorem phaseB_spec (h : pub.phaseB sha256 repoID reads p = true) :
    ∃ p' origin, Proves sha256 repoID reads origin reads.got p' ∧ p.hash = p'.hash := by
  -- the file server compares alike in both of its publications
  have hgo : (Fileserver.cfACLFinal sha256 repoID reads p).isOk = true →
      ∃ p' origin, Proves sha256 repoID reads origin reads.got p' ∧ p.hash = p'.hash := by
    intro h
    obtain ⟨u, hu⟩ := isOk_iff.1 h
    obtain ⟨p', hproof, heq⟩ := Fileserver.cfACLFinal_ok hu
    obtain ⟨origin, hp⟩ := Fileserver.cfACLCurrentProof_proves hproof
    exact ⟨p', origin, hp, heq.symm⟩
  cases pub with
  | server o fuel virtualRepo actor old new checkGc lastGcId steps row =>
    obtain ⟨p', hproof, heq⟩ := (Option.any_eq_true _ _).1 h
    obtain ⟨origin, hp⟩ := Server.cfV2AclProof_proves hproof
    exact ⟨p', origin, hp, of_decide_eq_true heq⟩
  | fileserver => exact hgo h
  | edit => exact hgo h

end AclPublisher

theorem mem_scanRows {rows : List AclRow} (h : (scanRows rows).length ≤ 4096) :
    r ∈ scanRows rows ↔ r ∈ rows := by
  rw [scanRows, length_take] at h
  rw [scanRows, take_of_length_le (by omega)]
  exact (perm_insertionSort _ rows).mem_iff

omit [DecidableEq D] in
theorem Proves.mem_got {sha256 : Name → D} {repoId : Name} {ok : ReadsOk}
    {origin origin' : Option Name} {p : AclProof D}
    (h : Proves sha256 repoId (proofReads ok origin rows) origin' (proofReads ok origin rows).got
      p) :
    origin' = origin ∧ ∀ sc, InScope origin sc →
      ∀ r, r ∈ (proofReads ok origin rows).got sc ↔ r ∈ rows sc := by
  have horigin : origin' = origin := by
    have hread := h.readOrigin
    simp only [proofReads, ite_none_right_eq_some] at hread
    exact (some.inj hread.2).symm
  refine ⟨horigin, fun sc hsc r => ?_⟩
  obtain ⟨hread, hle⟩ := h.readRows sc (horigin ▸ hsc)
  have hscan : scanRows (rows sc) = (proofReads ok origin rows).got sc := by
    generalize (proofReads ok origin rows).got sc = got at hread
    simp only [proofReads, ite_none_right_eq_some] at hread
    exact some.inj hread.2
  rw [← hscan] at hle ⊢
  exact mem_scanRows hle

variable {sha256 : Name → D} {hub : AclTables → Hub} {repoID : Name} {origin : Option Name}
  {ok ok' : ReadsOk} {x : Interleaving} {pub : AclPublisher Id D}

theorem Interleaving.mem_atHub (hread : r ∈ x.read sc) (hcommit : r ∈ x.atCommit.rows sc) :
    r ∈ x.atHub.rows sc := by
  cases sc with
  | library =>
    have hsteps : RuleSteps x.atLibrary x.atHub := x.toOrigin.trans x.toHub
    exact Stamped.mem_between hsteps.stamped x.toCommit.stamped (a := (Scope.library, r)) hread
      hcommit
  | origin =>
    exact Stamped.mem_between x.toHub.stamped x.toCommit.stamped (a := (Scope.origin, r)) hread
      hcommit

/-- **The final reading finds the rules of the first one**, and the Hub has allowed the change
    if there were any. -/
theorem AclPublisher.Commits.same_rules (hsha : Function.Injective sha256) (hrepo : nul ∉ repoID)
    (horigin : ∀ o, origin = some o → nul ∉ o)
    (h : pub.Commits sha256 hub repoID origin ok ok' x) :
    (∀ sc, InScope origin sc → ∀ r, r ∈ x.read sc ↔ r ∈ x.atCommit.rows sc) ∧
      ((∃ sc, InScope origin sc ∧ x.read sc ≠ []) →
        ∃ r, pub.request repoID = some r ∧ Allowed (hub x.atHub) r) := by
  obtain ⟨hpre, hfinal⟩ := CommitsIf.passed h
  obtain ⟨p, hp⟩ := isSome_iff_exists.1 hpre
  obtain ⟨⟨origin₁, hproves⟩, hasked⟩ := phaseA_spec hp
  have hcompared : pub.phaseB sha256 repoID (proofReads ok' origin x.atCommit.rows) p = true := by
    simpa [hp] using hfinal
  obtain ⟨p', origin₂, hproves', hhash⟩ := phaseB_spec hcompared
  obtain ⟨rfl, hgot⟩ := hproves.mem_got
  obtain ⟨rfl, hgot'⟩ := hproves'.mem_got
  have hrows := hproves.rows_eq hsha hrepo horigin hproves' hhash
  refine ⟨fun sc hsc r => ?_, ?_⟩
  · rw [← hgot sc hsc r, hrows sc hsc]
    exact hgot' sc hsc r
  · rintro ⟨sc, hsc, hne⟩
    apply hasked
    rw [hproves.isProtected]
    obtain ⟨r, hr⟩ := exists_mem_of_ne_nil _ hne
    exact ⟨sc, hsc, ne_nil_of_mem ((hgot sc hsc r).2 hr)⟩

/-! ## The rules that the decision was taken under -/

/-- The rules in force at the commit are those read, and there are none, or the Hub has allowed
    the change under them. -/
def DecidedUnder (hub : AclTables → Hub) (repoID : Name) (origin : Option Name) (x : Interleaving)
    (pub : AclPublisher Id D) : Prop :=
  (∀ sc, InScope origin sc → ∀ row, row ∈ x.read sc ↔ row ∈ x.atCommit.rows sc) ∧
    ((∀ sc, InScope origin sc → x.read sc = []) ∨
      (∃ r, pub.request repoID = some r ∧ Allowed (hub x.atHub) r) ∧
        ∀ sc, InScope origin sc → ∀ row, row ∈ x.atHub.rows sc ↔ row ∈ x.atCommit.rows sc)

/-- There was no rule to read, or every rule that is in force when the Hub is asked has been
    read. -/
def Undisturbed (origin : Option Name) (x : Interleaving) : Prop :=
  (∀ sc, InScope origin sc → x.read sc = []) ∨
    ∀ sc, InScope origin sc → ∀ row ∈ x.atHub.rows sc, row ∈ x.read sc

/-- **Two-phase authorization.** A publication that commits finds the rules of the first phase. The
    Hub was asked under these and no others if and only if none has come into force since. -/
theorem two_phase_decided_iff (hsha : Function.Injective sha256) (hrepo : nul ∉ repoID)
    (horigin : ∀ o, origin = some o → nul ∉ o)
    (h : pub.Commits sha256 hub repoID origin ok ok' x) :
    (∀ sc, InScope origin sc → ∀ row, row ∈ x.read sc ↔ row ∈ x.atCommit.rows sc) ∧
      (∀ sc, InScope origin sc → ∀ row ∈ x.atCommit.rows sc, row ∈ x.atHub.rows sc) ∧
      ((∃ sc, InScope origin sc ∧ x.read sc ≠ []) →
        ∃ r, pub.request repoID = some r ∧ Allowed (hub x.atHub) r) ∧
      (DecidedUnder hub repoID origin x pub ↔ Undisturbed origin x) := by
  obtain ⟨hsame, hasked⟩ := h.same_rules hsha hrepo horigin
  have hheld : ∀ sc, InScope origin sc → ∀ row ∈ x.atCommit.rows sc, row ∈ x.atHub.rows sc :=
    fun sc hsc row hrow => x.mem_atHub ((hsame sc hsc row).2 hrow) hrow
  refine ⟨hsame, hheld, hasked, ?_, ?_⟩
  · rintro ⟨-, hnone | ⟨-, hhub⟩⟩
    · exact .inl hnone
    · exact .inr fun sc hsc row hrow => (hsame sc hsc row).2 ((hhub sc hsc row).1 hrow)
  · intro hundisturbed
    refine ⟨hsame, ?_⟩
    by_cases hnone : ∀ sc, InScope origin sc → x.read sc = []
    · exact .inl hnone
    · have hread := hundisturbed.resolve_left hnone
      push Not at hnone
      refine .inr ⟨hasked hnone, fun sc hsc row => ⟨fun hrow => ?_, hheld sc hsc row⟩⟩
      exact (hsame sc hsc row).1 (hread sc hsc row hrow)

def ownRule : AclRow where
  pathHash := List.replicate 64 'A'
  subjectType := ['u']
  provider := []
  nameSpace := []
  externalId := ['o']
  revision := ['1']
  hex := by decide
  noNul := by decide

def grantRule : AclRow where
  pathHash := List.replicate 64 'A'
  subjectType := ['u']
  provider := []
  nameSpace := []
  externalId := ['g']
  revision := ['2']
  hex := by decide
  noNul := by decide

def ownTables : AclTables where
  rows
    | .library => [ownRule]
    | .origin => []
  used := [['1']]
  tracked := by
    rintro (_ | _) r hr
    · rw [List.mem_singleton.1 hr]
      exact List.mem_singleton_self _
    · cases hr

def quiet : Interleaving where
  atLibrary := ownTables
  atOrigin := ownTables
  atHub := ownTables
  atCommit := ownTables
  toOrigin := Relation.ReflTransGen.refl
  toHub := Relation.ReflTransGen.refl
  toCommit := Relation.ReflTransGen.refl

/-- A second rule is there only while the Hub is asked. -/
def transient : Interleaving where
  atLibrary := ownTables
  atOrigin := ownTables
  atHub := ownTables.insert .library grantRule
  atCommit := (ownTables.insert .library grantRule).delete .library grantRule
  toOrigin := Relation.ReflTransGen.refl
  toHub := Relation.ReflTransGen.single (.insert (by decide) (by decide))
  toCommit := Relation.ReflTransGen.single .delete

def fRepoID : Name := List.replicate 36 'a'

def fPublisher : AclPublisher ℕ Name :=
  .server fCommits 1 (some false) ['u'] fOld.commitId fNew.commitId false none
    ⟨true, true, true, none, true, true, true, true, true, ⟨true, some false⟩, ⟨true, some false⟩⟩
    (some fOld.commitId)

theorem allowed_rules_in_force :
    fPublisher.Commits id (fun _ => openHub) fRepoID none ⟨fun _ => true, true⟩
        ⟨fun _ => true, true⟩ quiet ∧
      DecidedUnder (fun _ => openHub) fRepoID none quiet fPublisher := by
  have hcommits : fPublisher.Commits id (fun _ => openHub) fRepoID none ⟨fun _ => true, true⟩
      ⟨fun _ => true, true⟩ quiet := by
    change Updated.result _ = _
    decide +kernel
  have horigin : ∀ o : Name, none = some o → nul ∉ o := nofun
  have hall := two_phase_decided_iff Function.injective_id (by decide) horigin hcommits
  exact ⟨hcommits, hall.2.2.2.2 (.inr fun sc hsc row hrow => by cases sc <;> exact hrow)⟩

def grantHub (t : AclTables) : Hub := fun _ => some ⟨200, grantRule ∈ t.rows .library, "cf-acl-v1"⟩

/-- The Hub has allowed the change by a rule that is not in force at the commit. -/
theorem transient_rule_decides :
    fPublisher.Commits id grantHub fRepoID none ⟨fun _ => true, true⟩ ⟨fun _ => true, true⟩
        transient ∧
      ¬ DecidedUnder grantHub fRepoID none transient fPublisher ∧
      ∀ r, ¬ Allowed (grantHub transient.atCommit) r := by
  refine ⟨?_, ?_, ?_⟩
  · change Updated.result _ = _
    decide +kernel
  · rintro ⟨-, hnone | ⟨-, hhub⟩⟩
    · exact absurd (hnone .library (.inl rfl)) (by decide)
    · exact absurd ((hhub .library (.inl rfl) grantRule).1 (by decide)) (by decide)
  · rintro r ⟨reply, hreply, hallows⟩
    cases hreply
    exact absurd hallows (by decide)

end CloudFile
