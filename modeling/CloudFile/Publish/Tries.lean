/-
  The attempts that an upload makes to publish, over all its rounds. An attempt lands when every
  step of the transaction passes and the row is still the head of the record (`Try.Lands`). A loop
  goes on only after a lost race, so any other result decides the upload.
-/
import CloudFile.Publish.Upload

namespace CloudFile

variable {Id : Type}

/-- One attempt to publish a commit. -/
structure Try (Id : Type) where
  attempt : Attempt Id
  repoHead : Id
  base : Commit Id
  commit : Commit Id
  newRoot : Id
  handle : Bool

namespace Try

variable [DecidableEq Id] {t : Try Id} {checkGC : Bool} {lastGCID : Option GcId} {m : UpdateErr}

/-- The commit that is to be published and its second parent: the commit given, or its merge with
    the head of the record. -/
def target (t : Try Id) : Option (Commit Id × Option Id) :=
  (t.attempt.load t.repoHead).bind fun currentHead =>
    if t.base.commitId = currentHead.commitId then some (t.commit, none)
    else if t.handle && t.attempt.save then
      (t.attempt.merge t.base.rootId currentHead.rootId t.newRoot).map fun mergedRoot =>
        (t.attempt.newCommit t.repoHead (some t.commit.commitId) mergedRoot,
          some t.commit.commitId)
    else none

/-- The transaction of the attempt goes through: its commit becomes the head. -/
structure Lands (checkGC : Bool) (lastGCID : Option GcId) (t : Try Id) : Prop where
  target : t.target.isSome = true
  pass : t.attempt.steps.Pass checkGC lastGCID
  row : t.attempt.row = some t.repoHead

/-- The steps after the move of the head pass. -/
def postPass (t : Try Id) : Bool := t.attempt.steps.postPass (t.target.bind Prod.snd).isSome

section Run

variable (update : UpdateSteps → Option Id → Id → Id → Option Id → Updated Id)

/-- What an attempt does. -/
def run (t : Try Id) : Tried Id :=
  genCommitNeedRetry update t.attempt t.repoHead t.base t.commit t.newRoot t.handle

variable {update} {t : Try Id}

theorem run_none (h : t.target = none) :
    ∃ e, (∀ x, e ≠ .update x) ∧ t.run update = ⟨.error e, t.attempt.row⟩ := by
  unfold target at h
  unfold run genCommitNeedRetry
  cases hload : t.attempt.load t.repoHead with
  | none => exact ⟨.load, nofun, rfl⟩
  | some currentHead =>
    rw [hload, Option.bind_some] at h
    by_cases hbase : t.base.commitId = currentHead.commitId
    · rw [if_pos hbase] at h
      cases h
    · rw [if_neg hbase] at h
      simp only [ne_eq, hbase, not_false_iff, if_true]
      cases hhandle : t.handle with
      | false => exact ⟨.conflict, nofun, rfl⟩
      | true =>
        cases hmerge : t.attempt.merge t.base.rootId currentHead.rootId t.newRoot with
        | none => exact ⟨.merge, nofun, rfl⟩
        | some mergedRoot =>
          cases hsave : t.attempt.save with
          | false => exact ⟨.save, nofun, rfl⟩
          | true => simp [hhandle, hsave, hmerge] at h

theorem run_some {c : Commit Id} {second : Option Id} (h : t.target = some (c, second)) :
    t.run update = publishCommit update t.attempt c t.repoHead second := by
  unfold target at h
  unfold run genCommitNeedRetry
  obtain ⟨currentHead, hload, h⟩ := Option.bind_eq_some_iff.mp h
  obtain hid := t.attempt.load_id _ _ hload
  rw [hload]
  by_cases hbase : t.base.commitId = currentHead.commitId
  · rw [if_pos hbase] at h
    cases h
    simp [hbase, hid]
  · rw [if_neg hbase] at h
    split at h
    next hboth =>
      obtain ⟨hhandle, hsave⟩ := Bool.and_eq_true_iff.mp hboth
      obtain ⟨mergedRoot, hmerge, heq⟩ := Option.map_eq_some_iff.mp h
      cases heq
      rw [hid] at hbase
      simp [hbase, hhandle, hmerge, hsave, hid]
    next => cases h

end Run

theorem lands_iff {c : Commit Id} {second : Option Id} (h : t.target = some (c, second)) :
    t.Lands checkGC lastGCID ↔
      refusal t.attempt.steps m checkGC lastGCID t.attempt.row t.repoHead = none := by
  rw [refusal_eq_none]
  refine ⟨fun hl => ⟨hl.pass, hl.row⟩, fun ⟨hpass, hrow⟩ => ⟨?_, hpass, hrow⟩⟩
  rw [h]
  rfl

end Try

/-! ## What an attempt reports -/

section Reports

variable [DecidableEq Id] {t : Try Id} {checkGC : Bool} {lastGCID : Option GcId}

namespace Server

/-- The same, in the C server. -/
def tried (checkGc : Bool) (lastGcId : Option GcId) (t : Try Id) : Tried Id :=
  t.run fun s row new old _ => testAndUpdateBranch checkGc lastGcId s row new old

/-- The C server reports success exactly if the attempt lands. -/
theorem tried_ok_iff :
    (∃ c, (tried checkGC lastGCID t).result = .ok (some c)) ↔ t.Lands checkGC lastGCID := by
  unfold tried
  cases htarget : t.target with
  | none =>
    obtain ⟨e, -, hrun⟩ := Try.run_none htarget
    rw [hrun]
    constructor
    · rintro ⟨c, hc⟩
      cases hc
    · intro hl
      have := hl.target
      rw [htarget] at this
      cases this
  | some p =>
    obtain ⟨c, second⟩ := p
    rw [Try.run_some htarget, Try.lands_iff (m := .database) htarget, publishCommit,
      testAndUpdateBranch]
    cases hr : refusal t.attempt.steps .database checkGC lastGCID t.attempt.row t.repoHead with
    | none => exact iff_of_true ⟨c, rfl⟩ rfl
    | some e =>
      refine iff_of_false ?_ (by simp)
      rintro ⟨c', hc'⟩
      cases e <;> cases hc'

end Server

namespace Fileserver

/-- The same, in the fileserver. -/
def tried (checkGC : Bool) (lastGCID : Option GcId) (t : Try Id) : Tried Id :=
  t.run (updateBranch checkGC lastGCID)

theorem tried_lands (h : t.Lands checkGC lastGCID) :
    (t.postPass = true → ∃ c, (tried checkGC lastGCID t).result = .ok (some c)) ∧
    (t.postPass = false →
      (tried checkGC lastGCID t).result = .error (.update .branchUpdated)) := by
  obtain ⟨⟨c, second⟩, htarget⟩ := Option.isSome_iff_exists.mp h.target
  have hset := (Try.lands_iff (m := .headConflict) htarget).mp h
  have hsecond : t.postPass = t.attempt.steps.postPass second.isSome := by
    rw [Try.postPass, htarget]
    rfl
  rw [tried, Try.run_some htarget, publishCommit, updateBranch_set hset, hsecond]
  constructor
  · intro hpost
    rw [hpost]
    exact ⟨c, rfl⟩
  · intro hpost
    rw [hpost]
    rfl

theorem tried_ok_iff : (∃ c, (tried checkGC lastGCID t).result = .ok (some c)) ↔
    t.Lands checkGC lastGCID ∧ t.postPass = true := by
  constructor
  · rintro ⟨c, hc⟩
    have hlands : t.Lands checkGC lastGCID := by
      cases htarget : t.target with
      | none =>
        obtain ⟨e, -, hrun⟩ := Try.run_none htarget
        rw [tried, hrun] at hc
        cases hc
      | some p =>
        obtain ⟨c', second⟩ := p
        rw [Try.lands_iff (m := .headConflict) htarget]
        rw [tried, Try.run_some htarget, publishCommit] at hc
        cases hr : refusal t.attempt.steps .headConflict checkGC lastGCID t.attempt.row
            t.repoHead with
        | none => rfl
        | some e =>
          rw [updateBranch_refused hr] at hc
          cases e <;> cases hc
    refine ⟨hlands, ?_⟩
    by_contra hpost
    rw [(tried_lands hlands).2 (by simpa using hpost)] at hc
    cases hc
  · rintro ⟨hlands, hpost⟩
    exact (tried_lands hlands).1 hpost

end Fileserver

end Reports

/-! ## The attempts of a publication -/

section Loop

variable (run : Try Id → Tried Id) (mk : Attempt Id → Id → Try Id) (handle : Bool)
  (as : ℕ → Attempt Id)

/-- The attempts that `genLoop` makes. -/
def genTries : ℕ → ℕ → Id → List (Try Id)
  | 0, k, repoHead => [mk (as k) repoHead]
  | left + 1, k, repoHead => mk (as k) repoHead ::
      match (run (mk (as k) repoHead)).result with
      | .ok none =>
        if handle then
          match (as k).nextHead with
          | none => []
          | some head => genTries left (k + 1) head
        else []
      | _ => []

variable {run mk handle as}

/-- The publication is the one that these attempts make. -/
structure Publication.MadeBy (run : Try Id → Tried Id) (p : Publication Id) (ts : List (Try Id)) :
    Prop where
  rows : p.rows = ts.map fun t => (t.attempt.row, (run t).row)
  ok : (∃ c, p.result = .ok c) ↔ ∃ t ∈ ts, ∃ c, (run t).result = .ok (some c)
  error : ∀ t ∈ ts, ∀ e, (run t).result = .error e → p.result = .error e

theorem madeBy_nil (e : PublishErr) : (⟨.error e, []⟩ : Publication Id).MadeBy run [] :=
  ⟨rfl, by simp, by simp⟩

theorem orRetry_madeBy {t : Try Id} {row : Option Id} {retry : Publication Id} {ts : List (Try Id)}
    (hrow : t.attempt.row = row) (hretry : (run t).result = .ok none → retry.MadeBy run ts)
    (hend : (run t).result ≠ .ok none → ts = []) :
    ((run t).orRetry row retry).MadeBy run (t :: ts) := by
  unfold Tried.orRetry
  rcases hr : (run t).result with e | _ | c
  · rw [hend (by simp [hr])]
    exact ⟨by simp [hrow], by simp [hr], by simp [hr]⟩
  · obtain ⟨hrows, hok, herror⟩ := hretry hr
    exact ⟨by simp [hrow, hrows], by simp [hr, hok], by simpa [hr] using herror⟩
  · rw [hend (by simp [hr])]
    exact ⟨by simp [hrow], by simp [hr], by simp [hr]⟩

theorem genLoop_madeBy (hmk : ∀ a head, (mk a head).attempt = a) (left k : ℕ) (repoHead : Id) :
    (genLoop (fun a head => run (mk a head)) handle as left k repoHead).MadeBy run
      (genTries run mk handle as left k repoHead) := by
  have hrow : (mk (as k) repoHead).attempt.row = (as k).row := by rw [hmk]
  induction left generalizing k repoHead with
  | zero => exact orRetry_madeBy hrow (fun _ => madeBy_nil _) fun _ => rfl
  | succ left ih =>
    refine orRetry_madeBy hrow (fun hr => ?_) fun hr => ?_
    · simp only [hr]
      cases handle with
      | false => exact madeBy_nil .conflict
      | true =>
        cases hn : (as k).nextHead with
        | none => exact madeBy_nil .noRepo
        | some head => exact ih (k + 1) head (by rw [hmk])
    · split
      · exact absurd ‹_› hr
      · rfl

end Loop

/-! ## The attempts of an upload -/

section Rounds

variable [ObjectId Id] {run : Try Id → Tried Id}
  {post : Round Id → Commit Id → List Name → Option (Written Id (List Name))}
  {gen : Round Id → Commit Id → Id → Publication Id}
  {tries : Round Id → Commit Id → Id → List (Try Id)}

section

variable (post : Round Id → Commit Id → List Name → Option (Written Id (List Name)))
  (gen : Round Id → Commit Id → Id → Publication Id)
  (tries : Round Id → Commit Id → Id → List (Try Id))

/-- The attempts of an upload, over its rounds. -/
def postTries : List (Round Id) → List Name → List (Try Id)
  | [], _ => []
  | r :: rs, names =>
    match r.head with
    | none => []
    | some head => match post r head names with
      | none => []
      | some w => tries r head w.dirID ++
          match (gen r head w.dirID).result with
          | .error .conflict => postTries rs w.out
          | _ => []

end

/-- The upload is the one that these attempts make. -/
structure Posted.MadeBy (run : Try Id → Tried Id) (p : Posted Id) (ts : List (Try Id)) : Prop where
  rows : p.rows = ts.map fun t => (t.attempt.row, (run t).row)
  ok : (∃ l, p.result = some (.ok l)) ↔ ∃ t ∈ ts, ∃ c, (run t).result = .ok (some c)
  error : ∀ t ∈ ts, ∀ e, (run t).result = .error (.update e) →
    p.result = some (.error (.update e))

theorem Publication.MadeBy.orAgain {p : Publication Id} {ts again : List (Try Id)}
    (hp : p.MadeBy run ts) (w : Written Id (List Name)) {q : Posted Id} (hq : q.MadeBy run again) :
    (p.orAgain w q).MadeBy run (ts ++ match p.result with
      | .error .conflict => again
      | _ => []) := by
  unfold Publication.orAgain
  cases hr : p.result with
  | ok commit =>
    have hok := hp.ok.mp ⟨commit, hr⟩
    simp only [List.append_nil]
    refine ⟨hp.rows, iff_of_true ⟨_, rfl⟩ hok, fun t ht e he => ?_⟩
    rw [hp.error t ht _ he] at hr
    cases hr
  | error e =>
    have hno : ¬ ∃ t ∈ ts, ∃ c, (run t).result = .ok (some c) := by
      rw [← hp.ok, hr]
      rintro ⟨c, hc⟩
      cases hc
    by_cases hconflict : e = .conflict
    · subst hconflict
      refine ⟨?_, ?_, ?_⟩
      · rw [List.map_append, hp.rows, hq.rows]
      · rw [hq.ok]
        constructor
        · rintro ⟨t, ht, hok⟩
          exact ⟨t, List.mem_append_right _ ht, hok⟩
        · rintro ⟨t, ht, hok⟩
          rcases List.mem_append.mp ht with ht | ht
          · exact absurd ⟨t, ht, hok⟩ hno
          · exact ⟨t, ht, hok⟩
      · intro t ht e he
        rcases List.mem_append.mp ht with ht | ht
        · rw [hp.error t ht _ he] at hr
          cases hr
        · exact hq.error t ht e he
    · have hmade : (⟨some (.error e), p.rows⟩ : Posted Id).MadeBy run ts := by
        refine ⟨hp.rows, iff_of_false (fun ⟨l, hl⟩ => by cases hl) hno, fun t ht e' he' => ?_⟩
        have heq := (hp.error t ht _ he').symm.trans hr
        cases heq
        rfl
      cases e with
      | conflict => exact absurd rfl hconflict
      | _ => simpa only [List.append_nil] using hmade

theorem postLoop_madeBy (hgen : ∀ r head root, (gen r head root).MadeBy run (tries r head root))
    (rs : List (Round Id)) (names : List Name) :
    (postLoop post gen rs names).MadeBy run (postTries post gen tries rs names) := by
  have hnil : ∀ result : Option (Except PublishErr (Landed Id)), (∀ l, result ≠ some (.ok l)) →
      (⟨result, []⟩ : Posted Id).MadeBy run [] := by
    intro result hno
    exact ⟨rfl, by simp [hno], by simp⟩
  induction rs generalizing names with
  | nil => exact hnil none (by simp)
  | cons r rs ih =>
    unfold postLoop postTries
    cases hhead : r.head with
    | none => exact hnil _ (by simp)
    | some head =>
      cases hw : post r head names with
      | none =>
        simp only [hw]
        exact hnil _ (by simp)
      | some w =>
        simp only [hw]
        exact (hgen r head w.dirID).orAgain w (ih w.out)

end Rounds

/-! ## The attempts of both servers -/

section Servers

variable [ObjectId Id] [DecidableEq Id] (u : Upload Id)

/-- An attempt of a round: its base is the head of the round. -/
def Upload.mkTry (r : Round Id) (head : Commit Id) (root : Id) (a : Attempt Id) (repoHead : Id) :
    Try Id :=
  ⟨a, repoHead, head, (r.attempts 0).newCommit head.commitId none root, root, u.replace⟩

variable (r : Round Id)

omit [DecidableEq Id] in
theorem Upload.mkTry_attempt (head : Commit Id) (root : Id) (a : Attempt Id)
    (repoHead : Id) : (u.mkTry r head root a repoHead).attempt = a := rfl

namespace Server

/-- The attempts of one round. -/
def genTries (r : Round Id) (head : Commit Id) (root : Id) : List (Try Id) :=
  match r.genHead with
  | none => []
  | some repoHead =>
    if !r.saved then []
    else CloudFile.genTries (tried true u.lastGCID) (u.mkTry r head root) u.replace r.attempts
      maxRetryCnt 0 repoHead

theorem genRound_madeBy (head : Commit Id) (root : Id) :
    (genRound u r head root).MadeBy (tried true u.lastGCID) (genTries u r head root) := by
  unfold genRound genNewCommit genTries
  cases r.genHead with
  | none => exact madeBy_nil _
  | some repoHead =>
    cases r.saved with
    | false => exact madeBy_nil _
    | true => exact genLoop_madeBy (u.mkTry_attempt r head root) _ _ _

/-- The attempts of an upload. -/
def uploadTries (rounds : List (Round Id)) : List (Try Id) :=
  postTries (postRound u) (genRound u) (genTries u) rounds []

theorem postFilesAndGenCommit_madeBy (hne : u.fileNames ≠ []) (rounds : List (Round Id)) :
    (postFilesAndGenCommit u rounds).MadeBy (tried true u.lastGCID) (uploadTries u rounds) := by
  rw [postFilesAndGenCommit, if_neg hne]
  exact postLoop_madeBy (genRound_madeBy u) rounds []

end Server

namespace Fileserver

/-- The attempts of one round. -/
def genTries (r : Round Id) (head : Commit Id) (root : Id) : List (Try Id) :=
  if !r.saved then []
  else CloudFile.genTries (tried true u.lastGCID) (u.mkTry r head root) u.replace r.attempts
    maxRetryCnt 0 head.commitId

theorem genRound_madeBy (head : Commit Id) (root : Id) :
    (genRound u r head root).MadeBy (tried true u.lastGCID) (genTries u r head root) := by
  unfold genRound genNewCommit genTries
  cases r.saved with
  | false => exact madeBy_nil _
  | true => exact genLoop_madeBy (u.mkTry_attempt r head root) _ _ _

/-- The attempts of an upload. -/
def uploadTries (rounds : List (Round Id)) : List (Try Id) :=
  postTries (postRound u) (genRound u) (genTries u) rounds []

theorem postFilesAndGenCommit_madeBy (hne : u.fileNames ≠ []) (rounds : List (Round Id)) :
    (postFilesAndGenCommit u rounds).MadeBy (tried true u.lastGCID) (uploadTries u rounds) := by
  rw [postFilesAndGenCommit, if_neg hne]
  exact postLoop_madeBy (genRound_madeBy u) rounds []

end Fileserver

end Servers

end CloudFile
