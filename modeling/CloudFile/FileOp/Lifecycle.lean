/-
  The lifecycle of an upload of several files (`server/repo-op.c`, `server/index-blocks-mgr.c`,
  `fileserver/fileop.go`). After `PREPARE` comes one of `COMMITTED`, if the commit has become part
  of the head, and `ABORTED`. The C server hands this duty on to the function that publishes and
  to the thread that indexes the files.
-/
import CloudFile.Publish.Tries
import CloudFile.FileOp.SubjectPaths

namespace CloudFile

open List

variable {Id : Type}

/-! ## The model -/

/-- A file that was received, and what its later steps answer. -/
structure TmpFile (Id : Type) where
  /-- `stat` finds a regular file -/
  regular : Bool
  /-- the id and the size of the indexed file -/
  indexed : Option (Id × ℤ)

/-- A request, and what the steps before its publication answer. -/
structure MultiPost (Id : Type) where
  fileNames : List Name
  files : List (TmpFile Id)
  parentDir : Name
  user : Name
  replace : Bool
  lastModify : ℤ
  /-- the library is found -/
  repo : Bool
  /-- too many files of one name -/
  sameName : Bool
  encrypted : Bool
  /-- the key of an encrypted library is found -/
  key : Bool
  /-- the answer to `PREPARE` -/
  allowed : Bool
  /-- the row of `GCID`, if it can be read -/
  gcId : Option (Option GcId)
  /-- `index_blocks_mgr_start_index` finds the library and makes a token -/
  starts : Bool
  /-- the response can be formatted -/
  format : Bool
  now : ℕ → ℤ

/-- How far an upload has come. -/
inductive Ending where
  /-- it has returned -/
  | returned
  /-- it is still at it -/
  | running
  /-- a read through a null pointer -/
  | crashed
deriving DecidableEq

/-- The course of an upload: whether it was prepared, what was said after that, and the attempts to
    publish that were made. -/
structure Course (Id : Type) where
  prepared : Bool
  facts : List (FileOpFact Id)
  tries : List (Try Id)
  ending : Ending

/-- The request is refused. -/
def Course.refused : Course Id := ⟨false, [], [], .returned⟩

/-- It ends before a commit. -/
def Course.before (facts : List (FileOpFact Id)) : Course Id := ⟨true, facts, [], .returned⟩

namespace MultiPost

/-- The files as objects. -/
def indexBlocks (q : MultiPost Id) : Option (List (Id × ℤ)) := q.files.mapM TmpFile.indexed

/-- The id that the publication compares with; the C server takes a failed read for no id. -/
def lastGCID (q : MultiPost Id) : Option GcId := q.gcId.join

/-- The upload of the request. -/
def upload (q : MultiPost Id) (canonPath : Name) (lastModify : ℤ) (blocks : List (Id × ℤ)) :
    Upload Id :=
  ⟨q.fileNames, blocks.map Prod.fst, blocks.map Prod.snd, q.user, canonPath, q.replace, lastModify,
    q.lastGCID, q.now⟩

/-- The checks of the arguments. -/
def checksPass (q : MultiPost Id) : Bool :=
  q.repo && !(!q.replace && q.sameName) && !q.fileNames.any Fileserver.shouldIgnoreFile &&
    !decide (['/', '/'] <:+: q.parentDir)

end MultiPost

variable [ObjectId Id]

/-- How an upload ends. -/
def Posted.ending (p : Posted Id) : Ending := if p.result.isSome then .returned else .running

variable [DecidableEq Id]

namespace Server

/-- `post_files_and_gen_commit`, called with an error pointer. -/
def postAttached (u : Upload Id) (rounds : List (Round Id)) : Course Id :=
  ⟨true, (postFilesAndGenCommit u rounds).facts u, uploadTries u rounds,
    (postFilesAndGenCommit u rounds).ending⟩

/-- `post_files_and_gen_commit`, called without one: where `gen_new_commit` fails, `*error` is
    read. -/
def postDetached (u : Upload Id) : List (Round Id) → Course Id
  | [] => ⟨true, [], [], .running⟩
  | r :: _ =>
    match r.head with
    | none => .before [.aborted u.fileNames]
    | some head => match postRound u r head [] with
      | none => .before [.aborted u.fileNames]
      | some w =>
        if u.fileNames = [] then ⟨true, [], [], .crashed⟩
        else match (genRound u r head w.dirID).result with
        | .ok commit =>
          ⟨true, [.committed w.out commit.commitId], genTries u r head w.dirID, .returned⟩
        | .error _ => ⟨true, [], genTries u r head w.dirID, .crashed⟩

/-- The upload in a task of its own. -/
def startIndexTask (q : MultiPost Id) (rounds : List (Round Id)) : Course Id :=
  match q.indexBlocks with
  | none => .before []
  | some blocks => postDetached (q.upload (getCanonicalPath q.parentDir) 0 blocks) rounds

/-- `index_blocks_mgr_start_index` -/
def startIndex (q : MultiPost Id) (rounds : List (Round Id)) : Course Id :=
  if q.starts && q.files.all TmpFile.regular then startIndexTask q rounds else .before []

/-- `seaf_repo_manager_post_multi_files`; `detached` if there is a `task_id`. -/
def postMultiFiles (q : MultiPost Id) (rounds : List (Round Id)) (detached : Bool) : Course Id :=
  -- an empty list is `NULL`
  if q.fileNames = [] ∨ q.files.isEmpty ∨ !q.checksPass then .refused
  else if !q.allowed then .refused
  else if q.encrypted && !q.key then .before [.aborted q.fileNames]
  else if detached then startIndex q rounds
  else match q.indexBlocks with
    | none => .before [.aborted q.fileNames]
    | some blocks =>
      postAttached (q.upload (getCanonicalPath q.parentDir) q.lastModify blocks) rounds

end Server

namespace Fileserver

/-- `postFilesAndGenCommit` and what its caller says: `ABORTED` for every error, that of
    `formatJSONRet` too. -/
def postAndFormat (u : Upload Id) (format : Bool) (rounds : List (Round Id)) : Course Id :=
  let p := postFilesAndGenCommit u rounds
  let late : List (FileOpFact Id) := match p.result with
    | some (.ok _) => if format then [] else [.aborted u.fileNames]
    | _ => []
  ⟨true, p.facts u ++ late, uploadTries u rounds, p.ending⟩

/-- The upload within the request. -/
def postMultiFiles (q : MultiPost Id) (rounds : List (Round Id)) : Course Id :=
  if !q.checksPass || q.encrypted && !q.key then .refused
  else if !q.allowed then .refused
  else match q.gcId with
    | none => .before []
    | some _ => match q.indexBlocks with
      | none => .before []
      | some blocks =>
        postAndFormat (q.upload (getCanonPath q.parentDir) q.lastModify blocks) q.format rounds

end Fileserver

/-! ## What is to be said -/

/-- The commit of the files has become part of the head. -/
def Course.Landed (c : Course Id) (lastGCID : Option GcId) : Prop :=
  ∃ t ∈ c.tries, t.Lands true lastGCID

/-- One thing is said, and it is `COMMITTED` exactly if the commit has become part of the head. -/
structure Course.Settled (c : Course Id) (lastGCID : Option GcId) : Prop where
  one : c.facts.length = 1
  committed : (∃ names commitID, .committed names commitID ∈ c.facts) ↔ c.Landed lastGCID

/-! ## What the publication says -/

section Posted

variable {u : Upload Id} {p : Posted Id}

omit [DecidableEq Id] in
theorem Posted.length_facts (h : p.ending = .returned) : (p.facts u).length = 1 := by
  unfold Posted.ending at h
  unfold Posted.facts
  split
  next hnone => simp [hnone] at h
  next => rfl
  next => rfl

omit [DecidableEq Id] in
theorem Posted.committed_iff :
    (∃ names commitID, .committed names commitID ∈ p.facts u) ↔
      ∃ l, p.result = some (.ok l) := by
  unfold Posted.facts
  split
  next hnone => simp [hnone]
  next l hl => simp [hl]
  next e he => simp [he]

end Posted

omit [ObjectId Id] in
theorem settled_before {facts : List (FileOpFact Id)} {names : List Name}
    (hfacts : facts = [] ∨ facts = [.aborted names]) (lastGCID : Option GcId) :
    (Course.before facts).Settled lastGCID ↔ facts ≠ [] := by
  have hno : ¬ (Course.before facts).Landed lastGCID := by
    rintro ⟨t, ht, -⟩
    cases ht
  constructor
  · rintro ⟨hone, -⟩ rfl
    cases hone
  · intro hne
    obtain rfl := hfacts.resolve_left hne
    refine ⟨rfl, iff_of_false ?_ hno⟩
    rintro ⟨names', commitID, hmem⟩
    simp [Course.before] at hmem

namespace Server

omit [ObjectId Id] in
theorem tried_ok_mem_iff {ts : List (Try Id)} {lastGCID : Option GcId} :
    (∃ t ∈ ts, ∃ c, (tried true lastGCID t).result = .ok (some c)) ↔
      ∃ t ∈ ts, t.Lands true lastGCID := by
  simp only [tried_ok_iff]

variable {u : Upload Id}

theorem postAttached_settled (hne : u.fileNames ≠ []) (rounds : List (Round Id))
    (h : (postAttached u rounds).ending = .returned) :
    (postAttached u rounds).Settled u.lastGCID := by
  have hmade := postFilesAndGenCommit_madeBy u hne rounds
  refine ⟨Posted.length_facts h, ?_⟩
  rw [postAttached, Posted.committed_iff, hmade.ok, tried_ok_mem_iff]
  rfl

/-- The files are added to the tree of the head that the first round finds. -/
def Rewrites (u : Upload Id) (rounds : List (Round Id)) : Prop :=
  ∃ r head w, rounds.head? = some r ∧ r.head = some head ∧ postRound u r head [] = some w

/-- The attempts to publish of `post_files_and_gen_commit` without an error pointer: those of its
    first round. -/
def firstTries (u : Upload Id) : List (Round Id) → List (Try Id)
  | [] => []
  | r :: _ =>
    match r.head with
    | none => []
    | some head => match postRound u r head [] with
      | none => []
      | some w => if u.fileNames = [] then [] else genTries u r head w.dirID

theorem postDetached_tries (u : Upload Id) (rounds : List (Round Id)) :
    (postDetached u rounds).tries = firstTries u rounds := by
  cases rounds with
  | nil => rfl
  | cons r rs =>
    cases hhead : r.head with
    | none => simp [postDetached, firstTries, hhead, Course.before]
    | some head =>
      cases hw : postRound u r head [] with
      | none => simp [postDetached, firstTries, hhead, hw, Course.before]
      | some w =>
        simp only [postDetached, firstTries, hhead, hw]
        split_ifs
        · rfl
        · cases (genRound u r head w.dirID).result <;> rfl

theorem rewrites_cons {r : Round Id} {rs : List (Round Id)} :
    Rewrites u (r :: rs) ↔ ∃ head w, r.head = some head ∧ postRound u r head [] = some w := by
  simp [Rewrites]

theorem postDetached_cases (u : Upload Id) (r : Round Id) (rs : List (Round Id)) :
    ¬ Rewrites u (r :: rs) ∧ postDetached u (r :: rs) = .before [.aborted u.fileNames] ∨
    (postDetached u (r :: rs)).Landed u.lastGCID ∧
      (∃ names commitID ts,
        postDetached u (r :: rs) = ⟨true, [.committed names commitID], ts, .returned⟩) ∨
    Rewrites u (r :: rs) ∧ ¬ (postDetached u (r :: rs)).Landed u.lastGCID ∧
      ∃ ts, postDetached u (r :: rs) = ⟨true, [], ts, .crashed⟩ := by
  rw [rewrites_cons]
  cases hhead : r.head with
  | none => exact .inl ⟨by simp, by simp [postDetached, hhead]⟩
  | some head =>
    cases hw : postRound u r head [] with
    | none => exact .inl ⟨by simp [hw], by simp [postDetached, hhead, hw]⟩
    | some w =>
      have hrew : ∃ head' w', some head = some head' ∧ postRound u r head' [] = some w' :=
        ⟨head, w, rfl, hw⟩
      by_cases hnil : u.fileNames = []
      · have heq : postDetached u (r :: rs) = ⟨true, [], [], .crashed⟩ := by
          simp [postDetached, hhead, hw, hnil]
        refine .inr (.inr ⟨hrew, ?_, [], heq⟩)
        rw [heq]
        rintro ⟨t, ht, -⟩
        cases ht
      have hmade := genRound_madeBy u r head w.dirID
      have hland : (∃ commit, (genRound u r head w.dirID).result = .ok commit) ↔
          ∃ t ∈ genTries u r head w.dirID, t.Lands true u.lastGCID :=
        hmade.ok.trans tried_ok_mem_iff
      cases hr : (genRound u r head w.dirID).result with
      | ok commit =>
        have heq : postDetached u (r :: rs) = ⟨true, [.committed w.out commit.commitId],
            genTries u r head w.dirID, .returned⟩ := by
          simp [postDetached, hhead, hw, hnil, hr]
        refine .inr (.inl ⟨?_, _, _, _, heq⟩)
        rw [heq]
        exact hland.1 ⟨commit, hr⟩
      | error e =>
        have heq : postDetached u (r :: rs) =
            ⟨true, [], genTries u r head w.dirID, .crashed⟩ := by
          simp [postDetached, hhead, hw, hnil, hr]
        refine .inr (.inr ⟨hrew, ?_, _, heq⟩)
        rw [heq]
        intro hlanded
        obtain ⟨commit, hok⟩ := hland.2 hlanded
        rw [hr] at hok
        cases hok

theorem postDetached_settled_iff {rounds : List (Round Id)}
    (h : (postDetached u rounds).ending ≠ .running) :
    (postDetached u rounds).Settled u.lastGCID ↔
      (Rewrites u rounds → ∃ t ∈ firstTries u rounds, t.Lands true u.lastGCID) := by
  rw [← postDetached_tries, ← Course.Landed]
  cases rounds with
  | nil => exact absurd rfl h
  | cons r rs =>
    rcases postDetached_cases u r rs with ⟨hno, heq⟩ | ⟨hland, names, commitID, ts, heq⟩ |
      ⟨hrew, hno, ts, heq⟩
    · rw [heq]
      exact iff_of_true ((settled_before (Or.inr rfl) _).mpr (cons_ne_nil _ _))
        fun hrew => absurd hrew hno
    · rw [heq] at hland ⊢
      exact iff_of_true ⟨rfl, iff_of_true ⟨_, _, mem_singleton_self _⟩ hland⟩ fun _ => hland
    · refine iff_of_false (fun hs => ?_) fun hall => hno (hall hrew)
      rw [heq] at hs
      cases hs.one

end Server

namespace Fileserver

theorem postAndFormat_settled_iff {u : Upload Id} (hne : u.fileNames ≠ []) (format : Bool)
    (rounds : List (Round Id)) (h : (postAndFormat u format rounds).ending = .returned) :
    (postAndFormat u format rounds).Settled u.lastGCID ↔
      ∀ t ∈ uploadTries u rounds, t.Lands true u.lastGCID → t.postPass = true ∧ format = true := by
  have hmade := postFilesAndGenCommit_madeBy u hne rounds
  -- an attempt whose later steps fail ends the upload with an error
  have hlate : ∀ t ∈ uploadTries u rounds, t.Lands true u.lastGCID → t.postPass = false →
      (postFilesAndGenCommit u rounds).result = some (.error (.update .branchUpdated)) :=
    fun t ht hlands hpost => hmade.error t ht _ ((tried_lands hlands).2 hpost)
  have hok := hmade.ok
  simp only [tried_ok_iff] at hok
  cases hr : (postFilesAndGenCommit u rounds).result with
  | none => simp [postAndFormat, Posted.ending, hr] at h
  | some result =>
    cases result with
    | ok l =>
      obtain ⟨t₀, ht₀, hlands₀, hpost₀⟩ := hok.mp ⟨l, hr⟩
      have hfacts : (postAndFormat u format rounds).facts =
          .committed l.names l.commit.commitId ::
            if format then [] else [.aborted u.fileNames] := by
        simp [postAndFormat, Posted.facts, hr]
      constructor
      · intro hsettled t ht hlands
        refine ⟨?_, ?_⟩
        · by_contra hpost
          have herror := hlate t ht hlands (by simpa using hpost)
          rw [hr] at herror
          cases herror
        · by_contra hformat
          have hone := hsettled.one
          simp [hfacts, hformat] at hone
      · intro hall
        obtain ⟨-, hformat⟩ := hall t₀ ht₀ hlands₀
        rw [if_pos hformat] at hfacts
        refine ⟨by rw [hfacts]; rfl, iff_of_true ?_ ⟨t₀, ht₀, hlands₀⟩⟩
        exact ⟨_, _, by rw [hfacts]; exact mem_cons_self⟩
    | error e =>
      have hfacts : (postAndFormat u format rounds).facts = [.aborted u.fileNames] := by
        simp [postAndFormat, Posted.facts, hr]
      have hno : ¬ ∃ names commitID,
          .committed names commitID ∈ (postAndFormat u format rounds).facts := by
        rw [hfacts]
        simp
      constructor
      · intro hsettled t ht hlands
        exact absurd (hsettled.committed.mpr ⟨t, ht, hlands⟩) hno
      · intro hall
        refine ⟨by rw [hfacts]; rfl, iff_of_false hno ?_⟩
        rintro ⟨t, ht, hlands⟩
        obtain ⟨l, hl⟩ := hok.mpr ⟨t, ht, hlands, (hall t ht hlands).1⟩
        rw [hr] at hl
        cases hl

end Fileserver

/-! ## The lifecycle -/

/-- The thread gets the files: the library is still there, and all of them can be indexed. -/
def MultiPost.HandedOver (q : MultiPost Id) : Prop :=
  q.starts = true ∧ (∀ f ∈ q.files, f.regular = true) ∧ ∀ f ∈ q.files, f.indexed.isSome = true

/-- The files are added to the tree of the head that the thread finds. -/
def MultiPost.Rewrites (q : MultiPost Id) (rounds : List (Round Id)) : Prop :=
  ∃ blocks, q.indexBlocks = some blocks ∧
    Server.Rewrites (q.upload (Server.getCanonicalPath q.parentDir) 0 blocks) rounds

/-- The attempts to publish that the thread makes. -/
def MultiPost.taskTries (q : MultiPost Id) (rounds : List (Round Id)) : List (Try Id) :=
  q.indexBlocks.elim [] fun blocks =>
    Server.firstTries (q.upload (Server.getCanonicalPath q.parentDir) 0 blocks) rounds

/-- The attempts to publish that the file server makes. -/
def MultiPost.uploadTries (q : MultiPost Id) (rounds : List (Round Id)) : List (Try Id) :=
  q.indexBlocks.elim [] fun blocks => Fileserver.uploadTries
    (q.upload (Fileserver.getCanonPath q.parentDir) q.lastModify blocks) rounds

omit [ObjectId Id] [DecidableEq Id] in
theorem isSome_indexBlocks (q : MultiPost Id) :
    q.indexBlocks.isSome = true ↔ ∀ f ∈ q.files, f.indexed.isSome = true := by
  rw [MultiPost.indexBlocks]
  induction q.files with
  | nil => simp
  | cons f fs ih =>
    rw [forall_mem_cons, ← ih, mapM_cons]
    cases f.indexed <;> cases fs.mapM TmpFile.indexed <;> simp

section Lifecycle

variable {q : MultiPost Id} {rounds : List (Round Id)}

omit [DecidableEq Id] in
theorem Posted.ending_returned {p : Posted Id} (h : p.ending ≠ .running) :
    p.ending = .returned := by
  unfold Posted.ending at h ⊢
  split
  · rfl
  next hnone => exact absurd (if_neg hnone) h

namespace Server

theorem postMultiFiles_prepared {detached : Bool}
    (h : (postMultiFiles q rounds detached).prepared = true) :
    q.fileNames ≠ [] ∧ postMultiFiles q rounds detached =
      if q.encrypted && !q.key then .before [.aborted q.fileNames]
      else if detached then startIndex q rounds
      else match q.indexBlocks with
        | none => .before [.aborted q.fileNames]
        | some blocks =>
          postAttached (q.upload (getCanonicalPath q.parentDir) q.lastModify blocks) rounds := by
  unfold postMultiFiles at h ⊢
  split at h
  · cases h
  next hchecks =>
    split at h
    · cases h
    next hallowed =>
      rw [if_neg hchecks, if_neg hallowed]
      exact ⟨fun hnil => hchecks (Or.inl hnil), rfl⟩

theorem settled_attached (h : (postMultiFiles q rounds false).prepared = true)
    (hend : (postMultiFiles q rounds false).ending ≠ .running) :
    (postMultiFiles q rounds false).Settled q.lastGCID := by
  have haborted : (Course.before [.aborted q.fileNames] : Course Id).Settled q.lastGCID :=
    (settled_before (Or.inr rfl) _).mpr (cons_ne_nil _ _)
  obtain ⟨hne, heq⟩ := postMultiFiles_prepared h
  rw [heq] at hend ⊢
  split
  · exact haborted
  next hkey =>
    rw [if_neg hkey] at hend
    cases hblocks : q.indexBlocks with
    | none => exact haborted
    | some blocks =>
      simp only [hblocks] at hend
      exact postAttached_settled hne rounds (Posted.ending_returned hend)

theorem settled_detached_iff (h : (postMultiFiles q rounds true).prepared = true)
    (hend : (postMultiFiles q rounds true).ending ≠ .running) :
    (postMultiFiles q rounds true).Settled q.lastGCID ↔
      q.encrypted = true ∧ q.key = false ∨ q.HandedOver ∧
        (q.Rewrites rounds → ∃ t ∈ q.taskTries rounds, t.Lands true q.lastGCID) := by
  have hsilent : ¬ (Course.before [] : Course Id).Settled q.lastGCID := fun hs => by cases hs.one
  obtain ⟨-, heq⟩ := postMultiFiles_prepared h
  rw [heq] at hend ⊢
  by_cases hkey : (q.encrypted && !q.key) = true
  · rw [if_pos hkey]
    exact iff_of_true ((settled_before (Or.inr rfl) _).mpr (cons_ne_nil _ _))
      (Or.inl (by simpa using hkey))
  · have hkey' : ¬ (q.encrypted = true ∧ q.key = false) := by simpa using hkey
    rw [if_neg hkey] at hend ⊢
    rw [or_iff_right hkey']
    unfold startIndex at hend ⊢
    by_cases hstart : (q.starts && q.files.all TmpFile.regular) = true
    · rw [if_pos hstart] at hend ⊢
      unfold startIndexTask at hend ⊢
      cases hblocks : q.indexBlocks with
      | none =>
        refine iff_of_false hsilent ?_
        rintro ⟨⟨-, -, hindexed⟩, -⟩
        rw [← isSome_indexBlocks, hblocks] at hindexed
        cases hindexed
      | some blocks =>
        have hindexed := (isSome_indexBlocks q).mp (by rw [hblocks]; rfl)
        have hover : q.HandedOver := by
          rw [Bool.and_eq_true, all_eq_true] at hstart
          exact ⟨hstart.1, hstart.2, hindexed⟩
        have hrew : q.Rewrites rounds ↔
            Rewrites (q.upload (getCanonicalPath q.parentDir) 0 blocks) rounds := by
          simp [MultiPost.Rewrites, hblocks]
        simp only [hblocks, MultiPost.taskTries, Option.elim_some] at hend ⊢
        rw [and_iff_right hover, hrew]
        exact postDetached_settled_iff hend
    · rw [if_neg hstart]
      refine iff_of_false hsilent ?_
      rintro ⟨⟨hstarts, hregular, -⟩, -⟩
      exact hstart (by rw [hstarts, all_eq_true.mpr hregular]; rfl)

end Server

theorem Fileserver.settled_iff (h : (postMultiFiles q rounds).prepared = true)
    (hend : (postMultiFiles q rounds).ending ≠ .running) :
    (postMultiFiles q rounds).Settled q.lastGCID ↔
      q.gcId.isSome = true ∧ (∀ f ∈ q.files, f.indexed.isSome = true) ∧
        ∀ t ∈ q.uploadTries rounds, t.Lands true q.lastGCID →
          t.postPass = true ∧ q.format = true := by
  have hsilent : ¬ (Course.before [] : Course Id).Settled q.lastGCID := fun hs => by cases hs.one
  unfold postMultiFiles at h hend ⊢
  split at h
  · cases h
  next hchecks =>
    split at h
    · cases h
    next hallowed =>
      rw [if_neg hchecks, if_neg hallowed] at hend ⊢
      rw [← isSome_indexBlocks]
      cases hgc : q.gcId with
      | none => exact iff_of_false hsilent (by simp)
      | some gcId =>
        cases hblocks : q.indexBlocks with
        | none => exact iff_of_false hsilent (by simp)
        | some blocks =>
          simp only [hgc, hblocks, MultiPost.uploadTries, Option.elim_some] at hend ⊢
          simp only [Option.isSome_some, true_and]
          have hne : q.fileNames ≠ [] := by
            intro hnil
            refine hend ?_
            simp [postAndFormat, postFilesAndGenCommit, MultiPost.upload, hnil, Posted.ending]
          exact postAndFormat_settled_iff hne q.format rounds (Posted.ending_returned hend)

/-- **The lifecycle of an upload.** What was allowed is settled once and truthfully: always where
    the C server indexes itself, and under these conditions by its threads and by the file server.
    -/
theorem lifecycle_settled_iff (q : MultiPost Id) (rounds : List (Round Id)) :
    ((Server.postMultiFiles q rounds false).prepared = true →
      (Server.postMultiFiles q rounds false).ending ≠ .running →
      (Server.postMultiFiles q rounds false).Settled q.lastGCID) ∧
    ((Server.postMultiFiles q rounds true).prepared = true →
      (Server.postMultiFiles q rounds true).ending ≠ .running →
      ((Server.postMultiFiles q rounds true).Settled q.lastGCID ↔
        q.encrypted = true ∧ q.key = false ∨ q.HandedOver ∧
          (q.Rewrites rounds → ∃ t ∈ q.taskTries rounds, t.Lands true q.lastGCID))) ∧
    ((Fileserver.postMultiFiles q rounds).prepared = true →
      (Fileserver.postMultiFiles q rounds).ending ≠ .running →
      ((Fileserver.postMultiFiles q rounds).Settled q.lastGCID ↔
        q.gcId.isSome = true ∧ (∀ f ∈ q.files, f.indexed.isSome = true) ∧
          ∀ t ∈ q.uploadTries rounds, t.Lands true q.lastGCID →
            t.postPass = true ∧ q.format = true)) :=
  ⟨Server.settled_attached, Server.settled_detached_iff, Fileserver.settled_iff⟩

end Lifecycle

/-! ## The status of a task -/

/-- What `post_files_and_gen_commit` returns: `ABORTED` is said where that is not 0. -/
def FileOpFact.ret : FileOpFact Id → ℤ
  | .committed _ _ => 0
  | .aborted _ => -1

/-- What the caller gets. -/
def Course.ret (c : Course Id) : Option ℤ :=
  if c.ending = .returned then c.facts.head?.map FileOpFact.ret else none

namespace Server

/-- `progress->status` after `start_index_task`. -/
def taskStatus (q : MultiPost Id) (rounds : List (Round Id)) : Option ℤ :=
  match q.indexBlocks with
  | none => some (-1)
  | some blocks => (postDetached (q.upload (getCanonicalPath q.parentDir) 0 blocks) rounds).ret

/-- The status is 0 exactly if the commit of the files has become part of the head, and negative
    otherwise; the task publishes as an upload does, and no null pointer is read. -/
structure TruthfulTask (q : MultiPost Id) (rounds : List (Round Id)) : Prop where
  status : ∃ s, taskStatus q rounds = some s ∧
    (s = 0 ↔ (startIndexTask q rounds).Landed q.lastGCID) ∧ (s ≠ 0 → s < 0)
  retries : ∀ blocks, q.fileNames ≠ [] → q.indexBlocks = some blocks →
    startIndexTask q rounds =
      postAttached (q.upload (getCanonicalPath q.parentDir) 0 blocks) rounds
  safe : (startIndexTask q rounds).ending ≠ .crashed

theorem postDetached_eq_attached {u : Upload Id} {r : Round Id} {rs : List (Round Id)}
    (hne : u.fileNames ≠ []) (h : (postDetached u (r :: rs)).ending ≠ .crashed) :
    postDetached u (r :: rs) = postAttached u (r :: rs) := by
  cases hhead : r.head with
  | none =>
    simp [postDetached, postAttached, postFilesAndGenCommit, postLoop, uploadTries, postTries,
      Posted.facts, Posted.ending, Course.before, hne, hhead]
  | some head =>
    cases hw : postRound u r head [] with
    | none =>
      simp [postDetached, postAttached, postFilesAndGenCommit, postLoop, uploadTries, postTries,
        Posted.facts, Posted.ending, Course.before, hne, hhead, hw]
    | some w =>
      cases hr : (genRound u r head w.dirID).result with
      | ok commit =>
        simp [postDetached, postAttached, postFilesAndGenCommit, postLoop, uploadTries, postTries,
          Posted.facts, Posted.ending, Publication.orAgain, hne, hhead, hw, hr]
      | error e => simp [postDetached, hne, hhead, hw, hr] at h

theorem startIndexTask_tries (q : MultiPost Id) (rounds : List (Round Id)) :
    (startIndexTask q rounds).tries = q.taskTries rounds := by
  unfold startIndexTask MultiPost.taskTries
  cases q.indexBlocks with
  | none => rfl
  | some blocks => exact postDetached_tries _ rounds

/-- **The status of a task is truthful** exactly if its files cannot be added to the head, or an
    attempt to publish them lands. -/
theorem startIndexTask_truthful_iff (q : MultiPost Id) (r : Round Id) (rs : List (Round Id)) :
    TruthfulTask q (r :: rs) ↔
      (q.Rewrites (r :: rs) → ∃ t ∈ q.taskTries (r :: rs), t.Lands true q.lastGCID) := by
  rw [← startIndexTask_tries, ← Course.Landed]
  cases hblocks : q.indexBlocks with
  | none =>
    have htask : startIndexTask q (r :: rs) = .before [] := by simp [startIndexTask, hblocks]
    have hno : ¬ (startIndexTask q (r :: rs)).Landed q.lastGCID := by
      rw [htask]
      rintro ⟨t, ht, -⟩
      cases ht
    refine iff_of_true ⟨⟨-1, by simp [taskStatus, hblocks], iff_of_false (by decide) hno,
      fun _ => by decide⟩, fun blocks _ hsome => ?_, ?_⟩ ?_
    · rw [hblocks] at hsome
      cases hsome
    · rw [htask]
      simp [Course.before]
    · rintro ⟨blocks, hsome, -⟩
      rw [hblocks] at hsome
      cases hsome
  | some blocks =>
    have htask : startIndexTask q (r :: rs) = postDetached
        (q.upload (getCanonicalPath q.parentDir) 0 blocks) (r :: rs) := by
      simp [startIndexTask, hblocks]
    have hstatus : taskStatus q (r :: rs) = (startIndexTask q (r :: rs)).ret := by
      rw [htask]
      simp [taskStatus, hblocks]
    have hrew : q.Rewrites (r :: rs) ↔
        Rewrites (q.upload (getCanonicalPath q.parentDir) 0 blocks) (r :: rs) := by
      simp [MultiPost.Rewrites, hblocks]
    have hretries : (startIndexTask q (r :: rs)).ending ≠ .crashed →
        ∀ blocks', q.fileNames ≠ [] → some blocks = some blocks' → startIndexTask q (r :: rs) =
          postAttached (q.upload (getCanonicalPath q.parentDir) 0 blocks') (r :: rs) := by
      rintro hsafe blocks' hne ⟨⟩
      rw [htask] at hsafe ⊢
      exact postDetached_eq_attached hne hsafe
    have hcases := postDetached_cases (q.upload (getCanonicalPath q.parentDir) 0 blocks) r rs
    rw [← htask, ← hrew] at hcases
    have hgc : (q.upload (getCanonicalPath q.parentDir) 0 blocks).lastGCID = q.lastGCID := rfl
    rcases hcases with ⟨hno, heq⟩ | ⟨hland, names, commitID, ts, heq⟩ | ⟨hrews, hno, ts, heq⟩
    · have hlost : ¬ (startIndexTask q (r :: rs)).Landed q.lastGCID := by
        rw [heq]
        rintro ⟨t, ht, -⟩
        cases ht
      have hsafe : (startIndexTask q (r :: rs)).ending ≠ .crashed := by
        rw [heq]
        simp [Course.before]
      refine iff_of_true ⟨⟨-1, ?_, iff_of_false (by decide) hlost, fun _ => by decide⟩,
        hblocks ▸ hretries hsafe, hsafe⟩ fun hrews => absurd hrews hno
      rw [hstatus, heq]
      rfl
    · have hsafe : (startIndexTask q (r :: rs)).ending ≠ .crashed := by
        rw [heq]
        simp
      refine iff_of_true ⟨⟨0, ?_, iff_of_true rfl hland, fun h => absurd rfl h⟩,
        hblocks ▸ hretries hsafe, hsafe⟩ fun _ => hland
      rw [hstatus, heq]
      rfl
    · refine iff_of_false (fun h => h.safe ?_) fun hall => hno (hall hrews)
      rw [heq]

end Server

/-! ## An upload of one file -/

def postF : MultiPost ℕ where
  fileNames := [['f']]
  files := [⟨true, some (5, 1)⟩]
  parentDir := ['/']
  user := ['u']
  replace := false
  lastModify := 0
  repo := true
  sameName := false
  encrypted := false
  key := false
  allowed := true
  gcId := some none
  starts := true
  format := true
  now _ := 3

theorem landed_of_refusal {Id : Type} [DecidableEq Id] {c : Course Id} {lastGCID : Option GcId}
    (h : ∃ t ∈ c.tries, t.target.isSome = true ∧
      refusal t.attempt.steps .database true lastGCID t.attempt.row t.repoHead = none) :
    c.Landed lastGCID := by
  obtain ⟨t, ht, htarget, href⟩ := h
  obtain ⟨hpass, hrow⟩ := refusal_eq_none.mp href
  exact ⟨t, ht, htarget, hpass, hrow⟩

/-- The request is done. -/
def Course.Done {Id : Type} (c : Course Id) : Prop := c.prepared = true ∧ c.ending = .returned

theorem lifecycle_settled_plain :
    ((Server.postMultiFiles postF [plainRound 1 0 1] false).Done ∧
      (Server.postMultiFiles postF [plainRound 1 0 1] false).Settled none) ∧
    ((Server.postMultiFiles postF [plainRound 1 0 1] true).Done ∧
      (Server.postMultiFiles postF [plainRound 1 0 1] true).Settled none) ∧
    ((Fileserver.postMultiFiles postF [plainRound 1 0 1]).Done ∧
      (Fileserver.postMultiFiles postF [plainRound 1 0 1]).Settled none) := by
  have hlanded : (Server.startIndexTask postF [plainRound 1 0 1]).Landed none :=
    landed_of_refusal (by decide +kernel)
  rw [Course.Landed, Server.startIndexTask_tries] at hlanded
  have hpost : ∀ t ∈ postF.uploadTries [plainRound 1 0 1], t.postPass = true := by
    decide +kernel
  obtain ⟨hattached, hdetached, hfile⟩ := lifecycle_settled_iff postF [plainRound 1 0 1]
  refine ⟨⟨⟨rfl, by decide +kernel⟩, hattached rfl (by decide +kernel)⟩,
    ⟨⟨rfl, by decide +kernel⟩, ?_⟩, ⟨rfl, by decide +kernel⟩, ?_⟩
  · exact (hdetached rfl (by decide +kernel)).mpr
      (Or.inr ⟨⟨rfl, by decide, by decide⟩, fun _ => hlanded⟩)
  · exact (hfile rfl (by decide +kernel)).mpr
      ⟨rfl, by decide, fun t ht _ => ⟨hpost t ht, rfl⟩⟩

/-- **Uploads that are not settled**: by a thread that cannot index the file or loses a race, and by
    the file server without a GC id, or where something fails after the transaction. -/
theorem lifecycle_unsettled :
    (∀ c ∈ [Server.postMultiFiles { postF with files := [⟨true, none⟩] } [plainRound 1 0 1] true,
        Fileserver.postMultiFiles { postF with gcId := none } [plainRound 1 0 1],
        Fileserver.postMultiFiles { postF with format := false } [plainRound 1 0 1],
        Fileserver.postMultiFiles postF [brokenInfoRound]], c.Done ∧ ¬ c.Settled none) ∧
    ((Server.postMultiFiles postF [plainRound 1 0 2] true).prepared = true ∧
      (Server.postMultiFiles postF [plainRound 1 0 2] true).ending = .crashed ∧
      ¬ (Server.postMultiFiles postF [plainRound 1 0 2] true).Settled none) := by
  have hlength : ∀ {c : Course ℕ}, c.facts.length ≠ 1 → ¬ c.Settled none := fun hne hs => hne hs.one
  have hfacts : (Fileserver.postMultiFiles postF [brokenInfoRound]).facts =
      [.aborted [['f']]] := rfl
  have hlanded : (Fileserver.postMultiFiles postF [brokenInfoRound]).Landed none :=
    landed_of_refusal (by decide +kernel)
  refine ⟨?_, rfl, by decide +kernel, hlength (by decide +kernel)⟩
  simp only [forall_mem_cons, not_mem_nil, false_imp_iff, implies_true, and_true]
  refine ⟨⟨⟨rfl, rfl⟩, hlength (by decide +kernel)⟩, ⟨⟨rfl, rfl⟩, hlength (by decide +kernel)⟩,
    ⟨⟨rfl, by decide +kernel⟩, hlength (by decide +kernel)⟩, ⟨rfl, by decide +kernel⟩, ?_⟩
  intro hs
  obtain ⟨names, commitID, hmem⟩ := hs.committed.mpr hlanded
  simp [hfacts] at hmem

/-- **A task that crashes**: its publication fails, and the error is read through a pointer that
    it has not given. -/
theorem startIndexTask_crashes :
    (Server.startIndexTask postF [plainRound 1 0 2]).ending = .crashed ∧
      Server.taskStatus postF [plainRound 1 0 2] = none ∧
      ¬ Server.TruthfulTask postF [plainRound 1 0 2] := by
  have hcrash : (Server.startIndexTask postF [plainRound 1 0 2]).ending = .crashed := by
    decide +kernel
  exact ⟨hcrash, by decide +kernel, fun h => h.safe hcrash⟩

end CloudFile
