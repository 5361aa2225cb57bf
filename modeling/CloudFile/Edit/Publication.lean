/-
  What a publication of the edit agent does (`cfEditCommit`). The lookup and the write read a path
  differently where a name above the file is no directory, and the id of a commit does not depend
  on its parent. Apart from the two, it does exactly what it says (`edit_publication_iff`).
-/
import CloudFile.Edit.Fenced
import CloudFile.Write.Edited
import CloudFile.Fs.PathResolution

namespace CloudFile

open SortedWalk GoPath Option

variable {Id D : Type} [ObjectId Id] [CommitId Id] [DecidableEq Id] [DecidableEq D]
  {sha256 : Name → D} {o : Objects Id} {c : EditClaims Id} {q : PublishRequest Id}

/-! ## The path of a ticket -/

/-- The path of the file. -/
def EditClaims.names (c : EditClaims Id) : List Name := comps c.filePath
/-- The path of its directory. -/
def EditClaims.parent (c : EditClaims Id) : List Name := c.names.dropLast

theorem clean_of_canonical {path : Name} (h : cfACLCanonical path = true) :
    isRooted path = true ∧ clean path = path := by
  simp only [cfACLCanonical, Bool.and_eq_true, decide_eq_true_eq] at h
  obtain ⟨⟨⟨⟨-, hroot⟩, hclean⟩, -⟩, -⟩ := h
  exact ⟨by simpa [isRooted] using hroot, hclean⟩

section

omit [ObjectId Id] [CommitId Id] [DecidableEq Id]

theorem EditClaims.clean (c : EditClaims Id) :
    isRooted c.filePath = true ∧ GoPath.clean c.filePath = c.filePath :=
  clean_of_canonical c.canonical

theorem EditClaims.names_eq (c : EditClaims Id) : c.names = c.parent ++ [base c.filePath] := by
  obtain ⟨hroot, hclean⟩ := c.clean
  have hne : c.names ≠ [] := by
    intro hnil
    apply c.notRoot
    rw [← hclean, clean_rooted hroot, show comps c.filePath = [] from hnil]
    rfl
  have hsplit : c.names = c.parent ++ [c.names.getLast hne] :=
    (List.dropLast_append_getLast hne).symm
  rwa [(clean_rooted_split hroot hclean hsplit).1]

theorem EditClaims.toPathNames_dir (c : EditClaims Id) :
    toPathNames (stripSlash (dir c.filePath)) = c.parent := by
  obtain ⟨hroot, hclean⟩ := c.clean
  rw [(clean_rooted_split hroot hclean c.names_eq).2]
  refine toPathNames_joinFields fun n hn => ?_
  have hmem : n ∈ c.names := by
    rw [c.names_eq]
    exact List.mem_append_left _ hn
  exact part_of_mem_cleanFields hmem

end

/-! ## The lookup and the write -/

omit [ObjectId Id] [CommitId Id] [DecidableEq Id] in
theorem editDent_spec (c : EditClaims Id) (q : PublishRequest Id) :
    (Fileserver.editDent c q).isReg = true ∧ (Fileserver.editDent c q).isDir = false ∧
    (Fileserver.editDent c q).name = base c.filePath ∧ (Fileserver.editDent c q).id = q.fileID ∧
    (Fileserver.editDent c q).size = q.size ∧ (Fileserver.editDent c q).modifier = c.subject ∧
    (Fileserver.editDent c q).mtime = q.mtime := by
  have hreg : sIsReg (sIfreg ||| 0o644) = true := by decide
  have hnew : (Fileserver.editDent c q).isReg = true := by
    simp [Fileserver.editDent, Dirent.new, Dirent.isReg, hreg]
  refine ⟨hnew, Dirent.isDir_of_isReg hnew, ?_⟩
  simp [Fileserver.editDent, Dirent.new, hreg]

variable {head root parent : Id} {hc : Commit Id} {user desc : Name} {ctime : UInt64}

theorem cfEditActual_commit {i : Id}
    (h : Fileserver.cfEditActual o head c.filePath = some (i, hc)) : o.commits head = some hc := by
  simp only [Fileserver.cfEditActual, bind_eq_bind, bind_eq_some_iff] at h
  obtain ⟨hc', hload, r, -, hreg⟩ := h
  split_ifs at hreg
  cases hreg
  exact hload

theorem cfEditActual_lookedUp {i : Id} {k : ℕ}
    (h : Fileserver.cfEditActual o head c.filePath = some (i, hc))
    (hT : Tree (UniqueKeys Dirent.name) o.fs k hc.rootId) :
    ∃ d, lookedUp o.fs hc.rootId c.parent (base c.filePath) = some d ∧ d.isReg = true ∧
      d.id = i := by
  simp only [Fileserver.cfEditActual, bind_eq_bind, bind_eq_some_iff] at h
  obtain ⟨hc', -, ⟨i', mode⟩, hfound, hreg⟩ := h
  split_ifs at hreg with hmode
  cases hreg
  rw [Fileserver.getObjIDByPath_found hT c.names_eq] at hfound
  obtain ⟨d, hd, heq⟩ := map_eq_some_iff.1 hfound
  obtain ⟨rfl, rfl⟩ := Prod.mk.inj heq
  exact ⟨d, hd, hmode, rfl⟩

omit [DecidableEq Id] in
theorem rootId_of_twin {cm : Commit Id}
    (h : o.commits (Fileserver.newCommit parent root user desc ctime).commitId = some cm) :
    cm.rootId = root := by
  obtain ⟨-, text, htext⟩ := o.saved _ _ h
  exact (computeCommitID_injective htext).1

omit [DecidableEq Id] in
theorem rootId_getD :
    ((o.commits (Fileserver.newCommit parent root user desc ctime).commitId).getD
      (Fileserver.newCommit parent root user desc ctime)).rootId = root := by
  cases h : o.commits (Fileserver.newCommit parent root user desc ctime).commitId with
  | none => rfl
  | some cm => exact rootId_of_twin h

theorem commitFile_spec {r : Id × Objects Id} (h : Fileserver.commitFile o c q head root = .ok r) :
    q.fileID = q.base ∧ r = (head, o) ∨
    q.fileID ≠ q.base ∧ ∃ root', o.fs ≤ r.2.fs ∧
      Rewritten (fun es => some (replaceEntry (Fileserver.editDent c q) es, ())) q.dirTime o.fs
        r.2.fs root c.parent root' () ∧
      r.1 = (Fileserver.newCommit head root' c.subject (Fileserver.editDesc c) q.ctime).commitId ∧
      r.2.commits r.1 = some ((o.commits r.1).getD
        (Fileserver.newCommit head root' c.subject (Fileserver.editDesc c) q.ctime)) := by
  unfold Fileserver.commitFile at h
  split_ifs at h with hsame
  · cases h
    exact .inl ⟨hsame, rfl⟩
  · simp only [bind_ok, orFail_ok, require_ok, Except.ok.injEq] at h
    obtain ⟨w, hw, -, -, rfl⟩ := h
    rw [Fileserver.doPutFile, c.toPathNames_dir] at hw
    obtain ⟨hle, hrew⟩ := rewriteRecursive_spec hw
    refine .inr ⟨hsame, w.dirID, hle, hrew, rfl, ?_⟩
    cases h : o.commits (Fileserver.newCommit head w.dirID c.subject (Fileserver.editDesc c)
      q.ctime).commitId <;> simp [Objects.saveCommit, h]

/-! ## Publications that do what they say -/

/-- The checkout under which a commit or a checkin is made: unexpired, with the presented base
    and proof. -/
def GuardedBase (sha256 : Name → D) (s : EditState Id D) (c : EditClaims Id)
    (q : PublishRequest Id) : Prop :=
  ∃ row g, s.db.guards.lookup c.filePath = some row ∧ Verified sha256 c row q.proof g ∧
    g.baseID = q.base ∧ q.clock.now < g.expires

/-- The file had the presented base, and the new head is the old one or a commit on it that edits
    this file and nothing else. -/
def PublishesFile (sha256 : Name → D) (s s' : EditState Id D) (c : EditClaims Id)
    (q : PublishRequest Id) : Prop :=
  ∃ head hc d, s.db.head = some head ∧ s.objects.commits head = some hc ∧
    entryAt s.objects.fs hc.rootId c.names = some d ∧ d.isReg = true ∧ d.id = q.base ∧
    (q.action ≠ .optimistic → GuardedBase sha256 s c q) ∧
    (q.fileID = q.base ∧ s'.db.head = some head ∨
      q.fileID ≠ q.base ∧ ∃ new cm dent, s'.db.head = some new ∧
        s'.objects.commits new = some cm ∧ cm.parents = [head] ∧
        dent.isReg = true ∧ dent.id = q.fileID ∧ dent.size = q.size ∧
        dent.modifier = c.subject ∧ dent.mtime = q.mtime ∧
        EditedTree s.objects.fs hc.rootId s'.objects.fs cm.rootId c.names dent)

/-- The names above the file are directories of the head. -/
def ParentResolves (s : EditState Id D) (c : EditClaims Id) : Prop :=
  ∀ head hc, s.db.head = some head → s.objects.commits head = some hc →
    Resolvable s.objects.fs hc.rootId c.parent

/-- No commit with the fields of the new one is stored with other parents than the head. -/
def NoTwin (s : EditState Id D) (c : EditClaims Id) (q : PublishRequest Id) : Prop :=
  q.fileID ≠ q.base → ∀ head hc root cm, s.db.head = some head →
    s.objects.commits head = some hc →
    editedRoot q.dirTime (Fileserver.editDent c q) s.objects.fs hc.rootId c.parent = some root →
    s.objects.commits
      (Fileserver.newCommit head root c.subject (Fileserver.editDesc c) q.ctime).commitId =
      some cm → cm.parents = [head]

/-- The tree of the head can be read. -/
def HeadTree (s : EditState Id D) : Prop :=
  ∀ head hc, s.db.head = some head → s.objects.commits head = some hc →
    ∃ k, Tree (UniqueKeys Dirent.name) s.objects.fs k hc.rootId

section Accepted

variable {s : EditState Id D} {head : Id} {actual : Id × Commit Id} {r : Id × Objects Id}
  (hhead : s.db.head = some head)
  (hactual : Fileserver.cfEditActual s.objects head c.filePath = some actual)
  (hr : Fileserver.commitFile s.objects c q head actual.2.rootId = .ok r)
include hhead hactual hr

omit [DecidableEq D] in
theorem published_commit (hne : q.fileID ≠ q.base) (htwin : NoTwin s c q) :
    ∃ root' cm, s.objects.fs ≤ r.2.fs ∧
      Rewritten (fun es => some (replaceEntry (Fileserver.editDent c q) es, ())) q.dirTime
        s.objects.fs r.2.fs actual.2.rootId c.parent root' () ∧
      r.2.commits r.1 = some cm ∧ cm.rootId = root' ∧ cm.parents = [head] := by
  rcases commitFile_spec hr with ⟨hsame, -⟩ | ⟨-, root', hle, hrew, hid, hcm⟩
  · exact absurd hsame hne
  · refine ⟨root', _, hle, hrew, hcm, ?_⟩
    cases hold : s.objects.commits r.1 with
    | none => exact ⟨rfl, rfl⟩
    | some cm =>
      rw [hid] at hold
      exact ⟨rootId_of_twin hold,
        htwin hne head _ root' cm hhead (cfEditActual_commit hactual) hrew.editedRoot_eq hold⟩

omit [DecidableEq D] in
theorem noTwin_of_parents (h : q.fileID ≠ q.base → ∃ cm, r.2.commits r.1 = some cm ∧
    cm.parents = [head]) : NoTwin s c q := by
  intro hne head' hc root cm hhead' hhc hroot hcm
  obtain rfl := mem_unique hhead hhead'
  obtain rfl := mem_unique (cfEditActual_commit hactual) hhc
  rcases commitFile_spec hr with ⟨hsame, -⟩ | ⟨-, root', -, hrew, hid, hstored⟩
  · exact absurd hsame hne
  · obtain rfl := mem_unique hrew.editedRoot_eq hroot
    obtain ⟨cm', hcm', hparents⟩ := h hne
    rw [← hid] at hcm
    rw [hcm, getD_some] at hstored
    obtain rfl := mem_unique hcm' hstored
    exact hparents

end Accepted

/-- **When a publication does exactly what it answers**: the names above the file are directories
    of the head, and no commit of the same tree, user, description and second has other parents. -/
theorem edit_publication_iff (sha256 : Name → D) (s : EditState Id D) (c : EditClaims Id)
    (q : PublishRequest Id) (hs : HeadTree s) :
    (answerStatus (s.exec sha256 (.publish c q)).1 = 200 →
      (PublishesFile sha256 s (s.exec sha256 (.publish c q)).2 c q ↔
        ParentResolves s c ∧ NoTwin s c q)) ∧
    (answerStatus (s.exec sha256 (.publish c q)).1 ≠ 200 →
      (s.exec sha256 (.publish c q)).2.db = s.db) := by
  rcases exec_publish sha256 s c q with ⟨e, he⟩ | ⟨ok, o', db', hrun, he⟩
  · rw [he]
    exact ⟨fun h => absurd h e.status_ne_ok, fun _ => rfl⟩
  rw [he]
  refine ⟨fun _ => ?_, fun h => absurd rfl h⟩
  obtain ⟨head, actual, r, hhead, hactual, hbase, hguard, hr, -, rfl, rfl⟩ :=
    cfEditCommit_spec hrun
  have hload := cfEditActual_commit hactual
  obtain ⟨k, hT⟩ := hs head actual.2 hhead hload
  constructor
  · rintro ⟨head', hc, d, hhead', hload', hentry, -, -, -, hpub⟩
    obtain rfl := mem_unique hhead hhead'
    obtain rfl := mem_unique hload hload'
    constructor
    · intro head' hc hhead' hload'
      obtain rfl := mem_unique hhead hhead'
      obtain rfl := mem_unique hload hload'
      by_contra hno
      rw [c.names_eq, entryAt_of_not_resolvable hno] at hentry
      cases hentry
    · refine noTwin_of_parents hhead hactual hr fun hne => ?_
      rcases hpub with ⟨hsame, -⟩ | ⟨-, new, cm, dent, hnew, hcm, hparents, -⟩
      · exact absurd hsame hne
      · obtain rfl : r.1 = new := some.inj hnew
        exact ⟨cm, hcm, hparents⟩
  · rintro ⟨hparent, htwin⟩
    obtain ⟨d, hd, hreg, hid⟩ := cfEditActual_lookedUp hactual hT
    rw [lookedUp_of_resolvable (hparent head actual.2 hhead hload), ← c.names_eq] at hd
    refine ⟨head, actual.2, d, hhead, hload, hd, hreg, hid.trans hbase, commitGuard_spec hguard, ?_⟩
    by_cases hne : q.fileID = q.base
    · rcases commitFile_spec hr with ⟨-, rfl⟩ | ⟨hno, -⟩
      · exact .inl ⟨hne, rfl⟩
      · exact absurd hne hno
    · obtain ⟨root', cm, hle, hrew, hcm, hroot, hparents⟩ :=
        published_commit hhead hactual hr hne htwin
      obtain ⟨hdreg, hdir, hname, hfid, hsize, hmod, htime⟩ := editDent_spec c q
      refine .inr ⟨hne, r.1, cm, Fileserver.editDent c q, rfl, hcm, hparents, hdreg, hfid, hsize,
        hmod, htime, ?_⟩
      rw [c.names_eq, ← hname] at hd ⊢
      rw [hroot]
      exact hrew.editedTree hle hT hd (Dirent.isDir_of_isReg hreg) hdir

/-! ## A checkin, and two publications that do something else -/

def plainPublish (action : PublishAction) (base fileID : ℕ) : PublishRequest ℕ where
  action := action
  base := base
  proof := fProof
  fileID := fileID
  size := 1
  gcID := none
  guarded := true
  clock := ⟨7000000000, 7000000000⟩
  preflight := true
  beginTx := true
  readGc := some none
  readHead := true
  readRow := true
  aclFinal := true
  mtime := 7
  dirTime := fun _ => 7
  ctime := 7
  writeObj := fun _ => true
  saveCommit := true
  updateRow := true
  updateBranch := true
  audit := true
  commit := true

def fCheckedOut : EditState ℕ Name := fLibrary.run id [.checkout fTicket fCheckout]

theorem head_fCheckedOut {head : ℕ} {hc : Commit ℕ} (h : fCheckedOut.db.head = some head)
    (hc' : fCheckedOut.objects.commits head = some hc) :
    head = rootHead (seafDirId fDir) ∧ hc.rootId = seafDirId fDir := by
  have hhead : fCheckedOut.db.head = some (rootHead (seafDirId fDir)) := by decide +kernel
  obtain rfl := mem_unique h hhead
  have hload : (fCheckedOut.objects.commits (rootHead (seafDirId fDir))).map Commit.rootId =
      some (seafDirId fDir) := by decide +kernel
  rw [hc'] at hload
  exact ⟨rfl, Option.some.inj hload⟩

theorem checkin_publishes :
    PublishesFile id fCheckedOut
      (fCheckedOut.exec id (.publish fTicket (plainPublish .checkin 5 7))).2 fTicket
      (plainPublish .checkin 5 7) := by
  have hs : HeadTree fCheckedOut := by
    intro head hc h h'
    rw [(head_fCheckedOut h h').2]
    exact ⟨1, by decide +kernel⟩
  have hok : answerStatus (fCheckedOut.exec id (.publish fTicket (plainPublish .checkin 5 7))).1 =
      200 := by decide +kernel
  refine ((edit_publication_iff id fCheckedOut fTicket _ hs).1 hok).2 ⟨?_, ?_⟩
  · intro head hc h h'
    rw [(head_fCheckedOut h h').2]
    decide +kernel
  · intro _ head hc root cm h h' hroot hcm
    obtain ⟨rfl, hrootId⟩ := head_fCheckedOut h h'
    rw [hrootId] at hroot
    have hedited : editedRoot (fun _ => 7) (Fileserver.editDent fTicket (plainPublish .checkin 5 7))
        fCheckedOut.objects.fs (seafDirId fDir) fTicket.parent =
        some (seafDirId [.new 0o100644 7 ['f'] 7 ['u'] 1]) := by decide +kernel
    obtain rfl := mem_unique hroot hedited
    have hnone : fCheckedOut.objects.commits (Fileserver.newCommit (rootHead (seafDirId fDir))
        (seafDirId [.new 0o100644 7 ['f'] 7 ['u'] 1]) fTicket.subject
        (Fileserver.editDesc fTicket) 7).commitId = none := by decide +kernel
    exact absurd (hcm.symm.trans hnone) (by simp)

def aDir : List (Dirent ℕ) :=
  [.new 0o100644 5 ['f'] 0 ['u'] 1, .new 0o100644 emptySha1 ['e'] 0 ['u'] 0]

def aRoot : List (Dirent ℕ) := [.new 0o040000 (seafDirId aDir) ['a'] 0 [] 0]

def aLibrary : EditState ℕ Name :=
  ⟨.ofRoot ((FsStore.empty.insert (.dir aDir) (List.cons_ne_nil _ _)).insert (.dir aRoot)
      (List.cons_ne_nil _ _)) (seafDirId aRoot), ⟨some (rootHead (seafDirId aRoot)), ∅⟩⟩

def aefTicket : EditClaims ℕ where
  subject := ['u']
  filePath := "/a/e/f".toList
  baseID := 5
  mode := .optimisticEdit
  canonical := by decide
  notRoot := by decide

def aefSaved : EditState ℕ Name :=
  (aLibrary.exec id (.publish aefTicket (plainPublish .optimistic 5 7))).2

/-- The root of the head. -/
def EditState.headRoot (s : EditState ℕ Name) : Option ℕ :=
  s.db.head >>= s.objects.commits >>= fun c => some c.rootId

/-- The file `/f`, after it was saved as 7, as 8, and as 7 again in one second. -/
def fTwice : EditState ℕ Name := fLibrary.run id
  [.publish fTicket (plainPublish .optimistic 5 7), .publish fTicket (plainPublish .optimistic 7 8)]

def fThrice : EditState ℕ Name :=
  (fTwice.exec id (.publish fTicket (plainPublish .optimistic 8 7))).2

/-- A save that changes the time of `/a/e` only; and one whose head is older than the one it was
    made on. -/
theorem acknowledged_save_lost :
    (answerStatus (aLibrary.exec id (.publish aefTicket (plainPublish .optimistic 5 7))).1 = 200 ∧
      (aLibrary.headRoot >>= fun root => entryAt aLibrary.objects.fs root aefTicket.names) = none ∧
      (aefSaved.headRoot >>= fun root =>
        entryAt aefSaved.objects.fs root aefTicket.names) = none ∧
      (aefSaved.headRoot >>= fun root =>
        entryAt aefSaved.objects.fs root [['a'], ['f']]).map Dirent.id = some 5 ∧
      (aefSaved.headRoot >>= fun root =>
        entryAt aefSaved.objects.fs root [['a'], ['e']]).map Dirent.mtime = some 7) ∧
    answerStatus (fTwice.exec id (.publish fTicket (plainPublish .optimistic 8 7))).1 = 200 ∧
      fThrice.db.head ≠ fTwice.db.head ∧
      (fThrice.db.head >>= fThrice.objects.commits).map Commit.parents =
        some [rootHead (seafDirId fDir)] ∧
      fTwice.db.head ≠ some (rootHead (seafDirId fDir)) := by
  refine ⟨⟨?_, ?_, ?_, ?_, ?_⟩, ?_, ?_, ?_, ?_⟩ <;> decide +kernel

end CloudFile
