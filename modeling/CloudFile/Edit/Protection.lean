/-
  A checkout protects its file against every publisher: the C server, the file server and the edit
  agent. The changes of the first two were prepared before and the comparison of the head makes
  them changes of the head (`Pending.Sound`); a write below an empty regular file goes through
  that file (`ClearAbove`).
-/
import CloudFile.Edit.Fence
import CloudFile.Edit.Publication

namespace CloudFile

open SortedWalk GoPath List Option

variable {Id D : Type} [ObjectId Id] [CommitId Id] [DecidableEq Id] [DecidableEq D]

/-! ## The system -/

/-- Who moves the head. -/
inductive Publisher (Id : Type) where
  /-- `test_and_update_branch` -/
  | server
  /-- `updateBranch` -/
  | fileserver (order : MapOrder Id)

/-- A prepared commit that has not landed. -/
structure Pending (Id : Type) extends Prepared Id where
  publisher : Publisher Id

/-- The library as the two servers know it, and a bound for the depth of its trees. -/
structure FenceConfig where
  server : CheckoutSetup
  fileserver : CheckoutSetup
  depth : ℕ

/-- What the statements of a final transaction answer. -/
structure UpdateTx (Id : Type) where
  checkGC : Bool
  lastGCID : Option GcId
  secondParentID : Option Id
  readRows : Bool
  steps : UpdateSteps

/-- The first phase. -/
def Publisher.prepare (cfg : FenceConfig) (o : Objects Id) (old new : Id) :
    Publisher Id → Option (Prepared Id)
  | .server => Server.cfV2EditPrepareUnscopedBranch cfg.server o cfg.depth old new
  | .fileserver order =>
    Fileserver.cfV2EditPrepareUnscopedBranch cfg.fileserver order.order o cfg.depth old new

/-- The second phase, in the transaction. -/
def Pending.update (cfg : FenceConfig) (tx : UpdateTx Id) (db : EditDb Id D) (utc : ℤ)
    (p : Pending Id) : Updated Id :=
  match p.publisher with
  | .server => Server.testAndUpdateBranch tx.checkGC tx.lastGCID
      { tx.steps with
        editPrepare := true
        guardCheck := Server.cfV2EditCheckUnscopedBranch cfg.server tx.readRows db utc p.old p.new
          p.toPrepared } db.head p.new p.old
  | .fileserver _ => Fileserver.updateBranch tx.checkGC tx.lastGCID
      { tx.steps with
        editPrepare := true
        guardCheck := Fileserver.cfV2EditCheckPreparedBranch cfg.fileserver tx.readRows db utc
          p.toPrepared } db.head p.new p.old tx.secondParentID

/-- The library and the commits under way. -/
structure FenceState (Id D : Type) [ObjectId Id] [CommitId Id] where
  edit : EditState Id D
  pending : List (Pending Id)

/-- Objects are written, publications are prepared and made, and the edit agent is asked. -/
inductive FenceEvent (Id : Type) [ObjectId Id] [CommitId Id] where
  | upload (more : Objects Id)
  | prepare (publisher : Publisher Id) (old new : Id)
  | update (i : ℕ) (tx : UpdateTx Id)
  | checkout (c : EditClaims Id) (q : CheckoutRequest Id)
  | guard (action : GuardAction) (c : EditClaims Id) (q : GuardRequest)
  | publish (c : EditClaims Id) (q : PublishRequest Id)

/-- A store with more objects. -/
def FsStore.add (st more : FsStore Id) : FsStore Id where
  obj id := (st.obj id).or (more.obj id)
  saved id o h := by
    rcases Option.or_eq_some_iff.1 h with h | ⟨-, h⟩
    exacts [st.saved id o h, more.saved id o h]

/-- The objects with more of them. -/
def Objects.add (o more : Objects Id) : Objects Id where
  fs := o.fs.add more.fs
  commits id := (o.commits id).or (more.commits id)
  saved id c h := by
    rcases Option.or_eq_some_iff.1 h with h | ⟨-, h⟩
    exacts [o.saved id c h, more.saved id c h]

/-- `CheckoutEnabledForRepo && V2GuardAvailable` -/
def CheckoutSetup.guarded (setup : CheckoutSetup) : Bool :=
  setup.policy = some true && setup.available

section Exec

variable (sha256 : Name → D) (cfg : FenceConfig)

/-- A request to the edit agent; `cfEditAPI` refuses it where the library has checkouts and the
    guard table is missing. -/
def FenceState.request (s : FenceState Id D) (e : EditEvent Id) : FenceState Id D :=
  if cfg.fileserver.policy = some true && !cfg.fileserver.available then s
  else { s with edit := (s.edit.exec sha256 e).2 }

/-- One step, at the time `now` of the common clock. -/
def FenceState.exec (s : FenceState Id D) (now : ℤ) : FenceEvent Id → FenceState Id D
  | .upload more => { s with edit := { s.edit with objects := s.edit.objects.add more } }
  | .prepare publisher old new => match publisher.prepare cfg s.edit.objects old new with
    | none => s
    | some p => { s with pending := s.pending ++ [⟨p, publisher⟩] }
  | .update i tx => match s.pending[i]? with
    | none => s
    | some p =>
      { edit := { s.edit with db :=
          { s.edit.db with head := (p.update cfg tx s.edit.db now).row } }
        pending := s.pending.eraseIdx i }
  | .checkout c q => s.request sha256 cfg (.checkout c { q with clock := ⟨now, now⟩ })
  | .guard action c q => s.request sha256 cfg (.guard action c { q with clock := ⟨now, now⟩ })
  | .publish c q => s.request sha256 cfg
      (.publish c { q with guarded := cfg.fileserver.guarded, clock := ⟨now, now⟩ })

/-- A sequence of events, each at its time. -/
def FenceState.run (s : FenceState Id D) (es : List (ℤ × FenceEvent Id)) : FenceState Id D :=
  es.foldl (fun s e => s.exec sha256 cfg e.1 e.2) s

end Exec

/-! ## What is to be protected -/

/-- The entry at a path of the head. -/
def EditState.entry (s : EditState Id D) (path : List Name) : Option (Dirent Id) :=
  s.db.head >>= s.objects.commits >>= fun c => entryAt s.objects.fs c.rootId path

/-- A regular file of the head with an unexpired guard. -/
def Guarded (s : EditState Id D) (now : ℤ) (path : Name) (d : Dirent Id) : Prop :=
  Unexpired s path now ∧ s.entry (comps path) = some d ∧ d.isReg = true

/-- A commit or a checkin with the id, the generation and the proof of the guard. -/
def ShowsGuard (sha256 : Name → D) (s : EditState Id D) (path : Name) (e : FenceEvent Id) : Prop :=
  ∃ c q, e = .publish c q ∧ c.filePath = path ∧ q.action ≠ .optimistic ∧
    Current sha256 s path q.proof

/-- Every guarded file is the same after the step, or the step has shown its guard. -/
def Protects (sha256 : Name → D) (s s' : EditState Id D) (now : ℤ) (e : FenceEvent Id) : Prop :=
  ∀ path d, Guarded s now path d → SameFile d (s'.entry (comps path)) ∨ ShowsGuard sha256 s path e

/-- No guarded file stands above the path of a ticket. -/
def ClearAbove (s : EditState Id D) (now : ℤ) (c : EditClaims Id) : Prop :=
  ∀ path d, Guarded s now path d → comps path <+: c.names → comps path = c.names

/-- Guards stand on clean paths. -/
def EditState.CanonicalGuards (s : EditState Id D) : Prop :=
  ∀ path g, (s.db.row path).guard = some g → cfACLCanonical path = true

variable {path : Name}

theorem eq_of_canonical (h : cfACLCanonical path = true) :
    path = '/' :: joinFields (comps path) := by
  obtain ⟨hroot, hclean⟩ := clean_of_canonical h
  rw [← clean_rooted hroot, hclean]

theorem validName_of_mem_comps {n : Name} (h : n ∈ comps path) : ValidName n :=
  ⟨part_of_mem_cleanFields h, plain_of_mem_comps h⟩

/-! ## Objects only grow -/

variable {s s' : EditState Id D} {c : EditClaims Id} {q : PublishRequest Id} {k : ℕ}
  {o : Objects Id} {head root : Id} {d : Dirent Id}

omit [DecidableEq Id] in
theorem Objects.grows_add (o more : Objects Id) : o.Grows (o.add more) where
  fs _ _ h := or_eq_some_iff.2 (.inl h)
  commits _ _ h := or_eq_some_iff.2 (.inl h)

theorem commitFile_grows {r : Id × Objects Id} (h : Fileserver.commitFile o c q head root = .ok r) :
    o.Grows r.2 := by
  refine ⟨?_, fun id cm hid => ?_⟩
  · rcases commitFile_spec h with ⟨-, rfl⟩ | ⟨-, root', hle, -⟩
    exacts [le_rfl, hle]
  · unfold Fileserver.commitFile at h
    split_ifs at h with hsame
    · cases h
      exact hid
    · simp only [bind_ok, Except.ok.injEq] at h
      obtain ⟨w, -, -, -, rfl⟩ := h
      simp [Objects.saveCommit, hid]

omit [DecidableEq D] in
theorem entry_of_grows (hs : SortedTrees k s.objects) (hg : s.objects.Grows s'.objects)
    (hhead : s'.db.head = s.db.head) {path : List Name} (hd : s.entry path = some d) :
    s'.entry path = some d := by
  simp only [EditState.entry, bind_eq_bind, bind_eq_some_iff] at hd ⊢
  obtain ⟨cm, ⟨head, hh, hcm⟩, hd⟩ := hd
  refine ⟨cm, ⟨head, hhead.trans hh, hg.commits _ _ hcm⟩, ?_⟩
  rw [(hs _ _ hcm).entryAt_mono hg.fs]
  exact hd

/-! ## The edit agent -/

theorem not_below_of_actual {actual : Id × Commit Id}
    (hT : Tree (UniqueKeys Dirent.name) o.fs k actual.2.rootId)
    (hactual : Fileserver.cfEditActual o head c.filePath = some actual) {path : List Name}
    (hd : entryAt o.fs actual.2.rootId path = some d) (hne : path ≠ c.names) :
    ¬ c.names <+: path := by
  rintro ⟨rest, rfl⟩
  rcases eq_nil_or_concat rest with rfl | ⟨ps, n, rfl⟩
  · exact hne (append_nil _)
  rw [concat_eq_append, ← append_assoc, entryAt_concat, resolve_append, c.names_eq,
    resolve_append] at hd
  simp only [bind_eq_bind, bind_eq_some_iff] at hd
  obtain ⟨es, ⟨i, ⟨j, ⟨m, hm, hj⟩, -⟩, -⟩, -⟩ := hd
  obtain ⟨d', hd', hreg, -⟩ := cfEditActual_lookedUp hactual hT
  rw [lookedUp_of_resolvable (isSome_iff_exists.2 ⟨m, hm⟩), entryAt_concat, hm] at hd'
  -- the last name would be one of a directory
  obtain ⟨x, hsub, -⟩ := resolve_cons_some.1 hj
  obtain ⟨es', e, hes', he, hdir, -⟩ := subdir_some.1 hsub
  obtain rfl : e = d' := by simpa [hes', he] using hd'
  rw [Dirent.isDir_of_isReg hreg] at hdir
  cases hdir

variable {db : EditDb Id D} {g : Guard Id D} {now : ℤ}

omit [ObjectId Id] [CommitId Id] [DecidableEq Id] [DecidableEq D] in
theorem heldAt_of_guard {utc : ℤ} (hg : (db.row path).guard = some g) (hexp : utc < g.expires) :
    Fileserver.heldAt db path utc = true := by
  obtain ⟨row, hrow, hg⟩ := lookup_of_guard hg
  simp [Fileserver.heldAt, hrow, hg, hexp]

omit [ObjectId Id] [CommitId Id] in
theorem current_of_commitGuard {sha256 : Name → D}
    (h : Fileserver.commitGuard sha256 c q db = .ok ()) (hguarded : q.guarded = true)
    (hg : (db.row c.filePath).guard = some g) (hexp : q.clock.utc < g.expires) :
    q.action ≠ .optimistic ∧ ∃ g', (db.row c.filePath).generation = q.proof.generation ∧
      (db.row c.filePath).guard = some g' ∧ g'.id = q.proof.guardID ∧
      g'.proofDigest = sha256 q.proof.proof := by
  have haction : q.action ≠ .optimistic := by
    intro ha
    simp [Fileserver.commitGuard, ha, hguarded, heldAt_of_guard hg hexp] at h
  obtain ⟨row, g', hrow, hver, -⟩ := commitGuard_spec h haction
  rw [row_of_lookup hrow]
  exact ⟨haction, g', hver.generation, hver.guard, hver.id, hver.digest⟩

variable (sha256 : Name → D)

/-- A publication leaves every guarded file alone that is not its own. -/
theorem publish_protects (hs : SortedTrees k s.objects)
    (hcanon : s.CanonicalGuards) (hclear : ClearAbove s now c) (hguarded : q.guarded = true)
    (hclock : q.clock.utc = now) (hd : Guarded s now path d) :
    SameFile d ((s.exec sha256 (.publish c q)).2.entry (comps path)) ∨
      c.filePath = path ∧ q.action ≠ .optimistic ∧ Current sha256 s path q.proof := by
  have habove := hclear path d hd
  obtain ⟨⟨g, hg, hexp⟩, hd, hreg⟩ := hd
  rcases exec_publish sha256 s c q with ⟨e, he⟩ | ⟨ok, o', db', hrun, he⟩
  · rw [he]
    exact .inl (.of_eq hd)
  obtain ⟨head, actual, r, hhead, hactual, -, hguard, hr, -, rfl, rfl⟩ := cfEditCommit_spec hrun
  by_cases hpath : c.filePath = path
  · subst hpath hclock
    obtain ⟨haction, g', hgen, hg', hid, hdigest⟩ := current_of_commitGuard hguard hguarded hg hexp
    exact .inr ⟨rfl, haction, hgen, g', hg', hid, hdigest⟩
  left
  rw [he]
  have hload := cfEditActual_commit hactual
  have hT := hs _ _ hload
  have hentry : entryAt s.objects.fs actual.2.rootId (comps path) = some d := by
    simpa [EditState.entry, hhead, hload] using hd
  have hne : comps path ≠ c.names := by
    intro hnames
    apply hpath
    rw [eq_of_canonical c.canonical, eq_of_canonical (hcanon path g hg), hnames]
    rfl
  have hbelow := not_below_of_actual (hT.imp fun _ h => h.uniqueKeys) hactual hentry hne
  rcases commitFile_spec hr with ⟨-, rfl⟩ | ⟨-, root', hle, hrew, hid, hcm⟩
  · refine .of_eq (entry_of_grows hs ?_ ?_ hd)
    exacts [.refl _, hhead.symm]
  · have hname := (editDent_spec c q).2.2.1
    rw [c.names_eq] at habove hbelow hne
    have hrest := hrew.entryAt_rest hle hT (fun h => hne (habove h)) hbelow
    rw [hid] at hcm
    apply SameFile.of_eq
    simp only [EditState.entry, bind_eq_bind, bind_some, hid, hcm, rootId_getD]
    rw [hrest, hentry]

/-! ## What the edit agent leaves alone -/

/-- A request of this protocol. -/
def EditEvent.IsRequest : EditEvent Id → Prop
  | .other _ _ => False
  | _ => True

variable {e : EditEvent Id}

theorem exec_of_not_publish (he : e.IsRequest) (hp : ∀ c q, e ≠ .publish c q) :
    (s.exec sha256 e).2.objects = s.objects ∧
      (s.exec sha256 e).2.db.head = s.db.head := by
  cases e with
  | checkout c q =>
    rcases exec_checkout sha256 s c q with ⟨e, he⟩ | ⟨i, db', hrun, he⟩
    · simp [he]
    · obtain ⟨-, -, base, expires, rfl⟩ := cfEditCheckout_spec hrun
      rw [he]
      exact ⟨rfl, rfl⟩
  | guard action c q =>
    rcases exec_guard sha256 s action c q with ⟨e, he⟩ | ⟨db', hrun, he⟩
    · simp [he]
    · obtain ⟨row, p, g, -, -, -, rfl⟩ := cfEditGuardAction_spec hrun
      rw [he]
      exact ⟨rfl, rfl⟩
  | publish c q => exact absurd rfl (hp c q)
  | other objects head => exact he.elim

theorem grows_exec (he : e.IsRequest) :
    s.objects.Grows (s.exec sha256 e).2.objects := by
  by_cases hp : ∃ c q, e = .publish c q
  · obtain ⟨c, q, rfl⟩ := hp
    rcases exec_publish sha256 s c q with ⟨e, he⟩ | ⟨ok, o', db', hrun, he⟩
    · rw [he]
      exact .refl _
    · obtain ⟨head, actual, r, -, -, -, -, hr, -, rfl, -⟩ := cfEditCommit_spec hrun
      rw [he]
      exact commitFile_grows hr
  · rw [(exec_of_not_publish sha256 he fun c q h => hp ⟨c, q, h⟩).1]
    exact .refl _

omit [ObjectId Id] [CommitId Id] [DecidableEq Id] [DecidableEq D] in
theorem row_publishedGuard (h : path ≠ c.filePath) :
    (Fileserver.publishedGuard c q db).row path = db.row path := by
  unfold Fileserver.publishedGuard
  cases db.guards.lookup c.filePath with
  | none => rfl
  | some row =>
    simp only
    split
    · split_ifs
      · rw [row_setGuard, if_neg h]
      · rfl
    · split_ifs
      · rw [row_setGuard, if_neg h]
      · rfl
    · rfl

theorem canonicalGuards_exec (h : s.CanonicalGuards) (e : EditEvent Id) :
    (s.exec sha256 e).2.CanonicalGuards := by
  have hrow : ∀ (c : EditClaims Id) (db' : EditDb Id D),
      (∀ path, path ≠ c.filePath → db'.row path = s.db.row path) →
      ∀ path g, (db'.row path).guard = some g → cfACLCanonical path = true := by
    intro c db' hother path g hg
    by_cases hpath : path = c.filePath
    · rw [hpath]
      exact c.canonical
    · exact h path g (hother path hpath ▸ hg)
  cases e with
  | checkout c q =>
    rcases exec_checkout sha256 s c q with ⟨e, he⟩ | ⟨i, db', hrun, he⟩
    · rwa [he]
    · obtain ⟨-, -, base, expires, rfl⟩ := cfEditCheckout_spec hrun
      rw [he]
      exact hrow c _ fun path hpath => by rw [row_setGuard, if_neg hpath]
  | guard action c q =>
    rcases exec_guard sha256 s action c q with ⟨e, he⟩ | ⟨db', hrun, he⟩
    · rwa [he]
    · obtain ⟨row, p, g, -, -, -, rfl⟩ := cfEditGuardAction_spec hrun
      rw [he]
      exact hrow c _ fun path hpath => by rw [row_setGuard, if_neg hpath]
  | publish c q =>
    rcases exec_publish sha256 s c q with ⟨e, he⟩ | ⟨ok, o', db', hrun, he⟩
    · rwa [he]
    · obtain ⟨head, actual, r, -, -, -, -, -, -, -, rfl⟩ := cfEditCommit_spec hrun
      rw [he]
      exact hrow c _ fun path hpath => row_publishedGuard hpath
  | other objects head => exact h

/-! ## The publishers with a fence -/

/-- The changes of a pending publication fence, unless there is nothing to publish. -/
def Pending.Sound (k : ℕ) (o : Objects Id) (p : Pending Id) : Prop :=
  p.old = p.new ∨ ∃ c c', Fences k o p.toPrepared c c'

theorem Pending.Sound.mono {o' : Objects Id} {p : Pending Id} (h : p.Sound k o) (hg : o.Grows o') :
    p.Sound k o' :=
  h.imp_right fun ⟨c, c', hf⟩ => ⟨c, c', hf.mono hg⟩

section Enabled

variable {cfg : FenceConfig} (hserver : cfg.server.policy = some true)
  (hfileserver : cfg.fileserver.policy = some true)
include hserver hfileserver

theorem Publisher.prepare_sound (hs : SortedTrees cfg.depth o) {publisher : Publisher Id}
    {old new : Id} {p : Prepared Id} (h : publisher.prepare cfg o old new = some p) :
    Pending.Sound cfg.depth o ⟨p, publisher⟩ := by
  have hfences : p.old = old ∧ p.new = new ∧ (old = new ∨ ∃ c c', Fences cfg.depth o p c c') := by
    cases publisher with
    | server => exact Server.prepare_fences hserver hs h
    | fileserver order => exact Fileserver.prepare_fences hfileserver order.perm hs h
  obtain ⟨rfl, rfl, hf⟩ := hfences
  exact hf

omit [ObjectId Id] [CommitId Id] [DecidableEq D] in
theorem Pending.update_cases (tx : UpdateTx Id) (db : EditDb Id D) (now : ℤ) (p : Pending Id) :
    (p.update cfg tx db now).row = db.head ∨
    db.head = some p.old ∧ (p.update cfg tx db now).row = some p.new ∧
      ∀ path g, (db.row path).guard = some g → now < g.expires → ∀ ch ∈ p.changes,
        ch.touches path = false := by
  unfold Pending.update
  cases p.publisher with
  | server =>
    simp only [Server.testAndUpdateBranch]
    split
    · exact .inl rfl
    · next hr =>
      obtain ⟨hpass, hrow⟩ := refusal_eq_none.1 hr
      refine .inr ⟨hrow, rfl, fun path g hg hexp ch hch => ?_⟩
      exact Server.check_untouched hserver hg hexp hch hpass.guardCheck
  | fileserver order =>
    cases hr : refusal _ .headConflict tx.checkGC tx.lastGCID db.head p.old with
    | some e =>
      rw [updateBranch_refused hr]
      exact .inl rfl
    | none =>
      obtain ⟨hpass, hrow⟩ := refusal_eq_none.1 hr
      rw [updateBranch_set hr]
      refine .inr ⟨hrow, rfl, fun path g hg hexp ch hch => ?_⟩
      exact Fileserver.check_untouched hfileserver hg hexp hch hpass.guardCheck

variable {now : ℤ}

omit [DecidableEq D] in
theorem Pending.update_protects {p : Pending Id} (hp : p.Sound cfg.depth s.objects)
    (hcanon : s.CanonicalGuards) (tx : UpdateTx Id) (hd : Guarded s now path d) :
    SameFile d (EditState.entry { s with db :=
      { s.db with head := (p.update cfg tx s.db now).row } } (comps path)) := by
  obtain ⟨⟨g, hg, hexp⟩, hd, hreg⟩ := hd
  rcases Pending.update_cases hserver hfileserver tx s.db now p with hrow | ⟨hold, hrow, hch⟩
  · rw [hrow]
    exact .of_eq hd
  rcases hp with hsame | ⟨c, c', hf⟩
  · rw [hrow, ← hsame, ← hold]
    exact .of_eq hd
  · by_contra hno
    have hentry : entryAt s.objects.fs c.rootId (comps path) = some d := by
      simpa [EditState.entry, hold, hf.old] using hd
    have hnew : ¬ SameFile d (entryAt s.objects.fs c'.rootId (comps path)) := by
      simpa [EditState.entry, hrow, hf.new] using hno
    obtain ⟨ch, hmem, htouch⟩ := hf.touches (comps path) d (fun _ => validName_of_mem_comps) hentry
      hreg hnew
    rw [← eq_of_canonical (hcanon path g hg), hch path g hg hexp ch hmem] at htouch
    cases htouch

/-! ## Whole runs -/

/-- What holds of every state: pending publications are sound, and guards canonical. -/
structure FenceInv (k : ℕ) (s : FenceState Id D) : Prop where
  sound : ∀ p ∈ s.pending, p.Sound k s.edit.objects
  canonical : s.edit.CanonicalGuards

variable {sha256 : Name → D} {f : FenceState Id D}

omit hserver hfileserver in
theorem FenceInv.request (h : FenceInv k f) (he : e.IsRequest) :
    FenceInv k (f.request sha256 cfg e) := by
  unfold FenceState.request
  split_ifs
  · exact h
  · exact ⟨fun p hp => (h.sound p hp).mono (grows_exec sha256 he),
      canonicalGuards_exec sha256 h.canonical e⟩

theorem FenceInv.exec (h : FenceInv cfg.depth f) (hs : SortedTrees cfg.depth f.edit.objects)
    (now : ℤ) (e : FenceEvent Id) : FenceInv cfg.depth (f.exec sha256 cfg now e) := by
  cases e with
  | upload more => exact ⟨fun p hp => (h.sound p hp).mono (Objects.grows_add _ more), h.canonical⟩
  | prepare publisher old new =>
    simp only [FenceState.exec]
    cases hp : publisher.prepare cfg f.edit.objects old new with
    | none => exact h
    | some p =>
      refine ⟨fun p' hp' => ?_, h.canonical⟩
      rcases mem_append.1 hp' with hp' | hp'
      · exact h.sound p' hp'
      · rw [mem_singleton.1 hp']
        exact Publisher.prepare_sound hserver hfileserver hs hp
  | update i tx =>
    simp only [FenceState.exec]
    cases f.pending[i]? with
    | none => exact h
    | some p => exact ⟨fun p' hp' => h.sound p' (mem_of_mem_eraseIdx hp'), h.canonical⟩
  | checkout c q | guard action c q | publish c q => exact h.request trivial

/-- **One step protects**, where no guarded file stands above the path of a publication of the
    edit agent. -/
theorem FenceState.exec_protects (h : FenceInv cfg.depth f)
    (hs : SortedTrees cfg.depth f.edit.objects) {e : FenceEvent Id}
    (hclear : ∀ c q, e = .publish c q → ClearAbove f.edit now c) :
    Protects sha256 f.edit (f.exec sha256 cfg now e).edit now e := by
  intro path d hd
  have hentry := hd.2.1
  cases e with
  | upload more =>
    refine .inl (.of_eq (entry_of_grows hs ?_ ?_ hentry))
    exacts [Objects.grows_add _ more, rfl]
  | prepare publisher old new =>
    left
    simp only [FenceState.exec]
    cases publisher.prepare cfg f.edit.objects old new <;> exact .of_eq hentry
  | update i tx =>
    left
    simp only [FenceState.exec]
    cases hp : f.pending[i]? with
    | none => exact .of_eq hentry
    | some p =>
      exact Pending.update_protects hserver hfileserver (h.sound p (mem_of_getElem? hp))
        h.canonical tx hd
  | checkout c q | guard action c q =>
    left
    simp only [FenceState.exec, FenceState.request]
    split_ifs
    · exact .of_eq hentry
    · refine .of_eq (entry_of_grows hs (grows_exec sha256 ?_)
        (exec_of_not_publish sha256 ?_ fun c q h => ?_).2 hentry)
      · trivial
      · trivial
      · cases h
  | publish c q =>
    simp only [FenceState.exec, FenceState.request]
    split_ifs with hrefused
    · exact .inl (.of_eq hentry)
    · have hguarded : cfg.fileserver.guarded = true := by
        simpa [CheckoutSetup.guarded, hfileserver] using hrefused
      rcases publish_protects sha256
          (q := { q with guarded := cfg.fileserver.guarded, clock := ⟨now, now⟩ }) hs h.canonical
          (hclear c q rfl) hguarded rfl hd with hsame | ⟨hpath, haction, hcur⟩
      · exact .inl hsame
      · exact .inr ⟨c, q, rfl, hpath, haction, hcur⟩

end Enabled

theorem FenceState.run_concat (cfg : FenceConfig) (f : FenceState Id D)
    (es : List (ℤ × FenceEvent Id)) (now : ℤ) (e : FenceEvent Id) :
    f.run sha256 cfg (es ++ [(now, e)]) = (f.run sha256 cfg es).exec sha256 cfg now e := by
  rw [FenceState.run, foldl_append]
  rfl

/-- **A checkout protects its file against every publisher**, in every run in which no guarded
    file stands above the path of a publication of the edit agent. -/
theorem checkout_protects_file (sha256 : Name → D) (cfg : FenceConfig)
    (hserver : cfg.server.policy = some true) (hfileserver : cfg.fileserver.policy = some true)
    (f : FenceState Id D) (hpending : f.pending = []) (hcanon : f.edit.CanonicalGuards)
    (run : List (ℤ × FenceEvent Id))
    (htrees : ∀ es rest, run = es ++ rest →
      SortedTrees cfg.depth (f.run sha256 cfg es).edit.objects)
    (hclear : ∀ es now c q rest, run = es ++ (now, .publish c q) :: rest →
      ClearAbove (f.run sha256 cfg es).edit now c) :
    ∀ es now e rest, run = es ++ (now, e) :: rest →
      Protects sha256 (f.run sha256 cfg es).edit
        (f.run sha256 cfg (es ++ [(now, e)])).edit now e := by
  have hinv : ∀ es rest, run = es ++ rest → FenceInv cfg.depth (f.run sha256 cfg es) := by
    intro es
    -- along the run, by its last event
    induction es using reverseRecOn with
    | nil =>
      intro rest _
      refine ⟨fun p hp => ?_, hcanon⟩
      rw [FenceState.run, foldl_nil, hpending] at hp
      cases hp
    | append_singleton es x ih =>
      intro rest hrun
      rw [append_assoc] at hrun
      rw [FenceState.run_concat]
      exact (ih _ hrun).exec hserver hfileserver (htrees es _ hrun) x.1 x.2
  intro es now e rest hrun
  rw [FenceState.run_concat]
  refine FenceState.exec_protects hserver hfileserver (hinv es _ hrun) (htrees es _ hrun) ?_
  rintro c q rfl
  exact hclear es now c q rest hrun

/-! ## A deletion that is refused, and a file that is touched -/

/-- An event that may move the head. -/
def FenceEvent.Writes : FenceEvent Id → Prop
  | .upload _ | .publish _ _ => True
  | _ => False

theorem objects_exec (cfg : FenceConfig) (f : FenceState Id D) (now : ℤ)
    {e : FenceEvent Id} (he : ¬ e.Writes) :
    (f.exec sha256 cfg now e).edit.objects = f.edit.objects := by
  cases e with
  | upload more => exact absurd trivial he
  | prepare publisher old new =>
    simp only [FenceState.exec]
    cases publisher.prepare cfg f.edit.objects old new <;> rfl
  | update i tx =>
    simp only [FenceState.exec]
    cases f.pending[i]? <;> rfl
  | checkout c q | guard action c q =>
    simp only [FenceState.exec, FenceState.request]
    split_ifs
    · rfl
    · refine (exec_of_not_publish sha256 ?_ ?_).1
      · trivial
      · intro c q h
        cases h
  | publish c q => exact absurd trivial he

theorem objects_run (cfg : FenceConfig) (f : FenceState Id D)
    {es : List (ℤ × FenceEvent Id)} (h : ∀ e ∈ es, ¬ e.2.Writes) :
    (f.run sha256 cfg es).edit.objects = f.edit.objects := by
  induction es generalizing f with
  | nil => rfl
  | cons e es ih =>
    rw [forall_mem_cons] at h
    exact (ih _ h.2).trans (objects_exec sha256 cfg f e.1 h.1)

theorem sortedTrees_saveCommit {parent : Id} {user desc : Name} {ctime : UInt64}
    (h : SortedTrees k o) (hroot : Tree (Desc Dirent.name) o.fs k root) :
    SortedTrees k (o.saveCommit parent root user desc ctime) := by
  intro id cm hcm
  simp only [Objects.saveCommit] at hcm ⊢
  split_ifs at hcm with hnew
  · cases hcm
    exact hroot
  · exact h id cm hcm

def checkoutConfig : FenceConfig := ⟨⟨some true, true⟩, ⟨some true, true⟩, 3⟩

theorem unexpired_of_any {s : EditState ℕ Name}
    (h : ((s.db.row path).guard.any fun g => now < g.expires) = true) : Unexpired s path now := by
  obtain ⟨g, hg, hexp⟩ := (Option.any_eq_true _ _).1 h
  exact ⟨g, hg, of_decide_eq_true hexp⟩

/-- The library with the file `/f`, and a commit in which it is deleted. -/
def fDeleted : FenceState ℕ Name :=
  ⟨⟨fLibrary.objects.saveCommit 0 emptySha1 [] [] 1, fLibrary.db⟩, []⟩

def fDeletion : List (ℤ × FenceEvent ℕ) :=
  [(0, .checkout fTicket fCheckout), (1, .prepare .server (rootHead (seafDirId fDir))
    (Fileserver.newCommit 0 emptySha1 [] [] 1).commitId)]

def plainTx : UpdateTx ℕ where
  checkGC := false
  lastGCID := none
  secondParentID := none
  readRows := true
  steps := ⟨true, true, true, some none, true, true, true, true, true, ⟨true, some false⟩,
    ⟨true, some false⟩⟩

theorem sortedTrees_fDeleted : SortedTrees 3 fDeleted.edit.objects := by
  refine sortedTrees_saveCommit (sortedTrees_saveCommit ?_ (by decide +kernel)) (by decide +kernel)
  intro id cm hcm
  simp [Objects.empty] at hcm

theorem checked_out_file_not_deleted :
    (fDeleted.run id checkoutConfig fDeletion).pending.length = 1 ∧
    ∃ d, Guarded (fDeleted.run id checkoutConfig fDeletion).edit 2 ['/', 'f'] d ∧
      SameFile d ((fDeleted.run id checkoutConfig
        (fDeletion ++ [(2, .update 0 plainTx)])).edit.entry [['f']]) := by
  have hwrites : ∀ e ∈ fDeletion ++ [(2, .update 0 plainTx)], ¬ e.2.Writes := by
    simp [fDeletion, FenceEvent.Writes]
  obtain ⟨d, hd, hreg⟩ : ∃ d, (fDeleted.run id checkoutConfig fDeletion).edit.entry
      (comps ['/', 'f']) = some d ∧ d.isReg = true :=
    ⟨.new 0o100644 5 ['f'] 0 ['u'] 1, by decide +kernel, by decide⟩
  have hg : Guarded (fDeleted.run id checkoutConfig fDeletion).edit 2 ['/', 'f'] d :=
    ⟨unexpired_of_any (by decide +kernel), hd, hreg⟩
  refine ⟨by decide +kernel, d, hg, ?_⟩
  have hprotects := checkout_protects_file id checkoutConfig rfl rfl fDeleted rfl ?_
    (fDeletion ++ [(2, .update 0 plainTx)]) ?_ ?_ fDeletion 2 (.update 0 plainTx) [] rfl
  · rcases hprotects _ d hg with hsame | ⟨c, q, he, -⟩
    · exact hsame
    · cases he
  · intro path g h
    cases h
  · intro es rest hrun
    rw [objects_run]
    · exact sortedTrees_fDeleted
    · intro e he
      exact hwrites e (hrun ▸ mem_append_left _ he)
  · intro es now c q rest hrun
    refine absurd trivial (hwrites (now, .publish c q) ?_)
    rw [hrun]
    exact mem_append_right _ mem_cons_self

def aeTicket : EditClaims ℕ where
  subject := ['v']
  filePath := "/a/e".toList
  baseID := emptySha1
  mode := .exclusiveEdit
  canonical := by decide
  notRoot := by decide

def aeCheckedOut : FenceState ℕ Name := FenceState.run id checkoutConfig ⟨aLibrary, []⟩
  [(0, .checkout aeTicket { fCheckout with body := some ⟨emptySha1, "linux".toList, []⟩ })]

def aefSave : FenceEvent ℕ := .publish aefTicket (plainPublish .optimistic 5 7)

def aefDone : FenceState ℕ Name := aeCheckedOut.exec id checkoutConfig 7000000000 aefSave

/-- Seven seconds after `/a/e` was checked out, a save without a checkout changes its time. -/
theorem guarded_file_touched :
    (∃ d, Guarded aeCheckedOut.edit 7000000000 "/a/e".toList d ∧ d.mtime = 0) ∧
    (aefDone.edit.entry [['a'], ['e']]).map Dirent.mtime = some 7 ∧
    ¬ Protects id aeCheckedOut.edit aefDone.edit 7000000000 aefSave ∧
    ∀ s ∈ [aeCheckedOut.edit, aefDone.edit], ∃ root, s.headRoot = some root ∧
      Tree (Desc Dirent.name) s.objects.fs 3 root := by
  have hafter : (aefDone.edit.entry (comps "/a/e".toList)).map Dirent.mtime = some 7 := by
    decide +kernel
  obtain ⟨d, hd, hreg, htime⟩ : ∃ d, aeCheckedOut.edit.entry (comps "/a/e".toList) = some d ∧
      d.isReg = true ∧ d.mtime = 0 :=
    ⟨.new 0o100644 emptySha1 ['e'] 0 ['u'] 0, by decide +kernel, by decide, rfl⟩
  have hg : Guarded aeCheckedOut.edit 7000000000 "/a/e".toList d :=
    ⟨unexpired_of_any (by decide +kernel), hd, hreg⟩
  refine ⟨⟨d, hg, htime⟩, hafter, fun h => ?_, ?_⟩
  · rcases h _ d hg with ⟨d', hd', -, -, hm⟩ | ⟨c, q, he, -, haction, -⟩
    · rw [hd', map_some, hm, htime] at hafter
      simp at hafter
    · cases he
      exact haction rfl
  · have htrees : ∀ s ∈ [aeCheckedOut.edit, aefDone.edit], (s.headRoot.any fun root =>
        Tree (Desc Dirent.name) s.objects.fs 3 root) = true := by
      simp only [forall_mem_cons, not_mem_nil, false_imp_iff, implies_true]
      exact ⟨by decide +kernel, by decide +kernel⟩
    intro s hs
    obtain ⟨root, hroot, hT⟩ := (Option.any_eq_true _ _).1 (htrees s hs)
    exact ⟨root, hroot, of_decide_eq_true hT⟩

end CloudFile
