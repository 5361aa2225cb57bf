/-
  The invariant of online garbage collection: the trees of all heads are complete, and so are the
  directories that virtual libraries are being created for (`Inv`). Until the `GCID` row is locked
  every virtual library is listed (`Window`); from then on each root is covered by the index or
  still to be traversed (`Fence`).
-/
import CloudFile.Gc.Retention

namespace CloudFile

open List

variable {Id : Type} [ObjectId Id] [DecidableEq Id]

/-! ## Complete trees -/

/-- Every object reachable from the root is in the store, with its blocks. -/
def Complete (st : ObjectStore Id) (root : Id) : Prop :=
  ∀ id, id ≠ emptySha1 → st.fs.Reach root id →
    (st.fs.obj id).isSome ∧ ∀ b ∈ st.fs.blocksOf id, b ∈ st.blocks

/-- The heads of the library and of its virtual libraries are complete. -/
def Safe (env : GcEnv Id) (s : Sys Id) : Prop :=
  ∀ r, IsLibrary env s r → ∀ c, s.headCommit r = some c → Complete s.store c.rootId

structure ObjectStore.Le (st st' : ObjectStore Id) : Prop where
  fs : st.fs ≤ st'.fs
  blocks : st.blocks ⊆ st'.blocks

section Complete

variable {st st' : ObjectStore Id} {fs : FsStore Id} {root id : Id} {es : List (Dirent Id)}
  {e : Dirent Id} {D : SeafDir Id} {path : Name}

theorem Complete.mono (hle : st.Le st') (h : Complete st root) : Complete st' root := by
  intro id hid hr
  have hr' := reach_of_le hle.fs (fun id hid hr => .inr (h id hid hr).1) hr
  obtain ⟨hobj, hblocks⟩ := h id hid hr'
  have heq : st'.fs.obj id = st.fs.obj id := FsStore.Has.obj_eq hle.fs (.inr hobj)
  refine ⟨heq ▸ hobj, fun b hb => hle.blocks (hblocks b ?_)⟩
  rwa [FsStore.blocksOf, heq] at hb

theorem Complete.below (h : Complete st root) (hr : st.fs.Reach root id) : Complete st id :=
  fun id' hid' hr' => h id' hid' (hr.trans hr')

theorem complete_emptySha1 : Complete st emptySha1 := fun _ hid hr =>
  absurd (reach_emptySha1 hr) hid

omit [DecidableEq Id] in
theorem ObjectStore.Le.refl : st.Le st := ⟨le_rfl, Finset.Subset.refl _⟩

theorem le_putBlock (b : Id) : st.Le (st.putBlock b) := ⟨le_rfl, Finset.subset_insert b _⟩

theorem le_putFs {o : FsObj Id} (ho : o.Nonempty) : st.Le (st.putFs o ho) := by
  refine ⟨fun id o' ho' => ?_, Finset.Subset.refl _⟩
  show (if id = sha1 o then some o else st.fs.obj id) = some o'
  split_ifs with hid
  · rw [sha1_injective ((st.fs.saved id o' ho').2.trans hid)]
  · exact ho'

theorem child_of_entry (h : fs.getSeafdir id = some es) (he : e ∈ es) (hdir : e.isDir = true)
    (hne : e.id ≠ emptySha1) : fs.Child id e.id := by
  rcases FsStore.getSeafdir_obj h with ⟨-, rfl⟩ | ho
  · cases he
  · simp only [FsStore.Child, FsStore.children, ho]
    exact mem_map_of_mem (mem_filter.2 ⟨he, by simp [hdir, hne]⟩)

/-- A directory found below a root, or the empty one. -/
def Below (fs : FsStore Id) (root id : Id) : Prop := id = emptySha1 ∨ fs.Reach root id

theorem Below.entry (hb : Below fs root id) (h : fs.getSeafdir id = some es) (he : e ∈ es)
    (hdir : e.isDir = true) :
    Below fs root e.id := by
  by_cases hne : e.id = emptySha1
  · exact .inl hne
  · rcases hb with rfl | hr
    · rw [FsStore.getSeafdir_empty] at h
      cases h
      cases he
    · exact .inr (hr.tail (child_of_entry h he hdir hne))

theorem descend_below {dir : SeafDir Id} (parts : List Name) (hdir : fs.seafdir id = some dir)
    (hb : Below fs root id) (h : Server.descend fs dir parts = .ok D) :
    fs.seafdir D.dirId = some D ∧ Below fs root D.dirId := by
  induction parts generalizing id dir with
  | nil =>
    cases h
    rw [(seafdir_some.1 hdir).2]
    exact ⟨hdir, hb⟩
  | cons n parts ih =>
    rw [Server.descend] at h
    split at h
    · cases h
    · next dent hfind =>
      split at h
      · cases h
      · next dir' hdir' =>
        have hprop := find?_some hfind
        simp only [Bool.and_eq_true] at hprop
        exact ih hdir' (hb.entry (seafdir_some.1 hdir).1 (mem_of_find?_eq_some hfind)
          hprop.2) h

theorem getSeafdirByPath_below (h : Server.getSeafdirByPath fs root path = .ok D) :
    fs.seafdir D.dirId = some D ∧ Below fs root D.dirId := by
  unfold Server.getSeafdirByPath at h
  split at h
  · cases h
  · next dir hdir => exact descend_below _ hdir (.inr .refl) h

theorem getSeafdirIdByPath_below (h : Server.getSeafdirIdByPath fs root path = some id) :
    Below fs root id := by
  obtain ⟨⟨id', mode⟩, hfound, h⟩ := Option.bind_eq_some_iff.1 h
  dsimp only at h
  split_ifs at h with hmode
  cases h
  have hentry : ∀ {dir : SeafDir Id} {name : Name}, fs.seafdir dir.dirId = some dir →
      Below fs root dir.dirId → (dir.entries.find? fun dent => dent.name = name).map
        (fun dent => (dent.id, dent.mode)) = some (id, mode) → Below fs root id := by
    intro dir name hdir hb hmap
    obtain ⟨dent, hfind, hdent⟩ := Option.map_eq_some_iff.1 hmap
    cases hdent
    exact hb.entry (seafdir_some.1 hdir).1 (mem_of_find?_eq_some hfind) hmode
  cases hp : Server.pathToObjId fs root path with
  | error err => simp [hp, found, Except.toOption] at hfound
  | ok o =>
    obtain rfl : o = some (id, mode) := by simpa [hp, found, Except.toOption] using hfound
    dsimp only [Server.pathToObjId] at hp
    split_ifs at hp with hroot hslash
    · cases hp
      exact .inr .refl
    · split at hp
      · cases hp
      · next dir hdir =>
        obtain ⟨hdir', hb⟩ := getSeafdirByPath_below hdir
        exact hentry hdir' hb (Except.ok.inj hp)
    · cases hdir : fs.seafdir root with
      | none => simp [hdir] at hp
      | some dir =>
        simp only [hdir] at hp
        have hid := (seafdir_some.1 hdir).2
        exact hentry (hid ▸ hdir) (hid ▸ .inr .refl) (Except.ok.inj hp)

end Complete

/-! ## The conditions on a run -/

/-- The stages with the virtual libraries listed and the row not locked yet. -/
def Stage.window : Stage Id → Bool
  | .virtuals _ | .base | .begin => true
  | _ => false

def Sys.window (s : Sys Id) : Bool :=
  match s.gc with
  | .running run => run.stage.window
  | _ => false

/-- No virtual library is being created between the listing and the locking of the row, and the
    list is read without an error. -/
def CreatesApart (s : Sys Id) : Event Id → Prop
  | .gc (.listVirtual dbOk) => dbOk = true ∧ ∀ v x, s.creators v = some x → x.saved = true
  | .openDir _ _ => s.window = false
  | _ => True

/-- A run is online, and rolled back only where it has removed nothing. -/
def RollsBackEarly (s : Sys Id) : Event Id → Prop
  | .gc (.load online _ _) => online = true
  | .gc .blocksDone | .gc .fsDone =>
    ∀ run, s.gc = .running run → run.failed = true → run.removed = false
  | .gc (.commit ok) => ok = false → ∀ run, s.gc = .running run → run.removed = false
  | _ => True

/-! ## Libraries and their trees -/

/-- The roots of the heads, and the directories that virtual libraries are being created for. -/
def Protected (env : GcEnv Id) (s : Sys Id) (root : Id) : Prop :=
  (∃ r c, IsLibrary env s r ∧ s.headCommit r = some c ∧ c.rootId = root) ∨
    ∃ v x, s.creators v = some x ∧ x.dirId = root

/-- Only the library and its virtual libraries have heads; one that is being created has none. -/
structure Libraries (env : GcEnv Id) (s : Sys Id) : Prop where
  owned : ∀ r, (s.branch r).isSome → IsLibrary env s r
  creators : ∀ v x, s.creators v = some x →
    s.branch v = none ∧ (x.saved = true → ∃ row ∈ s.virtualRepos, row.repoId = v)

/-! ## What the garbage collector has traversed -/

def DataOk (env : GcEnv Id) (s : Sys Id) (index : GCIndex) (data : GCData Id) : Prop :=
  Good env.sha256 s.store.fs s.commits index data ∧ data.repo.head ∈ data.visitedCommits

/-- Each protected root is covered, or lies below the head of a library that is still to be
    traversed again. -/
def Fence (env : GcEnv Id) (s : Sys Id) (index : GCIndex) (awaiting : List (GCData Id)) : Prop :=
  ∀ root, Protected env s root → Covered env.sha256 s.store.fs index root ∨
    ∃ data ∈ awaiting, ∃ c, s.headCommit data.repo.id = some c ∧ s.store.fs.Reach c.rootId root

/-- Between listing and locking: every virtual library is listed, and none is on its way. -/
structure Window (env : GcEnv Id) (s : Sys Id) (run : GcRun Id) (todo : List RepoId) : Prop where
  library : run.data.repo.id = env.library
  data : ∀ data ∈ run.data :: run.virtualRepos, DataOk env s run.index data
  created : ∀ data ∈ run.virtualRepos, (s.branch data.repo.id).isSome
  listed : ∀ row ∈ s.virtualRepos, row.repoId ∈ todo ∨
    ∃ data ∈ run.virtualRepos, data.repo.id = row.repoId
  saved : ∀ v x, s.creators v = some x → x.saved = true

def StageSafe (env : GcEnv Id) (s : Sys Id) (run : GcRun Id) : Prop :=
  match run.stage with
  | .main => run.data.repo.id = env.library ∧ run.virtualRepos = [] ∧
      run.data = gcDataNew run.data.repo (env.truncateTime env.library)
  | .listVirtual => run.data.repo.id = env.library ∧ run.virtualRepos = [] ∧
      DataOk env s run.index run.data
  | .virtuals todo => Window env s run todo
  | .base => Window env s run []
  | .begin => Window env s run []
  | .newCommits => (∀ data ∈ run.data :: run.virtualRepos, DataOk env s run.index data) ∧
      Fence env s run.index (run.data :: run.virtualRepos)
  | .newVirtuals todo => (∀ data ∈ todo, DataOk env s run.index data) ∧ Fence env s run.index todo
  | .blocks => Fence env s run.index []
  | .fs => Fence env s run.index []
  | .finish => Fence env s run.index []

def Staged (env : GcEnv Id) (s : Sys Id) : Prop :=
  match s.gc with
  | .idle => True
  | .loaded repo _ _ _ => repo.id = env.library
  | .running run => StageSafe env s run

/-! ## What writers rely on -/

/-- The stages with the row locked, and those that remove objects. -/
def Stage.locks : Stage Id → Bool
  | .newCommits | .newVirtuals _ | .blocks | .fs | .finish => true
  | _ => false

def Stage.removes : Stage Id → Bool
  | .blocks | .fs | .finish => true
  | _ => false

def Sys.removed (s : Sys Id) : Bool :=
  match s.gc with
  | .running run => run.removed
  | _ => false

/-- A GC id that a writer has read, or that was in force at the beginning. -/
def ReadId (base : Option GcId) (s : Sys Id) (x : Option GcId) : Prop :=
  x = base ∨ ∃ n w, s.writers n = some w ∧ w.lastGcId = x

/-- The transaction of an online run: nobody has read its GC id. -/
structure TransOk (base : Option GcId) (s : Sys Id) (run : GcRun Id) : Prop where
  online : run.online = true
  trans : run.trans.isSome = run.stage.locks
  issued : ∀ g, run.trans = some g → g ∈ s.issued
  fresh : ∀ g, run.trans = some g → ¬ ReadId base s (some g)
  old : ∀ g, run.trans = some g → s.gcId ≠ some g
  removed : run.removed = true → run.stage.removes = true

/-- What a writer has found or stored is in the store. -/
def Found (st : ObjectStore Id) (w : Writer Id) : Prop :=
  (∀ id ∈ w.fs, (st.fs.obj id).isSome) ∧ w.blocks ⊆ st.blocks

/-- What a writer has found or stored since it read the valid GC id is there, as long as the run
    has removed nothing. -/
structure Seen (base : Option GcId) (s : Sys Id) : Prop where
  issued : ∀ g, s.gcId = some g → g ∈ s.issued
  read : ∀ g, ReadId base s (some g) → g ∈ s.issued
  found : s.removed = false → ∀ n w, s.writers n = some w → w.lastGcId = s.gcId →
    Found s.store w
  online : ∀ repo online dryRun rmFs, s.gc = .loaded repo online dryRun rmFs → online = true
  trans : ∀ run, s.gc = .running run → TransOk base s run

/-- **The invariant** of runs in which virtual libraries are created apart. -/
structure Inv (base : Option GcId) (env : GcEnv Id) (s : Sys Id) : Prop where
  seen : Seen base s
  libraries : Libraries env s
  complete : ∀ root, Protected env s root → Complete s.store root
  staged : Staged env s

/-- The invariant of all runs: as long as the first GC id is in force and the run has removed
    nothing, nothing was ever removed. -/
structure Intact (base : Option GcId) (env : GcEnv Id) (s : Sys Id) : Prop where
  seen : Seen base s
  libraries : Libraries env s
  complete : s.gcId = base → s.removed = false →
    ∀ root, Protected env s root → Complete s.store root

/-! ## Steps of the garbage collector -/

section Collector

variable {base : Option GcId} {env : GcEnv Id} {s s' : Sys Id} {e : GcEvent Id}
  {index index' : GCIndex} {data : GCData Id} {run run' : GcRun Id} {root : Id}

theorem DataOk.extends (h : DataOk env s index data) (he : index.Extends env.sha256 index') :
    DataOk env s index' data :=
  ⟨h.1.extends he, h.2⟩

theorem Window.fence (h : Window env s run []) (hs : Libraries env s) :
    Fence env s run.index (run.data :: run.virtualRepos) := by
  rintro root (⟨r, c, rfl | ⟨row, hrow, rfl⟩, hc, rfl⟩ | ⟨v, x, hx, rfl⟩)
  · exact .inr ⟨run.data, mem_cons_self, c, h.library ▸ hc, .refl⟩
  · obtain ⟨data, hdata, hid⟩ := (h.listed row hrow).resolve_left not_mem_nil
    exact .inr ⟨data, mem_cons_of_mem _ hdata, c, hid ▸ hc, .refl⟩
  · -- a library on its way has a row, so it is listed, so it has been created
    obtain ⟨hnone, hsaved⟩ := hs.creators v x hx
    obtain ⟨row, hrow, rfl⟩ := hsaved (h.saved v x hx)
    obtain ⟨data, hdata, hid⟩ := (h.listed row hrow).resolve_left not_mem_nil
    have hsome := h.created data hdata
    rw [hid, hnone] at hsome
    cases hsome

theorem Fence.traverse {data' : GCData Id} {todo : List (GCData Id)}
    (h : Fence env s index (data :: todo)) (hd : DataOk env s index data)
    (hp : populateGcIndexForRepoForNewCommits env s index data = some (index', data')) :
    Fence env s index' todo ∧ index.Extends env.sha256 index' := by
  obtain ⟨-, hext, c, hc, hcov⟩ := populateNew_covers hd.1 hd.2 hp
  refine ⟨fun root hroot => ?_, hext⟩
  rcases h root hroot with hr | ⟨x, hx, c', hc', hr⟩
  · exact .inl (hr.extends hext)
  · rcases mem_cons.1 hx with rfl | hx
    · obtain rfl := Option.mem_unique hc hc'
      exact .inl (hcov.below hr)
    · exact .inr ⟨x, hx, c', hc', hr⟩

theorem Fence.covered (h : Fence env s index []) (hroot : Protected env s root) :
    Covered env.sha256 s.store.fs index root :=
  (h root hroot).resolve_right (by simp)

theorem Fence.erase (h : Fence env s index []) {x : Id} (hx : index.hasFs env.sha256 x = false) :
    Fence env ({ s with store := s.store.removeFs x }.goOn run) index [] :=
  fun _ hroot => .inl ((h.covered hroot).erase hx)

theorem GcMove.staged (hl : Libraries env s) (hs : Staged env s) (hc : CreatesApart s (.gc e))
    (h : GcMove env s e s') : Staged env s' := by
  cases h with
  | load hgc hrepo => exact (getRepo_some hrepo).1
  | skip | fail | blocksFailed | fsFailed | commit | rollback => trivial
  | collect hgc =>
    simp only [Staged, hgc] at hs
    exact ⟨hs, rfl, by rw [hs]; rfl⟩
  | @populate run index data hgc hstage hp =>
    simp only [Staged, hgc, StageSafe, hstage] at hs
    obtain ⟨hid, hnil, hdata⟩ := hs
    rw [hdata] at hp
    obtain ⟨hgood, -, hrepo, hretained⟩ := populate_spec hp
    exact ⟨hrepo ▸ hid, hnil, hgood, hrepo ▸ hretained _ .refl⟩
  | @listVirtual run dbOk hgc hstage =>
    simp only [Staged, hgc, StageSafe, hstage] at hs
    obtain ⟨hid, hnil, hdata⟩ := hs
    obtain ⟨hdb, hsaved⟩ := hc
    refine ⟨hid, ?_, ?_, ?_, hsaved⟩
    · rintro data (_ | ⟨_, hd⟩)
      · exact hdata
      · rw [hnil] at hd
        cases hd
    · simp [hnil]
    · intro row hrow
      rw [virtualRows, if_pos hdb]
      exact .inl (mem_map_of_mem hrow)
  | @virtualsDone run hgc hstage =>
    simp only [Staged, hgc, StageSafe, hstage] at hs
    cases hrm : run.rmFs <;> exact ⟨hs.library, hs.data, hs.created, hs.listed, hs.saved⟩
  | @populateVirtual run v todo vrepo index data hgc hstage hrepo hp =>
    simp only [Staged, hgc, StageSafe, hstage] at hs
    obtain ⟨rfl, hv⟩ := getRepo_some hrepo
    obtain ⟨hgood, hext, hrepo', hhead, -⟩ := populate_covers hv hp
    refine ⟨hs.library, ?_, ?_, ?_, hs.saved⟩
    · rintro data' (_ | ⟨_, _ | ⟨_, hd⟩⟩)
      · exact (hs.data _ mem_cons_self).extends hext
      · exact ⟨hgood, hrepo' ▸ hhead⟩
      · exact (hs.data _ (mem_cons_of_mem _ hd)).extends hext
    · rintro data' (_ | ⟨_, hd⟩)
      · show (s.branch data.repo.id).isSome
        rw [hrepo', hv]
        rfl
      · exact hs.created data' hd
    · intro row hrow
      rcases hs.listed row hrow with hmem | ⟨data', hd, hid⟩
      · rcases mem_cons.1 hmem with heq | hmem
        · exact .inr ⟨data, mem_cons_self, by rw [hrepo', heq]⟩
        · exact .inl hmem
      · exact .inr ⟨data', mem_cons_of_mem _ hd, hid⟩
  | @baseCommits run dbOk infoOk index data hgc hstage hp =>
    simp only [Staged, hgc, StageSafe, hstage] at hs
    obtain ⟨hgood, hhead⟩ := hs.data _ mem_cons_self
    obtain ⟨hgood', hext, hrepo, hsub, -⟩ := populateBase_covers hgood hp
    refine ⟨hrepo ▸ hs.library, ?_, hs.created, hs.listed, hs.saved⟩
    rintro data' (_ | ⟨_, hd⟩)
    · exact ⟨hgood', hrepo ▸ hsub hhead⟩
    · exact (hs.data _ (mem_cons_of_mem _ hd)).extends hext
  | beginOffline hgc hstage | begin hgc hstage =>
    simp only [Staged, hgc, StageSafe, hstage] at hs
    exact ⟨hs.data, hs.fence hl⟩
  | newCommits hgc hstage hp | newCommitsVirtual hgc hstage hp =>
    simp only [Staged, hgc, StageSafe, hstage] at hs
    obtain ⟨hdata, hfence⟩ := hs
    obtain ⟨hfence', hext⟩ := hfence.traverse (hdata _ mem_cons_self) hp
    exact ⟨fun d hd => (hdata d (mem_cons_of_mem _ hd)).extends hext, hfence'⟩
  | newVirtualsDone hgc hstage =>
    simp only [Staged, hgc, StageSafe, hstage] at hs
    exact hs.2
  | keepBlock hgc hstage | removeBlock hgc hstage | keepFs hgc hstage =>
    simp only [Staged, hgc, StageSafe, hstage] at hs
    simp only [Staged, hstage]
    exact hs
  | blocksDone hgc hstage hnext =>
    simp only [Staged, hgc, StageSafe, hstage] at hs
    rcases hnext with rfl | rfl <;> exact hs
  | removeFs hgc hstage hx =>
    simp only [Staged, hgc, StageSafe, hstage] at hs
    simp only [Staged, hstage]
    exact hs.erase hx
  | fsDone hgc hstage =>
    simp only [Staged, hgc, StageSafe, hstage] at hs
    exact hs

theorem Preserved.reach_of {id : Id} (h : Preserved s s' root) (hr : s'.store.fs.Reach root id) :
    s.store.fs.Reach root id := by
  induction hr with
  | refl => exact .refl
  | @tail b c _ hchild ih =>
    refine ih.tail ?_
    by_cases hempty : b = emptySha1
    · rw [hempty] at hchild
      simp [FsStore.Child, FsStore.children, obj_emptySha1] at hchild
    · rwa [FsStore.Child, FsStore.children, (h b hempty ih).1] at hchild

theorem Complete.preserved (h : Complete s.store root) (hp : Preserved s s' root) :
    Complete s'.store root := by
  intro id hid hr
  obtain ⟨hobj, hblocks⟩ := h id hid (hp.reach_of hr)
  obtain ⟨hobj', hblocks'⟩ := hp id hid (hp.reach_of hr)
  refine ⟨hobj' ▸ hobj, fun b hb => ?_⟩
  rw [FsStore.blocksOf, hobj'] at hb
  exact hblocks' b hb (hblocks b hb)

omit [DecidableEq Id] in
theorem Protected.frame (hc : s'.commits = s.commits) (hb : s'.branch = s.branch)
    (hv : s'.virtualRepos = s.virtualRepos) (hx : s'.creators = s.creators)
    (h : Protected env s' root) : Protected env s root := by
  simpa only [Protected, IsLibrary, Sys.headCommit, hc, hb, hv, hx] using h

theorem GcMove.complete (hs : Staged env s) (h : GcMove env s e s') (hroot : Protected env s root)
    (hc : Complete s.store root) : Complete s'.store root := by
  rcases h.store with hst | ⟨run, x, hgc, ⟨hstage, hx, hst⟩ | ⟨hstage, hx, hst⟩⟩
  · exact hst ▸ hc
  · simp only [Staged, hgc, StageSafe, hstage] at hs
    exact hc.preserved ((hs.covered hroot).preserved_removeBlock hx hst)
  · simp only [Staged, hgc, StageSafe, hstage] at hs
    exact hc.preserved ((hs.covered hroot).preserved_removeFs hx hst)

theorem GcMove.libraries (hs : Libraries env s) (h : GcMove env s e s') : Libraries env s' := by
  obtain ⟨-, hbranch, hrows, -, hcreators⟩ := h.frame
  constructor
  · simp only [IsLibrary, hbranch, hrows]
    exact hs.owned
  · rw [hcreators, hbranch, hrows]
    exact hs.creators

omit [DecidableEq Id] in
theorem TransOk.goOn {st : ObjectStore Id} {stage : Stage Id} (h : TransOk base s run)
    (hstage : run.stage = stage) (hlocks : run'.stage.locks = stage.locks)
    (hremoves : stage.removes = true → run'.stage.removes = true)
    (honline : run'.online = run.online) (htrans : run'.trans = run.trans)
    (hremoved : run'.removed = true → run.removed = true ∨ stage.removes = true) :
    TransOk base ({ s with store := st }.goOn run') run' where
  online := honline ▸ h.online
  trans := by rw [htrans, hlocks, h.trans, hstage]
  issued := htrans ▸ h.issued
  fresh := htrans ▸ h.fresh
  old := htrans ▸ h.old
  removed hr := hremoves ((hremoved hr).elim (fun h' => hstage ▸ h.removed h') id)

variable (h : GcMove env s e s')
include h

section

variable (hs : Seen base s)
include hs

theorem GcMove.transOk (hrun : s'.gc = .running run') :
    TransOk base s' run' := by
  cases h with
  | load | skip | fail | blocksFailed | fsFailed | commit | rollback => cases hrun
  | collect hgc =>
    cases hrun
    exact ⟨hs.online _ _ _ _ hgc, rfl, nofun, nofun, nofun, nofun⟩
  | populate hgc hstage | listVirtual hgc hstage | populateVirtual hgc hstage
  | baseCommits hgc hstage | newCommits hgc hstage | newVirtualsDone hgc hstage
  | newCommitsVirtual hgc hstage =>
    cases hrun
    exact (hs.trans _ hgc).goOn hstage rfl nofun rfl rfl .inl
  | @virtualsDone run hgc hstage =>
    cases hrun
    have htrans := hs.trans _ hgc
    cases hrm : run.rmFs <;> exact htrans.goOn hstage rfl nofun rfl rfl .inl
  | beginOffline hgc _ honline => exact absurd (hs.trans _ hgc).online (by simp [honline])
  | @begin run gcId hgc hstage hissued =>
    cases hrun
    have htrans := hs.trans _ hgc
    refine ⟨htrans.online, rfl, ?_, ?_, ?_, fun hremoved => ?_⟩
    · rintro _ ⟨⟩
      exact mem_cons_self
    · rintro _ ⟨⟩ hread
      exact hissued (hs.read gcId hread)
    · rintro _ ⟨⟩ hg
      exact hissued (hs.issued gcId hg)
    · exact absurd (htrans.removed hremoved) (by simp [hstage, Stage.removes])
  | keepBlock hgc hstage | keepFs hgc hstage =>
    cases hrun
    exact (hs.trans _ hgc).goOn rfl rfl id rfl rfl .inl
  | removeBlock hgc hstage | removeFs hgc hstage =>
    cases hrun
    exact (hs.trans _ hgc).goOn rfl rfl id rfl rfl fun _ => .inr (by rw [hstage]; rfl)
  | blocksDone hgc hstage hnext =>
    cases hrun
    rcases hnext with rfl | rfl <;> exact (hs.trans _ hgc).goOn hstage rfl id rfl rfl .inl
  | fsDone hgc hstage =>
    cases hrun
    exact (hs.trans _ hgc).goOn hstage rfl id rfl rfl .inl

/-- As far as writers see it, a step changes nothing, or removes something, or brings a GC id
    into force that nobody has read. -/
theorem GcMove.view (hr : RollsBackEarly s (.gc e)) :
    (s'.store = s.store ∧ s'.gcId = s.gcId ∧ s'.removed = s.removed) ∨ s'.removed = true ∨
      ¬ ReadId base s' s'.gcId := by
  -- a run that ends without having removed anything
  have hend : ∀ {run : GcRun Id}, s.gc = .running run → run.removed = false →
      s.out.store = s.store ∧ s.out.gcId = s.gcId ∧ s.out.removed = s.removed := by
    intro run hgc hremoved
    exact ⟨rfl, rfl, by simp [Sys.removed, Sys.out, hgc, hremoved]⟩
  cases h with
  | removeBlock | removeFs => exact .inr (.inl rfl)
  | commit hgc hstage htrans => exact .inr (.inr ((hs.trans _ hgc).fresh _ htrans))
  | @fail run e hgc hwhere =>
    refine .inl (hend hgc (by_contra fun hremoved => ?_))
    have hremoves := (hs.trans _ hgc).removed (by simpa using hremoved)
    rcases hwhere with ⟨-, h⟩ | ⟨-, v, todo, h⟩ | ⟨h, -⟩ | ⟨-, h⟩ | ⟨-, h⟩ | ⟨-, v, todo, h⟩ <;>
      simp [h, Stage.removes] at hremoves
  | @blocksFailed run hgc hstage hfailed => exact .inl (hend hgc (hr run hgc hfailed))
  | @fsFailed run hgc hstage hfailed => exact .inl (hend hgc (hr run hgc hfailed))
  | @rollback run ok hgc hstage hnot =>
    have hsome : run.trans.isSome := by
      rw [(hs.trans _ hgc).trans, hstage]
      rfl
    have hok : ok = false := hnot.resolve_right fun hnone => by simp [hnone] at hsome
    exact .inl (hend hgc (hr hok run hgc))
  | load hgc | skip hgc | collect hgc | populate hgc | listVirtual hgc | virtualsDone hgc
  | populateVirtual hgc | baseCommits hgc | beginOffline hgc | begin hgc | newCommits hgc
  | newVirtualsDone hgc | newCommitsVirtual hgc | keepBlock hgc | blocksDone hgc | keepFs hgc
  | fsDone hgc => exact .inl ⟨rfl, rfl, by simp [Sys.removed, Sys.goOn, Sys.out, hgc]⟩

theorem GcMove.issued :
    s.issued ⊆ s'.issued ∧ ∀ g, s'.gcId = some g → g ∈ s'.issued := by
  cases h with
  | begin => exact ⟨subset_cons_self _ _, fun g hg => mem_cons_of_mem _ (hs.issued g hg)⟩
  | commit hgc hstage htrans =>
    refine ⟨List.Subset.refl _, ?_⟩
    rintro _ ⟨⟩
    exact (hs.trans _ hgc).issued _ htrans
  | _ => exact ⟨List.Subset.refl _, hs.issued⟩

theorem GcMove.keepsSeen (hr : RollsBackEarly s (.gc e)) : Seen base s' := by
  obtain ⟨-, -, -, hwriters, -⟩ := h.frame
  obtain ⟨hsub, hissued⟩ := h.issued hs
  refine ⟨hissued, fun g hg => hsub (hs.read g ?_), ?_, ?_, fun _ => h.transOk hs⟩
  · rwa [ReadId, hwriters] at hg
  · intro hremoved n w hw hread
    rcases h.view hs hr with ⟨hst, hgcId, hsame⟩ | htrue | hnew
    · rw [hst]
      exact hs.found (hsame ▸ hremoved) n w (hwriters ▸ hw) (hgcId ▸ hread)
    · exact absurd hremoved (by simp [htrue])
    · exact absurd (.inr ⟨n, w, hw, hread⟩) hnew
  · intro repo online dryRun rmFs hgc'
    cases h with
    | load =>
      cases hgc'
      exact hr
    | _ => cases hgc'

end

/-- **A step of the garbage collector** keeps the invariant. -/
theorem GcMove.keeps (hs : Inv base env s) (hc : CreatesApart s (.gc e))
    (hr : RollsBackEarly s (.gc e)) : Inv base env s' := by
  obtain ⟨hcommits, hbranch, hrows, -, hcreators⟩ := h.frame
  refine ⟨h.keepsSeen hs.seen hr, h.libraries hs.libraries, fun root hroot => ?_,
    h.staged hs.libraries hs.staged hc⟩
  have hroot' := hroot.frame hcommits hbranch hrows hcreators
  exact h.complete hs.staged hroot' (hs.complete root hroot')

theorem GcMove.keepsIntact (hs : Intact base env s) (hr : RollsBackEarly s (.gc e)) :
    Intact base env s' := by
  obtain ⟨hcommits, hbranch, hrows, -, hcreators⟩ := h.frame
  refine ⟨h.keepsSeen hs.seen hr, h.libraries hs.libraries, fun hbase hremoved root hroot => ?_⟩
  rcases h.view hs.seen hr with ⟨hst, hgcId, hsame⟩ | htrue | hnew
  · rw [hst]
    exact hs.complete (hgcId ▸ hbase) (hsame ▸ hremoved) root
      (hroot.frame hcommits hbranch hrows hcreators)
  · exact absurd hremoved (by simp [htrue])
  · exact absurd (.inl hbase) hnew

end Collector

end CloudFile
