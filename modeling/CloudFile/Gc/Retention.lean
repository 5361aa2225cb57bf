/-
  The garbage collector keeps what the retained history needs, as long as nothing else runs
  (`gc_keeps_retained`). From the first traversal on, the index covers the trees of the retained
  commits; the Bloom filters and the marks only ever make it larger.
-/
import CloudFile.Gc.Moves

namespace CloudFile

open List Option

variable {Id : Type} [ObjectId Id] [DecidableEq Id]

/-! ## What must be kept -/

def IsLibrary (env : GcEnv Id) (s : Sys Id) (r : RepoId) : Prop :=
  r = env.library ∨ ∃ row ∈ s.virtualRepos, row.repoId = r

def RetainedRoot (env : GcEnv Id) (s : Sys Id) (r : RepoId) (root : Id) : Prop :=
  ∃ head id c, s.branch r = some head ∧
    Retained (s.commits.get r) (env.truncateTime r) head id ∧
    s.commits.get r id = some c ∧ c.rootId = root

/-- The root of the commit a virtual library was created from, or last merged with. -/
def BaseRoot (env : GcEnv Id) (s : Sys Id) (root : Id) : Prop :=
  ∃ row ∈ s.virtualRepos, ∃ c, s.commits.get env.library row.baseCommit = some c ∧ c.rootId = root

/-- From one state to another, no object reachable from a root was removed. -/
def Preserved (s s' : Sys Id) (root : Id) : Prop :=
  ∀ id, id ≠ emptySha1 → s.store.fs.Reach root id → s'.store.fs.obj id = s.store.fs.obj id ∧
    ∀ b ∈ s.store.fs.blocksOf id, b ∈ s.store.blocks → b ∈ s'.store.blocks

/-- The queries of the garbage collector succeed. -/
def GcEvent.QueriesOk : GcEvent Id → Prop
  | .listVirtual dbOk => dbOk = true
  | .baseCommits dbOk infoOk => dbOk = true ∧ ∀ v, infoOk v = true
  | _ => True

/-- The garbage collector is asked to remove file system objects. -/
def GcEvent.RemovesFs : GcEvent Id → Prop
  | .load _ _ rmFs => rmFs = true
  | _ => True

/-! ## Removals -/

section Removal

variable {sha256 : Id → ℕ → UInt64} {st : FsStore Id} {index : GCIndex} {s s' s'' : Sys Id}
  {root id x : Id}

theorem Preserved.refl : Preserved s s root := fun _ _ _ => ⟨rfl, fun _ _ h => h⟩

theorem Preserved.reach (h : Preserved s s' root) (hr : s.store.fs.Reach root id) :
    s'.store.fs.Reach root id := by
  induction hr with
  | refl => exact .refl
  | @tail b c hb hchild ih =>
    refine ih.tail ?_
    by_cases hempty : b = emptySha1
    · rw [hempty] at hchild
      simp [FsStore.Child, FsStore.children, obj_emptySha1] at hchild
    · rwa [FsStore.Child, FsStore.children, (h b hempty hb).1]

theorem Preserved.trans (h : Preserved s s' root) (h' : Preserved s' s'' root) :
    Preserved s s'' root := by
  intro id hid hr
  obtain ⟨hobj, hblocks⟩ := h id hid hr
  obtain ⟨hobj', hblocks'⟩ := h' id hid (h.reach hr)
  refine ⟨hobj'.trans hobj, fun b hb hs => hblocks' b ?_ (hblocks b hb hs)⟩
  rwa [FsStore.blocksOf, hobj]

theorem reach_of_erase (h : (st.erase x).Reach root id) : st.Reach root id := by
  induction h with
  | refl => exact .refl
  | @tail b c _ hchild ih =>
    refine ih.tail ?_
    unfold FsStore.Child FsStore.children FsStore.erase at hchild
    dsimp only at hchild
    split_ifs at hchild
    · cases hchild
    · exact hchild

theorem Covered.erase (h : Covered sha256 st index root) (hx : index.hasFs sha256 x = false) :
    Covered sha256 (st.erase x) index root := by
  intro id hid hr
  have hkept := h id hid (reach_of_erase hr)
  have hne : id ≠ x := by
    rintro rfl
    exact absurd hkept.fs (by simp [hx])
  have hobj : (st.erase x).obj id = st.obj id := if_neg hne
  refine ⟨?_, hkept.fs, ?_⟩
  · rw [FsStore.Has, hobj]
    exact hkept.has
  · rw [FsStore.blocksOf, hobj]
    exact hkept.blocks

theorem Covered.preserved_removeFs (h : Covered sha256 s.store.fs index root)
    (hx : index.hasFs sha256 x = false) (hs : s'.store = s.store.removeFs x) :
    Preserved s s' root := by
  intro id hid hr
  have hne : id ≠ x := by
    rintro rfl
    exact absurd (h id hid hr).fs (by simp [hx])
  rw [hs]
  exact ⟨if_neg hne, fun _ _ hb => hb⟩

theorem Covered.preserved_removeBlock (h : Covered sha256 s.store.fs index root)
    (hx : index.hasBlock sha256 x = false) (hs : s'.store = s.store.removeBlock x) :
    Preserved s s' root := by
  intro id hid hr
  rw [hs]
  refine ⟨rfl, fun b hb hmem => Finset.mem_erase.2 ⟨?_, hmem⟩⟩
  rintro rfl
  exact absurd ((h id hid hr).blocks b hb) (by simp [hx])

end Removal

/-! ## What the traversals cover -/

section Traversals

variable {env : GcEnv Id} {s : Sys Id} {index index' : GCIndex} {data data' : GCData Id}
  {r : RepoId} {repo : Repo Id} {rows : List (VirtRepo Id)} {infoOk : RepoId → Bool}

def CoversLibrary (env : GcEnv Id) (s : Sys Id) (index : GCIndex) (r : RepoId) : Prop :=
  ∀ root, RetainedRoot env s r root → Covered env.sha256 s.store.fs index root

theorem CoversLibrary.extends (h : CoversLibrary env s index r)
    (he : index.Extends env.sha256 index') : CoversLibrary env s index' r :=
  fun root hroot => (h root hroot).extends he

omit [DecidableEq Id] in
theorem getRepo_some {v : RepoId} {isVirtual : Bool} (h : getRepo s v isVirtual = some repo) :
    repo.id = v ∧ s.branch v = some repo.head := by
  obtain ⟨head, hhead, h⟩ := bind_eq_some_iff.1 h
  obtain ⟨c, -, h⟩ := bind_eq_some_iff.1 h
  cases h
  exact ⟨rfl, hhead⟩

theorem populate_covers (hhead : s.branch repo.id = some repo.head)
    (h : populateGcIndexForRepo env s index (gcDataNew repo (env.truncateTime repo.id)) =
      some (index', data')) :
    Good env.sha256 s.store.fs s.commits index' data' ∧ index.Extends env.sha256 index' ∧
      data'.repo = repo ∧ repo.head ∈ data'.visitedCommits ∧
      CoversLibrary env s index' repo.id := by
  obtain ⟨hgood, hext, hrepo, hretained⟩ := populate_spec h
  replace hrepo : data'.repo = repo := hrepo
  refine ⟨hgood, hext, hrepo, hretained _ .refl, ?_⟩
  rintro root ⟨head, id, c, hb, hr, hc, rfl⟩
  obtain rfl := mem_unique hb hhead
  obtain ⟨c', hc', hcov⟩ := hgood.covered id (hretained id hr)
  rw [hrepo] at hc'
  obtain rfl := mem_unique hc hc'
  exact hcov

theorem foldlM_baseCommit {x x' : GCIndex × GCData Id} (hr : x.2.repo.id = r)
    (hg : Good env.sha256 s.store.fs s.commits x.1 x.2)
    (h : rows.foldlM (fun x vinfo => if infoOk vinfo.repoId then traverseCommitTree (s.commits.get
      r) (traverseBaseCommit env.sha256 s.store.fs env.fuel) env.fuel vinfo.baseCommit x else some
      x) x = some x') :
    Good env.sha256 s.store.fs s.commits x'.1 x'.2 ∧ x.1.Extends env.sha256 x'.1 ∧
      x'.2.repo = x.2.repo ∧ x.2.visitedCommits ⊆ x'.2.visitedCommits ∧
      ∀ row ∈ rows, infoOk row.repoId = true → row.baseCommit ∈ x'.2.visitedCommits := by
  induction rows generalizing x with
  | nil =>
    cases h
    exact ⟨hg, .refl, rfl, List.Subset.refl _, by simp⟩
  | cons row rows ih =>
    rw [foldlM_cons] at h
    obtain ⟨y, hy, h⟩ := bind_eq_some_iff.1 h
    have hrow : Good env.sha256 s.store.fs s.commits y.1 y.2 ∧ x.1.Extends env.sha256 y.1 ∧
        y.2.repo = x.2.repo ∧ x.2.visitedCommits ⊆ y.2.visitedCommits ∧
        (infoOk row.repoId = true → row.baseCommit ∈ y.2.visitedCommits) := by
      split_ifs at hy with hinfo
      · obtain ⟨hgood, hext, hrepo, hsub, hmem⟩ := traverseCommitTree_good
          (fun hg hc hf => traverseBaseCommit_called hg hc hf) hg (hr ▸ hy)
        exact ⟨hgood, hext, hrepo, hsub, fun _ => hmem⟩
      · cases hy
        exact ⟨hg, .refl, rfl, List.Subset.refl _, fun h => absurd h hinfo⟩
    obtain ⟨hgood, hext, hrepo, hsub, hmem⟩ := hrow
    obtain ⟨hgood', hext', hrepo', hsub', hmem'⟩ := ih (hrepo ▸ hr) hgood h
    refine ⟨hgood', hext.trans hext', hrepo'.trans hrepo, fun _ hx => hsub' (hsub hx), ?_⟩
    rintro row' (_ | ⟨_, hrow'⟩) hinfo
    · exact hsub' (hmem hinfo)
    · exact hmem' row' hrow' hinfo

section

variable (hg : Good env.sha256 s.store.fs s.commits index data)
include hg

theorem populateBase_covers
    (h : populateGcIndexForBaseCommit env s rows infoOk index data = some (index', data')) :
    Good env.sha256 s.store.fs s.commits index' data' ∧ index.Extends env.sha256 index' ∧
      data'.repo = data.repo ∧ data.visitedCommits ⊆ data'.visitedCommits ∧
      ∀ row ∈ rows, infoOk row.repoId = true →
        ∃ c, s.commits.get data.repo.id row.baseCommit = some c ∧
          Covered env.sha256 s.store.fs index' c.rootId := by
  obtain ⟨hgood, hext, hrepo, hsub, hmem⟩ :=
    foldlM_baseCommit (x := (index, data)) rfl hg h
  refine ⟨hgood, hext, hrepo, hsub, fun row hrow hinfo => ?_⟩
  obtain ⟨c, hc, hcov⟩ := hgood.covered _ (hmem row hrow hinfo)
  exact ⟨c, hrepo ▸ hc, hcov⟩

theorem populateNew_covers (hhead : data.repo.head ∈ data.visitedCommits)
    (h : populateGcIndexForRepoForNewCommits env s index data = some (index', data')) :
    Good env.sha256 s.store.fs s.commits index' data' ∧ index.Extends env.sha256 index' ∧
      ∃ c, s.headCommit data.repo.id = some c ∧ Covered env.sha256 s.store.fs index' c.rootId := by
  obtain ⟨newHead, hnew, h⟩ := bind_eq_some_iff.1 h
  have hresult : Good env.sha256 s.store.fs s.commits index' data' ∧
      index.Extends env.sha256 index' ∧ data'.repo = data.repo ∧
        newHead ∈ data'.visitedCommits := by
    split_ifs at h with heq
    · cases h
      exact ⟨hg, .refl, rfl, heq ▸ hhead⟩
    · obtain ⟨hgood, hext, hrepo, -, hmem⟩ := traverseCommitTree_good (s := (index, data))
        (fun hg hc hf => (traverseCommit_called hg hc hf).1) hg h
      exact ⟨hgood, hext, hrepo, hmem⟩
  obtain ⟨hgood, hext, hrepo, hmem⟩ := hresult
  obtain ⟨c, hc, hcov⟩ := hgood.covered newHead hmem
  refine ⟨hgood, hext, c, ?_, hcov⟩
  rw [Sys.headCommit, hnew, ← hrepo]
  exact hc

end

end Traversals

/-! ## The invariant of a run -/

section Invariant

variable (base : Bool) (env : GcEnv Id) (s : Sys Id)

/-- The roots that a run must keep; those of base commits count if file system objects are
    removed. -/
def KeptRoot (root : Id) : Prop :=
  (∃ r, IsLibrary env s r ∧ RetainedRoot env s r root) ∨ (base = true ∧ BaseRoot env s root)

def CoversAll (index : GCIndex) : Prop :=
  ∀ root, KeptRoot base env s root → Covered env.sha256 s.store.fs index root

/-- The data of libraries whose heads have not moved. -/
def AtHead (datas : List (GCData Id)) : Prop :=
  ∀ data ∈ datas, s.branch data.repo.id = some data.repo.head

/-- What holds of a run in each stage, while nothing else runs. -/
def StageInv (run : GcRun Id) : Prop :=
  match run.stage with
  | .main => run.data.repo.id = env.library ∧ AtHead s [run.data] ∧
      run.data = gcDataNew run.data.repo (env.truncateTime env.library) ∧ run.virtualRepos = []
  | .listVirtual => run.data.repo.id = env.library ∧ AtHead s [run.data] ∧
      Good env.sha256 s.store.fs s.commits run.index run.data ∧ run.virtualRepos = [] ∧
      CoversLibrary env s run.index env.library
  | .virtuals todo => run.data.repo.id = env.library ∧ AtHead s (run.data :: run.virtualRepos) ∧
      Good env.sha256 s.store.fs s.commits run.index run.data ∧
      CoversLibrary env s run.index env.library ∧
      ∀ row ∈ s.virtualRepos, row.repoId ∈ todo ∨ CoversLibrary env s run.index row.repoId
  | .base => run.data.repo.id = env.library ∧ AtHead s (run.data :: run.virtualRepos) ∧
      Good env.sha256 s.store.fs s.commits run.index run.data ∧ CoversAll false env s run.index
  | .begin => AtHead s (run.data :: run.virtualRepos) ∧ CoversAll base env s run.index
  | .newCommits => AtHead s (run.data :: run.virtualRepos) ∧ CoversAll base env s run.index
  | .newVirtuals todo => AtHead s todo ∧ CoversAll base env s run.index
  | .blocks => CoversAll base env s run.index
  | .fs => CoversAll base env s run.index
  | .finish => CoversAll base env s run.index

/-- What holds of the garbage collector, while nothing else runs. -/
def GcInv : Prop :=
  match s.gc with
  | .idle => True
  | .loaded repo _ _ rmFs => getRepo s env.library false = some repo ∧ (base = true → rmFs = true)
  | .running run => (base = true → run.rmFs = true) ∧ StageInv base env s run

variable {base env s} {s' : Sys Id} {e : GcEvent Id} {index : GCIndex}

theorem CoversAll.of_false (hbase : base = false) (h : CoversAll false env s index) :
    CoversAll base env s index := hbase ▸ h

theorem GcMove.inv (hs : GcInv base env s) (hq : e.QueriesOk) (hf : base = true → e.RemovesFs)
    (h : GcMove env s e s') : GcInv base env s' := by
  cases h with
  | load hgc hrepo => exact ⟨hrepo, hf⟩
  | skip | fail | blocksFailed | fsFailed | commit | rollback => trivial
  | collect hgc =>
    simp only [GcInv, hgc] at hs
    obtain ⟨hrepo, hrm⟩ := hs
    obtain ⟨hid, hhead⟩ := getRepo_some hrepo
    refine ⟨hrm, hid, ?_, by rw [hid]; rfl, rfl⟩
    rintro data (_ | ⟨_, ⟨⟩⟩)
    exact hid ▸ hhead
  | @populate run index data hgc hstage hp =>
    simp only [GcInv, hgc, StageInv, hstage] at hs
    obtain ⟨hrm, hid, hhead, hdata, hnil⟩ := hs
    rw [hdata, ← hid] at hp
    have hat := hhead _ mem_cons_self
    obtain ⟨hgood, -, hrepo, -, hcov⟩ := populate_covers hat hp
    refine ⟨hrm, hrepo ▸ hid, ?_, hgood, hnil, hid ▸ hcov⟩
    rintro data' (_ | ⟨_, ⟨⟩⟩)
    exact hrepo ▸ hat
  | @listVirtual run dbOk hgc hstage =>
    simp only [GcInv, hgc, StageInv, hstage] at hs
    obtain ⟨hrm, hid, hhead, hgood, hnil, hcov⟩ := hs
    refine ⟨hrm, hid, hnil ▸ hhead, hgood, hcov, fun row hrow => .inl ?_⟩
    rw [virtualRows, if_pos (show dbOk = true from hq)]
    exact mem_map_of_mem hrow
  | @virtualsDone run hgc hstage =>
    simp only [GcInv, hgc, StageInv, hstage] at hs
    obtain ⟨hrm, hid, hhead, hgood, hlib, hrows⟩ := hs
    have hcov : CoversAll false env s run.index := by
      rintro root (⟨r, rfl | ⟨row, hrow, rfl⟩, hroot⟩ | ⟨h, -⟩)
      · exact hlib root hroot
      · exact (hrows row hrow).resolve_left not_mem_nil root hroot
      · cases h
    refine ⟨hrm, ?_⟩
    cases hrmFs : run.rmFs with
    | true => exact ⟨hid, hhead, hgood, hcov⟩
    | false =>
      have hbase : base = false := by
        cases base with
        | false => rfl
        | true => exact absurd (hrm rfl) (by simp [hrmFs])
      exact ⟨hhead, .of_false hbase hcov⟩
  | @populateVirtual run v todo vrepo index data hgc hstage hrepo hp =>
    simp only [GcInv, hgc, StageInv, hstage] at hs
    obtain ⟨hrm, hid, hhead, hgood, hlib, hrows⟩ := hs
    obtain ⟨rfl, hv⟩ := getRepo_some hrepo
    obtain ⟨-, hext, hrepo', -, hcov⟩ := populate_covers hv hp
    refine ⟨hrm, hid, ?_, hgood.extends hext, hlib.extends hext, fun row hrow => ?_⟩
    · rintro data' (_ | ⟨_, _ | ⟨_, hd⟩⟩)
      · exact hhead _ mem_cons_self
      · exact hrepo' ▸ hv
      · exact hhead _ (mem_cons_of_mem _ hd)
    · rcases hrows row hrow with hmem | hmem
      · rcases mem_cons.1 hmem with heq | hmem
        · exact .inr (heq ▸ hcov)
        · exact .inl hmem
      · exact .inr (hmem.extends hext)
  | @baseCommits run dbOk infoOk index data hgc hstage hp =>
    simp only [GcInv, hgc, StageInv, hstage] at hs
    obtain ⟨hrm, hid, hhead, hgood, hcov⟩ := hs
    obtain ⟨hdb, hinfo⟩ := hq
    rw [virtualRows, if_pos hdb] at hp
    obtain ⟨-, hext, hrepo, -, hbase⟩ := populateBase_covers hgood hp
    refine ⟨hrm, ?_, ?_⟩
    · rintro data' (_ | ⟨_, hd⟩)
      · exact hrepo ▸ hhead _ mem_cons_self
      · exact hhead _ (mem_cons_of_mem _ hd)
    · rintro root (hroot | ⟨-, row, hrow, c, hc, rfl⟩)
      · exact (hcov root (.inl hroot)).extends hext
      · obtain ⟨c', hc', hcov'⟩ := hbase row hrow (hinfo _)
        rw [hid] at hc'
        obtain rfl := mem_unique hc hc'
        exact hcov'
  | beginOffline hgc hstage | begin hgc hstage | fsDone hgc hstage =>
    simp only [GcInv, hgc, StageInv, hstage] at hs
    exact hs
  | newCommits hgc hstage hp | newCommitsVirtual hgc hstage hp =>
    simp only [GcInv, hgc, StageInv, hstage] at hs
    obtain ⟨hrm, hhead, hcov⟩ := hs
    obtain ⟨newHead, hnew, hp⟩ := bind_eq_some_iff.1 hp
    rw [if_pos (mem_unique (hhead _ mem_cons_self) hnew)] at hp
    cases hp
    exact ⟨hrm, fun d hd => hhead d (mem_cons_of_mem _ hd), hcov⟩
  | newVirtualsDone hgc hstage =>
    simp only [GcInv, hgc, StageInv, hstage] at hs
    exact ⟨hs.1, hs.2.2⟩
  | keepBlock hgc hstage | removeBlock hgc hstage | keepFs hgc hstage =>
    simp only [GcInv, hgc, StageInv, hstage] at hs
    simp only [GcInv, Sys.goOn, StageInv, hstage]
    exact hs
  | blocksDone hgc hstage hnext =>
    simp only [GcInv, hgc, StageInv, hstage] at hs
    rcases hnext with rfl | rfl <;> exact hs
  | removeFs hgc hstage hx =>
    simp only [GcInv, hgc, StageInv, hstage] at hs
    simp only [GcInv, Sys.goOn, StageInv, hstage]
    exact ⟨hs.1, fun root hroot => (hs.2 root hroot).erase hx⟩

variable {root : Id}

theorem GcMove.preserved (hs : GcInv base env s) (h : GcMove env s e s')
    (hroot : KeptRoot base env s root) : Preserved s s' root := by
  rcases h.store with hst | ⟨run, x, hgc, ⟨hstage, hx, hst⟩ | ⟨hstage, hx, hst⟩⟩
  · intro id hid hr
    rw [hst]
    exact ⟨rfl, fun _ _ hb => hb⟩
  · simp only [GcInv, hgc, StageInv, hstage] at hs
    exact (hs.2 root hroot).preserved_removeBlock hx hst
  · simp only [GcInv, hgc, StageInv, hstage] at hs
    exact (hs.2 root hroot).preserved_removeFs hx hst

omit [DecidableEq Id] in
theorem KeptRoot.frame (hc : s'.commits = s.commits) (hb : s'.branch = s.branch)
    (hv : s'.virtualRepos = s.virtualRepos) (h : KeptRoot base env s root) :
    KeptRoot base env s' root := by
  simpa only [KeptRoot, IsLibrary, RetainedRoot, BaseRoot, hc, hb, hv] using h

theorem run_preserves (hidle : s.gc = .idle) {es : List (GcEvent Id)}
    (hrun : Machine.Run (fun s e s' => gcStep env s e = some s') (fun _ e => e.QueriesOk ∧
      (base = true → e.RemovesFs)) s es s')
    (hroot : KeptRoot base env s root) : Preserved s s' root := by
  let I : Sys Id → Prop := fun x => GcInv base env x ∧ Preserved s x root ∧
    x.commits = s.commits ∧ x.branch = s.branch ∧ x.virtualRepos = s.virtualRepos
  have hstart : I s := ⟨by simp [GcInv, hidle], .refl, rfl, rfl, rfl⟩
  have hstep : ∀ x e x', I x → (e.QueriesOk ∧ (base = true → e.RemovesFs)) →
      gcStep env x e = some x' → I x' := by
    rintro x e x' ⟨hinv, hkept, hc, hb, hv⟩ ⟨hq, hf⟩ h
    have hmove := gcStep_move h
    obtain ⟨hc', hb', hv', -⟩ := hmove.frame
    exact ⟨hmove.inv hinv hq hf, hkept.trans (hmove.preserved hinv (hroot.frame hc hb hv)),
      hc'.trans hc, hb'.trans hb, hv'.trans hv⟩
  exact (hrun.induct hstart hstep).2.1

end Invariant

/-- **The garbage collector keeps what retained history needs**, as long as its queries succeed
    and nothing else runs. -/
theorem gc_keeps_retained {env : GcEnv Id} {s s' : Sys Id} {es : List (GcEvent Id)}
    (hidle : s.gc = .idle)
    (hrun : Machine.Run (fun s e s' => gcStep env s e = some s') (fun _ e => e.QueriesOk)
      s es s') :
    (∀ r root, IsLibrary env s r → RetainedRoot env s r root → Preserved s s' root) ∧
      ((∀ e ∈ es, e.RemovesFs) → ∀ root, BaseRoot env s root → Preserved s s' root) := by
  constructor
  · intro r root hr hroot
    have hrun' := hrun.and (P := fun e => false = true → e.RemovesFs) (by simp)
    exact run_preserves hidle hrun' (.inl ⟨r, hr, hroot⟩)
  · intro hrm root hroot
    have hrun' := hrun.and (P := fun e => true = true → e.RemovesFs) fun e he _ => hrm e he
    exact run_preserves hidle hrun' (.inr ⟨rfl, hroot⟩)

/-! ## A library of two commits -/

def ObjectStore.empty : ObjectStore Id := ⟨.empty, ∅, by simp [FsStore.empty], ∅⟩

def oldFile : FsObj ℕ := .file [7] 3

def oldTree : FsObj ℕ := .dir [.new 0o100644 (sha1 oldFile) ['f'] 0 [] 3]

def libraryId : RepoId := ['L']

/-- The head is the commit 2, without files; its parent 1 is older and has the file.  The
    block 9 belongs to nothing. -/
def commit1 : Commit ℕ := ⟨1, sha1 oldTree, 5, none, none⟩
def commit2 : Commit ℕ := ⟨2, emptySha1, 20, some 1, none⟩

def twoCommits : Sys ℕ where
  store := (((ObjectStore.empty.putFs oldFile (by simp [oldFile, FsObj.Nonempty])).putFs oldTree
    (by simp [oldTree, FsObj.Nonempty])).putBlock 7).putBlock 9
  commits := (CommitStore.mk (fun _ _ => none) (by simp)).add libraryId commit1 |>.add libraryId
    commit2
  branch := fun r => if r = libraryId then some 2 else none
  virtualRepos := []
  gcId := none
  issued := []
  gc := .idle
  writers := fun _ => none
  creators := fun _ => none

def gcEnvOf (truncateTime : ℤ) : GcEnv ℕ := ⟨libraryId, fun _ => truncateTime,
  fun id i => (id + i).toUInt64, 5⟩

/-- A run that asks for the removal of both blocks. -/
def wholeRun : List (GcEvent ℕ) :=
  [.load true false false, .collect, .populate, .listVirtual true, .populateVirtual,
    .begin (some ['g']), .newCommits, .newCommitsVirtual, .checkBlock 9 true, .checkBlock 7 true,
    .blocksDone, .commit true]

/-- With a truncate time of 10 the parent is the first older commit, and its block is kept. -/
theorem gc_keeps_parent :
    ∃ s', Machine.Run (fun s e s' => gcStep (gcEnvOf 10) s e = some s') (fun _ e => e.QueriesOk)
        twoCommits wholeRun s' ∧
      Preserved twoCommits s' commit1.rootId ∧ 7 ∈ s'.store.blocks ∧ 9 ∉ s'.store.blocks := by
  have heval : (wholeRun.foldlM (gcStep (gcEnvOf 10)) twoCommits).map (fun s => s.store.blocks) =
      some {7} := by decide +kernel
  obtain ⟨s', hs', hblocks⟩ := map_eq_some_iff.1 heval
  have hrun : Machine.Run (fun s e s' => gcStep (gcEnvOf 10) s e = some s')
      (fun _ e => e.QueriesOk) twoCommits wholeRun s' :=
    .of_foldlM (by simp [wholeRun, GcEvent.QueriesOk]) hs'
  have hparent : RetainedParent (twoCommits.commits.get libraryId) 10 2 2 1 :=
    ⟨commit2, by decide, .inr ⟨by decide, .inl rfl⟩, by decide⟩
  have hroot : RetainedRoot (gcEnvOf 10) twoCommits libraryId commit1.rootId :=
    ⟨2, 1, commit1, by decide, .single hparent, by decide, rfl⟩
  exact ⟨s', hrun, (gc_keeps_retained rfl hrun).1 libraryId _ (.inl rfl) hroot, by simp [hblocks],
    by simp [hblocks]⟩

/-- **With the truncate time 0 only the head is kept**: the block of its parent is removed. -/
theorem gc_removes_parent :
    twoCommits.headCommit libraryId = some commit2 ∧ 0 ≤ commit2.time ∧ 0 ≤ commit1.time ∧
      1 ∈ commit2.parents ∧ twoCommits.commits.get libraryId 1 = some commit1 ∧
      sha1 oldFile ∈ twoCommits.store.fs.children commit1.rootId ∧
      7 ∈ twoCommits.store.fs.blocksOf (sha1 oldFile) ∧ 7 ∈ twoCommits.store.blocks ∧
      (wholeRun.foldlM (gcStep (gcEnvOf 0)) twoCommits).map (fun s => decide (7 ∈ s.store.blocks)) =
        some false := by
  decide +kernel

end CloudFile
