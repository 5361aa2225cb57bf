/-
  Online garbage collection among writers and new virtual libraries. The trees of all heads stay
  complete if no virtual library is being created between the listing and the lock, and a
  transaction is rolled back only before anything was removed (`online_gc_safe`). Neither
  condition can be dropped.
-/
import CloudFile.Gc.Invariant

namespace CloudFile

open Option Function

variable {Id : Type} [ObjectId Id] [DecidableEq Id]

theorem update_eq_some {α β : Type} [DecidableEq α] {f : α → Option β} {a a' : α} {y : Option β}
    {x : β} (h : update f a y a' = some x) :
    a' = a ∧ y = some x ∨ a' ≠ a ∧ f a' = some x := by
  rw [update_apply] at h
  split_ifs at h with heq
  · exact .inl ⟨heq, h⟩
  · exact .inr ⟨heq, h⟩

/-! ## Steps beside the garbage collector -/

def Published (s : Sys Id) (root : Id) : Prop :=
  s.locked = false ∧ ∃ n w old, s.writers n = some w ∧ w.lastGcId = s.gcId ∧
    s.headCommit w.repo = some old ∧ Vouched s w old.rootId root

/-- A step beside the garbage collector: it only adds, and once the row is locked moves no head -/
structure Quiet (env : GcEnv Id) (s : Sys Id) (e : Event Id) (s' : Sys Id) : Prop where
  gc : s'.gc = s.gc
  gcId : s'.gcId = s.gcId
  issued : s'.issued = s.issued
  store : s.store.Le s'.store
  commits : ∀ r id c, s.commits.get r id = some c → s'.commits.get r id = some c
  branch : ∀ r, (s.branch r).isSome → (s'.branch r).isSome
  window : CreatesApart s e → s.window = true →
    (∀ v x, s.creators v = some x → x.saved = true) →
    s'.virtualRepos = s.virtualRepos ∧ ∀ v x, s'.creators v = some x → x.saved = true
  heads : s.locked = true → ∀ r c, s.headCommit r = some c → s'.headCommit r = some c
  roots : ∀ root, Protected env s' root →
    (∃ root', Protected env s root' ∧ Below s'.store.fs root' root) ∨ Published s root
  writers : ∀ n w, s'.writers n = some w → (w.lastGcId = s.gcId ∧ Found s'.store w) ∨
    ∃ w₀, s.writers n = some w₀ ∧ w₀.lastGcId = w.lastGcId ∧ (Found s.store w₀ → Found s'.store w)

section Quiet

variable {base : Option GcId} {env : GcEnv Id} {s s' : Sys Id} {e : Event Id} {index : GCIndex}
  {run : GcRun Id}

theorem FsStore.Reach.mono {st st' : FsStore Id} (hle : st ≤ st') {root id : Id}
    (h : st.Reach root id) : st'.Reach root id := by
  refine Relation.ReflTransGen.mono (fun a b hchild => ?_) _ _ h
  cases ho : st.obj a with
  | none => simp [FsStore.Child, FsStore.children, ho] at hchild
  | some o => rwa [FsStore.Child, FsStore.children, hle a o ho, ← ho]

section

variable (h : Quiet env s e s')
include h

theorem Quiet.dataOk {data : GCData Id} (hd : DataOk env s index data) :
    DataOk env s' index data := by
  obtain ⟨⟨hclosed, hcovered⟩, hhead⟩ := hd
  refine ⟨⟨hclosed.store_mono h.store.fs, fun id hid => ?_⟩, hhead⟩
  obtain ⟨c, hc, hcov⟩ := hcovered id hid
  exact ⟨c, h.commits _ _ _ hc, hcov.store_mono h.store.fs⟩

theorem Quiet.windowed {todo : List RepoId} (hc : CreatesApart s e) (hw : s.window = true)
    (hwin : Window env s run todo) : Window env s' run todo := by
  obtain ⟨hrows, hsaved⟩ := h.window hc hw hwin.saved
  exact ⟨hwin.library, fun d hd => h.dataOk (hwin.data d hd),
    fun d hd => h.branch _ (hwin.created d hd), hrows ▸ hwin.listed, hsaved⟩

theorem Quiet.fence {awaiting : List (GCData Id)} (hl : s.locked = true)
    (hf : Fence env s index awaiting) : Fence env s' index awaiting := by
  intro root hroot
  obtain ⟨root', hroot', rfl | hr⟩ :=
    (h.roots root hroot).resolve_right fun hp => absurd hp.1 (by simp [hl])
  · exact .inl fun _ hid hr => absurd (reach_emptySha1 hr) hid
  · rcases hf root' hroot' with hcov | ⟨data, hd, c, hc, hr'⟩
    · exact .inl ((hcov.store_mono h.store.fs).below hr)
    · exact .inr ⟨data, hd, c, h.heads hl _ _ hc, (hr'.mono h.store.fs).trans hr⟩

theorem Quiet.staged (hc : CreatesApart s e) (hseen : Seen base s) (hs : Staged env s) :
    Staged env s' := by
  unfold Staged at hs ⊢
  rw [h.gc]
  cases hgc : s.gc with
  | idle => trivial
  | loaded =>
    rw [hgc] at hs
    exact hs
  | running run =>
    rw [hgc] at hs
    have hlocked : s.locked = run.stage.locks := by
      simp only [Sys.locked, hgc, (hseen.trans run hgc).trans]
    have hwindow : s.window = run.stage.window := by simp only [Sys.window, hgc]
    dsimp only [StageSafe] at hs ⊢
    cases hstage : run.stage <;> simp only [hstage] at hs hwindow hlocked ⊢
    case main => exact hs
    case listVirtual => exact ⟨hs.1, hs.2.1, h.dataOk hs.2.2⟩
    case virtuals | base | begin => exact h.windowed hc hwindow hs
    case newCommits | newVirtuals =>
      exact ⟨fun d hd => h.dataOk (hs.1 d hd), h.fence hlocked hs.2⟩
    case blocks | fs | finish => exact h.fence hlocked hs

theorem Quiet.readId {x : Option GcId} (hx : ReadId base s' x) :
    ReadId base s x ∨ x = s.gcId := by
  rcases hx with hx | ⟨n, w, hw, rfl⟩
  · exact .inl (.inl hx)
  · rcases h.writers n w hw with ⟨hnow, -⟩ | ⟨w₀, hw₀, hbefore, -⟩
    · exact .inr hnow
    · exact .inl (.inr ⟨n, w₀, hw₀, hbefore⟩)

theorem Quiet.keepsSeen (hs : Seen base s) : Seen base s' := by
  constructor
  · rw [h.gcId, h.issued]
    exact hs.issued
  · intro g hg
    rw [h.issued]
    rcases h.readId hg with hg | hg
    · exact hs.read g hg
    · exact hs.issued g hg.symm
  · intro hremoved n w hw hread
    simp only [Sys.removed, h.gc] at hremoved
    rcases h.writers n w hw with ⟨-, hfound⟩ | ⟨w₀, hw₀, hbefore, hfound⟩
    · exact hfound
    · exact hfound (hs.found hremoved n w₀ hw₀ (hbefore.trans (hread.trans h.gcId)))
  · rw [h.gc]
    exact hs.online
  · intro run hrun
    have htrans := hs.trans run (h.gc ▸ hrun)
    refine ⟨htrans.online, htrans.trans, h.issued ▸ htrans.issued, fun g hg hread => ?_,
      h.gcId ▸ htrans.old, htrans.removed⟩
    rcases h.readId hread with hread | hread
    · exact htrans.fresh g hg hread
    · exact htrans.old g hg hread.symm

end

theorem Vouched.complete {w : Writer Id} {oldRoot root : Id} (h : Vouched s w oldRoot root)
    (hfound : Found s.store w) (hold : Complete s.store oldRoot) : Complete s.store root := by
  intro id hid hr
  refine ⟨?_, fun b hb => ?_⟩
  · rcases h.fs id hid hr with hmem | hr'
    · exact hfound.1 id hmem
    · exact (hold id hid hr').1
  · rcases h.blocks id hid hr b hb with hmem | ⟨id', hid', hr', hb'⟩
    · exact hfound.2 hmem
    · exact (hold id' hid' hr').2 b hb'

omit [DecidableEq Id] in
theorem Seen.unlocked (hs : Seen base s) (h : s.locked = false) : s.removed = false := by
  cases hgc : s.gc with
  | idle | loaded => simp only [Sys.removed, hgc]
  | running run =>
    have htrans := hs.trans run hgc
    simp only [Sys.locked, hgc, htrans.trans] at h
    simp only [Sys.removed, hgc]
    by_contra hremoved
    have hremoves := htrans.removed (by simpa using hremoved)
    cases hstage : run.stage <;> simp [hstage, Stage.locks, Stage.removes] at h hremoves

/-- **What is published is complete**, if the heads are. -/
theorem Published.complete {root : Id} (h : Published s root) (hs : Seen base s)
    (hl : Libraries env s) (hc : ∀ root, Protected env s root → Complete s.store root) :
    Complete s.store root := by
  obtain ⟨hunlocked, n, w, old, hw, hgcId, hold, hv⟩ := h
  have hbranch : (s.branch w.repo).isSome := by
    obtain ⟨head, hhead, -⟩ := bind_eq_some_iff.1 hold
    simp [hhead]
  exact hv.complete (hs.found (hs.unlocked hunlocked) n w hw hgcId)
    (hc _ (.inl ⟨w.repo, old, hl.owned _ hbranch, hold, rfl⟩))

theorem Quiet.complete (h : Quiet env s e s') (hs : Seen base s) (hl : Libraries env s)
    (hc : ∀ root, Protected env s root → Complete s.store root) {root : Id}
    (hroot : Protected env s' root) : Complete s'.store root := by
  rcases h.roots root hroot with ⟨root', hroot', rfl | hr⟩ | hp
  · exact complete_emptySha1
  · exact ((hc root' hroot').mono h.store).below hr
  · exact (hp.complete hs hl hc).mono h.store

end Quiet

/-! ## Writers -/

section Writers

variable {env : GcEnv Id} {s : Sys Id} {e : Event Id} {st : ObjectStore Id} {w w' : Writer Id}
  {n : ℕ} {c old : Commit Id}

omit [DecidableEq Id] in
theorem Found.mono (hle : s.store.Le st) (h : Found s.store w) : Found st w := by
  refine ⟨fun id hid => ?_, fun b hb => hle.blocks (h.2 hb)⟩
  obtain ⟨o, ho⟩ := isSome_iff_exists.1 (h.1 id hid)
  exact isSome_iff_exists.2 ⟨o, hle.fs id o ho⟩

theorem quiet_write (hle : s.store.Le st)
    (hw' : (w'.lastGcId = s.gcId ∧ Found st w') ∨ ∃ w, s.writers n = some w ∧
      w.lastGcId = w'.lastGcId ∧ (Found s.store w → Found st w')) :
    Quiet env s e { s with store := st, writers := update s.writers n (some w') } where
  gc := rfl
  gcId := rfl
  issued := rfl
  store := hle
  commits _ _ _ h := h
  branch _ h := h
  window _ _ h := ⟨rfl, h⟩
  heads _ _ _ h := h
  roots root hroot := .inl ⟨root, hroot, .inr .refl⟩
  writers m x hx := by
    rcases update_eq_some hx with ⟨rfl, ⟨⟩⟩ | ⟨-, hx⟩
    · exact hw'
    · exact .inr ⟨x, hx, rfl, Found.mono hle⟩

theorem headCommit_update {s' : Sys Id} {r : RepoId} (hcommits : s'.commits = s.commits.add r c)
    (hbranch : s'.branch = update s.branch r (some c.commitId)) (r' : RepoId) :
    s'.headCommit r' = if r' = r then some c else s.headCommit r' := by
  unfold Sys.headCommit
  rw [hcommits, hbranch, update_apply]
  split_ifs with hr
  · simp [CommitStore.add, hr]
  · cases s.branch r' with
    | none => rfl
    | some id => simp [CommitStore.add, hr]

omit [ObjectId Id] in
theorem CommitStore.add_mono {commits : CommitStore Id} {r : RepoId}
    (hsame : ∀ c', commits.get r c.commitId = some c' → c' = c) {r' : RepoId} {id : Id}
    {c' : Commit Id} (h : commits.get r' id = some c') :
    (commits.add r c).get r' id = some c' := by
  show (if r' = r ∧ id = c.commitId then some c else commits.get r' id) = some c'
  split_ifs with heq
  · obtain ⟨rfl, rfl⟩ := heq
    rw [hsame c' h]
  · exact h

omit [ObjectId Id] [DecidableEq Id] in
theorem isSome_update {branch : RepoId → Option Id} {r v : RepoId} {id : Id}
    (h : (branch r).isSome) : (update branch v (some id) r).isSome := by
  rw [update_apply]
  split_ifs
  · rfl
  · exact h

theorem quiet_publish (hw : s.writers n = some w) (hunlocked : s.locked = false)
    (hgcId : w.lastGcId = s.gcId) (hold : s.headCommit w.repo = some old)
    (hsame : ∀ c', s.commits.get w.repo c.commitId = some c' → c' = c)
    (hv : Vouched s w old.rootId c.rootId) :
    Quiet env s e { s with
      commits := s.commits.add w.repo c
      branch := update s.branch w.repo (some c.commitId) } where
  gc := rfl
  gcId := rfl
  issued := rfl
  store := .refl
  commits _ _ _ := CommitStore.add_mono hsame
  branch _ := isSome_update
  window _ _ h := ⟨rfl, h⟩
  heads := by simp [hunlocked]
  roots root hroot := by
    rcases hroot with ⟨r, c', hr, hc', rfl⟩ | hx
    · rw [headCommit_update rfl rfl] at hc'
      split_ifs at hc' with hrepo
      · cases hc'
        exact .inr ⟨hunlocked, n, w, old, hw, hgcId, hold, hv⟩
      · exact .inl ⟨_, .inl ⟨r, c', hr, hc', rfl⟩, .inr .refl⟩
    · exact .inl ⟨root, .inr hx, .inr .refl⟩
  writers _ x hx := .inr ⟨x, hx, rfl, id⟩

theorem Libraries.publish (hl : Libraries env s) (hold : s.headCommit w.repo = some old) :
    Libraries env { s with
      commits := s.commits.add w.repo c
      branch := update s.branch w.repo (some c.commitId) } := by
  obtain ⟨head, hhead, -⟩ := bind_eq_some_iff.1 hold
  constructor
  · intro r hr
    by_cases hrepo : r = w.repo
    · rw [hrepo]
      exact hl.owned _ (by simp [hhead])
    · exact hl.owned r (by simpa [hrepo] using hr)
  · intro v x hx
    obtain ⟨hnone, hrow⟩ := hl.creators v x hx
    have hne : v ≠ w.repo := by
      rintro rfl
      simp [hnone] at hhead
    exact ⟨by simpa [hne] using hnone, hrow⟩

end Writers

/-! ## New virtual libraries -/

section Creators

variable {env : GcEnv Id} {s : Sys Id} {e : Event Id} {v : RepoId} {x : Creator Id}
  {c head : Commit Id} {dirId : Id}

theorem quiet_openDir {path : Name} (hhead : s.headCommit env.library = some head)
    (hdir : Server.getSeafdirIdByPath s.store.fs head.rootId path = some dirId) :
    Quiet env s (.openDir v path) { s with
      creators := update s.creators v (some ⟨dirId, head.commitId, false⟩) } where
  gc := rfl
  gcId := rfl
  issued := rfl
  store := .refl
  commits _ _ _ h := h
  branch _ h := h
  window hc hw := absurd hw (by simp [show s.window = false from hc])
  heads _ _ _ h := h
  roots root hroot := by
    rcases hroot with hlib | ⟨v', x, hx, rfl⟩
    · exact .inl ⟨root, .inl hlib, .inr .refl⟩
    · rcases update_eq_some hx with ⟨-, ⟨⟩⟩ | ⟨-, hx⟩
      · exact .inl ⟨head.rootId, .inl ⟨env.library, head, .inl rfl, hhead, rfl⟩,
          getSeafdirIdByPath_below hdir⟩
      · exact .inl ⟨x.dirId, .inr ⟨v', x, hx, rfl⟩, .inr .refl⟩
  writers _ w hw := .inr ⟨w, hw, rfl, id⟩

omit [DecidableEq Id] in
theorem Libraries.openDir (hl : Libraries env s) (hnone : s.branch v = none) :
    Libraries env { s with
      creators := update s.creators v (some ⟨dirId, head.commitId, false⟩) } := by
  refine ⟨hl.owned, fun v' x hx => ?_⟩
  rcases update_eq_some hx with ⟨rfl, ⟨⟩⟩ | ⟨-, hx⟩
  · exact ⟨hnone, nofun⟩
  · exact hl.creators v' x hx

theorem quiet_saveInfo (hl : Libraries env s) (hx : s.creators v = some x)
    (hunsaved : x.saved = false) :
    Quiet env s e { s with
      virtualRepos := s.virtualRepos ++ [⟨v, x.baseCommit⟩]
      creators := update s.creators v (some { x with saved := true }) } where
  gc := rfl
  gcId := rfl
  issued := rfl
  store := .refl
  commits _ _ _ h := h
  branch _ h := h
  window _ _ hsaved := absurd (hsaved v x hx) (by simp [hunsaved])
  heads _ _ _ h := h
  roots root hroot := by
    refine .inl ⟨root, ?_, .inr .refl⟩
    rcases hroot with ⟨r, c, -, hc, rfl⟩ | ⟨v', x', hx', rfl⟩
    · obtain ⟨head, hhead, -⟩ := bind_eq_some_iff.1 hc
      exact .inl ⟨r, c, hl.owned r (by simp [show s.branch r = some head from hhead]), hc, rfl⟩
    · rcases update_eq_some hx' with ⟨-, ⟨⟩⟩ | ⟨-, hx'⟩
      · exact .inr ⟨v, x, hx, rfl⟩
      · exact .inr ⟨v', x', hx', rfl⟩
  writers _ w hw := .inr ⟨w, hw, rfl, id⟩

omit [DecidableEq Id] in
theorem Libraries.saveInfo (hl : Libraries env s) (hx : s.creators v = some x) :
    Libraries env { s with
      virtualRepos := s.virtualRepos ++ [⟨v, x.baseCommit⟩]
      creators := update s.creators v (some { x with saved := true }) } := by
  have hrows : ∀ {r}, (∃ row ∈ s.virtualRepos, row.repoId = r) →
      ∃ row ∈ s.virtualRepos ++ [⟨v, x.baseCommit⟩], row.repoId = r := by
    rintro r ⟨row, hrow, hid⟩
    exact ⟨row, List.mem_append_left _ hrow, hid⟩
  refine ⟨fun r hr => (hl.owned r hr).imp_right hrows, fun v' x' hx' => ?_⟩
  rcases update_eq_some hx' with ⟨rfl, -⟩ | ⟨-, hx'⟩
  · exact ⟨(hl.creators _ x hx).1,
      fun _ => ⟨_, List.mem_append_right _ List.mem_cons_self, rfl⟩⟩
  · exact ⟨(hl.creators v' x' hx').1, fun h => hrows ((hl.creators v' x' hx').2 h)⟩

omit [DecidableEq Id] in
theorem creators_erase {v' : RepoId} {x' : Creator Id}
    (h : update s.creators v none v' = some x') : v' ≠ v ∧ s.creators v' = some x' := by
  rcases update_eq_some h with ⟨-, ⟨⟩⟩ | h
  exact h

theorem quiet_createRepo (hl : Libraries env s) (hx : s.creators v = some x)
    (hroot : c.rootId = x.dirId) (hnew : s.commits.get v c.commitId = none) :
    Quiet env s e { s with
      commits := s.commits.add v c
      branch := update s.branch v (some c.commitId)
      creators := update s.creators v none } where
  gc := rfl
  gcId := rfl
  issued := rfl
  store := .refl
  commits _ _ _ := CommitStore.add_mono (by simp [hnew])
  branch _ := isSome_update
  window _ _ h := ⟨rfl, fun v' x' hx' => h v' x' (creators_erase hx').2⟩
  heads _ r c' hc' := by
    have hne : r ≠ v := by
      rintro rfl
      simp [Sys.headCommit, (hl.creators r x hx).1] at hc'
    rwa [headCommit_update rfl rfl, if_neg hne]
  roots root hroot' := by
    refine .inl ⟨root, ?_, .inr .refl⟩
    rcases hroot' with ⟨r, c', hr, hc', rfl⟩ | ⟨v', x', hx', rfl⟩
    · rw [headCommit_update rfl rfl] at hc'
      split_ifs at hc' with heq
      · cases hc'
        exact .inr ⟨v, x, hx, hroot.symm⟩
      · exact .inl ⟨r, c', hr, hc', rfl⟩
    · exact .inr ⟨v', x', (creators_erase hx').2, rfl⟩
  writers _ w hw := .inr ⟨w, hw, rfl, id⟩

theorem Libraries.createRepo (hl : Libraries env s) (hx : s.creators v = some x)
    (hsaved : x.saved = true) :
    Libraries env { s with
      commits := s.commits.add v c
      branch := update s.branch v (some c.commitId)
      creators := update s.creators v none } := by
  constructor
  · intro r hr
    by_cases heq : r = v
    · rw [heq]
      exact .inr ((hl.creators v x hx).2 hsaved)
    · exact hl.owned r (by simpa [heq] using hr)
  · intro v' x' hx'
    obtain ⟨hne, hx'⟩ := creators_erase hx'
    obtain ⟨hnone', hrow'⟩ := hl.creators v' x' hx'
    exact ⟨by simpa [hne] using hnone', hrow'⟩

end Creators

/-! ## Whole runs -/

section Runs

variable {base : Option GcId} {env : GcEnv Id} {s s' : Sys Id} {e : Event Id}

theorem Step.quiet (hl : Libraries env s) (h : Step env s e s') (hgc : ∀ g, e ≠ .gc g) :
    Quiet env s e s' ∧ Libraries env s' := by
  cases h with
  | gc => exact absurd rfl (hgc _)
  | readGcId => exact ⟨quiet_write .refl (.inl ⟨rfl, by simp, by simp⟩), hl.owned, hl.creators⟩
  | @checkBlock n w b hw hb =>
    refine ⟨quiet_write .refl (.inr ⟨w, hw, rfl, fun hfound => ?_⟩), hl.owned, hl.creators⟩
    exact ⟨hfound.1, Finset.insert_subset hb hfound.2⟩
  | @putBlock n w b hw =>
    refine ⟨quiet_write (le_putBlock b) (.inr ⟨w, hw, rfl, fun hfound => ?_⟩), hl.owned,
      hl.creators⟩
    exact ⟨hfound.1, Finset.insert_subset_insert b hfound.2⟩
  | @saveFs n w o ho hw =>
    refine ⟨quiet_write (le_putFs ho) (.inr ⟨w, hw, rfl, fun hfound => ?_⟩), hl.owned,
      hl.creators⟩
    obtain ⟨hfs, hblocks⟩ := hfound.mono (le_putFs ho)
    refine ⟨fun id hid => ?_, hblocks⟩
    rcases Finset.mem_insert.1 hid with rfl | hid
    · simp [ObjectStore.putFs, FsStore.insert]
    · exact hfs id hid
  | publish hw hunlocked hgcId hold hsame hv =>
    exact ⟨quiet_publish hw hunlocked hgcId hold hsame hv, hl.publish hold⟩
  | openDir hnone _ _ hhead hdir => exact ⟨quiet_openDir hhead hdir, hl.openDir hnone⟩
  | saveInfo hx hunsaved => exact ⟨quiet_saveInfo hl hx hunsaved, hl.saveInfo hx⟩
  | createRepo hx hsaved hroot _ hnew =>
    exact ⟨quiet_createRepo hl hx hroot hnew, hl.createRepo hx hsaved⟩

def Orderly (s : Sys Id) (e : Event Id) : Prop := CreatesApart s e ∧ RollsBackEarly s e

/-- **Each step keeps the invariant.** -/
theorem Step.keeps (hs : Inv base env s) (ho : Orderly s e) (h : Step env s e s') :
    Inv base env s' := by
  by_cases hgc : ∃ g, e = .gc g
  · obtain ⟨g, rfl⟩ := hgc
    cases h with | gc h => exact (gcStep_move h).keeps hs ho.1 ho.2
  · obtain ⟨hq, hl⟩ := h.quiet hs.libraries fun g hg => hgc ⟨g, hg⟩
    exact ⟨hq.keepsSeen hs.seen, hl, fun _ => hq.complete hs.seen hs.libraries hs.complete,
      hq.staged ho.1 hs.seen hs.staged⟩

theorem Step.keepsIntact (hs : Intact base env s) (hr : RollsBackEarly s e)
    (h : Step env s e s') : Intact base env s' := by
  by_cases hgc : ∃ g, e = .gc g
  · obtain ⟨g, rfl⟩ := hgc
    cases h with | gc h => exact (gcStep_move h).keepsIntact hs hr
  · obtain ⟨hq, hl⟩ := h.quiet hs.libraries fun g hg => hgc ⟨g, hg⟩
    refine ⟨hq.keepsSeen hs.seen, hl, fun hbase hremoved _ => ?_⟩
    simp only [Sys.removed, hq.gc] at hremoved
    exact hq.complete hs.seen hs.libraries (hs.complete (hq.gcId ▸ hbase) hremoved)

/-- A state in which nothing runs and the heads are complete. -/
structure Start (env : GcEnv Id) (s : Sys Id) : Prop where
  idle : s.gc = .idle
  writers : ∀ n, s.writers n = none
  creators : ∀ v, s.creators v = none
  issued : ∀ g, s.gcId = some g → g ∈ s.issued
  owned : ∀ r, (s.branch r).isSome → IsLibrary env s r
  safe : Safe env s

theorem Start.inv (h : Start env s) : Inv s.gcId env s := by
  refine ⟨⟨h.issued, ?_, by simp [h.writers], by simp [h.idle], by simp [h.idle]⟩,
    ⟨h.owned, by simp [h.creators]⟩, ?_, by simp [Staged, h.idle]⟩
  · rintro g (hg | ⟨n, w, hw, -⟩)
    · exact h.issued g hg.symm
    · simp [h.writers] at hw
  · rintro root (⟨r, c, hr, hc, rfl⟩ | ⟨v, x, hx, -⟩)
    · exact h.safe r hr c hc
    · simp [h.creators] at hx

end Runs

/-- **Online garbage collection is safe among writers**: if virtual libraries are created
    apart and transactions are rolled back early, the heads are complete in every state. -/
theorem online_gc_safe {env : GcEnv Id} {s s' : Sys Id} {es : List (Event Id)}
    (hstart : Start env s) (hrun : Machine.Run (Step env) Orderly s es s') : Safe env s' := by
  have hinv : Inv s.gcId env s' := hrun.induct hstart.inv fun _ _ _ hs ho h => h.keeps hs ho
  exact fun r hr c hc => hinv.complete _ (.inl ⟨r, c, hr, hc, rfl⟩)

/-- **A writer that read the GC id before the garbage collector ran publishes complete trees
    only**, if transactions are rolled back early, whatever else runs. -/
theorem publish_complete {env : GcEnv Id} {s s' s'' : Sys Id} {es : List (Event Id)} {n : ℕ}
    {w : Writer Id} {c : Commit Id} (hstart : Start env s)
    (hrun : Machine.Run (Step env) RollsBackEarly s es s') (hw : s'.writers n = some w)
    (hread : w.lastGcId = s.gcId) (hstep : Step env s' (.publish n c) s'') :
    Complete s''.store c.rootId := by
  have hinv := hstart.inv
  have hintact : Intact s.gcId env s' :=
    hrun.induct ⟨hinv.seen, hinv.libraries, fun _ _ => hinv.complete⟩
      fun _ _ _ hs hr h => h.keepsIntact hs hr
  cases hstep with
  | @publish _ w' _ old hw' hunlocked hgcId hold hsame hv =>
    obtain rfl := mem_unique hw hw'
    have hpub : Published s' c.rootId := ⟨hunlocked, n, w, old, hw, hgcId, hold, hv⟩
    exact hpub.complete hintact.seen hintact.libraries
      (hintact.complete (hgcId.symm.trans hread) (hintact.seen.unlocked hunlocked))

/-! ## Runs as functions -/

section Exec

instance : DecidablePred (@FsObj.Nonempty Id) := fun o =>
  match o with
  | .file blkIds _ => inferInstanceAs (Decidable (blkIds ≠ []))
  | .dir entries => inferInstanceAs (Decidable (entries ≠ []))

/-- A tree of which the writer has found or stored everything. -/
def OwnTree (s : Sys Id) (w : Writer Id) (root : Id) : Prop :=
  root ∈ w.fs ∧ ∀ id ∈ w.fs, (∀ b ∈ s.store.fs.children id, b ∈ w.fs) ∧
    ∀ b ∈ s.store.fs.blocksOf id, b ∈ w.blocks

instance (s : Sys Id) (w : Writer Id) (root : Id) : Decidable (OwnTree s w root) :=
  inferInstanceAs (Decidable (_ ∧ _))

/-- A step as a function.  Writers publish trees of their own under new ids only. -/
def exec (env : GcEnv Id) (s : Sys Id) : Event Id → Option (Sys Id)
  | .gc e => gcStep env s e
  | .readGcId n repo =>
    if (s.branch repo).isSome then
      some { s with writers := Function.update s.writers n (some ⟨repo, s.gcId, ∅, ∅⟩) }
    else none
  | .checkBlock n b => do
    let w ← s.writers n
    if b ∈ s.store.blocks then
      some { s with
        writers := Function.update s.writers n (some { w with blocks := insert b w.blocks }) }
    else none
  | .putBlock n b => do
    let w ← s.writers n
    some { s with
      store := s.store.putBlock b
      writers := Function.update s.writers n (some { w with blocks := insert b w.blocks }) }
  | .saveFs n o => do
    let w ← s.writers n
    if ho : o.Nonempty then
      some { s with
        store := s.store.putFs o ho
        writers := Function.update s.writers n (some { w with fs := insert (sha1 o) w.fs }) }
    else none
  | .publish n c => do
    let w ← s.writers n
    let _ ← s.headCommit w.repo
    if s.locked = false ∧ w.lastGcId = s.gcId ∧ s.commits.get w.repo c.commitId = none ∧
        OwnTree s w c.rootId then
      some { s with
        commits := s.commits.add w.repo c
        branch := Function.update s.branch w.repo (some c.commitId) }
    else none
  | .openDir v path => do
    let head ← s.headCommit env.library
    let dirId ← Server.getSeafdirIdByPath s.store.fs head.rootId path
    if s.branch v = none ∧ (s.creators v).isNone ∧ ∀ row ∈ s.virtualRepos, row.repoId ≠ v then
      some { s with
        creators := Function.update s.creators v (some ⟨dirId, head.commitId, false⟩) }
    else none
  | .saveInfo v => do
    let x ← s.creators v
    if x.saved = false then
      some { s with
        virtualRepos := s.virtualRepos ++ [⟨v, x.baseCommit⟩]
        creators := Function.update s.creators v (some { x with saved := true }) }
    else none
  | .createRepo v c => do
    let x ← s.creators v
    if x.saved = true ∧ c.rootId = x.dirId ∧ c.parents = [] ∧
        s.commits.get v c.commitId = none then
      some { s with
        commits := s.commits.add v c
        branch := Function.update s.branch v (some c.commitId)
        creators := Function.update s.creators v none }
    else none

variable {env : GcEnv Id} {s s' : Sys Id} {e : Event Id} {es : List (Event Id)}

theorem OwnTree.vouched {w : Writer Id} {root : Id} (h : OwnTree s w root) (oldRoot : Id) :
    Vouched s w oldRoot root := by
  have hclosed : Marking.Closed s.store.fs.Child
      (fun id => ∀ b ∈ s.store.fs.blocksOf id, b ∈ w.blocks) {id | id ∈ w.fs} :=
    fun id hid => ⟨(h.2 id hid).2, (h.2 id hid).1⟩
  exact ⟨fun id _ hr => .inl (hclosed.reach h.1 hr).1,
    fun id _ hr b hb => .inl ((hclosed.reach h.1 hr).2 b hb)⟩

theorem exec_step (h : exec env s e = some s') : Step env s e s' := by
  cases e with
  | gc e => exact .gc h
  | readGcId n repo =>
    dsimp only [exec] at h
    split_ifs at h with hbranch
    cases h
    exact .readGcId hbranch
  | checkBlock n b =>
    obtain ⟨w, hw, h⟩ := bind_eq_some_iff.1 h
    split_ifs at h with hb
    cases h
    exact .checkBlock hw hb
  | putBlock n b =>
    obtain ⟨w, hw, h⟩ := bind_eq_some_iff.1 h
    cases h
    exact .putBlock hw
  | saveFs n o =>
    obtain ⟨w, hw, h⟩ := bind_eq_some_iff.1 h
    split_ifs at h with ho
    cases h
    exact .saveFs ho hw
  | publish n c =>
    obtain ⟨w, hw, h⟩ := bind_eq_some_iff.1 h
    obtain ⟨old, hold, h⟩ := bind_eq_some_iff.1 h
    split_ifs at h with hif
    cases h
    obtain ⟨hunlocked, hgcId, hnew, hown⟩ := hif
    exact .publish hw hunlocked hgcId hold (by simp [hnew]) (hown.vouched old.rootId)
  | openDir v path =>
    obtain ⟨head, hhead, h⟩ := bind_eq_some_iff.1 h
    obtain ⟨dirId, hdir, h⟩ := bind_eq_some_iff.1 h
    split_ifs at h with hif
    cases h
    obtain ⟨hbranch, hcreators, hrows⟩ := hif
    exact .openDir hbranch (isNone_iff_eq_none.1 hcreators) hrows hhead hdir
  | saveInfo v =>
    obtain ⟨x, hx, h⟩ := bind_eq_some_iff.1 h
    split_ifs at h with hsaved
    cases h
    exact .saveInfo hx hsaved
  | createRepo v c =>
    obtain ⟨x, hx, h⟩ := bind_eq_some_iff.1 h
    split_ifs at h with hif
    cases h
    obtain ⟨hsaved, hroot, hparents, hnew⟩ := hif
    exact .createRepo hx hsaved hroot hparents hnew

/-- Events that are in order wherever no virtual library is being created. -/
def Event.plain : Event Id → Bool
  | .gc (.load online _ _) => online
  | .gc (.listVirtual dbOk) => dbOk
  | .gc (.commit ok) => ok
  | .gc .blocksDone | .gc .fsDone | .openDir _ _ => false
  | _ => true

omit [DecidableEq Id] in
theorem orderly_of_plain (hs : ∀ v, s.creators v = none) (he : e.plain = true) : Orderly s e := by
  cases e with
  | gc e => cases e <;> simp_all [Event.plain, Orderly, CreatesApart, RollsBackEarly]
  | _ => simp_all [Event.plain, Orderly, CreatesApart, RollsBackEarly]

theorem Step.no_creators (h : Step env s e s') (hs : ∀ v, s.creators v = none)
    (he : e.plain = true) : ∀ v, s'.creators v = none := by
  cases h with
  | gc h => rwa [(gcStep_move h).frame.2.2.2.2]
  | openDir => cases he
  | saveInfo hx | createRepo hx => simp [hs] at hx
  | _ => exact hs

theorem run_of_exec (h : es.foldlM (exec env) s = some s') :
    Machine.Run (Step env) (fun _ _ => True) s es s' :=
  ((Machine.Run.of_foldlM (by simp) h).imp (I := fun _ => True) trivial
    fun _ _ _ _ _ hok hst => ⟨trivial, hok, exec_step hst⟩).1

theorem orderly_run_of_exec (hs : ∀ v, s.creators v = none)
    (he : ∀ e ∈ es, e.plain = true) (h : es.foldlM (exec env) s = some s') :
    Machine.Run (Step env) Orderly s es s' :=
  ((run_of_exec h).imp (I := fun s => ∀ v, s.creators v = none) hs fun _ _ e hmem hs _ hst =>
    ⟨hst.no_creators hs (he e hmem), orderly_of_plain hs (he e hmem), hst⟩).1

end Exec

/-! ## A library with a directory -/

/-- A library with an empty directory; the blocks 8 and 9 belong to nothing. -/
def dirTree : FsObj ℕ := .dir [.new 0o40000 emptySha1 ['d'] 0 [] 0]

theorem noCommits_saved (_ : RepoId) (id : ℕ) (c : Commit ℕ) (h : none = some c) :
    c.commitId = id := by
  cases h

def sharedDir : Sys ℕ where
  store := ((ObjectStore.empty.putFs dirTree (List.cons_ne_nil _ _)).putBlock 8).putBlock 9
  commits := (CommitStore.mk (fun _ _ => none) noCommits_saved).add libraryId
    ⟨1, sha1 dirTree, 5, none, none⟩
  branch := fun r => if r = libraryId then some 1 else none
  virtualRepos := []
  gcId := none
  issued := []
  gc := .idle
  writers := fun _ => none
  creators := fun _ => none

/-- The tree that a writer publishes: its file has the block 9. -/
def newFile : FsObj ℕ := .file [9] 3

def newTree : FsObj ℕ := .dir [.new 0o100644 (sha1 newFile) ['g'] 0 [] 3]

theorem sharedDir_start : Start (gcEnvOf 10) sharedDir := by
  have hlibrary : ∀ r, (sharedDir.branch r).isSome → r = libraryId := by
    intro r hr
    by_contra hne
    simp [sharedDir, hne] at hr
  refine ⟨rfl, fun _ => rfl, fun _ => rfl, nofun, fun r hr => .inl (hlibrary r hr), ?_⟩
  intro r _ c hc
  obtain ⟨head, hhead, -⟩ := bind_eq_some_iff.1 hc
  obtain rfl := hlibrary r (by simp [hhead])
  have hroot : c.rootId = sha1 dirTree := by
    have hc' : sharedDir.headCommit libraryId = some ⟨1, sha1 dirTree, 5, none, none⟩ := by
      decide +kernel
    rw [← mem_unique hc' hc]
  have hclosed : Marking.Closed sharedDir.store.fs.Child
      (fun id => (sharedDir.store.fs.obj id).isSome ∧ sharedDir.store.fs.blocksOf id = [])
      {id | id = sha1 dirTree} := by
    rintro _ rfl
    have hchildren : sharedDir.store.fs.children (sha1 dirTree) = [] := by decide +kernel
    exact ⟨by decide +kernel, fun b hb => by simp [FsStore.Child, hchildren] at hb⟩
  intro id _ hr
  obtain ⟨-, hobj, hblocks⟩ := hclosed.reach hroot hr
  exact ⟨hobj, by simp [hblocks]⟩

/-- The writer publishes after the first traversals: the block 9 is kept, the block 8 is
    removed. -/
def keepRun : List (Event ℕ) :=
  [.gc (.load true false false), .gc .collect, .gc .populate, .gc (.listVirtual true),
    .readGcId 0 libraryId, .checkBlock 0 9, .saveFs 0 newFile, .saveFs 0 newTree,
    .publish 0 ⟨2, sha1 newTree, 7, some 1, none⟩, .gc .populateVirtual,
    .gc (.begin (some ['g'])), .gc .newCommits, .gc .newCommitsVirtual, .gc (.checkBlock 9 true),
    .gc (.checkBlock 8 true)]

theorem online_gc_keeps_block :
    ∃ s', Machine.Run (Step (gcEnvOf 10)) Orderly sharedDir keepRun s' ∧ Safe (gcEnvOf 10) s' ∧
      s'.headCommit libraryId = some ⟨2, sha1 newTree, 7, some 1, none⟩ ∧
      s'.store.blocks = {9} := by
  have heval : (keepRun.foldlM (exec (gcEnvOf 10)) sharedDir).map
      (fun s => (s.headCommit libraryId, s.store.blocks)) =
      some (some ⟨2, sha1 newTree, 7, some 1, none⟩, {9}) := by decide +kernel
  obtain ⟨s', hs', hval⟩ := map_eq_some_iff.1 heval
  have hrun : Machine.Run (Step (gcEnvOf 10)) Orderly sharedDir keepRun s' :=
    orderly_run_of_exec (fun _ => rfl) (by decide) hs'
  simp only [Prod.mk.injEq] at hval
  exact ⟨s', hrun, online_gc_safe sharedDir_start hrun, hval⟩

theorem not_complete {st : ObjectStore Id} {root id b : Id} (hne : id ≠ emptySha1)
    (hchild : id ∈ st.fs.children root) (hb : b ∈ st.fs.blocksOf id) (hmissing : b ∉ st.blocks) :
    ¬ Complete st root :=
  fun h => hmissing ((h id hne (.single hchild)).2 b hb)

/-- A virtual library of the directory is created, and written to, after the virtual libraries
    were listed. -/
def newLibraryRun : List (Event ℕ) :=
  [.gc (.load true false false), .gc .collect, .gc .populate, .gc (.listVirtual true),
    .openDir ['V'] ['/', 'd'], .saveInfo ['V'], .createRepo ['V'] ⟨2, emptySha1, 6, none, none⟩,
    .readGcId 0 ['V'], .checkBlock 0 9, .saveFs 0 newFile, .saveFs 0 newTree,
    .publish 0 ⟨3, sha1 newTree, 7, some 2, none⟩, .gc .populateVirtual,
    .gc (.begin (some ['g'])), .gc .newCommits, .gc .newCommitsVirtual, .gc (.checkBlock 9 true),
    .gc (.checkBlock 8 true), .gc .blocksDone, .gc (.commit true)]

/-- **A virtual library created after the list was read is not traversed**, and its head has lost
    its block. -/
theorem gc_breaks_new_library :
    Start (gcEnvOf 10) sharedDir ∧ ∃ s',
      Machine.Run (Step (gcEnvOf 10)) (fun _ _ => True) sharedDir newLibraryRun s' ∧
      s'.gcId = some ['g'] ∧ ¬ Safe (gcEnvOf 10) s' := by
  refine ⟨sharedDir_start, ?_⟩
  have hheads : (newLibraryRun.foldlM (exec (gcEnvOf 10)) sharedDir).map
      (fun s => (s.gcId, s.virtualRepos.map VirtRepo.repoId, s.headCommit ['V'])) =
      some (some ['g'], [['V']], some ⟨3, sha1 newTree, 7, some 2, none⟩) := by decide +kernel
  have hstore : (newLibraryRun.foldlM (exec (gcEnvOf 10)) sharedDir).map
      (fun s => (s.store.fs.children (sha1 newTree), s.store.fs.blocksOf (sha1 newFile),
        s.store.blocks)) = some ([sha1 newFile], [9], ∅) := by decide +kernel
  obtain ⟨s', hs', hheads⟩ := map_eq_some_iff.1 hheads
  rw [hs'] at hstore
  simp only [map_some, Option.some.injEq, Prod.mk.injEq] at hheads hstore
  obtain ⟨hgcId, hrows, hhead⟩ := hheads
  obtain ⟨hchildren, hblocksOf, hblocks⟩ := hstore
  refine ⟨s', run_of_exec hs', hgcId, fun hsafe => ?_⟩
  obtain ⟨row, hrow, hv⟩ := List.mem_map.1 (hrows ▸ List.mem_cons_self : ['V'] ∈ _)
  have hcomplete := hsafe ['V'] (.inr ⟨row, hrow, hv⟩) _ hhead
  exact not_complete (sha1_ne_emptySha1 newFile) (by simp [hchildren]) (b := 9)
    (by simp [hblocksOf]) (by simp [hblocks]) hcomplete

/-- The transaction cannot be begun, and the writer that had found the block 9 publishes. -/
def earlyRun : List (Event ℕ) :=
  [.readGcId 0 libraryId, .checkBlock 0 9, .gc (.load true false false), .gc .collect,
    .gc .populate, .gc (.listVirtual true), .gc .populateVirtual, .gc (.begin none),
    .saveFs 0 newFile, .saveFs 0 newTree]

/-- The block 9 is removed, the removal of the block 8 fails, and the transaction is rolled
    back. -/
def lateRun : List (Event ℕ) :=
  [.readGcId 0 libraryId, .checkBlock 0 9, .gc (.load true false false), .gc .collect,
    .gc .populate, .gc (.listVirtual true), .gc .populateVirtual, .gc (.begin (some ['g'])),
    .gc .newCommits, .gc .newCommitsVirtual, .gc (.checkBlock 9 true), .gc (.checkBlock 8 false),
    .gc .blocksDone, .saveFs 0 newFile, .saveFs 0 newTree]

def newCommit : Commit ℕ := ⟨2, sha1 newTree, 7, some 1, none⟩

theorem publish_complete_early :
    ∃ s' s'', Machine.Run (Step (gcEnvOf 10)) RollsBackEarly sharedDir earlyRun s' ∧
      Step (gcEnvOf 10) s' (.publish 0 newCommit) s'' ∧ Complete s''.store newCommit.rootId := by
  have heval : (earlyRun.foldlM (exec (gcEnvOf 10)) sharedDir).bind (fun s =>
      (exec (gcEnvOf 10) s (.publish 0 newCommit)).bind fun _ => (s.writers 0).map Writer.lastGcId)
        =
      some none := by decide +kernel
  obtain ⟨s', hs', heval⟩ := bind_eq_some_iff.1 heval
  obtain ⟨s'', hs'', heval⟩ := bind_eq_some_iff.1 heval
  obtain ⟨w, hw, hread⟩ := map_eq_some_iff.1 heval
  have hrun : Machine.Run (Step (gcEnvOf 10)) RollsBackEarly sharedDir earlyRun s' :=
    ((orderly_run_of_exec (fun _ => rfl) (by decide) hs').imp (I := fun _ => True) trivial
      fun _ _ _ _ _ ho hst => ⟨trivial, ho.2, hst⟩).1
  exact ⟨s', s'', hrun, exec_step hs'',
    publish_complete sharedDir_start hrun hw hread (exec_step hs'')⟩

/-- **A transaction rolled back after a removal** leaves the old GC id in force, and a writer
    publishes a tree whose block is gone. -/
theorem publish_dangling :
    Start (gcEnvOf 10) sharedDir ∧ ∃ s' s'' w,
      Machine.Run (Step (gcEnvOf 10)) (fun _ _ => True) sharedDir lateRun s' ∧
      s'.writers 0 = some w ∧ w.lastGcId = sharedDir.gcId ∧
      Step (gcEnvOf 10) s' (.publish 0 newCommit) s'' ∧
      ¬ Complete s''.store newCommit.rootId := by
  refine ⟨sharedDir_start, ?_⟩
  have heval : (lateRun.foldlM (exec (gcEnvOf 10)) sharedDir).bind (fun s =>
      (exec (gcEnvOf 10) s (.publish 0 newCommit)).bind fun s'' => (s.writers 0).map fun w =>
        (w.lastGcId, s''.store.fs.children newCommit.rootId,
          s''.store.fs.blocksOf (sha1 newFile), s''.store.blocks)) =
      some (none, [sha1 newFile], [9], {8}) := by decide +kernel
  obtain ⟨s', hs', heval⟩ := bind_eq_some_iff.1 heval
  obtain ⟨s'', hs'', heval⟩ := bind_eq_some_iff.1 heval
  obtain ⟨w, hw, hval⟩ := map_eq_some_iff.1 heval
  simp only [Prod.mk.injEq] at hval
  obtain ⟨hread, hchildren, hblocksOf, hblocks⟩ := hval
  refine ⟨s', s'', w, run_of_exec hs', hw, hread, exec_step hs'', ?_⟩
  exact not_complete (sha1_ne_emptySha1 newFile) (by simp [hchildren]) (b := 9)
    (by simp [hblocksOf]) (by simp [hblocks])

end CloudFile
