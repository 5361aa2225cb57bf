/-
  Publications that do not compare the GC id (`server/repo-op.c`): copies and moves within one
  store, `seaf_repo_manager_update_dir` and reverts publish a tree of objects they have read.
  `reuse_safe`: the heads stay complete if no garbage collection has ended or holds the lock since
  they read, or a head still has it all.
-/
import CloudFile.Gc.Safety

namespace CloudFile

open Option Function

variable {Id : Type} [ObjectId Id] [DecidableEq Id]

/-! ## The model -/

/-- What an entry refers to: nothing, if it is neither a file nor a directory. -/
def Dirent.referred (d : Dirent Id) : Id := if d.isReg || d.isDir then d.id else emptySha1

structure TreeOf (st : ObjectStore Id) (source : Id) (objects blocks : Finset Id) : Prop where
  mem_objects : ∀ id, id ∈ objects ↔ id ≠ emptySha1 ∧ st.fs.Reach source id
  mem_blocks : ∀ b, b ∈ blocks ↔ ∃ id ∈ objects, b ∈ st.fs.blocksOf id

/-- Two writers of one operation: what it has read, and what it has stored. -/
def Writer.with (w own : Writer Id) : Writer Id :=
  { w with fs := w.fs ∪ own.fs, blocks := w.blocks ∪ own.blocks }

inductive ReuseEvent (Id : Type)
  | step (e : Event Id)
  | readDirent (n : ℕ) (src dst : RepoId) (path name : Name)
  | readDir (n : ℕ) (repo : RepoId) (newDirId : Id)
  | readCommit (n : ℕ) (repo : RepoId) (commitId : Id)
  | publish (n own : ℕ) (c : Commit Id)

/-- The state after an operation has read a tree, with the GC id that is in force then. -/
def Sys.reads (s : Sys Id) (n : ℕ) (repo : RepoId) (objects blocks : Finset Id) : Sys Id :=
  { s with writers := Function.update s.writers n (some ⟨repo, s.gcId, objects, blocks⟩) }

inductive ReuseStep (env : GcEnv Id) (s : Sys Id) : ReuseEvent Id → Sys Id → Prop
  | step {e : Event Id} {s' : Sys Id} : Step env s e s' → ReuseStep env s (.step e) s'
  /-- `get_dirent_by_path`: the entry that is copied or moved, in the head of a library that
      shares the store. -/
  | readDirent {n : ℕ} {src dst : RepoId} {path name : Name} {objects blocks : Finset Id}
      {head : Commit Id} {dir : SeafDir Id} {d : Dirent Id} : (s.branch dst).isSome →
      s.headCommit src = some head →
      Server.getSeafdirByPath s.store.fs head.rootId path = .ok dir →
      findDirent name dir.entries = some d → TreeOf s.store d.referred objects blocks →
      ReuseStep env s (.readDirent n src dst path name) (s.reads n dst objects blocks)
  /-- The directory that `update_dir` is to make the root; its objects exist. -/
  | readDir {n : ℕ} {repo : RepoId} {newDirId : Id} {objects blocks : Finset Id} :
      (s.branch repo).isSome → Complete s.store newDirId →
      TreeOf s.store newDirId objects blocks →
      ReuseStep env s (.readDir n repo newDirId) (s.reads n repo objects blocks)
  /-- The commit that `revert_on_server` goes back to; its objects exist. -/
  | readCommit {n : ℕ} {repo : RepoId} {commitId : Id} {objects blocks : Finset Id}
      {commit : Commit Id} : (s.branch repo).isSome → s.commits.get repo commitId = some commit →
      Complete s.store commit.rootId → TreeOf s.store commit.rootId objects blocks →
      ReuseStep env s (.readCommit n repo commitId) (s.reads n repo objects blocks)
  /-- `test_and_update_branch` without the GC id: the branch is moved from the head that the
      commit is based on, whatever the row of `GCID` is. -/
  | publish {n m : ℕ} {w own : Writer Id} {c old : Commit Id} : s.writers n = some w →
      s.writers m = some own → s.headCommit w.repo = some old →
      (∀ c', s.commits.get w.repo c.commitId = some c' → c' = c) →
      Vouched s (w.with own) old.rootId c.rootId →
      ReuseStep env s (.publish n m c) { s with
        commits := s.commits.add w.repo c
        branch := Function.update s.branch w.repo (some c.commitId) }

/-! ## The condition -/

/-- The heads refer to all that a writer has read or stored. -/
structure HeadsHold (env : GcEnv Id) (s : Sys Id) (w : Writer Id) : Prop where
  fs : ∀ id ∈ w.fs, id ≠ emptySha1 ∧ ∃ root, Protected env s root ∧ s.store.fs.Reach root id
  blocks : ∀ b ∈ w.blocks, ∃ root id, Protected env s root ∧ id ≠ emptySha1 ∧
    s.store.fs.Reach root id ∧ b ∈ s.store.fs.blocksOf id

/-- When an operation publishes, the row is not locked, and the GC id is the one of its reads, or
    the heads refer to what it has read. -/
def Uncollected (env : GcEnv Id) (s : Sys Id) : ReuseEvent Id → Prop
  | .step e => Orderly s e
  | .publish n m _ => s.locked = false ∧ ∀ w, s.writers n = some w ∨ s.writers m = some w →
      w.lastGcId = s.gcId ∨ HeadsHold env s w
  | _ => True

/-! ## What an operation publishes -/

section Publish

variable {base : Option GcId} {env : GcEnv Id} {s s' : Sys Id} {w own : Writer Id}
  {objects blocks : Finset Id} {source oldRoot root : Id}

theorem TreeOf.vouched {w : Writer Id} (h : TreeOf s.store source w.fs w.blocks) (own : Writer Id)
    (oldRoot : Id) : Vouched s (w.with own) oldRoot source := by
  have hfs : ∀ id, id ≠ emptySha1 → s.store.fs.Reach source id → id ∈ w.fs :=
    fun id hid hr => (h.mem_objects id).mpr ⟨hid, hr⟩
  refine ⟨fun id hid hr => .inl (Finset.mem_union_left _ (hfs id hid hr)), fun id hid hr b hb => ?_⟩
  exact .inl (Finset.mem_union_left _ ((h.mem_blocks b).mpr ⟨id, hfs id hid hr, hb⟩))

theorem TreeOf.found (h : TreeOf s.store source objects blocks) (hc : Complete s.store source)
    (repo : RepoId) (gcId : Option GcId) : Found s.store ⟨repo, gcId, objects, blocks⟩ := by
  refine ⟨fun id hid => ?_, fun b hb => ?_⟩
  · obtain ⟨hne, hr⟩ := (h.mem_objects id).mp hid
    exact (hc id hne hr).1
  · obtain ⟨id, hid, hmem⟩ := (h.mem_blocks b).mp hb
    obtain ⟨hne, hr⟩ := (h.mem_objects id).mp hid
    exact (hc id hne hr).2 b hmem

theorem HeadsHold.found (h : HeadsHold env s w)
    (hc : ∀ root, Protected env s root → Complete s.store root) : Found s.store w := by
  refine ⟨fun id hid => ?_, fun b hb => ?_⟩
  · obtain ⟨hne, root, hroot, hr⟩ := h.fs id hid
    exact (hc root hroot id hne hr).1
  · obtain ⟨root, id, hroot, hne, hr, hmem⟩ := h.blocks b hb
    exact (hc root hroot id hne hr).2 b hmem

theorem Found.with {st : ObjectStore Id} (h : Found st w) (hown : Found st own) :
    Found st (w.with own) := by
  refine ⟨fun id hid => ?_, Finset.union_subset h.2 hown.2⟩
  rcases Finset.mem_union.mp hid with hid | hid
  · exact h.1 id hid
  · exact hown.1 id hid

theorem Complete.referred {dir : SeafDir Id} {path name : Name} {d : Dirent Id}
    (hc : Complete s.store root) (hdir : Server.getSeafdirByPath s.store.fs root path = .ok dir)
    (hd : findDirent name dir.entries = some d) : Complete s.store d.referred := by
  obtain ⟨hentries, hbelow⟩ := getSeafdirByPath_below hdir
  unfold Dirent.referred
  split
  next hkind =>
    by_cases hne : d.id = emptySha1
    · rw [hne]
      exact complete_emptySha1
    · rcases hbelow with hempty | hr
      · have hes := (seafdir_some.1 hentries).1
        rw [hempty, FsStore.getSeafdir_empty] at hes
        rw [← Option.some.inj hes] at hd
        cases hd
      · refine hc.below (hr.tail ?_)
        rcases FsStore.getSeafdir_obj (seafdir_some.1 hentries).1 with ⟨-, hnil⟩ | hobj
        · rw [hnil] at hd
          cases hd
        · simp only [FsStore.Child, FsStore.children, hobj]
          exact List.mem_map_of_mem (List.mem_filter.2
            ⟨(mem_of_findDirent hd).1, by simp [hkind, hne]⟩)
  next => exact complete_emptySha1

theorem Inv.reads (hs : Inv base env s) (hc : Complete s.store source)
    (h : TreeOf s.store source objects blocks) (n : ℕ) (repo : RepoId) :
    Inv base env (s.reads n repo objects blocks) := by
  have hq : Quiet env s (.readGcId n repo) (s.reads n repo objects blocks) :=
    quiet_write .refl (.inl ⟨rfl, h.found hc repo s.gcId⟩)
  exact ⟨hq.keepsSeen hs.seen, ⟨hs.libraries.owned, hs.libraries.creators⟩,
    fun _ => hq.complete hs.seen hs.libraries hs.complete, hq.staged trivial hs.seen hs.staged⟩

theorem Staged.forget (h : Staged env s) (writers : ℕ → Option (Writer Id)) :
    Staged env { s with writers := writers } := by
  unfold Staged at h ⊢
  cases hgc : s.gc with
  | idle => trivial
  | loaded =>
    rw [hgc] at h
    exact h
  | running run =>
    rw [hgc] at h
    dsimp only [StageSafe] at h ⊢
    cases hstage : run.stage <;> simp only [hstage] at h ⊢
    case virtuals | base | begin => exact ⟨h.library, h.data, h.created, h.listed, h.saved⟩
    all_goals exact h

theorem Inv.publishes {repo : RepoId} {c old : Commit Id} (hs : Inv base env s)
    (hunlocked : s.locked = false) (hold : s.headCommit repo = some old)
    (hsame : ∀ c', s.commits.get repo c.commitId = some c' → c' = c)
    (hc : Complete s.store c.rootId) :
    Inv base env { s with
      commits := s.commits.add repo c
      branch := update s.branch repo (some c.commitId) } := by
  -- a writer that has just found everything might publish the tree
  let all : Writer Id := ⟨repo, s.gcId, s.store.fsIds, s.store.blocks⟩
  let s₀ : Sys Id := { s with writers := update s.writers 0 (some all) }
  have hfound : Found s.store all :=
    ⟨fun id hid => (s.store.fsIds_spec id).mp hid, Finset.Subset.refl _⟩
  have hq₀ : Quiet env s (.readGcId 0 repo) s₀ := quiet_write .refl (.inl ⟨rfl, hfound⟩)
  have hs₀ : Inv base env s₀ :=
    ⟨hq₀.keepsSeen hs.seen, ⟨hs.libraries.owned, hs.libraries.creators⟩,
      fun _ => hq₀.complete hs.seen hs.libraries hs.complete, hq₀.staged trivial hs.seen hs.staged⟩
  have hv : Vouched s₀ all old.rootId c.rootId := by
    refine ⟨fun id hid hr => .inl ((s.store.fsIds_spec id).mpr (hc id hid hr).1), ?_⟩
    exact fun id hid hr b hb => .inl ((hc id hid hr).2 b hb)
  have hw : s₀.writers 0 = some all := by
    show update s.writers 0 (some all) 0 = some all
    exact update_self ..
  have hq : Quiet env s₀ (.publish 0 c) { s₀ with
      commits := s₀.commits.add all.repo c
      branch := update s₀.branch all.repo (some c.commitId) } :=
    quiet_publish hw hunlocked rfl hold hsame hv
  have hlibraries := hs₀.libraries.publish (w := all) (c := c) hold
  have hstaged := (hq.staged trivial hs₀.seen hs₀.staged).forget s.writers
  refine ⟨⟨hs.seen.issued, hs.seen.read, hs.seen.found, hs.seen.online, fun run hrun => ?_⟩,
    ⟨hlibraries.owned, hlibraries.creators⟩,
    fun root hroot => hq.complete hs₀.seen hs₀.libraries hs₀.complete hroot, hstaged⟩
  have htrans := hs.seen.trans run hrun
  exact ⟨htrans.online, htrans.trans, htrans.issued, htrans.fresh, htrans.old, htrans.removed⟩

end Publish

/-! ## Whole runs -/

section Runs

variable {base : Option GcId} {env : GcEnv Id} {s s' : Sys Id} {e : ReuseEvent Id}

theorem complete_of_uncollected {n m : ℕ} {w own : Writer Id} {c old : Commit Id}
    (hs : Inv base env s) (hu : Uncollected env s (.publish n m c)) (hw : s.writers n = some w)
    (hown : s.writers m = some own) (hold : s.headCommit w.repo = some old)
    (hv : Vouched s (w.with own) old.rootId c.rootId) : Complete s.store c.rootId := by
  obtain ⟨hunlocked, hkept⟩ := hu
  have hfound : ∀ x, s.writers n = some x ∨ s.writers m = some x → Found s.store x := by
    intro x hx
    rcases hkept x hx with hread | hheads
    · have hremoved := hs.seen.unlocked hunlocked
      rcases hx with hx | hx
      · exact hs.seen.found hremoved n x hx hread
      · exact hs.seen.found hremoved m x hx hread
    · exact hheads.found hs.complete
  have hbranch : (s.branch w.repo).isSome := by
    obtain ⟨head, hhead, -⟩ := bind_eq_some_iff.1 hold
    simp [hhead]
  exact hv.complete ((hfound w (.inl hw)).with (hfound own (.inr hown)))
    (hs.complete _ (.inl ⟨w.repo, old, hs.libraries.owned _ hbranch, hold, rfl⟩))

/-- **Each step keeps the invariant.** -/
theorem ReuseStep.keeps (hs : Inv base env s) (hu : Uncollected env s e)
    (h : ReuseStep env s e s') : Inv base env s' := by
  cases h with
  | step h => exact h.keeps hs hu
  | @readDirent n src dst path name objects blocks head dir d _ hhead hdir hd htree =>
    have hbranch : (s.branch src).isSome := by
      obtain ⟨id, hid, -⟩ := bind_eq_some_iff.1 hhead
      simp [hid]
    have hc := hs.complete _ (.inl ⟨src, head, hs.libraries.owned _ hbranch, hhead, rfl⟩)
    exact hs.reads (hc.referred hdir hd) htree n dst
  | @readDir n repo newDirId objects blocks _ hc htree => exact hs.reads hc htree n repo
  | @readCommit n repo commitId objects blocks commit _ _ hc htree =>
    exact hs.reads hc htree n repo
  | publish hw hown hold hsame hv =>
    exact hs.publishes hu.1 hold hsame (complete_of_uncollected hs hu hw hown hold hv)

end Runs

/-- **Publications without the GC id are safe** if since their reads no garbage collection has
    ended or holds the lock, or the heads refer to all they have read. -/
theorem reuse_safe {env : GcEnv Id} {s s' : Sys Id} {es : List (ReuseEvent Id)}
    (hstart : Start env s) (hrun : Machine.Run (ReuseStep env) (Uncollected env) s es s') :
    Safe env s' ∧ ∀ n m c s'', Uncollected env s' (.publish n m c) →
      ReuseStep env s' (.publish n m c) s'' → Complete s''.store c.rootId := by
  have hinv : Inv s.gcId env s' := hrun.induct hstart.inv fun _ _ _ hs hu h => h.keeps hs hu
  refine ⟨fun r hr c hc => hinv.complete _ (.inl ⟨r, c, hr, hc, rfl⟩), ?_⟩
  intro n m c s'' hu h
  cases h with
  | publish hw hown hold _ hv =>
    have hc := complete_of_uncollected hinv hu hw hown hold hv
    exact hc

/-! ## A revert and a garbage collection -/

section Exec

variable {env : GcEnv Id} {s s₁ s' : Sys Id} {e : ReuseEvent Id} {es : List (Event Id)}

/-- The end of a loop over the objects. -/
def Event.ends : Event Id → Bool
  | .gc .blocksDone | .gc .fsDone => true
  | _ => false

def Sys.failing (s : Sys Id) : Bool :=
  match s.gc with
  | .running run => run.failed
  | _ => false

/-- A step in order, as a function, where no virtual library is being created. -/
def tidyExec (env : GcEnv Id) (s : Sys Id) (e : Event Id) : Option (Sys Id) :=
  if e.plain || e.ends && !s.failing then exec env s e else none

theorem tidyExec_spec (hs : ∀ v, s.creators v = none) {e : Event Id}
    (h : tidyExec env s e = some s') :
    (∀ v, s'.creators v = none) ∧ Orderly s e ∧ Step env s e s' := by
  unfold tidyExec at h
  split_ifs at h with htidy
  have hst := exec_step h
  by_cases hplain : e.plain = true
  · exact ⟨hst.no_creators hs hplain, orderly_of_plain hs hplain, hst⟩
  · have hends : e.ends = true ∧ s.failing = false := by simpa [hplain] using htidy
    have hok : ∀ run, s.gc = .running run → run.failed = true → run.removed = false := by
      intro run hgc hfailed
      have hno := hends.2
      simp [Sys.failing, hgc, hfailed] at hno
    have horderly : Orderly s e := by
      cases e with
      | gc g =>
        cases g with
        | blocksDone | fsDone => exact ⟨trivial, hok⟩
        | _ => cases hends.1
      | _ => cases hends.1
    refine ⟨?_, horderly, hst⟩
    cases hst with
    | gc hgc => rwa [(gcStep_move hgc).frame.2.2.2.2]
    | _ => cases hends.1

theorem run_after (hfirst : ReuseStep env s e s₁) (hu : Uncollected env s e)
    (hs : ∀ v, s₁.creators v = none) (h : es.foldlM (tidyExec env) s₁ = some s') :
    Machine.Run (ReuseStep env) (Uncollected env) s (e :: es.map .step) s' := by
  have hfold : Machine.Run (fun s e s' => tidyExec env s e = some s') (fun _ _ => True) s₁ es s' :=
    Machine.Run.of_foldlM (by simp) h
  obtain ⟨hrun, -⟩ := hfold.imp (I := fun s => ∀ v, s.creators v = none) hs
    fun _ _ _ _ hs _ hst => tidyExec_spec hs hst
  clear hfold h
  induction hrun with
  | nil => exact .snoc .nil hu hfirst
  | snoc _ hok hst ih =>
    rw [List.map_append]
    exact .snoc ih hok (.step hst)

end Exec

theorem twoCommits_start (truncateTime : ℤ) : Start (gcEnvOf truncateTime) twoCommits := by
  have hlibrary : ∀ r, (twoCommits.branch r).isSome → r = libraryId := by
    intro r hr
    by_contra hne
    simp [twoCommits, hne] at hr
  refine ⟨rfl, fun _ => rfl, fun _ => rfl, by simp [twoCommits],
    fun r hr => .inl (hlibrary r hr), ?_⟩
  intro r _ c hc
  obtain ⟨head, hhead, -⟩ := bind_eq_some_iff.1 hc
  obtain rfl := hlibrary r (by simp [hhead])
  have hc' : twoCommits.headCommit libraryId = some commit2 := by decide +kernel
  obtain rfl := mem_unique hc' hc
  exact complete_emptySha1

section Read

variable {st : ObjectStore Id} {source : Id} {objects blocks : Finset Id}

theorem treeOf_of_closed (hsource : source ∈ objects)
    (hclosed : ∀ id ∈ objects, id ≠ emptySha1 ∧ st.fs.Reach source id ∧
      (∀ b ∈ st.fs.blocksOf id, b ∈ blocks) ∧ ∀ c ∈ st.fs.children id, c ∈ objects)
    (hblocks : ∀ b ∈ blocks, ∃ id ∈ objects, b ∈ st.fs.blocksOf id) :
    TreeOf st source objects blocks := by
  have hmem : ∀ {id}, st.fs.Reach source id → id ∈ objects := by
    intro id hr
    induction hr with
    | refl => exact hsource
    | tail _ hchild ih => exact (hclosed _ ih).2.2.2 _ hchild
  refine ⟨fun id => ?_, fun b => ?_⟩
  · constructor
    · intro hid
      obtain ⟨hne, hr, -, -⟩ := hclosed id hid
      exact ⟨hne, hr⟩
    · exact fun h => hmem h.2
  · constructor
    · exact hblocks b
    · rintro ⟨id, hid, hb⟩
      exact (hclosed id hid).2.2.1 b hb

theorem TreeOf.complete (h : TreeOf st source objects blocks)
    (hobjects : ∀ id ∈ objects, (st.fs.obj id).isSome) (hblocks : blocks ⊆ st.blocks) :
    Complete st source := by
  intro id hne hr
  have hid : id ∈ objects := (h.mem_objects id).mpr ⟨hne, hr⟩
  exact ⟨hobjects id hid, fun b hb => hblocks ((h.mem_blocks b).mpr ⟨id, hid, hb⟩)⟩

theorem publish_read {env : GcEnv Id} {s : Sys Id} {n : ℕ} {w : Writer Id} {c old : Commit Id}
    (hw : s.writers n = some w) (hold : s.headCommit w.repo = some old)
    (hnew : s.commits.get w.repo c.commitId = none)
    (htree : TreeOf s.store c.rootId w.fs w.blocks) :
    ReuseStep env s (.publish n n c) { s with
      commits := s.commits.add w.repo c
      branch := update s.branch w.repo (some c.commitId) } :=
  .publish hw hw hold (by simp [hnew]) (htree.vouched w old.rootId)

end Read

variable {st : ObjectStore ℕ}

theorem treeOf_oldTree
    (htree : st.fs.children (sha1 oldTree) = [sha1 oldFile] ∧ st.fs.blocksOf (sha1 oldTree) = [])
    (hfile : st.fs.children (sha1 oldFile) = [] ∧ st.fs.blocksOf (sha1 oldFile) = [7]) :
    TreeOf st (sha1 oldTree) {sha1 oldTree, sha1 oldFile} {7} := by
  obtain ⟨hchildren, hnone⟩ := htree
  obtain ⟨hleaf, hblocks⟩ := hfile
  refine treeOf_of_closed (Finset.mem_insert_self _ _) ?_ (by simp [hblocks])
  intro id hid
  rcases Finset.mem_insert.mp hid with rfl | hid
  · exact ⟨sha1_ne_emptySha1 _, .refl, by simp [hnone], by simp [hchildren]⟩
  · obtain rfl := Finset.mem_singleton.mp hid
    have hchild : st.fs.Child (sha1 oldTree) (sha1 oldFile) := by
      rw [FsStore.Child, hchildren]
      exact List.mem_singleton_self _
    exact ⟨sha1_ne_emptySha1 _, .single hchild, by simp [hblocks], by simp [hleaf]⟩

def revertCommit : Commit ℕ := ⟨3, sha1 oldTree, 40, some 2, none⟩

/-- **A revert across a garbage collection**, which removes the block of the file between the read
    and the publication. -/
theorem revert_dangling :
    Start (gcEnvOf 0) twoCommits ∧ ∃ s' s'',
      Machine.Run (ReuseStep (gcEnvOf 0)) (Uncollected (gcEnvOf 0)) twoCommits
        (.readCommit 0 libraryId 1 :: (wholeRun.map .gc).map .step) s' ∧
      s'.gcId = some ['g'] ∧ s'.locked = false ∧
      ReuseStep (gcEnvOf 0) s' (.publish 0 0 revertCommit) s'' ∧
      ¬ Complete s''.store revertCommit.rootId := by
  refine ⟨twoCommits_start 0, ?_⟩
  have htree : TreeOf twoCommits.store (sha1 oldTree) {sha1 oldTree, sha1 oldFile} {7} :=
    treeOf_oldTree (by decide +kernel) (by decide +kernel)
  let s₁ := twoCommits.reads 0 libraryId {sha1 oldTree, sha1 oldFile} {7}
  have hread : ReuseStep (gcEnvOf 0) twoCommits (.readCommit 0 libraryId 1) s₁ :=
    .readCommit rfl (by decide +kernel : _ = some commit1)
      (htree.complete (by decide +kernel) (by decide +kernel)) htree
  -- what the store, the head and the operation are after the garbage collection
  have heval : (((wholeRun.map .gc).foldlM (tidyExec (gcEnvOf 0)) s₁).any fun s =>
      (s.writers 0).any fun w => s.gcId = some ['g'] ∧ s.locked = false ∧
        s.headCommit w.repo = some commit2 ∧
        s.commits.get w.repo revertCommit.commitId = none ∧
        (w.fs = {sha1 oldTree, sha1 oldFile} ∧ w.blocks = {7}) ∧
        (s.store.fs.children (sha1 oldTree) = [sha1 oldFile] ∧
          s.store.fs.blocksOf (sha1 oldTree) = []) ∧
        (s.store.fs.children (sha1 oldFile) = [] ∧ s.store.fs.blocksOf (sha1 oldFile) = [7]) ∧
        s.store.blocks = ∅) = true := by
    decide +kernel
  obtain ⟨s', hs', heval⟩ := (Option.any_eq_true _ _).1 heval
  obtain ⟨w, hw, hval⟩ := (Option.any_eq_true _ _).1 heval
  obtain ⟨hgcId, hunlocked, hold, hnew, ⟨hfs, hwblocks⟩, hdir, hfile, hblocks⟩ :=
    of_decide_eq_true hval
  have htree' : TreeOf s'.store revertCommit.rootId w.fs w.blocks := by
    rw [hfs, hwblocks]
    exact treeOf_oldTree hdir hfile
  refine ⟨s', _, run_after hread trivial (fun _ => rfl) hs', hgcId, hunlocked,
    publish_read hw hold hnew htree', ?_⟩
  exact not_complete (sha1_ne_emptySha1 oldFile) (by simp [revertCommit, hdir.1]) (b := 7)
    (by simp [hfile.2]) (by simp [hblocks])

/-! ### A revert to the head -/

def sweepRun : List (GcEvent ℕ) :=
  [.load true false false, .collect, .populate, .listVirtual true, .populateVirtual,
    .begin (some ['g']), .newCommits, .newCommitsVirtual, .checkBlock 9 true, .checkBlock 8 true,
    .blocksDone, .commit true]

theorem treeOf_dirTree (hchildren : st.fs.children (sha1 dirTree) = [])
    (hblocks : st.fs.blocksOf (sha1 dirTree) = []) :
    TreeOf st (sha1 dirTree) {sha1 dirTree} ∅ := by
  refine treeOf_of_closed (Finset.mem_singleton_self _) ?_ (by simp)
  intro id hid
  obtain rfl := Finset.mem_singleton.mp hid
  exact ⟨sha1_ne_emptySha1 _, .refl, by simp [hblocks], by simp [hchildren]⟩

def sameCommit : Commit ℕ := ⟨2, sha1 dirTree, 7, some 1, none⟩

/-- The head refers to what is read, so the garbage collection keeps it. -/
theorem revert_to_head_safe :
    ∃ s' s'', Machine.Run (ReuseStep (gcEnvOf 10)) (Uncollected (gcEnvOf 10)) sharedDir
        (.readCommit 0 libraryId 1 :: (sweepRun.map .gc).map .step) s' ∧
      s'.store.blocks = ∅ ∧ Safe (gcEnvOf 10) s' ∧
      ReuseStep (gcEnvOf 10) s' (.publish 0 0 sameCommit) s'' ∧
      Complete s''.store sameCommit.rootId := by
  have htree : TreeOf sharedDir.store (sha1 dirTree) {sha1 dirTree} ∅ :=
    treeOf_dirTree (by decide +kernel) (by decide +kernel)
  let s₁ := sharedDir.reads 0 libraryId {sha1 dirTree} ∅
  have hread : ReuseStep (gcEnvOf 10) sharedDir (.readCommit 0 libraryId 1) s₁ :=
    .readCommit rfl (by decide +kernel : _ = some ⟨1, sha1 dirTree, 5, none, none⟩)
      (htree.complete (by decide +kernel) (by decide +kernel)) htree
  have heval : (((sweepRun.map .gc).foldlM (tidyExec (gcEnvOf 10)) s₁).any fun s =>
      (s.writers 0).any fun w => s.locked = false ∧
        s.headCommit libraryId = some ⟨1, sha1 dirTree, 5, none, none⟩ ∧ w.repo = libraryId ∧
        s.commits.get w.repo sameCommit.commitId = none ∧
        w.fs = {sha1 dirTree} ∧ w.blocks = ∅ ∧
        s.store.fs.children (sha1 dirTree) = [] ∧ s.store.fs.blocksOf (sha1 dirTree) = [] ∧
        s.store.blocks = ∅) = true := by
    decide +kernel
  obtain ⟨s', hs', heval⟩ := (Option.any_eq_true _ _).1 heval
  obtain ⟨w, hw, hval⟩ := (Option.any_eq_true _ _).1 heval
  obtain ⟨hunlocked, hhead, hrepo, hnew, hfs, hempty, hchildren, hnone, hblocks⟩ :=
    of_decide_eq_true hval
  have htree' : TreeOf s'.store sameCommit.rootId w.fs w.blocks := by
    rw [hfs, hempty]
    exact treeOf_dirTree hchildren hnone
  have hrun := run_after hread trivial (fun _ => rfl) hs'
  have hheads : HeadsHold (gcEnvOf 10) s' w := by
    constructor
    · rw [hfs]
      intro id hid
      obtain rfl := Finset.mem_singleton.mp hid
      exact ⟨sha1_ne_emptySha1 _, _, .inl ⟨libraryId, _, .inl rfl, hhead, rfl⟩, .refl⟩
    · rw [hempty]
      simp
  have hu : Uncollected (gcEnvOf 10) s' (.publish 0 0 sameCommit) := by
    refine ⟨hunlocked, fun x hx => .inr ?_⟩
    obtain rfl := mem_unique hw (hx.elim id id)
    exact hheads
  have hstep : ReuseStep (gcEnvOf 10) s' (.publish 0 0 sameCommit) _ :=
    publish_read hw (by rw [hrepo]; exact hhead) hnew htree'
  obtain ⟨hsafe, hpublish⟩ := reuse_safe sharedDir_start hrun
  exact ⟨s', _, hrun, hblocks, hsafe, hstep, hpublish 0 0 sameCommit _ hu hstep⟩

end CloudFile
