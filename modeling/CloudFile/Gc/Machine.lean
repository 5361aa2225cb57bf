/-
  Garbage collection as a process among writers (`server/gc/gc-core.c`, `common/branch-mgr.c`,
  `fileserver/fileop.go`, `server/virtual-repo.c`). The state is one library with its virtual
  libraries, which share a store and one row of `GCID`. A GC run is cut into the steps between
  which others may run (`gcStep`).
-/
import CloudFile.Gc.TraverseCommits
import CloudFile.Fs.PathLookup
import Mathlib.Data.Finset.Card

namespace CloudFile

variable {Id : Type} [ObjectId Id] [DecidableEq Id]

/-! ## The store -/

/-- The objects of a library: those of the file system, which can be listed, and blocks. -/
structure ObjectStore (Id : Type) [ObjectId Id] where
  fs : FsStore Id
  fsIds : Finset Id
  fsIds_spec : ∀ id, id ∈ fsIds ↔ (fs.obj id).isSome
  blocks : Finset Id

def FsStore.erase (st : FsStore Id) (id : Id) : FsStore Id where
  obj id' := if id' = id then none else st.obj id'
  saved id' o h := by
    split_ifs at h
    exact st.saved id' o h

namespace ObjectStore

variable (st : ObjectStore Id)

/-- Store an object of the file system; the one that exists under its id is the same. -/
def putFs (o : FsObj Id) (ho : o.Nonempty) : ObjectStore Id where
  fs := st.fs.insert o ho
  fsIds := insert (sha1 o) st.fsIds
  fsIds_spec id := by
    by_cases h : id = sha1 o <;> simp [FsStore.insert, h, st.fsIds_spec]
  blocks := st.blocks

def putBlock (b : Id) : ObjectStore Id := { st with blocks := insert b st.blocks }

/-- `seaf_fs_manager_delete_object` -/
def removeFs (id : Id) : ObjectStore Id where
  fs := st.fs.erase id
  fsIds := st.fsIds.erase id
  fsIds_spec id' := by
    by_cases h : id' = id <;> simp [FsStore.erase, h, st.fsIds_spec]
  blocks := st.blocks

/-- `seaf_block_manager_remove_block` -/
def removeBlock (b : Id) : ObjectStore Id := { st with blocks := st.blocks.erase b }

end ObjectStore

omit [ObjectId Id] in
def CommitStore.add (commits : CommitStore Id) (repo : RepoId) (c : Commit Id) :
    CommitStore Id where
  get repo' id := if repo' = repo ∧ id = c.commitId then some c else commits.get repo' id
  saved repo' id c' h := by
    split_ifs at h with heq
    · cases h
      exact heq.2.symm
    · exact commits.saved repo' id c' h

/-! ## The state -/

abbrev GcId := List Char

structure VirtRepo (Id : Type) where
  repoId : RepoId
  baseCommit : Id

/-- Where a run of `gc_v1_repo` stands. -/
inductive Stage (Id : Type)
  | main
  | listVirtual
  | virtuals (todo : List RepoId)
  | base
  | begin
  | newCommits
  | newVirtuals (todo : List (GCData Id))
  | blocks
  | fs
  | finish

/-- A run of `gc_v1_repo` with its local variables.  Whether it has removed anything is
    noted for the proofs only. -/
structure GcRun (Id : Type) where
  online : Bool
  dryRun : Bool
  rmFs : Bool
  stage : Stage Id
  existBlocks : Finset Id
  existFs : Finset Id
  index : GCIndex
  data : GCData Id
  virtualRepos : List (GCData Id)
  trans : Option GcId
  failed : Bool
  removed : Bool

/-- The garbage collector: it loads the library before it calls `gc_v1_repo`. -/
inductive GcProc (Id : Type)
  | idle
  | loaded (repo : Repo Id) (online dryRun rmFs : Bool)
  | running (run : GcRun Id)

/-- A writer: the GC id it has read, and the objects it has found or stored since. -/
structure Writer (Id : Type) where
  repo : RepoId
  lastGcId : Option GcId
  fs : Finset Id
  blocks : Finset Id

/-- The creation of a virtual library: the directory it is for, and whether its row is in
    the table. -/
structure Creator (Id : Type) where
  dirId : Id
  baseCommit : Id
  saved : Bool

structure Sys (Id : Type) [ObjectId Id] where
  store : ObjectStore Id
  commits : CommitStore Id
  branch : RepoId → Option Id
  virtualRepos : List (VirtRepo Id)
  gcId : Option GcId
  /-- all GC ids generated so far -/
  issued : List GcId
  gc : GcProc Id
  writers : ℕ → Option (Writer Id)
  creators : RepoId → Option (Creator Id)

/-- What does not change: the library, how much history is kept, the hash of the Bloom filters, and
    a bound for the traversals. -/
structure GcEnv (Id : Type) where
  library : RepoId
  truncateTime : RepoId → ℤ
  sha256 : Id → ℕ → UInt64
  fuel : ℕ

/-- The transaction of the garbage collector holds the lock of the `GCID` row. -/
def Sys.locked (s : Sys Id) : Bool :=
  match s.gc with
  | .running run => run.trans.isSome
  | _ => false

/-! ## The garbage collector -/

section Collector

variable (env : GcEnv Id) (s : Sys Id)

def populateGcIndexForRepo (index : GCIndex) (data : GCData Id) : Option (GCIndex × GCData Id) :=
  traverseCommitTree (s.commits.get data.repo.id)
    (traverseCommit env.sha256 s.store.fs env.fuel) env.fuel data.repo.head (index, data)

/-- `populate_gc_index_for_repo_for_new_commits`, after the GC id has been written. -/
def populateGcIndexForRepoForNewCommits (index : GCIndex) (data : GCData Id) :
    Option (GCIndex × GCData Id) := do
  let newHead ← s.branch data.repo.id
  if data.repo.head = newHead then
    return (index, data)
  else
    traverseCommitTree (s.commits.get data.repo.id)
      (traverseCommit env.sha256 s.store.fs env.fuel) env.fuel newHead (index, data)

/-- The rows `seaf_repo_manager_get_virtual_repo_ids_by_origin` finds: a query that fails
    finds none. -/
def virtualRows (dbOk : Bool) : List (VirtRepo Id) := if dbOk then s.virtualRepos else []

/-- `populate_gc_index_for_base_commit`: a row that cannot be read is passed over. -/
def populateGcIndexForBaseCommit (rows : List (VirtRepo Id)) (infoOk : RepoId → Bool)
    (index : GCIndex) (data : GCData Id) : Option (GCIndex × GCData Id) :=
  rows.foldlM (fun x vinfo =>
    if infoOk vinfo.repoId then
      traverseCommitTree (s.commits.get data.repo.id)
        (traverseBaseCommit env.sha256 s.store.fs env.fuel) env.fuel vinfo.baseCommit x
    else some x) (index, data)

/-- `seaf_repo_manager_get_repo` -/
def getRepo (v : RepoId) (isVirtual : Bool) : Option (Repo Id) := do
  let head ← s.branch v
  let _ ← s.commits.get v head
  return ⟨v, head, isVirtual⟩

/-- The end of a run that has not committed: a transaction is rolled back. -/
def Sys.out : Sys Id := { s with gc := .idle }

def Sys.goOn (run : GcRun Id) : Sys Id := { s with gc := .running run }

/-- The start of `gc_v1_repo`: list the objects and allocate the index. -/
def collectExist (repo : Repo Id) (online dryRun rmFs : Bool) : Sys Id :=
  let existBlocks := s.store.blocks
  let existFs := if rmFs then s.store.fsIds else ∅
  let index := do
    let blocks ← allocGcIndex existBlocks.card.toUInt64
    let fs ← if 0 < existFs.card then (allocGcIndex existFs.card.toUInt64).map some
      else some none
    return GCIndex.mk blocks fs
  if env.truncateTime repo.id < 0 ∨ existBlocks.card = 0 then s.out
  else match index with
    | none => s.out
    | some index => s.goOn ⟨online, dryRun, rmFs, .main, existBlocks, existFs, index,
        gcDataNew repo (env.truncateTime repo.id), [], none, false, false⟩

end Collector

/-- The steps of the garbage collector, with the answers of the database and of the storage. -/
inductive GcEvent (Id : Type)
  | load (online dryRun rmFs : Bool)
  | collect
  | populate
  | listVirtual (dbOk : Bool)
  | populateVirtual
  | baseCommits (dbOk : Bool) (infoOk : RepoId → Bool)
  | begin (gcId : Option GcId)
  | newCommits
  | newCommitsVirtual
  | checkBlock (b : Id) (ok : Bool)
  | blocksDone
  | checkFs (id : Id) (ok : Bool)
  | fsDone
  | commit (ok : Bool)

/-- The body of `gc_v1_repo` from the first traversal on. -/
def runStep (env : GcEnv Id) (s : Sys Id) (run : GcRun Id) : GcEvent Id → Option (Sys Id)
  | .populate => match run.stage with
    | .main => some <| match populateGcIndexForRepo env s run.index run.data with
      | none => s.out
      | some (index, data) =>
        s.goOn { run with index := index, data := data, stage := .listVirtual }
    | _ => none
  | .listVirtual dbOk => match run.stage with
    | .listVirtual => some <| s.goOn
        { run with stage := .virtuals ((virtualRows s dbOk).map VirtRepo.repoId) }
    | _ => none
  | .populateVirtual => match run.stage with
    | .virtuals [] => some <| s.goOn { run with stage := if run.rmFs then .base else .begin }
    | .virtuals (v :: todo) => some <| match getRepo s v true with
      | none => s.out
      | some vrepo =>
        match populateGcIndexForRepo env s run.index (gcDataNew vrepo (env.truncateTime v)) with
        | none => s.out
        | some (index, data) => s.goOn { run with
            index := index, virtualRepos := data :: run.virtualRepos, stage := .virtuals todo }
    | _ => none
  | .baseCommits dbOk infoOk => match run.stage with
    | .base => some <|
      match populateGcIndexForBaseCommit env s (virtualRows s dbOk) infoOk run.index run.data with
      | none => s.out
      | some (index, data) => s.goOn { run with index := index, data := data, stage := .begin }
    | _ => none
  | .begin gcId => match run.stage with
    | .begin =>
      if !run.online then some <| s.goOn { run with stage := .newCommits }
      else match gcId with
        | none => some s.out
        | some gcId => if gcId ∈ s.issued then none
          else some <| { s with issued := gcId :: s.issued }.goOn
            { run with trans := some gcId, stage := .newCommits }
    | _ => none
  | .newCommits => match run.stage with
    | .newCommits => some <|
      match populateGcIndexForRepoForNewCommits env s run.index run.data with
      | none => s.out
      | some (index, data) => s.goOn { run with
          index := index, data := data, stage := .newVirtuals run.virtualRepos }
    | _ => none
  | .newCommitsVirtual => match run.stage with
    | .newVirtuals [] => some <| s.goOn { run with stage := .blocks }
    | .newVirtuals (data :: todo) => some <|
      match populateGcIndexForRepoForNewCommits env s run.index data with
      | none => s.out
      | some (index, _) => s.goOn { run with index := index, stage := .newVirtuals todo }
    | _ => none
  | .checkBlock b ok => match run.stage with
    | .blocks =>
      if b ∉ run.existBlocks then none
      else
        let run := { run with existBlocks := run.existBlocks.erase b }
        if run.index.hasBlock env.sha256 b || run.dryRun then some (s.goOn run)
        else if ok then some <|
          { s with store := s.store.removeBlock b }.goOn { run with removed := true }
        else some <| s.goOn { run with failed := true }
    | _ => none
  | .blocksDone => match run.stage with
    | .blocks =>
      if run.existBlocks ≠ ∅ then none
      else if run.failed then some s.out
      else some <| s.goOn { run with stage := if run.index.fs.isSome then .fs else .finish }
    | _ => none
  | .checkFs id ok => match run.stage with
    | .fs =>
      if id ∉ run.existFs then none
      else
        let run := { run with existFs := run.existFs.erase id }
        if run.index.hasFs env.sha256 id || run.dryRun then some (s.goOn run)
        else if ok then some <|
          { s with store := s.store.removeFs id }.goOn { run with removed := true }
        else some <| s.goOn { run with failed := true }
    | _ => none
  | .fsDone => match run.stage with
    | .fs =>
      if run.existFs ≠ ∅ then none
      else if run.failed then some s.out
      else some <| s.goOn { run with stage := .finish }
    | _ => none
  | .commit ok => match run.stage with
    | .finish => some <| match run.trans with
      | some gcId => if ok then { s with gcId := some gcId }.out else s.out
      | none => s.out
    | _ => none
  | _ => none

/-- One step of the garbage collector; `none` where the event cannot happen. -/
def gcStep (env : GcEnv Id) (s : Sys Id) (e : GcEvent Id) : Option (Sys Id) :=
  match s.gc, e with
  | .idle, .load online dryRun rmFs => (getRepo s env.library false).map fun repo =>
      { s with gc := .loaded repo online dryRun rmFs }
  | .loaded repo online dryRun rmFs, .collect => some (collectExist env s repo online dryRun rmFs)
  | .running run, e => runStep env s run e
  | _, _ => none

/-! ## Writers and new virtual libraries -/

/-- `seaf_fs_manager_get_seafdir_id_by_path` -/
def Server.getSeafdirIdByPath (st : FsStore Id) (rootId : Id) (path : Name) : Option Id := do
  let (id, mode) ← found (Server.pathToObjId st rootId path)
  if sIsDir mode then some id else none

def Sys.headCommit (s : Sys Id) (r : RepoId) : Option (Commit Id) :=
  s.branch r >>= s.commits.get r

/-- Each object and block of the tree was found or stored since the GC id was read, or belongs to
    the head that the commit is based on. -/
structure Vouched (s : Sys Id) (w : Writer Id) (oldRoot root : Id) : Prop where
  fs : ∀ id, id ≠ emptySha1 → s.store.fs.Reach root id → id ∈ w.fs ∨ s.store.fs.Reach oldRoot id
  blocks : ∀ id, id ≠ emptySha1 → s.store.fs.Reach root id → ∀ b ∈ s.store.fs.blocksOf id,
    b ∈ w.blocks ∨ ∃ id', id' ≠ emptySha1 ∧ s.store.fs.Reach oldRoot id' ∧
      b ∈ s.store.fs.blocksOf id'

inductive Event (Id : Type)
  | gc (e : GcEvent Id)
  | readGcId (w : ℕ) (repo : RepoId)
  | checkBlock (w : ℕ) (b : Id)
  | putBlock (w : ℕ) (b : Id)
  | saveFs (w : ℕ) (o : FsObj Id)
  | publish (w : ℕ) (c : Commit Id)
  | openDir (v : RepoId) (path : Name)
  | saveInfo (v : RepoId)
  | createRepo (v : RepoId) (c : Commit Id)

inductive Step (env : GcEnv Id) (s : Sys Id) : Event Id → Sys Id → Prop
  | gc {e : GcEvent Id} {s' : Sys Id} : gcStep env s e = some s' → Step env s (.gc e) s'
  /-- `seaf_repo_get_current_gc_id`: a virtual library has the row of its origin. -/
  | readGcId {w : ℕ} {repo : RepoId} : (s.branch repo).isSome → Step env s (.readGcId w repo)
      { s with writers := Function.update s.writers w (some ⟨repo, s.gcId, ∅, ∅⟩) }
  /-- A block that exists is not stored again. -/
  | checkBlock {n : ℕ} {w : Writer Id} {b : Id} : s.writers n = some w → b ∈ s.store.blocks →
      Step env s (.checkBlock n b) { s with
        writers := Function.update s.writers n (some { w with blocks := insert b w.blocks }) }
  | putBlock {n : ℕ} {w : Writer Id} {b : Id} : s.writers n = some w →
      Step env s (.putBlock n b) { s with
        store := s.store.putBlock b
        writers := Function.update s.writers n (some { w with blocks := insert b w.blocks }) }
  | saveFs {n : ℕ} {w : Writer Id} {o : FsObj Id} (ho : o.Nonempty) : s.writers n = some w →
      Step env s (.saveFs n o) { s with
        store := s.store.putFs o ho
        writers := Function.update s.writers n (some { w with fs := insert (sha1 o) w.fs }) }
  /-- `test_and_update_branch`, `updateBranch`: under the row lock the GC id is the one read
      before, and the branch is moved from the head the commit is based on. -/
  | publish {n : ℕ} {w : Writer Id} {c old : Commit Id} : s.writers n = some w →
      s.locked = false → w.lastGcId = s.gcId → s.headCommit w.repo = some old →
      (∀ c', s.commits.get w.repo c.commitId = some c' → c' = c) →
      Vouched s w old.rootId c.rootId →
      Step env s (.publish n c) { s with
        commits := s.commits.add w.repo c
        branch := Function.update s.branch w.repo (some c.commitId) }
  /-- `create_virtual_repo_common` reads the head of the library and looks the directory up. -/
  | openDir {v : RepoId} {path : Name} {head : Commit Id} {dirId : Id} :
      s.branch v = none → s.creators v = none → (∀ row ∈ s.virtualRepos, row.repoId ≠ v) →
      s.headCommit env.library = some head →
      Server.getSeafdirIdByPath s.store.fs head.rootId path = some dirId →
      Step env s (.openDir v path) { s with
        creators := Function.update s.creators v (some ⟨dirId, head.commitId, false⟩) }
  /-- `save_virtual_repo_info` -/
  | saveInfo {v : RepoId} {x : Creator Id} : s.creators v = some x → x.saved = false →
      Step env s (.saveInfo v) { s with
        virtualRepos := s.virtualRepos ++ [⟨v, x.baseCommit⟩]
        creators := Function.update s.creators v (some { x with saved := true }) }
  /-- `do_create_virtual_repo` -/
  | createRepo {v : RepoId} {x : Creator Id} {c : Commit Id} : s.creators v = some x →
      x.saved = true → c.rootId = x.dirId → c.parents = [] → s.commits.get v c.commitId = none →
      Step env s (.createRepo v c) { s with
        commits := s.commits.add v c
        branch := Function.update s.branch v (some c.commitId)
        creators := Function.update s.creators v none }

end CloudFile
