/-
  What the uploads of sync clients do to the object stores (`fileserver/sync_api.go`,
  `server/http-server.c`). No handler compares an id with the bytes sent under it; a commit that
  is there is not written again, but an fs object or a block is. Stored objects keep their bytes
  exactly when each write finds no others.
-/
import CloudFile.Fs.Object
import CloudFile.Store.Backend
import CloudFile.Sync.RecvFs

namespace CloudFile

open List Option

/-! ## The model -/

inductive ObjType where
  | commits
  | fs
  | blocks
deriving DecidableEq

structure ObjKey (Repo : Type) where
  objType : ObjType
  repoID : Repo
  objID : Bytes
deriving DecidableEq

/-- A write: the object, and its bytes. -/
abbrev Put (Repo : Type) := ObjKey Repo × Bytes

abbrev Stores (Repo : Type) := Disk (ObjKey Repo) Bytes

/-- What is read from the JSON of a commit, and what it is written back as. -/
structure CommitData (Repo : Type) where
  commitID : Bytes
  repoID : Repo
  json : Bytes

inductive Host where
  | fileserver
  | server
deriving DecidableEq

/-- What a request sends, with the calls its write runs into. -/
inductive Sent where
  | putCommit (commitID data : Bytes) (probe : ProbeCalls) (calls : WriteCalls)
  | recvFs (body : Bytes) (write : RawObject → Except String Unit)
  | sendBlock (blockID data : Bytes) (calls : WriteCalls)

/-- A request to a library; `admitted` says that the token is valid and its user may upload. -/
structure Request (Repo : Type) where
  host : Host
  repoID : Repo
  admitted : Bool
  sent : Sent

/-- What the handlers get from elsewhere. -/
structure SyncEnv (Repo : Type) where
  /-- `getRepoStoreID`, `get_repo_store_id`: the origin of a virtual library, else the library -/
  storeID : Repo → Repo
  fromData : Bytes → Option (CommitData Repo)
  /-- `seaf_commit_from_data`, which takes the id from the URL -/
  commitFromData : Bytes → Bytes → Option (CommitData Repo)

section

variable {Repo : Type} [DecidableEq Repo]

/-- The states while objects are written one after the other. -/
def storeAll (disk : Stores Repo) : List (Put Repo) → List (Stores Repo)
  | [] => []
  | w :: ws =>
    Function.update disk w.1 (some w.2) :: storeAll (Function.update disk w.1 (some w.2)) ws

/-- The objects of a body, below the store of the library. -/
def putsOf (storeID : Repo) (written : List RawObject) : List (Put Repo) :=
  written.map fun obj => (⟨.fs, storeID, obj.id⟩, obj.data)

namespace Fileserver

/-- `putCommitCB`; the id is the one in the JSON. -/
def putCommitCB (env : SyncEnv Repo) (repoID : Repo) (disk : Stores Repo) (data : Bytes)
    (probe : ProbeCalls) (calls : WriteCalls) : List (Stores Repo) :=
  match env.fromData data with
  | none => []
  | some commit =>
    if commit.repoID ≠ repoID then []
    else [(saveCommit disk ⟨.commits, repoID, commit.commitID⟩ (some commit.json) probe calls).1]

/-- The states `recvFSCB` goes through. -/
def recvStates (env : SyncEnv Repo) (repoID : Repo) (disk : Stores Repo) (body : Bytes)
    (write : RawObject → Except String Unit) : List (Stores Repo) :=
  match recvFSCB write body with
  | none => []
  | some r => storeAll disk (putsOf (env.storeID repoID) r.written)

def putSendBlockCB (env : SyncEnv Repo) (repoID : Repo) (disk : Stores Repo)
    (blockID data : Bytes) (calls : WriteCalls) : List (Stores Repo) :=
  [(Fileserver.write disk ⟨.blocks, env.storeID repoID, blockID⟩ data false calls).1]

def handle (env : SyncEnv Repo) (repoID : Repo) (disk : Stores Repo) : Sent → List (Stores Repo)
  | .putCommit _ data probe calls => putCommitCB env repoID disk data probe calls
  | .recvFs body write => recvStates env repoID disk body write
  | .sendBlock blockID data calls => putSendBlockCB env repoID disk blockID data calls

end Fileserver

namespace Server

def putCommitCb (env : SyncEnv Repo) (repoID : Repo) (disk : Stores Repo) (commitID data : Bytes)
    (probe : ProbeCalls) (calls : WriteCalls) : List (Stores Repo) :=
  if data = [] then []
  else match env.commitFromData commitID data with
    | none => []
    | some commit =>
      if commit.repoID ≠ repoID then []
      else [(saveCommit disk ⟨.commits, repoID, commit.commitID⟩ commit.json probe calls).1]

/-- The states `post_recv_fs_cb` goes through. -/
def recvStates (env : SyncEnv Repo) (repoID : Repo) (disk : Stores Repo) (body : Bytes)
    (write : RawObject → Except String Unit) : List (Stores Repo) :=
  match postRecvFsCb write body with
  | none => []
  | some r => storeAll disk (putsOf (env.storeID repoID) r.written)

/-- `block_backend_fs_open_block`, `_write_block`, `_close_block` and `_commit_block` -/
def writeBlock (disk : Stores Repo) (key : ObjKey Repo) (data : Bytes) (c : WriteCalls) :
    Stores Repo × Failed :=
  publish disk key data [c.resolve, c.createTemp, c.copy, c.close, c.mkdir, c.rename] []

def putSendBlockCb (env : SyncEnv Repo) (repoID : Repo) (disk : Stores Repo)
    (blockID data : Bytes) (calls : WriteCalls) : List (Stores Repo) :=
  if data = [] then []
  else if isObjectIDValid blockID = false then []
  else [(writeBlock disk ⟨.blocks, env.storeID repoID, blockID⟩ data calls).1]

def handle (env : SyncEnv Repo) (repoID : Repo) (disk : Stores Repo) : Sent → List (Stores Repo)
  | .putCommit commitID data probe calls => putCommitCb env repoID disk commitID data probe calls
  | .recvFs body write => recvStates env repoID disk body write
  | .sendBlock blockID data calls => putSendBlockCb env repoID disk blockID data calls

end Server

/-- The states a request takes the stores through. -/
def Request.states (env : SyncEnv Repo) (disk : Stores Repo) (r : Request Repo) :
    List (Stores Repo) :=
  if r.admitted then
    match r.host with
    | .fileserver => Fileserver.handle env r.repoID disk r.sent
    | .server => Server.handle env r.repoID disk r.sent
  else []

def lastState (disk : Stores Repo) (states : List (Stores Repo)) : Stores Repo :=
  states.getLastD disk

/-- The states a sequence of requests takes the stores through. -/
def uploadStates (env : SyncEnv Repo) (disk : Stores Repo) :
    List (Request Repo) → List (Stores Repo)
  | [] => []
  | r :: rs => r.states env disk ++ uploadStates env (lastState disk (r.states env disk)) rs

/-! ## What a path reads as -/

section

variable (parse : Bytes → Option (FsObj Bytes)) (zeroID : Bytes)

/-- What there is at a path: the entries of a directory, or the bytes of a file. -/
inductive PathContent where
  | listing (entries : List (Dirent Bytes))
  | bytes (data : Bytes)

def readDir (disk : Stores Repo) (storeID : Repo) (id : Bytes) : Option (List (Dirent Bytes)) :=
  if id = zeroID then some []
  else ((disk ⟨.fs, storeID, id⟩).bind parse).bind fun
    | .dir entries => some entries
    | .file _ _ => none

def readFile (disk : Stores Repo) (storeID : Repo) (id : Bytes) : Option Bytes :=
  if id = zeroID then some []
  else ((disk ⟨.fs, storeID, id⟩).bind parse).bind fun
    | .dir _ => none
    | .file blkIds _ => (blkIds.mapM fun blk => disk ⟨.blocks, storeID, blk⟩).map List.flatten

def readPath (disk : Stores Repo) (storeID : Repo) (id : Bytes) : List Name → Option PathContent
  | [] => (readDir parse zeroID disk storeID id).map .listing
  | name :: path => (readDir parse zeroID disk storeID id).bind fun entries =>
    (findDirent name entries).bind fun d =>
      if d.isDir then readPath disk storeID d.id path
      else if path = [] then (readFile parse zeroID disk storeID d.id).map .bytes
      else none

end

/-! ## Kept objects -/

/-- The objects of `s` are in `s'`, with their bytes. -/
def Keeps (s s' : Stores Repo) : Prop := ∀ key data, s key = some data → s' key = some data

def KeepsAll : Stores Repo → List (Stores Repo) → Prop
  | _, [] => True
  | s, s' :: states => Keeps s s' ∧ KeepsAll s' states

/-- The object that is written is new, or has the same bytes. -/
def Fresh (disk : Stores Repo) (w : Put Repo) : Prop := ∀ data, disk w.1 = some data → data = w.2

def FreshAll (disk : Stores Repo) : List (Put Repo) → Prop
  | [] => True
  | w :: ws => Fresh disk w ∧ FreshAll (Function.update disk w.1 (some w.2)) ws

def WriteCalls.Renames (c : WriteCalls) (needSync : Bool) : Prop :=
  c.resolve = none ∧ c.mkdir = none ∧ c.createTemp = none ∧ c.copy = none ∧
    (needSync = true → exceptEinval c.sync = none) ∧ c.close = none ∧ c.rename = none

/-- What a request to the Go server writes is new, or has the bytes that are there. -/
def Fileserver.Harmless (env : SyncEnv Repo) (repoID : Repo) (disk : Stores Repo) : Sent → Prop
  | .putCommit _ data probe calls => ∀ commit, env.fromData data = some commit →
      commit.repoID = repoID →
      (exists? disk ⟨.commits, repoID, commit.commitID⟩ probe).1 = false → calls.Renames false →
      Fresh disk (⟨.commits, repoID, commit.commitID⟩, commit.json)
  | .recvFs body write => ∀ r, recvFSCB write body = some r →
      FreshAll disk (putsOf (env.storeID repoID) r.written)
  | .sendBlock blockID data calls => calls.Renames false →
      Fresh disk (⟨.blocks, env.storeID repoID, blockID⟩, data)

def Server.Harmless (env : SyncEnv Repo) (repoID : Repo) (disk : Stores Repo) : Sent → Prop
  | .putCommit commitID data probe calls => data ≠ [] →
      ∀ commit, env.commitFromData commitID data = some commit → commit.repoID = repoID →
      objExists disk ⟨.commits, repoID, commit.commitID⟩ probe = false → calls.Renames true →
      Fresh disk (⟨.commits, repoID, commit.commitID⟩, commit.json)
  | .recvFs body write => ∀ r, postRecvFsCb write body = some r →
      FreshAll disk (putsOf (env.storeID repoID) r.written)
  | .sendBlock blockID data calls => data ≠ [] → isObjectIDValid blockID = true →
      calls.Renames false → Fresh disk (⟨.blocks, env.storeID repoID, blockID⟩, data)

def Request.Harmless (env : SyncEnv Repo) (disk : Stores Repo) (r : Request Repo) : Prop :=
  r.admitted = true → match r.host with
    | .fileserver => Fileserver.Harmless env r.repoID disk r.sent
    | .server => Server.Harmless env r.repoID disk r.sent

/-- Every request is harmless in the state it finds. -/
def HarmlessRun (env : SyncEnv Repo) (disk : Stores Repo) : List (Request Repo) → Prop
  | [] => True
  | r :: rs => r.Harmless env disk ∧ HarmlessRun env (lastState disk (r.states env disk)) rs

/-! ### One write -/

section

variable {disk s s' s'' : Stores Repo} {key : ObjKey Repo} {data : Bytes} {c : WriteCalls}
  {needSync : Bool}

omit [DecidableEq Repo] in
theorem Keeps.refl (s : Stores Repo) : Keeps s s := fun _ _ h => h

omit [DecidableEq Repo] in
theorem Keeps.trans (h : Keeps s s') (h' : Keeps s' s'') : Keeps s s'' :=
  fun key data hdata => h' key data (h key data hdata)

theorem keeps_update :
    Keeps disk (Function.update disk key (some data)) ↔ Fresh disk (key, data) := by
  constructor
  · intro h old hold
    have hnew := h key old hold
    rw [Function.update_self] at hnew
    exact (Option.some.inj hnew).symm
  · intro h key' old hold
    by_cases heq : key' = key
    · subst heq
      rw [Function.update_self, h old hold]
    · rw [Function.update_of_ne heq, hold]

theorem keeps_publish {before after : List Failed} :
    Keeps disk (publish disk key data before after).1 ↔
      (before.findSome? id = none → Fresh disk (key, data)) := by
  unfold publish
  split
  next err hbefore => simp [hbefore, Keeps.refl]
  next hbefore => simp [hbefore, keeps_update]

theorem Fileserver.keeps_write :
    Keeps disk (Fileserver.write disk key data needSync c).1 ↔
      (c.Renames needSync → Fresh disk (key, data)) := by
  rw [write, keeps_publish]
  cases needSync <;> simp [WriteCalls.Renames]

theorem Server.keeps_writeObj :
    Keeps disk (Server.writeObj disk key data needSync c).1 ↔
      (c.Renames needSync → Fresh disk (key, data)) := by
  rw [writeObj, keeps_publish]
  cases needSync <;> simp [WriteCalls.Renames]

theorem Server.keeps_writeBlock :
    Keeps disk (Server.writeBlock disk key data c).1 ↔
      (c.Renames false → Fresh disk (key, data)) := by
  rw [writeBlock, keeps_publish]
  have hcalls : [c.resolve, c.createTemp, c.copy, c.close, c.mkdir, c.rename].findSome? id = none ↔
      c.Renames false := by
    simp only [findSome?_eq_none_iff, WriteCalls.Renames]
    simp
    tauto
  rw [hcalls]

theorem keepsAll_storeAll (ws : List (Put Repo)) :
    KeepsAll disk (storeAll disk ws) ↔ FreshAll disk ws := by
  induction ws generalizing disk with
  | nil => exact Iff.rfl
  | cons w ws ih => exact and_congr keeps_update ih

omit [DecidableEq Repo] in
theorem keepsAll_singleton : KeepsAll s [s'] ↔ Keeps s s' := and_iff_left trivial

/-! ### One request, and a run -/

variable {env : SyncEnv Repo} {repoID : Repo} {commitID : Bytes} {probe : ProbeCalls}
  {calls : WriteCalls}

theorem Fileserver.keepsAll_putCommitCB :
    KeepsAll disk (Fileserver.putCommitCB env repoID disk data probe calls) ↔
      Fileserver.Harmless env repoID disk (.putCommit commitID data probe calls) := by
  unfold putCommitCB Harmless
  cases hcommit : env.fromData data with
  | none => simp [hcommit, KeepsAll]
  | some commit =>
    by_cases hrepo : commit.repoID = repoID
    · cases hexists : (exists? disk ⟨.commits, repoID, commit.commitID⟩ probe).1 with
      | true =>
        simp [hcommit, hrepo, keepsAll_singleton, saveCommit, saveObject,
          hexists, Keeps.refl]
      | false =>
        simp [hcommit, hrepo, keepsAll_singleton, saveCommit, saveObject,
          hexists, keeps_write]
    · simp [hcommit, hrepo, KeepsAll]

theorem Fileserver.keepsAll_handle (sent : Sent) :
    KeepsAll disk (Fileserver.handle env repoID disk sent) ↔
      Fileserver.Harmless env repoID disk sent := by
  cases sent with
  | putCommit commitID data probe calls => exact keepsAll_putCommitCB
  | recvFs body write =>
    rw [handle, recvStates, Harmless]
    cases recvFSCB write body with
    | none => simp [KeepsAll]
    | some r => simp [keepsAll_storeAll]
  | sendBlock blockID data calls => exact keepsAll_singleton.trans keeps_write

theorem Server.keepsAll_putCommitCb :
    KeepsAll disk (Server.putCommitCb env repoID disk commitID data probe calls) ↔
      Server.Harmless env repoID disk (.putCommit commitID data probe calls) := by
  unfold putCommitCb Harmless
  by_cases hdata : data = []
  · simp [hdata, KeepsAll]
  cases hcommit : env.commitFromData commitID data with
  | none => simp [hdata, hcommit, KeepsAll]
  | some commit =>
    by_cases hrepo : commit.repoID = repoID
    · cases hexists : objExists disk ⟨.commits, repoID, commit.commitID⟩ probe with
      | true =>
        simp [hdata, hcommit, hrepo, keepsAll_singleton, saveCommit,
          saveUnlessThere, hexists, Keeps.refl]
      | false =>
        simp [hdata, hcommit, hrepo, keepsAll_singleton, saveCommit,
          saveUnlessThere, hexists, keeps_writeObj]
    · simp [hdata, hcommit, hrepo, KeepsAll]

theorem Server.keepsAll_handle (sent : Sent) :
    KeepsAll disk (Server.handle env repoID disk sent) ↔ Server.Harmless env repoID disk sent := by
  cases sent with
  | putCommit commitID data probe calls => exact keepsAll_putCommitCb
  | recvFs body write =>
    rw [handle, recvStates, Harmless]
    cases postRecvFsCb write body with
    | none => simp [KeepsAll]
    | some r => simp [keepsAll_storeAll]
  | sendBlock blockID data calls =>
    rw [handle, putSendBlockCb, Harmless]
    by_cases hdata : data = []
    · simp [hdata, KeepsAll]
    cases hid : isObjectIDValid blockID with
    | false => simp [hdata, KeepsAll]
    | true => simp [hdata, keepsAll_singleton, keeps_writeBlock]

variable (env : SyncEnv Repo)

theorem Request.keepsAll_states (r : Request Repo) :
    KeepsAll disk (r.states env disk) ↔ r.Harmless env disk := by
  unfold Request.states Request.Harmless
  cases r.admitted with
  | false => simp [KeepsAll]
  | true =>
    cases r.host with
    | fileserver => simp [Fileserver.keepsAll_handle]
    | server => simp [Server.keepsAll_handle]

omit [DecidableEq Repo] in
theorem keepsAll_append (xs ys : List (Stores Repo)) :
    KeepsAll s (xs ++ ys) ↔ KeepsAll s xs ∧ KeepsAll (lastState s xs) ys := by
  induction xs generalizing s with
  | nil => exact (and_iff_right trivial).symm
  | cons x xs ih =>
    have hlast : lastState s (x :: xs) = lastState x xs := getLastD_cons ..
    rw [cons_append, KeepsAll, KeepsAll, ih, hlast, and_assoc]

theorem keepsAll_uploadStates (rs : List (Request Repo)) :
    KeepsAll disk (uploadStates env disk rs) ↔ HarmlessRun env disk rs := by
  induction rs generalizing disk with
  | nil => exact Iff.rfl
  | cons r rs ih => rw [uploadStates, keepsAll_append, r.keepsAll_states env, ih, HarmlessRun]

omit [DecidableEq Repo] in
theorem keepsAll_iff_pairwise (states : List (Stores Repo)) :
    KeepsAll s states ↔ List.Pairwise Keeps (s :: states) := by
  induction states generalizing s with
  | nil => simp [KeepsAll]
  | cons s' states ih =>
    rw [KeepsAll, ih, pairwise_cons (a := s)]
    constructor
    · rintro ⟨hkeeps, hall⟩
      refine ⟨forall_mem_cons.mpr ⟨hkeeps, fun t ht => ?_⟩, hall⟩
      exact hkeeps.trans ((pairwise_cons.mp hall).1 t ht)
    · rintro ⟨hs, hall⟩
      exact ⟨hs s' mem_cons_self, hall⟩

/-! ### Reading paths -/

omit [DecidableEq Repo] in
theorem readBlocks_mono {storeID : Repo} (h : Keeps s s') {blkIds : List Bytes}
    {contents : List Bytes}
    (hs : blkIds.mapM (fun blk => s ⟨.blocks, storeID, blk⟩) = some contents) :
    blkIds.mapM (fun blk => s' ⟨.blocks, storeID, blk⟩) = some contents := by
  induction blkIds generalizing contents with
  | nil => exact hs
  | cons blk blkIds ih =>
    simp only [mapM_cons, bind_eq_bind, bind_eq_some_iff] at hs ⊢
    obtain ⟨content, hblk, contents', hrest, hcontents⟩ := hs
    exact ⟨content, h _ _ hblk, contents', ih hrest, hcontents⟩

section

variable {parse : Bytes → Option (FsObj Bytes)} {zeroID id : Bytes} {storeID : Repo}

section

omit [DecidableEq Repo]

theorem readDir_mono (h : Keeps s s') {entries : List (Dirent Bytes)}
    (hs : readDir parse zeroID s storeID id = some entries) :
    readDir parse zeroID s' storeID id = some entries := by
  unfold readDir at hs ⊢
  by_cases hzero : id = zeroID
  · rwa [if_pos hzero] at hs ⊢
  · rw [if_neg hzero] at hs ⊢
    obtain ⟨obj, hobj, hentries⟩ := bind_eq_some_iff.mp hs
    obtain ⟨data, hdata, hparse⟩ := bind_eq_some_iff.mp hobj
    rw [h _ _ hdata, bind_some, hparse, bind_some, hentries]

theorem readFile_mono (h : Keeps s s') (hs : readFile parse zeroID s storeID id = some data) :
    readFile parse zeroID s' storeID id = some data := by
  unfold readFile at hs ⊢
  by_cases hzero : id = zeroID
  · rwa [if_pos hzero] at hs ⊢
  · rw [if_neg hzero] at hs ⊢
    obtain ⟨obj, hobj, hfile⟩ := bind_eq_some_iff.mp hs
    obtain ⟨raw, hraw, hparse⟩ := bind_eq_some_iff.mp hobj
    rw [h _ _ hraw, bind_some, hparse, bind_some]
    cases obj with
    | dir entries => cases hfile
    | file blkIds size =>
      obtain ⟨contents, hcontents, hdata⟩ := map_eq_some_iff.mp hfile
      exact map_eq_some_iff.mpr ⟨contents, readBlocks_mono h hcontents, hdata⟩

theorem readPath_mono (h : Keeps s s') {path : List Name} {content : PathContent}
    (hs : readPath parse zeroID s storeID id path = some content) :
    readPath parse zeroID s' storeID id path = some content := by
  induction path generalizing id with
  | nil =>
    obtain ⟨entries, hentries, hcontent⟩ := map_eq_some_iff.mp hs
    exact map_eq_some_iff.mpr ⟨entries, readDir_mono h hentries, hcontent⟩
  | cons name path ih =>
    obtain ⟨entries, hentries, hrest⟩ := bind_eq_some_iff.mp hs
    obtain ⟨d, hd, hcontent⟩ := bind_eq_some_iff.mp hrest
    refine bind_eq_some_iff.mpr ⟨entries, readDir_mono h hentries, ?_⟩
    refine bind_eq_some_iff.mpr ⟨d, hd, ?_⟩
    by_cases hdir : d.isDir = true
    · rw [if_pos hdir] at hcontent ⊢
      exact ih hcontent
    · rw [if_neg hdir] at hcontent ⊢
      by_cases hpath : path = []
      · rw [if_pos hpath] at hcontent ⊢
        obtain ⟨data, hdata, hbytes⟩ := map_eq_some_iff.mp hcontent
        exact map_eq_some_iff.mpr ⟨data, readFile_mono h hdata, hbytes⟩
      · rw [if_neg hpath] at hcontent
        cases hcontent

end

end

end

/-- Along uploads the stored objects keep their bytes, and the paths read the same, exactly if each
    request only writes objects that are new or have the bytes sent. -/
theorem stored_objects_kept_iff (env : SyncEnv Repo) (parse : Bytes → Option (FsObj Bytes))
    (zeroID : Bytes) (disk : Stores Repo) (rs : List (Request Repo)) :
    List.Pairwise Keeps (disk :: uploadStates env disk rs) ∧
      (∀ s ∈ uploadStates env disk rs, ∀ storeID root path content,
        readPath parse zeroID disk storeID root path = some content →
        readPath parse zeroID s storeID root path = some content) ↔
    HarmlessRun env disk rs := by
  rw [← keepsAll_uploadStates, keepsAll_iff_pairwise]
  refine and_iff_left_of_imp fun hkept s hs storeID root path content hread => ?_
  exact readPath_mono ((pairwise_cons.mp hkept).1 s hs) hread

end

/-! A client of the virtual library 1 of library 0 replaces a directory of library 0. -/

def replacedID : Bytes := List.replicate 40 49

def sharedEnv : SyncEnv ℕ := ⟨fun _ => 0, fun _ => none, fun _ _ => none⟩

def originDisk : Stores ℕ := fun key => if key = ⟨.fs, 0, replacedID⟩ then some [1] else none

def replacingUpload : Request ℕ :=
  ⟨.fileserver, 1, true, .recvFs (replacedID ++ [0, 0, 0, 1] ++ [2]) stored⟩

theorem upload_replaces_object :
    ¬ List.Pairwise Keeps (originDisk :: uploadStates sharedEnv originDisk [replacingUpload]) := by
  intro hkept
  have hafter : (uploadStates sharedEnv originDisk [replacingUpload]).map
      (fun s => s ⟨.fs, 0, replacedID⟩) = [some [2]] := by decide +kernel
  obtain ⟨s, hs⟩ : ∃ s, uploadStates sharedEnv originDisk [replacingUpload] = [s] :=
    length_eq_one_iff.mp (by simpa using congrArg List.length hafter)
  rw [hs] at hafter hkept
  have hsame := (pairwise_cons.mp hkept).1 s mem_cons_self ⟨.fs, 0, replacedID⟩ [1]
    (by decide)
  simp [hsame] at hafter

end CloudFile
