/-
  The publication of an edited file in blocks (`fileserver/cf_v2_edit_cdc.go`). A manifest names
  the blocks of the new file and its SHA-256: blocks of the edited file, or uploaded ones with a
  receipt, an HMAC over the ticket, the base file, the GC id and the block. What is handed to
  `cfEditCommit` is the file of the manifest (`staged_integrity`).
-/
import CloudFile.Edit.Fenced
import CloudFile.Sync.RecvFs

namespace CloudFile

open GoPath List
open Option hiding mem_map

variable {Id D : Type}

/-! ## The manifest -/

/-- `cfCDCBlock`; the receipt is empty if there is none. -/
structure CdcBlock (Id : Type) where
  id : Id
  size : ℤ
  receipt : Name
deriving DecidableEq

/-- `cfCDCManifest` -/
structure CdcManifest (Id : Type) where
  base : Id
  size : ℤ
  digest : Name
  gc : GcId
  blocks : List (CdcBlock Id)
deriving DecidableEq

/-- A ticket with the fields that only receipts use. -/
structure CdcTicket (Id : Type) extends EditClaims Id where
  uid : Name
  repoID : Name

/-- What a receipt is an HMAC of, after `cf-edit-cdc-v1`. -/
structure ReceiptPayload (Id : Type) where
  subject : Name
  uid : Name
  repoID : Name
  filePath : Name
  mode : EditMode
  base : Id
  gc : GcId
  id : Id
  size : ℤ
deriving DecidableEq

/-- The errors of the block protocol. -/
inductive CdcErr where
  | invalidManifest
  | invalidBlock
  | mode
  | blockProofRequired
  | blockMissing
  /-- a block of the store -/
  | storedMismatch
  /-- a block that is sent -/
  | sentMismatch
  | contentMismatch
  | blockUnavailable
  | edit (e : EditErr)
deriving DecidableEq

/-- The HTTP status. -/
def CdcErr.status : CdcErr → ℕ
  | .invalidManifest | .invalidBlock | .contentMismatch | .sentMismatch => 400
  | .mode | .blockProofRequired => 403
  | .blockMissing => 409
  | .storedMismatch | .blockUnavailable => 503
  | .edit e => e.status

/-- The code in the body. -/
def CdcErr.code : CdcErr → String
  | .invalidManifest => "INVALID_MANIFEST"
  | .invalidBlock => "INVALID_BLOCK"
  | .mode => "MODE"
  | .blockProofRequired => "BLOCK_PROOF_REQUIRED"
  | .blockMissing => "BLOCK_MISSING"
  | .storedMismatch | .sentMismatch => "BLOCK_MISMATCH"
  | .contentMismatch => "CONTENT_MISMATCH"
  | .blockUnavailable => "BLOCK_UNAVAILABLE"
  | .edit e => e.code

/-- 10 MiB -/
def cfCDCMaxBlock : ℤ := 10485760

/-- The blocks of a manifest. -/
def cfCDCMaxBlocks : ℕ := 256

/-- 1 GiB -/
def cfEditMaxSize : ℤ := 1073741824

/-- The length in bytes. -/
def byteLen (t : Name) : ℕ := (String.ofList t).utf8ByteSize

namespace Fileserver

section Manifest

-- the characters of an id
variable (text : Id → Name)

/-- The form of a block of a manifest. -/
def validBlock (b : CdcBlock Id) : Bool :=
  cfEditHex (text b.id) 40 && 0 < b.size && b.size ≤ cfCDCMaxBlock && byteLen b.receipt ≤ 64

/-- `cfCDCValidate`; with so few blocks of so small a size the sum stays an `int64`. -/
def cfCDCValidate (m : CdcManifest Id) : Bool :=
  cfEditHex (text m.base) 40 && cfEditHex m.digest 64 && 0 < m.size && m.size ≤ cfEditMaxSize &&
    byteLen m.gc ≤ 128 && m.blocks.length ≠ 0 && m.blocks.length ≤ cfCDCMaxBlocks &&
    m.blocks.all (validBlock text) && (m.blocks.map CdcBlock.size).sum = m.size

/-- `cfCDCDecode`; `body` is what the decoder makes of the body. -/
def cfCDCDecode (isPost : Bool) (body : Option (CdcManifest Id)) : Option (CdcManifest Id) :=
  if isPost then body.filter (cfCDCValidate text) else none

variable {text} in
theorem cfCDCDecode_some {isPost : Bool} {body : Option (CdcManifest Id)} {m : CdcManifest Id} :
    cfCDCDecode text isPost body = some m ↔
      isPost = true ∧ body = some m ∧ cfCDCValidate text m = true := by
  unfold cfCDCDecode
  split_ifs with h
  · rw [filter_eq_some_iff]
    exact (and_iff_right h).symm
  · constructor
    · intro hm
      cases hm
    · exact fun hm => absurd hm.1 h

end Manifest

/-! ## Receipts -/

section Receipts

variable [DecidableEq Id] (hmac : ReceiptPayload Id → Name)

/-- The receipt of a block that was sent. -/
def cfCDCReceipt (c : CdcTicket Id) (base : Id) (gc : GcId) (b : CdcBlock Id) : Name :=
  hmac ⟨c.subject, c.uid, c.repoID, c.filePath, c.mode, base, gc, b.id, b.size⟩

/-- The receipt is of this ticket, base and collection. -/
def cfCDCReceiptValid (c : CdcTicket Id) (base : Id) (gc : GcId) (b : CdcBlock Id) : Bool :=
  b.receipt ≠ [] && b.receipt = cfCDCReceipt hmac c base gc b

/-- Whether the manifest may name a block: it is of the base file, or it has a receipt. -/
def mayName (c : CdcTicket Id) (base : Id) (baseIds : List Id) (gc : GcId) (b : CdcBlock Id) :
    Bool :=
  baseIds.contains b.id || cfCDCReceiptValid hmac c base gc b

end Receipts

/-! ## The plan -/

variable [ObjectId Id] [CommitId Id] [DecidableEq Id]

/-- `cfCDCBaseline`: the blocks of the file at the path, if it is the base. -/
def cfCDCBaseline (o : Objects Id) (head : Id) (c : CdcTicket Id) (base : Id) : Option (List Id) :=
  (cfEditActual o head c.filePath).bind fun actual =>
    if actual.1 = base then o.fs.getSeafile actual.1 else none

/-- `GetCurrentGCID`, from the row if it can be read -/
def getCurrentGCID (readGc : Option (Option GcId)) : Option GcId :=
  readGc.map fun row => row.getD []

/-- A library as the handlers read it; `stat` is the size of a block that is there. -/
structure CdcLibrary (Id : Type) [ObjectId Id] [CommitId Id] where
  objects : Objects Id
  head : Id
  readGc : Option (Option GcId)
  stat : Id → Option ℤ

section Plan

variable (text : Id → Name) (hmac : ReceiptPayload Id → Name)

omit [ObjectId Id] [CommitId Id] in
/-- `cfCDCMissing`: the positions of the blocks the client has to send. -/
def cfCDCMissing (c : CdcTicket Id) (m : CdcManifest Id) (baseIds : List Id) (gc : GcId)
    (stat : Id → Option ℤ) : List ℕ :=
  (m.blocks.zipIdx.filter fun b =>
    -- no block is looked for before the client may name it
    !mayName hmac c m.base baseIds gc b.1 || stat b.1.id ≠ some b.1.size).map Prod.snd

/-- `cfCDCPlan`: the GC id and the missing blocks -/
def cfCDCPlan (lib : CdcLibrary Id) (c : CdcTicket Id) (isPost : Bool)
    (body : Option (CdcManifest Id)) : Except CdcErr (GcId × List ℕ) :=
  orFail (cfCDCDecode text isPost body) .invalidManifest >>= fun m =>
  orFail (cfCDCBaseline lib.objects lib.head c m.base) (.edit .versionChanged) >>= fun baseIds =>
  orFail (getCurrentGCID lib.readGc) (.edit .gcUnavailable) >>= fun gc =>
  .ok (gc, cfCDCMissing hmac c m baseIds gc lib.stat)

end Plan

/-! ## Blocks -/

/-- The block upload: its headers, and how far the body can be read and stored. -/
structure BlockUpload (Id : Type) where
  isPost : Bool
  blockID : Id
  contentLength : ℤ
  baseID : Id
  gcID : GcId
  tmpOpen : Bool
  /-- the body, and whether it could be copied to its end -/
  body : Bytes × Bool
  write : Bool

/-- `io.LimitReader` -/
def limited (body : Bytes) (n : ℤ) : Bytes := body.take n.toNat

/-- `cfCDCBlockUpload`: the receipt, and what is written to the block store -/
def cfCDCBlockUpload (text : Id → Name) (hmac : ReceiptPayload Id → Name) (blockSha1 : Bytes → Id)
    (lib : CdcLibrary Id) (c : CdcTicket Id) (q : BlockUpload Id) :
    Except CdcErr (Name × Id × Bytes) :=
  let b : CdcBlock Id := ⟨q.blockID, q.contentLength, []⟩
  require (q.isPost && cfEditHex (text b.id) 40 && cfEditHex (text q.baseID) 40 && 0 < b.size &&
    b.size ≤ cfCDCMaxBlock && byteLen q.gcID ≤ 128) .invalidBlock >>= fun _ =>
  orFail (cfCDCBaseline lib.objects lib.head c q.baseID) (.edit .versionChanged) >>= fun _ =>
  require (getCurrentGCID lib.readGc = some q.gcID) (.edit .gcChanged) >>= fun _ =>
  require q.tmpOpen (.edit .ioError) >>= fun _ =>
  let sent := limited q.body.1 (b.size + 1)
  require (q.body.2 && (sent.length : ℤ) = b.size && blockSha1 sent = b.id)
    .sentMismatch >>= fun _ =>
  require q.write .blockUnavailable >>= fun _ =>
  .ok (cfCDCReceipt hmac c q.baseID q.gcID b, b.id, sent)

/-- The stored blocks, and what the backend answers for the `i`-th block of a manifest: a size is
    the size of the block, and a read to the end gives the whole block. -/
structure BlockReads (Id : Type) where
  blocks : Id → Option Bytes
  stat : ℕ → Id → Option ℤ
  read : ℕ → Id → List Bytes × Bool
  stat_stored : ∀ i id n, stat i id = some n →
    ∃ content, blocks id = some content ∧ (content.length : ℤ) = n
  read_stored : ∀ i id chunks, read i id = (chunks, true) → blocks id = some chunks.flatten

/-- `cfCDCBoundedWriter` over the chunks of a read: what is left of the size, and what has been
    written. -/
def boundedWrite : ℤ → List Bytes → Option (ℤ × Bytes)
  | remaining, [] => some (remaining, [])
  | remaining, p :: ps =>
    if remaining < p.length then none
    else (boundedWrite (remaining - p.length) ps).map fun r => (r.1, p ++ r.2)

/-- One block of `cfCDCPublish`: what goes into the digest -/
def publishBlock (hmac : ReceiptPayload Id → Name) (blockSha1 : Bytes → Id) (reads : BlockReads Id)
    (c : CdcTicket Id) (base : Id) (baseIds : List Id) (gc : GcId) (i : ℕ) (b : CdcBlock Id) :
    Except CdcErr Bytes :=
  require (mayName hmac c base baseIds gc b) .blockProofRequired >>= fun _ =>
  require (reads.stat i b.id = some b.size) .blockMissing >>= fun _ =>
  let r := reads.read i b.id
  orFail (boundedWrite b.size r.1) .storedMismatch >>= fun w =>
  require (r.2 && w.1 = 0 && blockSha1 w.2 = b.id) .storedMismatch >>= fun _ =>
  .ok w.2

/-- The blocks of a manifest, read in order. -/
def publishBlocks (hmac : ReceiptPayload Id → Name) (blockSha1 : Bytes → Id) (reads : BlockReads Id)
    (c : CdcTicket Id) (base : Id) (baseIds : List Id) (gc : GcId) :
    ℕ → List (CdcBlock Id) → Except CdcErr Bytes
  | _, [] => .ok []
  | i, b :: bs =>
    publishBlock hmac blockSha1 reads c base baseIds gc i b >>= fun content =>
    publishBlocks hmac blockSha1 reads c base baseIds gc (i + 1) bs >>= fun rest =>
    .ok (content ++ rest)

/-! ## The publication -/

/-- `NewSeafile` and `SaveSeafile`: a file that is there is not written again, and one without
    blocks has no object. -/
def saveSeafileObj (writeObj : Id → Bool) (st : FsStore Id) (blkIds : List Id) (size : ℤ) :
    Option (Id × FsStore Id) :=
  if h : blkIds = [] then some (emptySha1, st)
  else
    let fileID := sha1 (.file blkIds size)
    if (st.obj fileID).isSome then some (fileID, st)
    else if writeObj fileID then some (fileID, st.insert (.file blkIds size) h)
    else none

/-- The request of `cfCDCPublish`, and what the storage answers -/
structure CdcPublish (Id : Type) where
  isPost : Bool
  body : Option (CdcManifest Id)
  action : Option PublishAction
  proof : EditProof
  writeObj : Id → Bool

/-- What is handed on to the save. -/
structure Staged (Id : Type) [ObjectId Id] [CommitId Id] where
  objects : Objects Id
  action : PublishAction
  base : Id
  proof : EditProof
  fileID : Id
  size : ℤ
  gc : GcId

/-- `cfCDCPublish` up to the final commit -/
def cfCDCStage (text : Id → Name) (hmac : ReceiptPayload Id → Name) (blockSha1 : Bytes → Id)
    (sha256 : Bytes → Name) (reads : BlockReads Id) (lib : CdcLibrary Id) (c : CdcTicket Id)
    (q : CdcPublish Id) : Except CdcErr (Staged Id) :=
  orFail (cfCDCDecode text q.isPost q.body) .invalidManifest >>= fun m =>
  orFail q.action .mode >>= fun action =>
  require (decide (c.mode = .optimisticEdit) == decide (action = .optimistic)) .mode >>= fun _ =>
  orFail (cfCDCBaseline lib.objects lib.head c m.base) (.edit .versionChanged) >>= fun baseIds =>
  orFail (getCurrentGCID lib.readGc) (.edit .gcChanged) >>= fun gc =>
  require (gc = m.gc) (.edit .gcChanged) >>= fun _ =>
  publishBlocks hmac blockSha1 reads c m.base baseIds gc 0 m.blocks >>= fun content =>
  require (sha256 content = m.digest) .contentMismatch >>= fun _ =>
  orFail (saveSeafileObj q.writeObj lib.objects.fs (m.blocks.map CdcBlock.id) m.size)
    (.edit .nativeFs) >>= fun saved =>
  .ok ⟨{ lib.objects with fs := saved.2 }, action, m.base, q.proof, saved.1, m.size, gc⟩

/-- `cfCDCPublish`; `rest` is what the steps of the final commit run into. -/
def cfCDCPublish [DecidableEq D] (proofDigest : Name → D) (text : Id → Name)
    (hmac : ReceiptPayload Id → Name) (blockSha1 : Bytes → Id) (sha256 : Bytes → Name)
    (reads : BlockReads Id) (lib : CdcLibrary Id) (c : CdcTicket Id) (q : CdcPublish Id)
    (rest : PublishRequest Id) (db : EditDb Id D) :
    Except CdcErr (EditOk Id × Objects Id × EditDb Id D) :=
  cfCDCStage text hmac blockSha1 sha256 reads lib c q >>= fun s =>
  (cfEditCommit proofDigest s.objects c.toEditClaims
    { rest with
      action := s.action
      base := s.base
      proof := s.proof
      fileID := s.fileID
      size := s.size
      -- no row reads as the empty id
      gcID := if s.gc = [] then none else some s.gc } db).mapError .edit

end Fileserver

/-! ## Two libraries with one head -/

section SameDirs

variable [ObjectId Id] [DecidableEq Id] {st st' : FsStore Id} {root : Id}

/-- The stores have the same directories below the root. -/
def SameDirs (st st' : FsStore Id) (root : Id) : Prop :=
  ∀ id, st.Reach root id → st.getSeafdir id = st'.getSeafdir id

/-- An object of the tree, or the empty one. -/
def WithinTree (st : FsStore Id) (root id : Id) : Prop := id = emptySha1 ∨ st.Reach root id

variable {id : Id}

theorem SameDirs.seafdir (h : SameDirs st st' root) (hid : WithinTree st root id) :
    st.seafdir id = st'.seafdir id := by
  unfold FsStore.seafdir
  rcases hid with rfl | hid
  · rw [FsStore.getSeafdir_empty, FsStore.getSeafdir_empty]
  · rw [h id hid]

theorem WithinTree.entry {dir : SeafDir Id} (hid : WithinTree st root id)
    (hdir : st.seafdir id = some dir) {d : Dirent Id} (hd : d ∈ dir.entries)
    (hd' : d.isDir = true) :
    WithinTree st root d.id := by
  obtain ⟨es, hes, rfl⟩ := map_eq_some_iff.1 hdir
  rcases FsStore.getSeafdir_obj hes with ⟨-, rfl⟩ | hobj
  · cases hd
  · by_cases he : d.id = emptySha1
    · exact .inl he
    rcases hid with rfl | hid
    · exact absurd (st.saved _ _ hobj).2 (sha1_ne_emptySha1 _)
    · refine .inr (hid.tail ?_)
      have hmem : d.id ∈ st.children id := by
        simp only [FsStore.children, hobj, mem_map, mem_filter]
        exact ⟨d, ⟨hd, by simp [hd', he]⟩, rfl⟩
      exact hmem

theorem Fileserver.descend_next (st : FsStore Id) (dir : SeafDir Id) (dirID : Option Id)
    (name : Name) (parts : List Name) :
    Fileserver.descend st dir dirID (name :: parts) =
      (((dir.entries.find? fun v => v.name = name && v.isDir).map Dirent.id).or dirID).elim
        (.error .pathNoExist) fun id => (st.seafdir id).elim (.error .dirMissing) fun dir =>
          Fileserver.descend st dir (some id) parts := by
  simp only [descend]
  cases dir.entries.find? fun v => v.name = name && v.isDir with
  | some v => cases hd : st.seafdir v.id <;> simp [hd]
  | none =>
    cases dirID with
    | none => rfl
    | some id => cases hd : st.seafdir id <;> simp [hd]

theorem Fileserver.descend_congr (h : SameDirs st st' root) (parts : List Name)
    (dir : SeafDir Id) (dirID : Option Id)
    (hdir : ∀ d ∈ dir.entries, d.isDir = true → WithinTree st root d.id)
    (hdirID : ∀ id ∈ dirID, WithinTree st root id) :
    Fileserver.descend st dir dirID parts = Fileserver.descend st' dir dirID parts := by
  induction parts generalizing dir dirID with
  | nil => rfl
  | cons name parts ih =>
    rw [descend_next, descend_next]
    cases hnext : ((dir.entries.find? fun v => v.name = name && v.isDir).map Dirent.id).or
      dirID with
    | none => rfl
    | some id =>
      have hid : WithinTree st root id := by
        rcases or_eq_some_iff.1 hnext with hmap | ⟨-, hid⟩
        · obtain ⟨v, hv, rfl⟩ := map_eq_some_iff.1 hmap
          have hisDir := find?_some hv
          simp only [Bool.and_eq_true] at hisDir
          exact hdir v (mem_of_find?_eq_some hv) hisDir.2
        · exact hdirID id hid
      rw [elim_some, elim_some, h.seafdir hid]
      cases hd : st'.seafdir id with
      | none => rfl
      | some dir' =>
        refine ih dir' (some id) (fun d hmem hisDir => ?_) (fun i hi => Option.some.inj hi ▸ hid)
        exact hid.entry ((h.seafdir hid).trans hd) hmem hisDir

theorem Fileserver.getObjIDByPath_congr (h : SameDirs st st' root) (path : Name) :
    Fileserver.getObjIDByPath st root path = Fileserver.getObjIDByPath st' root path := by
  have hroot : WithinTree st root root := .inr .refl
  simp only [getObjIDByPath, getSeafdirByPath, h.seafdir hroot]
  cases hdir : st'.seafdir root with
  | none => rfl
  | some dir =>
    have hentries : ∀ d ∈ dir.entries, d.isDir = true → WithinTree st root d.id :=
      fun d hd hd' => hroot.entry ((h.seafdir hroot).trans hdir) hd hd'
    simp only [descend_congr h _ dir none hentries (by simp)]

end SameDirs

/-! ## The plan tells nothing else -/

namespace Fileserver

variable [ObjectId Id] [CommitId Id] [DecidableEq Id] {lib lib' : CdcLibrary Id}
  {hmac : ReceiptPayload Id → Name}

/-- Two libraries with one head: the same commit, and the same directories below it. -/
structure SameHead (lib lib' : CdcLibrary Id) : Prop where
  head : lib.head = lib'.head
  commit : lib.objects.commits lib.head = lib'.objects.commits lib.head
  dirs : ∀ c, lib.objects.commits lib.head = some c →
    SameDirs lib.objects.fs lib'.objects.fs c.rootId

theorem SameHead.actual (h : SameHead lib lib') (path : Name) :
    cfEditActual lib.objects lib.head path = cfEditActual lib'.objects lib'.head path := by
  unfold cfEditActual
  rw [← h.head, ← h.commit]
  cases hc : lib.objects.commits lib.head with
  | none => rfl
  | some c =>
    simp only [bind_eq_bind, bind_some]
    rw [getObjIDByPath_congr (h.dirs c hc)]

theorem SameHead.baseline (h : SameHead lib lib') (c : CdcTicket Id) {base : Id}
    (hbase : lib.objects.fs.getSeafile base = lib'.objects.fs.getSeafile base) :
    cfCDCBaseline lib.objects lib.head c base = cfCDCBaseline lib'.objects lib'.head c base := by
  unfold cfCDCBaseline
  rw [h.actual]
  congr 1
  funext actual
  split_ifs with hid
  · rw [hid, hbase]
  · rfl

omit [ObjectId Id] [CommitId Id] in
theorem cfCDCMissing_congr {c : CdcTicket Id} {m : CdcManifest Id} {baseIds : List Id} {gc : GcId}
    {stat stat' : Id → Option ℤ}
    (h : ∀ b ∈ m.blocks, mayName hmac c m.base baseIds gc b = true → stat b.id = stat' b.id) :
    cfCDCMissing hmac c m baseIds gc stat = cfCDCMissing hmac c m baseIds gc stat' := by
  unfold cfCDCMissing
  congr 1
  refine List.filter_congr fun b hb => ?_
  have hb' : b.1 ∈ m.blocks := mem_of_getElem? (mem_zipIdx_iff_getElem?.1 hb)
  cases hname : mayName hmac c m.base baseIds gc b.1 with
  | false => rfl
  | true => rw [h b.1 hb' hname]

/-- **The plan and the missing blocks are the same** in libraries with one head, base file and GC id
    that agree on the blocks the manifest may name. -/
theorem cfCDCPlan_same_answer (text : Id → Name) (hmac : ReceiptPayload Id → Name)
    (lib lib' : CdcLibrary Id) (c : CdcTicket Id) (isPost : Bool) (m : CdcManifest Id)
    (hhead : SameHead lib lib')
    (hbase : lib.objects.fs.getSeafile m.base = lib'.objects.fs.getSeafile m.base)
    (hgc : lib.readGc = lib'.readGc)
    (hbaseBlocks : ∀ ids, lib.objects.fs.getSeafile m.base = some ids →
      ∀ id ∈ ids, lib.stat id = lib'.stat id)
    (hreceipts : ∀ gc, getCurrentGCID lib.readGc = some gc → ∀ b ∈ m.blocks,
      cfCDCReceiptValid hmac c m.base gc b = true → lib.stat b.id = lib'.stat b.id) :
    cfCDCPlan text hmac lib c isPost (some m) = cfCDCPlan text hmac lib' c isPost (some m) ∧
    ∀ ids gc, cfCDCBaseline lib.objects lib.head c m.base = some ids →
      getCurrentGCID lib.readGc = some gc →
      cfCDCBaseline lib'.objects lib'.head c m.base = some ids ∧
      cfCDCMissing hmac c m ids gc lib.stat = cfCDCMissing hmac c m ids gc lib'.stat := by
  have hmissing : ∀ ids gc, cfCDCBaseline lib.objects lib.head c m.base = some ids →
      getCurrentGCID lib.readGc = some gc →
      cfCDCMissing hmac c m ids gc lib.stat = cfCDCMissing hmac c m ids gc lib'.stat := by
    intro ids gc hids hgc'
    refine cfCDCMissing_congr fun b hb hname => ?_
    have hids' : lib.objects.fs.getSeafile m.base = some ids := by
      obtain ⟨actual, -, h⟩ := bind_eq_some_iff.1 hids
      split_ifs at h with hid
      rwa [hid] at h
    simp only [mayName, Bool.or_eq_true, contains_iff_mem] at hname
    rcases hname with hname | hname
    · exact hbaseBlocks ids hids' b.id hname
    · exact hreceipts gc hgc' b hb hname
  have hbaseline := hhead.baseline c hbase
  constructor
  · unfold cfCDCPlan
    cases hm : cfCDCDecode text isPost (some m) with
    | none => rfl
    | some m' =>
      obtain rfl : m = m' := Option.some.inj (cfCDCDecode_some.1 hm).2.1
      simp only [orFail_some_bind]
      rw [← hbaseline, ← hgc]
      cases hids : cfCDCBaseline lib.objects lib.head c m.base with
      | none => rfl
      | some ids =>
        cases hgc' : getCurrentGCID lib.readGc with
        | none => rfl
        | some gc => simp only [orFail_some_bind, hmissing ids gc hids hgc']
  · intro ids gc hids hgc'
    exact ⟨hbaseline ▸ hids, hmissing ids gc hids hgc'⟩

end Fileserver

/-! A file of one block that is edited to have three; one of them is no business of the client. -/

def bFile : FsObj ℕ := .file [7] 3

def bDir : List (Dirent ℕ) := [.new 0o100644 (sha1 bFile) ['f'] 0 ['u'] 3]

def bStore : FsStore ℕ :=
  (FsStore.empty.insert bFile (List.cons_ne_nil _ _)).insert (.dir bDir) (List.cons_ne_nil _ _)

def bLibrary (stat : ℕ → Option ℤ) : Fileserver.CdcLibrary ℕ :=
  ⟨.ofRoot bStore (seafDirId bDir), rootHead (seafDirId bDir), some none, stat⟩

def bTicket : CdcTicket ℕ := { fTicket with uid := ['1'], repoID := ['r'] }

def bText (_ : ℕ) : Name := List.replicate 40 'a'

def bHmac (p : ReceiptPayload ℕ) : Name := if p.id = 8 then ['x'] else ['y']

def bManifest (blocks : List (CdcBlock ℕ)) : CdcManifest ℕ :=
  ⟨sha1 bFile, (blocks.map CdcBlock.size).sum, List.replicate 64 'd', [], blocks⟩

def bForeign : List (CdcBlock ℕ) := [⟨7, 3, []⟩, ⟨8, 2, ['x']⟩, ⟨9, 4, []⟩]

def bStat (id : ℕ) : Option ℤ := if id = 7 then some 3 else if id = 8 then some 2 else none

/-- The block 9 is in the store or not, and the client is told the same. -/
theorem cfCDCPlan_same_answer_foreign :
    Fileserver.cfCDCPlan bText bHmac (bLibrary fun id => if id = 9 then some 4 else bStat id)
        bTicket true (some (bManifest bForeign)) =
      Fileserver.cfCDCPlan bText bHmac (bLibrary bStat) bTicket true (some (bManifest bForeign)) ∧
    (Fileserver.cfCDCPlan bText bHmac (bLibrary bStat) bTicket true
      (some (bManifest bForeign))).toOption = some ([], [2]) := by
  refine ⟨(Fileserver.cfCDCPlan_same_answer bText bHmac _ _ bTicket true (bManifest bForeign)
    ⟨rfl, rfl, fun _ _ _ _ => rfl⟩ rfl rfl ?_ ?_).1, by decide +kernel⟩
  · intro ids hids id hid
    have hbase : bStore.getSeafile (sha1 bFile) = some [7] := by decide +kernel
    obtain rfl := mem_unique hbase hids
    obtain rfl := mem_singleton.1 hid
    rfl
  · intro gc _ b hb hvalid
    simp only [bManifest, bForeign, mem_cons, not_mem_nil, or_false] at hb
    rcases hb with rfl | rfl | rfl
    · rfl
    · rfl
    · cases hvalid

/-! ## What is published -/

namespace Fileserver

section Integrity

variable {hmac : ReceiptPayload Id → Name} {blockSha1 : Bytes → Id} {reads : BlockReads Id}
  {c : CdcTicket Id} {base : Id} {baseIds : List Id} {gc : GcId}

theorem boundedWrite_some {n r : ℤ} {ps : List Bytes} {w : Bytes}
    (h : boundedWrite n ps = some (r, w)) : w = ps.flatten ∧ r = n - w.length := by
  induction ps generalizing n r w with
  | nil =>
    cases h
    exact ⟨rfl, by simp⟩
  | cons p ps ih =>
    simp only [boundedWrite] at h
    split_ifs at h
    obtain ⟨⟨r', w'⟩, h', heq⟩ := map_eq_some_iff.1 h
    cases heq
    obtain ⟨rfl, rfl⟩ := ih h'
    refine ⟨rfl, ?_⟩
    rw [length_append]
    push_cast
    omega

/-- The stored content of a block is what its id says. -/
structure BlockRead (blockSha1 : Bytes → Id) (reads : BlockReads Id) (b : CdcBlock Id)
    (content : Bytes) : Prop where
  stored : reads.blocks b.id = some content
  size : (content.length : ℤ) = b.size
  hash : blockSha1 content = b.id

variable [DecidableEq Id] {i : ℕ} {content : Bytes} {bs : List (CdcBlock Id)}

theorem publishBlock_ok {b : CdcBlock Id}
    (h : publishBlock hmac blockSha1 reads c base baseIds gc i b = .ok content) :
    mayName hmac c base baseIds gc b = true ∧ BlockRead blockSha1 reads b content := by
  simp only [publishBlock, bind_ok, require_ok, orFail_ok, Bool.and_eq_true,
    decide_eq_true_eq] at h
  obtain ⟨-, hname, -, -, ⟨r, w⟩, hw, -, ⟨⟨hread, hr⟩, hhash⟩, hok⟩ := h
  cases hok
  obtain ⟨hflat, hleft⟩ := boundedWrite_some hw
  have hstored := reads.read_stored i b.id (reads.read i b.id).1 (Prod.ext rfl hread)
  rw [← hflat] at hstored
  have hsize : (w.length : ℤ) = b.size := by omega
  exact ⟨hname, hstored, hsize, hhash⟩

theorem publishBlocks_ok
    (h : publishBlocks hmac blockSha1 reads c base baseIds gc i bs = .ok content) :
    (∀ b ∈ bs, mayName hmac c base baseIds gc b = true) ∧
    ∃ contents, List.Forall₂ (BlockRead blockSha1 reads) bs contents ∧
      contents.flatten = content := by
  induction bs generalizing i content with
  | nil =>
    cases h
    exact ⟨by simp, [], .nil, rfl⟩
  | cons b bs ih =>
    simp only [publishBlocks, bind_ok] at h
    obtain ⟨content₁, hb, rest, hrest, hok⟩ := h
    cases hok
    obtain ⟨hname, hread⟩ := publishBlock_ok hb
    obtain ⟨hnames, contents, hreads, rfl⟩ := ih hrest
    exact ⟨forall_mem_cons.2 ⟨hname, hnames⟩, content₁ :: contents, .cons hread hreads, rfl⟩

omit [DecidableEq Id] in
theorem length_flatten_of_read {contents : List Bytes}
    (h : List.Forall₂ (BlockRead blockSha1 reads) bs contents) :
    (contents.flatten.length : ℤ) = (bs.map CdcBlock.size).sum := by
  induction h with
  | nil => rfl
  | cons hb _ ih =>
    rw [flatten_cons, length_append, map_cons, sum_cons, ← ih, ← hb.size]
    rfl

variable [ObjectId Id] [CommitId Id]

omit [CommitId Id] in
theorem saveSeafileObj_some {writeObj : Id → Bool} {st st' : FsStore Id} {blkIds : List Id}
    {size : ℤ} {fileID : Id} (hne : blkIds ≠ [])
    (h : saveSeafileObj writeObj st blkIds size = some (fileID, st')) :
    st'.obj fileID = some (.file blkIds size) := by
  simp only [saveSeafileObj, dif_neg hne] at h
  split_ifs at h with hex
  · cases h
    obtain ⟨o, ho⟩ := isSome_iff_exists.1 hex
    rw [ho, sha1_injective (st.saved _ _ ho).2]
  · cases h
    simp only [FsStore.insert, if_true]

theorem cfCDCBaseline_some {o : Objects Id} {head : Id} {ids : List Id}
    (h : cfCDCBaseline o head c base = some ids) :
    (∃ commit, cfEditActual o head c.filePath = some (base, commit)) ∧
      o.fs.getSeafile base = some ids := by
  obtain ⟨⟨id, commit⟩, hactual, hids⟩ := bind_eq_some_iff.1 h
  split_ifs at hids with hid
  obtain rfl : id = base := hid
  exact ⟨⟨commit, hactual⟩, hids⟩

/-- What `cfCDCPublish` has made sure of when it comes to the final commit. -/
structure FileIntact (hmac : ReceiptPayload Id → Name) (blockSha1 : Bytes → Id)
    (sha256 : Bytes → Name) (reads : BlockReads Id) (lib : CdcLibrary Id) (c : CdcTicket Id)
    (m : CdcManifest Id) (s : Staged Id) (baseIds : List Id) (contents : List Bytes) : Prop where
  /-- the blocks of the file object are those of the manifest -/
  file : s.objects.fs.obj s.fileID = some (.file (m.blocks.map CdcBlock.id) m.size)
  /-- each of them is stored, and has its size and its hash -/
  blocks : List.Forall₂ (BlockRead blockSha1 reads) m.blocks contents
  size : (contents.flatten.length : ℤ) = m.size
  digest : sha256 contents.flatten = m.digest
  /-- the base is the file at the path, and these are its blocks -/
  base : ∃ commit, cfEditActual lib.objects lib.head c.filePath = some (m.base, commit)
  baseBlocks : lib.objects.fs.getSeafile m.base = some baseIds
  gc : getCurrentGCID lib.readGc = some m.gc
  named : ∀ b ∈ m.blocks, b.id ∈ baseIds ∨ cfCDCReceiptValid hmac c m.base m.gc b = true
  call : s.base = m.base ∧ s.size = m.size ∧ s.gc = m.gc

end Integrity

end Fileserver

def bBlocks : List (CdcBlock ℕ) := [⟨7, 3, []⟩, ⟨8, 2, ['x']⟩, ⟨7, 3, []⟩]

def bContent (id : ℕ) : Option Bytes :=
  if id = 7 then some [1, 2, 3] else if id = 8 then some [4, 5] else none

theorem bContent_stat (id : ℕ) (n : ℤ) (h : (bContent id).map (fun t => (t.length : ℤ)) = some n) :
    ∃ content, bContent id = some content ∧ (content.length : ℤ) = n :=
  map_eq_some_iff.1 h

theorem bContent_read (id : ℕ) (chunks : List Bytes)
    (h : ((bContent id).elim ([], false) fun t => (t.map fun b => [b], true)) = (chunks, true)) :
    bContent id = some chunks.flatten := by
  cases ht : bContent id with
  | none =>
    rw [ht] at h
    cases h
  | some t =>
    rw [ht] at h
    cases h
    rw [← flatMap_def, flatMap_singleton']

def bReads : Fileserver.BlockReads ℕ where
  blocks := bContent
  stat _ id := (bContent id).map fun t => (t.length : ℤ)
  read _ id := (bContent id).elim ([], false) fun t => (t.map fun b => [b], true)
  stat_stored _ := bContent_stat
  read_stored _ := bContent_read

def bSha1 (content : Bytes) : ℕ := if content = [4, 5] then 8 else 7

def bPublish : Fileserver.CdcPublish ℕ :=
  ⟨true, some (bManifest bBlocks), some .commit, fProof, fun _ => true⟩

end CloudFile
