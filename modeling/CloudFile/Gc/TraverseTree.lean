/-
  The index of live objects and the traversal of a tree that fills it (`server/gc/gc-core.c`,
  `common/fs-mgr.c`). A marked object is not gone into again. `Closed`: every marked object is in
  the index, and the objects below it are marked; so everything reachable from a traversed root is
  there (`Covered`).
-/
import CloudFile.Fs.Object
import CloudFile.Gc.Bloom
import CloudFile.Lib.Reach

namespace CloudFile

open Marking List Option

variable {Id : Type} [ObjectId Id] [DecidableEq Id]

/-! ## Reachable objects -/

namespace FsStore

/-- The objects that the entries of a directory lead to; the empty ones have no object. -/
def children (st : FsStore Id) (id : Id) : List Id :=
  match st.obj id with
  | some (.dir es) =>
    (es.filter fun e => (e.isReg || e.isDir) && decide (e.id ≠ emptySha1)).map Dirent.id
  | _ => []

def blocksOf (st : FsStore Id) (id : Id) : List Id :=
  match st.obj id with
  | some (.file blkIds _) => blkIds
  | _ => []

/-- The object is stored, or it is the empty object, which never is. -/
def Has (st : FsStore Id) (id : Id) : Prop := id = emptySha1 ∨ (st.obj id).isSome

def Child (st : FsStore Id) (a b : Id) : Prop := b ∈ st.children a

def Reach (st : FsStore Id) : Id → Id → Prop := Relation.ReflTransGen st.Child

end FsStore

/-! ## The index -/

/-- The Bloom filters of a GC run; objects of the file system have one only if they are
    removed too. -/
structure GCIndex where
  blocks : Bloom
  fs : Option Bloom

/-- What a traversal updates: the index, and the objects visited so far. -/
structure Marks (Id : Type) where
  index : GCIndex
  visited : List Id

section Traversal

variable (sha256 : Id → ℕ → UInt64) (st : FsStore Id)

def addBlocksToIndex (index : GCIndex) (fileId : Id) : Option GCIndex := do
  let blkIds ← st.getSeafile fileId
  return { index with blocks := blkIds.foldl (bloomAdd sha256) index.blocks }

def addFsToIndex (index : GCIndex) (fileId : Id) : GCIndex :=
  { index with fs := index.fs.map fun bloom => bloomAdd sha256 bloom fileId }

/-- `fs_callback`: the new marks, and whether to stop. -/
def fsCallback (m : Marks Id) (objId : Id) (isFile : Bool) : Option (Marks Id × Bool) :=
  if objId ∈ m.visited then some (m, true)
  else
    let index := addFsToIndex sha256 m.index objId
    if isFile then
      (addBlocksToIndex sha256 st index objId).map fun index => (⟨index, objId :: m.visited⟩, false)
    else some (⟨index, objId :: m.visited⟩, false)

def traverseFile (m : Marks Id) (id : Id) : Option (Marks Id) :=
  if id = emptySha1 then some m else (fsCallback sha256 st m id true).map Prod.fst

/-- `traverse_dir`; the fuel bounds the depth of the recursion. -/
def traverseDir : ℕ → Marks Id → Id → Option (Marks Id)
  | 0, _, _ => none
  | fuel + 1, m, id => do
    let (m, stop) ← fsCallback sha256 st m id false
    if stop then return m
    let entries ← st.getSeafdir id
    entries.foldlM (fun m e =>
      if e.isReg then traverseFile sha256 st m e.id
      else if e.isDir then traverseDir fuel m e.id
      else some m) m

/-- `seaf_fs_manager_traverse_tree` -/
def traverseTree (fuel : ℕ) (m : Marks Id) (rootId : Id) : Option (Marks Id) :=
  if rootId = emptySha1 then some m else traverseDir sha256 st fuel m rootId

end Traversal

/-! ## What the index has -/

section Index

variable (sha256 : Id → ℕ → UInt64)

namespace GCIndex

def hasBlock (index : GCIndex) (id : Id) : Bool := bloomTest sha256 index.blocks id

/-- Without a filter for file system objects none of them is removed. -/
def hasFs (index : GCIndex) (id : Id) : Bool := index.fs.all fun bloom => bloomTest sha256 bloom id

structure Extends (index index' : GCIndex) : Prop where
  blocks : ∀ id : Id, index.hasBlock sha256 id = true → index'.hasBlock sha256 id = true
  fs : ∀ id : Id, index.hasFs sha256 id = true → index'.hasFs sha256 id = true

variable {sha256} {index index' index'' : GCIndex}

section

omit [ObjectId Id] [DecidableEq Id]

theorem Extends.refl : index.Extends sha256 index := ⟨fun _ h => h, fun _ h => h⟩

theorem Extends.trans (h : index.Extends sha256 index') (h' : index'.Extends sha256 index'') :
    index.Extends sha256 index'' :=
  ⟨fun id hid => h'.blocks id (h.blocks id hid), fun id hid => h'.fs id (h.fs id hid)⟩

end

end GCIndex

/-- The index keeps the object and its blocks. -/
structure Kept (st : FsStore Id) (index : GCIndex) (id : Id) : Prop where
  has : st.Has id
  fs : index.hasFs sha256 id = true
  blocks : ∀ b ∈ st.blocksOf id, index.hasBlock sha256 b = true

/-- The index keeps all objects reachable from a root. -/
def Covered (st : FsStore Id) (index : GCIndex) (root : Id) : Prop :=
  ∀ id, id ≠ emptySha1 → st.Reach root id → Kept sha256 st index id

/-- The marked objects are kept by the index, and what they lead to is marked. -/
def Marks.Closed (st : FsStore Id) (m : Marks Id) : Prop :=
  Marking.Closed st.Child (Kept sha256 st m.index) {id | id ∈ m.visited}

end Index

section Lemmas

variable {sha256 : Id → ℕ → UInt64} {st st' : FsStore Id} {index index' : GCIndex}

omit [ObjectId Id] [DecidableEq Id] in
theorem addFsToIndex_extends (sha256 : Id → ℕ → UInt64) (index : GCIndex) (id : Id) :
    index.Extends sha256 (addFsToIndex sha256 index id) ∧
      (addFsToIndex sha256 index id).hasFs sha256 id = true := by
  cases hfs : index.fs with
  | none => exact ⟨⟨fun _ h => h, by simp [GCIndex.hasFs, addFsToIndex, hfs]⟩,
      by simp [GCIndex.hasFs, addFsToIndex, hfs]⟩
  | some bloom =>
    refine ⟨⟨fun _ h => h, fun b hb => ?_⟩, ?_⟩
    · simpa [GCIndex.hasFs, addFsToIndex, hfs] using
        bloomTest_mono sha256 bloom id (by simpa [GCIndex.hasFs, hfs] using hb)
    · simpa [GCIndex.hasFs, addFsToIndex, hfs] using bloomTest_bloomAdd sha256 bloom id

variable {id : Id}

theorem addBlocksToIndex_extends (h : addBlocksToIndex sha256 st index id = some index') :
    index.Extends sha256 index' ∧ ∃ blkIds, st.getSeafile id = some blkIds ∧
      ∀ b ∈ blkIds, index'.hasBlock sha256 b = true := by
  obtain ⟨blkIds, hget, h⟩ := bind_eq_some_iff.1 h
  cases h
  obtain ⟨hall, hkeep⟩ := foldl_bloomAdd sha256 index.blocks blkIds
  exact ⟨⟨hkeep, fun _ h => h⟩, blkIds, hget, hall⟩

theorem getSeafile_obj {blkIds : List Id} (h : st.getSeafile id = some blkIds)
    (hid : id ≠ emptySha1) : ∃ size, st.obj id = some (.file blkIds size) := by
  unfold FsStore.getSeafile at h
  rw [if_neg hid] at h
  split at h
  · next size ho => cases h; exact ⟨size, ho⟩
  · cases h

omit [DecidableEq Id] in
theorem obj_emptySha1 (st : FsStore Id) : st.obj emptySha1 = none := by
  cases h : st.obj emptySha1 with
  | none => rfl
  | some o => exact absurd (st.saved _ o h).2 (sha1_ne_emptySha1 o)

theorem mem_children {b : Id} {es : List (Dirent Id)} (h : st.getSeafdir id = some es)
    (hb : b ∈ st.children id) :
    b ≠ emptySha1 ∧ ∃ e ∈ es, (e.isReg = true ∨ e.isDir = true) ∧ e.id = b := by
  unfold FsStore.children at hb
  rcases FsStore.getSeafdir_obj h with ⟨rfl, rfl⟩ | ho
  · simp [obj_emptySha1] at hb
  · rw [ho] at hb
    obtain ⟨e, he, rfl⟩ := mem_map.1 hb
    simp only [mem_filter, Bool.and_eq_true, Bool.or_eq_true, decide_eq_true_eq] at he
    exact ⟨he.2.2, e, he.1, he.2.1, rfl⟩

omit [DecidableEq Id] in
theorem Kept.extends (h : Kept sha256 st index id) (he : index.Extends sha256 index') :
    Kept sha256 st index' id :=
  ⟨h.has, he.fs id h.fs, fun b hb => he.blocks b (h.blocks b hb)⟩

/-! ## Traversals -/

/-- What a traversal does to the marks. -/
structure Traversed (sha256 : Id → ℕ → UInt64) (st : FsStore Id) (m m' : Marks Id) : Prop where
  extends_ : m.index.Extends sha256 m'.index
  grows : Grows st.Child (Kept sha256 st m'.index) ∅ {id | id ∈ m.visited} {id | id ∈ m'.visited}

variable {m m' m'' : Marks Id}

theorem Traversed.refl : Traversed sha256 st m m := ⟨.refl, .refl⟩

section

variable (h : Traversed sha256 st m m')
include h

theorem Traversed.trans (h' : Traversed sha256 st m' m'') :
    Traversed sha256 st m m'' :=
  ⟨h.extends_.trans h'.extends_, h.grows.trans (fun _ hk => hk.extends h'.extends_) (by simp)
    h'.grows⟩

theorem Traversed.mem (hid : id ∈ m.visited) :
    id ∈ m'.visited :=
  h.grows.sub hid

theorem Traversed.closed (hm : m.Closed sha256 st) :
    m'.Closed sha256 st :=
  hm.grow (fun _ hk => hk.extends h.extends_) h.grows

end

omit [ObjectId Id] [DecidableEq Id] in
theorem setOf_mem_cons (a : Id) (l : List Id) : {x | x ∈ a :: l} = insert a {x | x ∈ l} := by
  ext x
  simp

theorem fsCallback_visited (h : id ∈ m.visited) (isFile : Bool) :
    fsCallback sha256 st m id isFile = some (m, true) := by
  simp [fsCallback, h]

theorem traverseFile_spec (h : traverseFile sha256 st m id = some m') :
    Traversed sha256 st m m' ∧ (id ≠ emptySha1 → id ∈ m'.visited) := by
  unfold traverseFile at h
  split_ifs at h with hid
  · cases h
    exact ⟨.refl, fun hne => absurd hid hne⟩
  · by_cases hvisited : id ∈ m.visited
    · rw [fsCallback_visited hvisited] at h
      cases h
      exact ⟨.refl, fun _ => hvisited⟩
    · simp only [fsCallback, if_neg hvisited, if_true, Option.map_map] at h
      obtain ⟨index, hadd, rfl⟩ := map_eq_some_iff.1 h
      obtain ⟨hfs, hhas⟩ := addFsToIndex_extends sha256 m.index id
      obtain ⟨hext, blkIds, hget, hblocks⟩ := addBlocksToIndex_extends hadd
      obtain ⟨size, hobj⟩ := getSeafile_obj hget hid
      have hkept : Kept sha256 st index id := by
        refine ⟨.inr (by simp [hobj]), hext.fs id hhas, ?_⟩
        simpa [FsStore.blocksOf, hobj] using hblocks
      have hleaf : ∀ b, ¬ st.Child id b := by simp [FsStore.Child, FsStore.children, hobj]
      refine ⟨⟨hfs.trans hext, ?_⟩, fun _ => mem_cons_self⟩
      simp only [Function.comp_apply, setOf_mem_cons]
      exact .insert hkept fun b hb => absurd hb (hleaf b)

theorem foldlM_traverse {f : Marks Id → Id → Option (Marks Id)}
    (hf : ∀ {m m' id}, f m id = some m' → Traversed sha256 st m m' ∧ id ∈ m'.visited)
    (es : List (Dirent Id))
    (h : es.foldlM (fun m e => if e.isReg then traverseFile sha256 st m e.id else if e.isDir then f
      m e.id else some m) m = some m') :
    Traversed sha256 st m m' ∧ ∀ e ∈ es, e.isReg = true ∨ e.isDir = true → e.id ≠ emptySha1 →
      e.id ∈ m'.visited := by
  induction es generalizing m with
  | nil =>
    cases h
    exact ⟨.refl, by simp⟩
  | cons e es ih =>
    rw [foldlM_cons] at h
    obtain ⟨m₁, hm₁, h⟩ := bind_eq_some_iff.1 h
    obtain ⟨hrest, hmem⟩ := ih h
    have hfirst : Traversed sha256 st m m₁ ∧ (e.isReg = true ∨ e.isDir = true →
        e.id ≠ emptySha1 → e.id ∈ m₁.visited) := by
      split_ifs at hm₁ with hreg hdir
      · exact ⟨(traverseFile_spec hm₁).1, fun _ => (traverseFile_spec hm₁).2⟩
      · exact ⟨(hf hm₁).1, fun _ _ => (hf hm₁).2⟩
      · cases hm₁
        exact ⟨.refl, fun h => absurd h (by simp [hreg, hdir])⟩
    refine ⟨hfirst.1.trans hrest, ?_⟩
    rintro e' (_ | ⟨_, he'⟩) hkind hne
    · exact hrest.mem (hfirst.2 hkind hne)
    · exact hmem e' he' hkind hne

theorem traverseDir_spec (fuel : ℕ) (h : traverseDir sha256 st fuel m id = some m') :
    Traversed sha256 st m m' ∧ id ∈ m'.visited := by
  induction fuel generalizing m m' id with
  | zero => cases h
  | succ fuel ih =>
    rw [traverseDir] at h
    obtain ⟨⟨m₁, stop⟩, hcall, h⟩ := bind_eq_some_iff.1 h
    by_cases hvisited : id ∈ m.visited
    · rw [fsCallback_visited hvisited] at hcall
      cases hcall
      cases h
      exact ⟨.refl, hvisited⟩
    · simp only [fsCallback, if_neg hvisited, Bool.false_eq_true, if_false] at hcall
      cases hcall
      simp only [Bool.false_eq_true, if_false] at h
      obtain ⟨es, hes, h⟩ := bind_eq_some_iff.1 h
      obtain ⟨hrest, hmem⟩ := foldlM_traverse (fun h => ih h) es h
      obtain ⟨hfs, hhas⟩ := addFsToIndex_extends sha256 m.index id
      have hkept : Kept sha256 st (addFsToIndex sha256 m.index id) id := by
        rcases FsStore.getSeafdir_obj hes with ⟨rfl, -⟩ | ho
        · exact ⟨.inl rfl, hhas, by simp [FsStore.blocksOf, obj_emptySha1]⟩
        · exact ⟨.inr (by simp [ho]), hhas, by simp [FsStore.blocksOf, ho]⟩
      -- the children of the directory are the frontier until its entries are done
      have hgrows : Grows st.Child (Kept sha256 st (addFsToIndex sha256 m.index id))
          {b | st.Child id b} {x | x ∈ m.visited} (insert id {x | x ∈ m.visited}) :=
        .insert hkept fun b hb => .inr hb
      refine ⟨⟨hfs.trans hrest.extends_,
        hgrows.trans (fun _ hk => hk.extends hrest.extends_) ?_ ?_⟩,
        hrest.mem mem_cons_self⟩
      · intro b hb
        obtain ⟨hne, e, he, hkind, rfl⟩ := mem_children hes hb
        exact .inl (hmem e he hkind hne)
      · rw [← setOf_mem_cons]
        exact hrest.grows

theorem reach_emptySha1 (h : st.Reach emptySha1 id) : id = emptySha1 := by
  rcases Relation.ReflTransGen.cases_head_iff.1 h with rfl | ⟨b, hb, -⟩
  · rfl
  · simp [FsStore.Child, FsStore.children, obj_emptySha1] at hb

/-- **A traversal that succeeds** has everything below its root in the index. -/
theorem traverseTree_spec {fuel : ℕ} {rootId : Id} (hm : m.Closed sha256 st)
    (h : traverseTree sha256 st fuel m rootId = some m') :
    Traversed sha256 st m m' ∧ Covered sha256 st m'.index rootId := by
  unfold traverseTree at h
  split_ifs at h with hroot
  · cases h
    exact ⟨.refl, fun id hid hreach => absurd (reach_emptySha1 (hroot ▸ hreach)) hid⟩
  · obtain ⟨htrav, hmem⟩ := traverseDir_spec fuel h
    exact ⟨htrav, fun id _ hreach => ((htrav.closed hm).reach hmem hreach).2⟩

/-! ## Growing stores -/

variable {root : Id}

theorem Covered.extends (h : Covered sha256 st index root) (he : index.Extends sha256 index') :
    Covered sha256 st index' root :=
  fun id hid hreach => (h id hid hreach).extends he

theorem Covered.below (h : Covered sha256 st index root) (hr : st.Reach root id) :
    Covered sha256 st index id :=
  fun id' hid' hreach => h id' hid' (hr.trans hreach)

section

variable (hle : st ≤ st')
include hle

section

omit [DecidableEq Id]

theorem FsStore.Has.obj_eq (h : st.Has id) : st'.obj id = st.obj id := by
  rcases h with rfl | h
  · rw [obj_emptySha1, obj_emptySha1]
  · obtain ⟨o, ho⟩ := isSome_iff_exists.1 h
    rw [ho, hle id o ho]

theorem FsStore.Has.mono (h : st.Has id) : st'.Has id := by
  rcases h with rfl | h'
  · exact .inl rfl
  · exact .inr (by rwa [FsStore.Has.obj_eq hle (.inr h')])

theorem Kept.store_mono (h : Kept sha256 st index id) :
    Kept sha256 st' index id := by
  refine ⟨h.has.mono hle, h.fs, fun b hb => h.blocks b ?_⟩
  rwa [FsStore.blocksOf, h.has.obj_eq hle] at hb

end

theorem reach_of_le (h : ∀ id, id ≠ emptySha1 → st.Reach root id → st.Has id)
    (hr : st'.Reach root id) :
    st.Reach root id := by
  induction hr with
  | refl => exact .refl
  | @tail b c _ hchild ih =>
    refine ih.tail ?_
    have hhas : st.Has b := by
      by_cases hb : b = emptySha1
      · exact .inl hb
      · exact h b hb ih
    rwa [FsStore.Child, FsStore.children, hhas.obj_eq hle] at hchild

theorem Covered.store_mono (h : Covered sha256 st index root) :
    Covered sha256 st' index root := fun id hid hreach =>
  (h id hid (reach_of_le hle (fun id hid hr => (h id hid hr).has) hreach)).store_mono hle

theorem Marks.Closed.store_mono (h : m.Closed sha256 st) :
    m.Closed sha256 st' := by
  intro id hid
  obtain ⟨hkept, hchild⟩ := h id hid
  refine ⟨hkept.store_mono hle, fun b hb => hchild b ?_⟩
  rwa [FsStore.Child, FsStore.children, hkept.has.obj_eq hle] at hb

end

end Lemmas

end CloudFile
