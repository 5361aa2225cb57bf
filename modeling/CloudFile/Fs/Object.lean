/-
  File system objects and the content-addressed store that holds them (`common/fs-mgr.c`,
  `fileserver/fsmgr/fsmgr.go`). Ids are an arbitrary type with an ideal hash (`ObjectId`) that is
  never the all-zero id `EMPTY_SHA1`, which empty directories and files have. A store carries the
  proof that each object lies under its hash.
-/
import CloudFile.Lib.SortedWalk
import Mathlib.Logic.Encodable.Basic
import Mathlib.Logic.Equiv.List
import Mathlib.Data.List.Lex
import Mathlib.Data.Char

namespace CloudFile

open SortedWalk

/-- File names, compared like `strcmp` does. -/
abbrev Name := List Char

/-- `S_IFMT`: the file type bits of a mode. -/
def sIfmt : UInt32 := 0o170000

/-- `S_IFDIR` -/
def sIfdir : UInt32 := 0o040000

/-- `S_IFREG` -/
def sIfreg : UInt32 := 0o100000

/-- `S_ISREG` -/
def sIsReg (mode : UInt32) : Bool := mode &&& sIfmt == sIfreg

/-- `S_ISDIR` -/
def sIsDir (mode : UInt32) : Bool := mode &&& sIfmt == sIfdir

/-- The mode that `seaf_dirent_new` gives an entry: a regular file has the bits 0644. -/
def fileMode (mode : UInt32) : UInt32 := if sIsReg mode then mode ||| 0o644 else mode

section FileMode

variable (mode : UInt32)

theorem and_sIfmt_or : (mode ||| 0o644) &&& sIfmt = mode &&& sIfmt := by
  have hbits : (0o644 : UInt32) &&& sIfmt = 0 := by decide
  apply UInt32.toBitVec_inj.1
  ext i hi
  have hbit := congrArg (fun u => u.toBitVec[i]) hbits
  simp at hbit ⊢
  grind

@[simp] theorem sIsReg_fileMode : sIsReg (fileMode mode) = sIsReg mode := by
  unfold fileMode sIsReg
  split
  · rw [and_sIfmt_or]
  · rfl

@[simp] theorem sIsDir_fileMode : sIsDir (fileMode mode) = sIsDir mode := by
  unfold fileMode sIsDir
  split
  · rw [and_sIfmt_or]
  · rfl

@[simp] theorem fileMode_fileMode : fileMode (fileMode mode) = fileMode mode := by
  rw [fileMode, sIsReg_fileMode]
  split
  next h => rw [fileMode, if_pos h, UInt32.or_assoc, UInt32.or_self]
  next => rfl

end FileMode

/-- A directory entry.  Only regular files have a modifier and a size. -/
structure Dirent (Id : Type) where
  mode : UInt32
  id : Id
  name : Name
  mtime : ℤ
  modifier : Name
  size : ℤ
  plain : sIsReg mode = false → modifier = [] ∧ size = 0
deriving DecidableEq

namespace Dirent
variable {Id : Type}

/-- `S_ISREG` of the mode -/
def isReg (d : Dirent Id) : Bool := sIsReg d.mode

/-- `S_ISDIR` of the mode -/
def isDir (d : Dirent Id) : Bool := sIsDir d.mode

/-- `NewDirent` -/
def new (mode : UInt32) (id : Id) (name : Name) (mtime : ℤ) (modifier : Name) (size : ℤ) :
    Dirent Id :=
  if h : sIsReg mode then ⟨mode, id, name, mtime, modifier, size, by simp [h]⟩
  else ⟨mode, id, name, mtime, [], 0, fun _ => ⟨rfl, rfl⟩⟩

/-- The entry with another name. -/
def withName (d : Dirent Id) (name : Name) : Dirent Id := { d with name := name }

/-- The entry with another id. -/
def withId (d : Dirent Id) (id : Id) : Dirent Id := { d with id := id }

/-- The entry with the mode that `seaf_dirent_new` gives it. -/
def withFileMode (d : Dirent Id) : Dirent Id :=
  { d with mode := fileMode d.mode, plain := fun h => d.plain (sIsReg_fileMode d.mode ▸ h) }

variable (d : Dirent Id)

@[simp] theorem withName_name (n : Name) : (d.withName n).name = n := rfl
@[simp] theorem withName_id (n : Name) : (d.withName n).id = d.id := rfl
@[simp] theorem withName_mode (n : Name) : (d.withName n).mode = d.mode := rfl
@[simp] theorem withName_isDir (n : Name) : (d.withName n).isDir = d.isDir := rfl
@[simp] theorem withName_isReg (n : Name) : (d.withName n).isReg = d.isReg := rfl
@[simp] theorem withId_name (i : Id) : (d.withId i).name = d.name := rfl
@[simp] theorem withId_id (i : Id) : (d.withId i).id = i := rfl
@[simp] theorem withId_mode (i : Id) : (d.withId i).mode = d.mode := rfl
@[simp] theorem withId_isDir (i : Id) : (d.withId i).isDir = d.isDir := rfl
@[simp] theorem withId_isReg (i : Id) : (d.withId i).isReg = d.isReg := rfl
@[simp] theorem withFileMode_name : d.withFileMode.name = d.name := rfl
@[simp] theorem withFileMode_id : d.withFileMode.id = d.id := rfl
@[simp] theorem withFileMode_isDir : d.withFileMode.isDir = d.isDir := sIsDir_fileMode d.mode
@[simp] theorem withFileMode_isReg : d.withFileMode.isReg = d.isReg := sIsReg_fileMode d.mode

theorem isDir_of_isReg {d : Dirent Id} (h : d.isReg = true) : d.isDir = false := by
  simp only [isReg, isDir, sIsReg, sIsDir, beq_iff_eq, beq_eq_false_iff_ne] at h ⊢
  rw [h]; decide

theorem withFileMode_eq_self (h : fileMode d.mode = d.mode) : d.withFileMode = d := by
  obtain ⟨mode, id, name, mtime, modifier, size, plain⟩ := d
  simp only [withFileMode]
  congr

/-- A directory keeps its mode. -/
theorem withFileMode_of_isDir {d : Dirent Id} (h : d.isDir = true) : d.withFileMode = d := by
  refine d.withFileMode_eq_self (if_neg fun hreg => ?_)
  rw [isDir_of_isReg hreg] at h
  cases h

end Dirent

/-- `seaf_dirent_new` -/
def Server.seafDirentNew {Id : Type} (mode : UInt32) (id : Id) (name : Name) (mtime : ℤ)
    (modifier : Name) (size : ℤ) : Dirent Id :=
  .new (fileMode mode) id name mtime modifier size

/-! ## Entries -/

section Entries

variable {Id : Type} {entries : List (Dirent Id)} {d : Dirent Id} {name : Name} {good : Name → Prop}

/-- The first entry with the name. -/
def findDirent (name : Name) (entries : List (Dirent Id)) : Option (Dirent Id) :=
  entries.find? fun d => d.name = name

theorem findDirent_eq (name : Name) (entries : List (Dirent Id)) :
    findDirent name entries = find Dirent.name name entries := by
  unfold findDirent find
  congr 1
  funext d
  exact decide_eq_decide.2 Iff.rfl

theorem mem_of_findDirent (h : findDirent name entries = some d) : d ∈ entries ∧ d.name = name :=
  find_some ((findDirent_eq name entries).symm.trans h)

theorem findDirent_some (hu : UniqueKeys Dirent.name entries) :
    findDirent name entries = some d ↔ d ∈ entries ∧ d.name = name := by
  rw [findDirent_eq]; exact find_eq_some hu

theorem findDirent_cons (d : Dirent Id) (es : List (Dirent Id)) (n : Name) :
    findDirent n (d :: es) = if d.name = n then some d else findDirent n es := by
  by_cases hn : d.name = n <;> simp [findDirent, hn]

/-- Sorted unique names, each of them good. -/
def SortedNames (good : Name → Prop) (es : List (Dirent Id)) : Prop :=
  Desc Dirent.name es ∧ ∀ d ∈ es, good d.name

/-- Unique names, each of them good. -/
def UniqueNames (good : Name → Prop) (es : List (Dirent Id)) : Prop :=
  UniqueKeys Dirent.name es ∧ ∀ d ∈ es, good d.name

instance [DecidablePred good] : DecidablePred (SortedNames good : List (Dirent Id) → Prop) :=
  fun _ => inferInstanceAs (Decidable (_ ∧ _))

instance [DecidablePred good] : DecidablePred (UniqueNames good : List (Dirent Id) → Prop) :=
  fun _ => inferInstanceAs (Decidable (_ ∧ _))

theorem sortedNames_nil : SortedNames good ([] : List (Dirent Id)) := ⟨.nil, by simp⟩

theorem uniqueNames_nil : UniqueNames good ([] : List (Dirent Id)) := ⟨uniqueKeys_nil, by simp⟩

end Entries

/-! ## Objects -/

/-- A stored object: the blocks of a file, or the entries of a directory. -/
inductive FsObj (Id : Type) where
  | file (blkIds : List Id) (size : ℤ)
  | dir (entries : List (Dirent Id))
deriving DecidableEq

/-- Objects that are stored at all: the others have the id `EMPTY_SHA1`. -/
def FsObj.Nonempty {Id : Type} : FsObj Id → Prop
  | .file blkIds _ => blkIds ≠ []
  | .dir entries => entries ≠ []

/-- Ids with an ideal hash of objects. -/
class ObjectId (Id : Type) where
  emptySha1 : Id
  sha1 : FsObj Id → Id
  sha1_injective : Function.Injective sha1
  sha1_ne_emptySha1 : ∀ o, sha1 o ≠ emptySha1

export ObjectId (emptySha1 sha1 sha1_injective sha1_ne_emptySha1)

section NatId

def Dirent.fields (d : Dirent ℕ) : ℕ × ℕ × List ℕ × ℤ × List ℕ × ℤ :=
  (d.mode.toNat, d.id, d.name.map Char.toNat, d.mtime, d.modifier.map Char.toNat, d.size)

def FsObj.fields : FsObj ℕ → (List ℕ × ℤ) ⊕ List (ℕ × ℕ × List ℕ × ℤ × List ℕ × ℤ)
  | .file blkIds size => .inl (blkIds, size)
  | .dir entries => .inr (entries.map Dirent.fields)

theorem charToNat_injective : Function.Injective Char.toNat := fun _ _ h =>
  Char.ext (UInt32.toNat_inj.1 h)

theorem Dirent.fields_injective : Function.Injective Dirent.fields := by
  rintro ⟨m, i, n, t, w, s, _⟩ ⟨m', i', n', t', w', s', _⟩ h
  simp only [Dirent.fields, Prod.mk.injEq] at h
  obtain ⟨hm, rfl, hn, rfl, hw, rfl⟩ := h
  obtain rfl := UInt32.toNat_inj.1 hm
  obtain rfl := charToNat_injective.list_map hn
  obtain rfl := charToNat_injective.list_map hw
  rfl

theorem FsObj.fields_injective : Function.Injective FsObj.fields := by
  rintro (⟨b, s⟩ | es) (⟨b', s'⟩ | es') h <;> simp only [FsObj.fields, Sum.inl.injEq,
    Sum.inr.injEq, Prod.mk.injEq, reduceCtorEq] at h
  · rw [h.1, h.2]
  · rw [Dirent.fields_injective.list_map h]

/-- Code numbers are an ideal hash: the ids that concrete trees use. -/
instance : ObjectId ℕ where
  emptySha1 := 0
  sha1 o := Encodable.encode o.fields + 1
  sha1_injective _ _ h := FsObj.fields_injective (Encodable.encode_injective (Nat.succ.inj h))
  sha1_ne_emptySha1 _ := Nat.succ_ne_zero _

end NatId

variable {Id : Type} [ObjectId Id]

/-- The objects of a store, each under its own hash. -/
structure FsStore (Id : Type) [ObjectId Id] where
  obj : Id → Option (FsObj Id)
  saved : ∀ id o, obj id = some o → o.Nonempty ∧ sha1 o = id

/-- A store extends another one when it holds all its objects. -/
instance : Preorder (FsStore Id) where
  le st st' := ∀ id o, st.obj id = some o → st'.obj id = some o
  le_refl _ _ _ h := h
  le_trans _ _ _ h h' id o ho := h' id o (h id o ho)

def FsStore.empty : FsStore Id := ⟨fun _ => none, by simp⟩

/-- The id `seaf_dir_new` and `NewSeafdir` compute. -/
def seafDirId (entries : List (Dirent Id)) : Id :=
  if entries.isEmpty then emptySha1 else sha1 (.dir entries)

theorem seafDirId_injective : Function.Injective (seafDirId : List (Dirent Id) → Id) := by
  intro es es' h
  cases es <;> cases es' <;> simp only [seafDirId, List.isEmpty_nil, List.isEmpty_cons,
    if_true, Bool.false_eq_true, if_false] at h
  · rfl
  · exact absurd h.symm (sha1_ne_emptySha1 _)
  · exact absurd h (sha1_ne_emptySha1 _)
  · exact FsObj.dir.inj (sha1_injective h)

namespace FsStore

variable [DecidableEq Id] {st st' : FsStore Id}

/-- `seaf_fs_manager_get_seafdir`, `GetSeafdir`: the entries of a directory. -/
def getSeafdir (st : FsStore Id) (id : Id) : Option (List (Dirent Id)) :=
  if id = emptySha1 then some []
  else match st.obj id with
    | some (.dir entries) => some entries
    | _ => none

/-- `seaf_fs_manager_get_seafile`, `GetSeafile`: the blocks of a file. -/
def getSeafile (st : FsStore Id) (id : Id) : Option (List Id) :=
  if id = emptySha1 then some []
  else match st.obj id with
    | some (.file blkIds _) => some blkIds
    | _ => none

def insert (st : FsStore Id) (o : FsObj Id) (ho : o.Nonempty) : FsStore Id where
  obj id := if id = sha1 o then some o else st.obj id
  saved id o' h := by
    split_ifs at h with hid
    · cases h; exact ⟨ho, hid.symm⟩
    · exact st.saved id o' h

/-- `seaf_dir_save`, `SaveSeafdir`: empty directories and objects that exist are not written;
    `writeObj` is the answer to a write. -/
def saveSeafdir (writeObj : Id → Bool) (st : FsStore Id) (entries : List (Dirent Id)) :
    Option (FsStore Id) :=
  if h : entries = [] then some st
  else if (st.obj (seafDirId entries)).isSome then some st
  else if writeObj (seafDirId entries) then some (st.insert (.dir entries) h)
  else none

variable {id : Id} {es : List (Dirent Id)}

theorem getSeafdir_id (h : st.getSeafdir id = some es) :
    seafDirId es = id := by
  unfold getSeafdir at h
  split_ifs at h with hid
  · cases h; exact hid.symm
  · split at h
    · next es' ho =>
      cases h
      obtain ⟨hne, hid'⟩ := st.saved id _ ho
      simpa [seafDirId, show es ≠ [] from hne] using hid'
    · cases h

theorem getSeafdir_obj (h : st.getSeafdir id = some es) :
    id = emptySha1 ∧ es = [] ∨ st.obj id = some (.dir es) := by
  unfold getSeafdir at h
  split_ifs at h with hid
  · cases h; exact .inl ⟨hid, rfl⟩
  · split at h
    · next es' ho => cases h; exact .inr ho
    · cases h

@[simp] theorem getSeafdir_empty : st.getSeafdir emptySha1 = some [] := by simp [getSeafdir]

theorem getSeafdir_of_obj (h : st.obj id = some (.dir es)) :
    st.getSeafdir id = some es := by
  have hne : id ≠ emptySha1 := fun he => sha1_ne_emptySha1 _ ((st.saved id _ h).2.trans he)
  simp [getSeafdir, hne, h]

theorem getSeafdir_nil : st.getSeafdir id = some [] ↔ id = emptySha1 :=
  ⟨fun h => (getSeafdir_id h).symm.trans rfl, fun h => h ▸ getSeafdir_empty⟩

theorem getSeafdir_mono (h : st ≤ st') (hg : st.getSeafdir id = some es) :
    st'.getSeafdir id = some es := by
  rcases getSeafdir_obj hg with ⟨rfl, rfl⟩ | ho
  · exact getSeafdir_empty
  · exact getSeafdir_of_obj (h id _ ho)

theorem saveSeafdir_spec {writeObj : Id → Bool} (h : saveSeafdir writeObj st es = some st') :
    st ≤ st' ∧ st'.getSeafdir (seafDirId es) = some es := by
  unfold saveSeafdir at h
  split_ifs at h with hes hex hw
  · cases h; subst hes; exact ⟨le_rfl, by simp [seafDirId]⟩
  · cases h
    obtain ⟨o, ho⟩ := Option.isSome_iff_exists.1 hex
    have hid : seafDirId es = sha1 (.dir es) := by simp [seafDirId, hes]
    obtain rfl : o = .dir es := sha1_injective (((st.saved _ _ ho).2).trans hid)
    exact ⟨le_rfl, getSeafdir_of_obj ho⟩
  · cases h
    have hid : seafDirId es = sha1 (.dir es) := by simp [seafDirId, hes]
    refine ⟨fun id o ho => ?_, getSeafdir_of_obj (by simp [insert, hid])⟩
    by_cases hid' : id = sha1 (.dir es)
    · have : o = .dir es := sha1_injective ((st.saved id o ho).2.trans hid')
      simp [insert, hid', this]
    · simpa [insert, hid'] using ho

end FsStore

/-! ## Trees -/

section Tree

variable [DecidableEq Id] {P Q : List (Dirent Id) → Prop} {st st' : FsStore Id} {n : ℕ}

/-- The directory `id` and all directories below it can be read, to a depth below `n`, and have
    `P`. -/
def Tree (P : List (Dirent Id) → Prop) (st : FsStore Id) : ℕ → Id → Prop
  | 0, _ => False
  | n + 1, id => ∃ es, st.getSeafdir id = some es ∧ P es ∧
      ∀ e ∈ es, e.isDir = true → Tree P st n e.id

def entryAt (st : FsStore Id) (root : Id) : List Name → Option (Dirent Id)
  | [] => none
  | [name] => st.getSeafdir root >>= findDirent name
  | name :: name' :: path => st.getSeafdir root >>= findDirent name >>= fun d =>
      if d.isDir then entryAt st d.id (name' :: path) else none

instance Tree.decidable [DecidablePred P] (st : FsStore Id) :
    ∀ (n : ℕ) (id : Id), Decidable (Tree P st n id)
  | 0, _ => .isFalse id
  | n + 1, id =>
    haveI := Tree.decidable st n
    match h : st.getSeafdir id with
    | none => .isFalse (by rintro ⟨es, hes, -⟩; simp [h] at hes)
    | some es => decidable_of_iff (P es ∧ ∀ e ∈ es, e.isDir = true → Tree P st n e.id)
        ⟨fun hes => ⟨es, h, hes⟩, by
          rintro ⟨es', hes', hP⟩
          obtain rfl := Option.mem_unique h hes'
          exact hP⟩

variable {id : Id}

theorem Tree.imp (hPQ : ∀ es, P es → Q es) (h : Tree P st n id) :
    Tree Q st n id := by
  induction n generalizing id with
  | zero => exact h
  | succ n ih =>
    obtain ⟨es, hes, hP, hsub⟩ := h
    exact ⟨es, hes, hPQ es hP, fun e he hd => ih (hsub e he hd)⟩

section

variable (h : Tree P st n id)
include h

theorem Tree.succ : Tree P st (n + 1) id := by
  induction n generalizing id with
  | zero => exact h.elim
  | succ n ih =>
    obtain ⟨es, hes, hP, hsub⟩ := h
    exact ⟨es, hes, hP, fun e he hd => ih (hsub e he hd)⟩

theorem Tree.exists_succ : ∃ m, n = m + 1 := by
  cases n with
  | zero => exact h.elim
  | succ m => exact ⟨m, rfl⟩

theorem Tree.readable : ∃ es, st.getSeafdir id = some es ∧ P es := by
  obtain ⟨m, rfl⟩ := h.exists_succ
  obtain ⟨es, hes, hP, -⟩ := h
  exact ⟨es, hes, hP⟩

theorem Tree.depth_mono {m : ℕ} (hnm : n ≤ m) :
    Tree P st m id := by
  induction hnm with
  | refl => exact h
  | step _ ih => exact ih.succ

end

theorem Tree.store_mono (hle : st ≤ st') (h : Tree P st n id) :
    Tree P st' n id := by
  induction n generalizing id with
  | zero => exact h
  | succ n ih =>
    obtain ⟨es, hes, hP, hsub⟩ := h
    exact ⟨es, FsStore.getSeafdir_mono hle hes, hP, fun e he hd => ih (hsub e he hd)⟩

end Tree

end CloudFile
