/-
  The file system backend of the object stores, and the functions that save an object unless it is
  there (`fileserver/objstore`, `common/obj-backend-fs.c`). Every system call may fail with any
  error. The Go backend reports a failed `stat` as an object that is there, with an error that no
  saver looks at.
-/
import Mathlib.Data.Int.Notation
import Mathlib.Logic.Function.Basic
import Mathlib.Tactic.Common

namespace CloudFile

/-! ## The model -/

inductive Errno where
  | enoent
  | einval
  | other (code : ℕ)
deriving DecidableEq

/-- What a system call returns; none is success. -/
abbrev Failed := Option Errno

/-- The object files of a store. -/
abbrev Disk (Key Data : Type) := Key → Option Data

/-- The calls of a probe. `resolve` stands for the check of the ids and the route to the directory
    of the store. -/
structure ProbeCalls where
  resolve : Failed
  stat : Failed

/-- The calls of a write, in the order of the code. -/
structure WriteCalls where
  resolve : Failed
  mkdir : Failed
  createTemp : Failed
  copy : Failed
  sync : Failed
  close : Failed
  rename : Failed
  openDir : Failed
  syncDir : Failed
  closeDir : Failed

/-- Some file systems do not support `fsync`. -/
def exceptEinval : Failed → Failed
  | some .einval => none
  | failed => failed

section

variable {Key Data : Type} [DecidableEq Key]

/-- The calls of a write: `before` up to the rename, `after` from then on. -/
def publish (disk : Disk Key Data) (key : Key) (data : Data) (before after : List Failed) :
    Disk Key Data × Failed :=
  match before.findSome? id with
  | some err => (disk, some err)
  | none => (Function.update disk key (some data), after.findSome? id)

namespace Fileserver

/-- `fsBackend.write`, behind the route of `v2StorageBackend.write` or `multiBackend.write`. -/
def write (disk : Disk Key Data) (key : Key) (data : Data) (needSync : Bool) (c : WriteCalls) :
    Disk Key Data × Failed :=
  publish disk key data
    [c.resolve, c.mkdir, c.createTemp, c.copy, if needSync then exceptEinval c.sync else none,
      c.close, c.rename]
    (if needSync then [c.openDir, exceptEinval c.syncDir, c.closeDir] else [])

/-- `fsBackend.exists`, behind the route. -/
def exists? (disk : Disk Key Data) (key : Key) (c : ProbeCalls) : Bool × Failed :=
  match c.resolve with
  | some err => (false, some err)
  | none => match c.stat with
    | some err => if err = .enoent then (false, some err) else (true, some err)
    | none => if (disk key).isSome then (true, none) else (false, some .enoent)

/-- What a saver returns besides nil. -/
inductive SaveError where
  /-- "failed to convert … object %s/%s to json" -/
  | convert
  /-- "failed to write … object to storage : %v" -/
  | write (err : Errno)
deriving DecidableEq

/-- The body of the savers: nothing is done for an object that is there. `toData` is the JSON of
    the object. -/
def saveObject (disk : Disk Key Data) (key : Key) (toData : Option Data) (probe : ProbeCalls)
    (c : WriteCalls) : Disk Key Data × Option SaveError :=
  -- `exist, _ := store.Exists(..)`
  if (exists? disk key probe).1 then (disk, none)
  else match toData with
    | none => (disk, some .convert)
    | some data =>
      ((write disk key data false c).1, (write disk key data false c).2.map SaveError.write)

/-- `commitmgr.Save` -/
def saveCommit (disk : Disk Key Data) (key : Key) (toData : Option Data) (probe : ProbeCalls)
    (c : WriteCalls) : Disk Key Data × Option SaveError :=
  saveObject disk key toData probe c

variable (emptySha1 : Key)

def saveSeafile (disk : Disk Key Data) (fileID : Key) (toData : Option Data) (probe : ProbeCalls)
    (c : WriteCalls) : Disk Key Data × Option SaveError :=
  if fileID = emptySha1 then (disk, none) else saveObject disk fileID toData probe c

def saveSeafdir (disk : Disk Key Data) (dirID : Key) (toData : Option Data) (probe : ProbeCalls)
    (c : WriteCalls) : Disk Key Data × Option SaveError :=
  if dirID = emptySha1 then (disk, none) else saveObject disk dirID toData probe c

end Fileserver

namespace Server

/-- `obj_backend_fs_write`, `save_obj_contents`; what closing the directory returns is not used. -/
def writeObj (disk : Disk Key Data) (key : Key) (data : Data) (needSync : Bool) (c : WriteCalls) :
    Disk Key Data × Failed :=
  publish disk key data
    [c.resolve, c.mkdir, c.createTemp, c.copy, if needSync then exceptEinval c.sync else none,
      c.close, c.rename]
    (if needSync then [c.openDir, exceptEinval c.syncDir] else [])

/-- `seaf_obj_store_obj_exists_checked` -/
def objExistsChecked (disk : Disk Key Data) (key : Key) (c : ProbeCalls) : ℤ :=
  match c.resolve with
  | some _ => -1
  | none => match c.stat with
    | some err => if err = .enoent then 0 else -1
    | none => if (disk key).isSome then 1 else 0

/-- `seaf_obj_store_obj_exists` -/
def objExists (disk : Disk Key Data) (key : Key) (c : ProbeCalls) : Bool :=
  objExistsChecked disk key c = 1

/-- The body of the savers; 0 or -1. -/
def saveUnlessThere (disk : Disk Key Data) (key : Key) (data : Data) (needSync : Bool)
    (probe : ProbeCalls) (c : WriteCalls) : Disk Key Data × ℤ :=
  if objExists disk key probe then (disk, 0)
  else ((writeObj disk key data needSync c).1,
    if (writeObj disk key data needSync c).2 = none then 0 else -1)

/-- `save_commit`, compiled for the server -/
def saveCommit (disk : Disk Key Data) (key : Key) (data : Data) (probe : ProbeCalls)
    (c : WriteCalls) : Disk Key Data × ℤ :=
  saveUnlessThere disk key data true probe c

def seafDirSave (emptySha1 : Key) (disk : Disk Key Data) (key : Key) (data : Data)
    (probe : ProbeCalls) (c : WriteCalls) : Disk Key Data × ℤ :=
  if key = emptySha1 then (disk, 0) else saveUnlessThere disk key data false probe c

end Server

/-! ## A write that succeeds has published the object -/

variable {disk : Disk Key Data} {key : Key} {data : Data} {before after : List Failed}

theorem publish_ok (h : (publish disk key data before after).2 = none) :
    (publish disk key data before after).1 key = some data := by
  unfold publish at h ⊢
  split
  next err hbefore =>
    rw [hbefore] at h
    cases h
  · exact Function.update_self ..

/-! ## What the probes promise -/

/-- The `stat` of the probe is reached and fails with something else than that there is no file. -/
def ProbeCalls.Inconclusive (c : ProbeCalls) : Prop :=
  c.resolve = none ∧ ∃ err, c.stat = some err ∧ err ≠ .enoent

omit [DecidableEq Key] in
theorem Server.objExists_sound {c : ProbeCalls} (h : Server.objExists disk key c = true) :
    (disk key).isSome = true := by
  simp only [objExists, objExistsChecked] at h
  cases hresolve : c.resolve with
  | some err => simp [hresolve] at h
  | none =>
    cases hstat : c.stat with
    | some err =>
      simp only [hresolve, hstat] at h
      split at h <;> cases h
    | none =>
      simp only [hresolve, hstat] at h
      split at h
      · assumption
      · cases h

omit [DecidableEq Key] in
theorem Fileserver.exists_iff {c : ProbeCalls} :
    (Fileserver.exists? disk key c).1 = true ↔
      c.Inconclusive ∨ c.resolve = none ∧ c.stat = none ∧ (disk key).isSome = true := by
  unfold exists? ProbeCalls.Inconclusive
  cases hresolve : c.resolve with
  | some err => simp
  | none =>
    cases hstat : c.stat with
    | some err => by_cases herr : err = .enoent <;> simp [herr]
    | none => by_cases hsome : (disk key).isSome = true <;> simp [hsome]

theorem Fileserver.saveObject_stores_iff (toData : Option Data) (probe : ProbeCalls)
    (c : WriteCalls) :
    ((Fileserver.saveObject disk key toData probe c).2 = none →
        ((Fileserver.saveObject disk key toData probe c).1 key).isSome = true) ↔
      (probe.Inconclusive → (disk key).isSome = true) := by
  unfold saveObject
  by_cases hexists : (exists? disk key probe).1 = true
  · rw [if_pos hexists]
    rcases exists_iff.mp hexists with hinc | ⟨-, hstat, hsome⟩
    · exact ⟨fun h _ => h rfl, fun h _ => h hinc⟩
    · exact ⟨fun _ _ => hsome, fun _ _ => hsome⟩
  · rw [if_neg hexists]
    have hconclusive : ¬ probe.Inconclusive :=
      fun h => hexists (exists_iff.mpr (Or.inl h))
    refine ⟨fun _ h => absurd h hconclusive, fun _ hnil => ?_⟩
    cases toData with
    | none => cases hnil
    | some data =>
      have hwrite : (write disk key data false c).2 = none := by simpa using hnil
      show ((write disk key data false c).1 key).isSome = true
      rw [write, publish_ok hwrite, Option.isSome_some]

/-- In C a failed probe is not taken for an object. -/
theorem Server.saveUnlessThere_stores {needSync : Bool} {probe : ProbeCalls} {c : WriteCalls}
    (h : (Server.saveUnlessThere disk key data needSync probe c).2 = 0) :
    ((Server.saveUnlessThere disk key data needSync probe c).1 key).isSome = true := by
  unfold saveUnlessThere at h ⊢
  by_cases hexists : objExists disk key probe = true
  · rw [if_pos hexists]
    exact objExists_sound hexists
  · rw [if_neg hexists] at h ⊢
    have hwrite : (writeObj disk key data needSync c).2 = none := by
      by_contra hfail
      simp [hfail] at h
    show ((writeObj disk key data needSync c).1 key).isSome = true
    rw [writeObj, publish_ok hwrite, Option.isSome_some]

/-- Every saver that reports success has stored the object if and only if the object was there
    or the Go probe could tell. -/
theorem successful_save_stores_iff {emptySha1 key : Key} (hkey : key ≠ emptySha1)
    (disk : Disk Key Data) (toData : Option Data) (data : Data) (probe : ProbeCalls)
    (c : WriteCalls) :
    ((Fileserver.saveCommit disk key toData probe c).2 = none →
        ((Fileserver.saveCommit disk key toData probe c).1 key).isSome = true) ∧
      ((Fileserver.saveSeafile emptySha1 disk key toData probe c).2 = none →
        ((Fileserver.saveSeafile emptySha1 disk key toData probe c).1 key).isSome = true) ∧
      ((Fileserver.saveSeafdir emptySha1 disk key toData probe c).2 = none →
        ((Fileserver.saveSeafdir emptySha1 disk key toData probe c).1 key).isSome = true) ∧
      ((Server.saveCommit disk key data probe c).2 = 0 →
        ((Server.saveCommit disk key data probe c).1 key).isSome = true) ∧
      ((Server.seafDirSave emptySha1 disk key data probe c).2 = 0 →
        ((Server.seafDirSave emptySha1 disk key data probe c).1 key).isSome = true) ↔
    (probe.Inconclusive → (disk key).isSome = true) := by
  rw [Fileserver.saveSeafile, Fileserver.saveSeafdir, Server.seafDirSave, if_neg hkey, if_neg hkey]
  constructor
  · rintro ⟨hcommit, -⟩
    exact (Fileserver.saveObject_stores_iff toData probe c).mp hcommit
  · intro hprobe
    have hgo := (Fileserver.saveObject_stores_iff toData probe c).mpr hprobe
    exact ⟨hgo, hgo, hgo, Server.saveUnlessThere_stores, Server.saveUnlessThere_stores⟩

end

/-! A store without objects, a probe that is not permitted, and calls that would all succeed. -/

def deniedProbe : ProbeCalls := ⟨none, some (.other 13)⟩

def allSucceed : WriteCalls := ⟨none, none, none, none, none, none, none, none, none, none⟩

theorem save_stores_new_object :
    (Fileserver.saveSeafdir 0 (fun _ : ℕ => (none : Option ℕ)) 1 (some 5) ⟨none, none⟩
      allSucceed).2 = none ∧
    ((Fileserver.saveSeafdir 0 (fun _ : ℕ => (none : Option ℕ)) 1 (some 5) ⟨none, none⟩
      allSucceed).1 1).isSome = true :=
  ⟨rfl, ((successful_save_stores_iff (by decide : (1 : ℕ) ≠ 0) (fun _ => none) (some 5) 5
    ⟨none, none⟩ allSucceed).mpr (fun ⟨_, _, herr, _⟩ => by cases herr)).2.2.1 rfl⟩

/-- The `stat` fails, so the directory is reported as saved and is not written. -/
theorem denied_probe_saves_nothing :
    (Fileserver.saveSeafdir 0 (fun _ : ℕ => (none : Option ℕ)) 1 (some 5) deniedProbe
      allSucceed).2 = none ∧
    (Fileserver.saveSeafdir 0 (fun _ : ℕ => (none : Option ℕ)) 1 (some 5) deniedProbe
      allSucceed).1 1 = none := by
  constructor <;> rfl

end CloudFile
