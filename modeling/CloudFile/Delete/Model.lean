/-
  Deletion of files (`server/repo-op.c`: `seaf_repo_manager_del_file`,
  `seaf_repo_manager_batch_del_files`), for a library that is not virtual.  `del_file` removes names
  of one directory.  `batch_del_files` takes each name for a path below the root; it turns
  backslashes into slashes, and its walk stays where it is at a part that is not a directory.
-/
import CloudFile.Delete.ChangeSet
import CloudFile.FileOp.SubjectPaths
import CloudFile.Write.Paths

namespace CloudFile

open SortedWalk GoPath List Option

variable {Id : Type}

/-! ## The model -/

/-- The answers of the storage backend to writes, and the time. -/
structure DeleteEnv (Id : Type) where
  writeObj : Id → Bool
  now : ℤ

/-- The loop of `del_file_recursive` that gives a directory its new id. -/
def Server.replaceDir (now : ℤ) (dirname : Name) (id : Id) : List (Dirent Id) → List (Dirent Id)
  | [] => []
  | dent :: dents =>
    if dent.name = dirname then (dent.withId id).withMtime now :: dents
    else dent :: replaceDir now dirname id dents

theorem replaceDir_eq (t : ℤ) (n : Name) (i : Id) (es : List (Dirent Id)) :
    Server.replaceDir t n i es = updateDirent n (fun d => d.touch i t) es := by
  induction es with
  | nil => rfl
  | cons d es ih =>
    simp only [Server.replaceDir, ih]
    rfl

theorem findDirent_replaceDir (now : ℤ) (part : Name) (id : Id) (es : List (Dirent Id)) (m : Name) :
    findDirent m (Server.replaceDir now part id es) =
      if m = part then (findDirent part es).map fun d => (d.withId id).withMtime now
      else findDirent m es := by
  rw [replaceDir_eq, findDirent_updateDirent (f := fun d => d.touch id now) fun _ => rfl]
  split_ifs with hm
  · rw [hm]
    rfl
  · rfl

theorem findDirent_filter_names {filenames : List Name} {m : Name} {es : List (Dirent Id)}
    (hm : m ∉ filenames) :
    findDirent m (es.filter fun old => !filenames.contains old.name) = findDirent m es := by
  rw [findDirent, find?_filter]
  congr 1
  funext d
  by_cases hd : d.name = m
  · simp [hd, hm]
  · simp [hd]

variable [ObjectId Id] [DecidableEq Id]

namespace Server

/-- `seaf_fs_manager_get_seafdir_sorted` -/
def getSeafdirSorted (st : FsStore Id) (id : Id) : Option (List (Dirent Id)) :=
  (st.getSeafdir id).map sortDirents

/-- `del_file_recursive`, over the parts of `to_path` -/
def delFileRecursive (e : DeleteEnv Id) (filenames : List Name) :
    List Name → FsStore Id → Id → Option (FsStore Id × Id × ℕ)
  | [], st, dirId =>
    getSeafdirSorted st dirId >>= fun olddir =>
    if filenames = [] then none
    else
      let newentries := olddir.filter fun old => !filenames.contains old.name
      let deletedNum := olddir.countP fun old => filenames.contains old.name
      if deletedNum = 0 then some (st, dirId, 0)
      else (st.saveSeafdir e.writeObj newentries).map fun st' =>
        (st', seafDirId newentries, deletedNum)
  | part :: remain, st, dirId =>
    getSeafdirSorted st dirId >>= fun olddir =>
    findDirent part olddir >>= fun dent =>
    delFileRecursive e filenames remain st dent.id >>= fun r =>
    if r.2.2 = 0 then some (r.1, dirId, 0)
    else
      let newentries := replaceDir e.now part r.2.1 olddir
      (r.1.saveSeafdir e.writeObj newentries).map fun st' => (st', seafDirId newentries, r.2.2)

/-- `seaf_repo_manager_del_file`: the tree that is handed to `gen_new_commit`, if there is one. -/
def delFile (e : DeleteEnv Id) (st : FsStore Id) (rootId : Id) (parentDir : Name)
    (filenames : List Name) : Option (FsStore Id × Id) :=
  match getSeafdirByPath st rootId (getCanonicalPath parentDir) with
  | .error _ => none
  | .ok _ =>
    delFileRecursive e filenames (gStrsplit (skipSlash (getCanonicalPath parentDir))) st rootId >>=
      fun r => if r.2.2 = 0 then none else some (r.1, r.2.1)

/-- The parts of a listed path. -/
def delParts (name : Name) : List Name := gStrsplit (skipSlash (getCanonicalPath name))

/-- The loop of `do_batch_del_files`: the change set, and how many names there were. -/
def doBatchDelFiles (e : DeleteEnv Id) (st : FsStore Id) (root : ChangeSetDir Id)
    (filepaths : List Name) : ChangeSetDir Id × ℕ :=
  filepaths.foldl (fun s name =>
    if name = [] then s else ((deleteFromTree st e.now (delParts name) s.1).dir, s.2 + 1)) (root, 0)

/-- `seaf_repo_manager_batch_del_files`: the tree that is handed to `gen_new_commit`, if there is
    one. -/
def batchDelFiles (e : DeleteEnv Id) (st : FsStore Id) (rootId : Id) (filepaths : List Name) :
    Option (FsStore Id × Id) :=
  getSeafdirSorted st rootId >>= fun dir =>
  let r := doBatchDelFiles e st (.ofSeafDir dir) filepaths
  if r.2 = 0 then none else commitTreeFromChangeset e.writeObj r.1 st

end Server

/-! ## Deletion of names of one directory -/

variable {e : DeleteEnv Id} {filenames parts : List Name} {st st' : FsStore Id} {dirId id' : Id}
  {n : ℕ}

theorem delFileRecursive_nil
    (h : Server.delFileRecursive e filenames [] st dirId = some (st', id', n)) :
    ∃ es, st.getSeafdir dirId = some es ∧ st ≤ st' ∧ (id' = dirId ∨ st'.getSeafdir id' =
      some ((Server.sortDirents es).filter fun old => !filenames.contains old.name)) := by
  obtain ⟨olddir, hold, h⟩ := bind_eq_some_iff.mp h
  obtain ⟨es, hes, rfl⟩ := map_eq_some_iff.mp hold
  refine ⟨es, hes, ?_⟩
  split at h
  · cases h
  simp only at h
  split at h
  · cases h
    exact ⟨le_rfl, Or.inl rfl⟩
  · obtain ⟨st₁, hsave, heq⟩ := map_eq_some_iff.mp h
    cases heq
    exact (FsStore.saveSeafdir_spec hsave).imp id Or.inr

theorem delFileRecursive_cons {part : Name} {remain : List Name}
    (h : Server.delFileRecursive e filenames (part :: remain) st dirId = some (st', id', n)) :
    ∃ es dent st₁ id₁ n₁, st.getSeafdir dirId = some es ∧
      findDirent part (Server.sortDirents es) = some dent ∧
      Server.delFileRecursive e filenames remain st dent.id = some (st₁, id₁, n₁) ∧ st₁ ≤ st' ∧
      (id' = dirId ∨ st'.getSeafdir id' =
        some (Server.replaceDir e.now part id₁ (Server.sortDirents es))) := by
  obtain ⟨olddir, hold, h⟩ := bind_eq_some_iff.mp h
  obtain ⟨es, hes, rfl⟩ := map_eq_some_iff.mp hold
  obtain ⟨dent, hdent, h⟩ := bind_eq_some_iff.mp h
  obtain ⟨⟨st₁, id₁, n₁⟩, hrec, h⟩ := bind_eq_some_iff.mp h
  refine ⟨es, dent, st₁, id₁, n₁, hes, hdent, hrec, ?_⟩
  split at h
  · cases h
    exact ⟨le_rfl, Or.inl rfl⟩
  · obtain ⟨st₂, hsave, heq⟩ := map_eq_some_iff.mp h
    cases heq
    exact (FsStore.saveSeafdir_spec hsave).imp id Or.inr

theorem delFileRecursive_le
    (h : Server.delFileRecursive e filenames parts st dirId = some (st', id', n)) : st ≤ st' := by
  induction parts generalizing st st' dirId id' n with
  | nil =>
    obtain ⟨-, -, hle, -⟩ := delFileRecursive_nil h
    exact hle
  | cons part remain ih =>
    obtain ⟨_, _, _, _, _, -, -, hrec, hle, -⟩ := delFileRecursive_cons h
    exact (ih hrec).trans hle

end CloudFile
