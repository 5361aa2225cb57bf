/-
  Moving files and directories (`server/repo-op.c`, `common/rpc-service.c`). A move adds the
  entries to the destination directory and then deletes their names from the source directory,
  with both paths made canonical. The test that no directory is moved below itself, and the
  lookup, take the paths as they come.
-/
import CloudFile.Delete.Model
import CloudFile.Publish.IfHead

namespace CloudFile

open SortedWalk GoPath GLibPath

variable {Id : Type} [ObjectId Id] [DecidableEq Id]

/-! ## The request -/

/-- A library: its id, and the origin and the folder of a virtual one. -/
structure MoveRepo where
  repoId : RepoId
  virtualInfo : Option (RepoId × Name)
deriving DecidableEq

/-- A move, with the paths as `seafile_move_file` gets them, in their normal form; a list that
    cannot be read is empty. -/
structure Move (Id : Type) where
  srcRepo : MoveRepo
  srcDir : Name
  srcNames : List Name
  /-- none for the source library -/
  otherRepo : Option MoveRepo
  dstDir : Name
  dstNames : List Name
  replace : Bool
  user : Name
  /-- the root in the record of the source library -/
  srcRoot : Id
  /-- the root that the entries are added to -/
  dstRoot : Id
  /-- the root of a virtual library or its origin when the names are deleted -/
  delRoot : Id

def Move.dstRepo (m : Move Id) : MoveRepo := m.otherRepo.getD m.srcRepo

/-- What the steps answer, with the times and the storage of the two rewrites. -/
structure MoveEnv (Id : Type) where
  repos : Bool
  dstHead : Bool
  prepare : Except GErr Unit
  commit : Except GErr Unit
  writeObj : Id → Bool
  putTime : ℕ → ℤ
  delTime : ℤ

inductive Moved (Id : Type) [ObjectId Id] where
  /-- nothing is published; some failures set no error -/
  | refused (error : Option GErr)
  /-- the library is published with this root -/
  | sameRepo (st : FsStore Id) (root : Id)
  /-- the destination is published with this root; the source is, if the deletion goes through -/
  | virtualRepo (st : FsStore Id) (root : Id) (deleted : Option (FsStore Id × Id))
  /-- left to a copy between libraries -/
  | crossRepo

/-- The text of a path of a library, behind the folder of a virtual one. -/
def MoveRepo.text (repo : MoveRepo) (path : Name) : Name := match repo.virtualInfo with
  | some (_, folder) => gBuildPath [folder, path]
  | none => path

/-- The text of an entry, with a slash after it. -/
def MoveRepo.entryText (repo : MoveRepo) (path name : Name) : Name := match repo.virtualInfo with
  | some (_, folder) => gBuildPath [folder, path, name, ['/']]
  | none => gBuildPath [path, name, ['/']]

def Moved.publishedRoot : Moved Id → Option Id
  | .refused _ | .crossRepo => none
  | .sameRepo _ root | .virtualRepo _ root _ => some root

namespace Server

def isVirtualRepoAndOrigin (repo1 repo2 : MoveRepo) : Bool :=
  repo1.virtualInfo.any (fun v => v.1 = repo2.repoId) ||
    repo2.virtualInfo.any (fun v => v.1 = repo1.repoId)

def checkMove (srcRepo dstRepo : MoveRepo) (srcPath dstPath : Name) (srcNames : List Name) : Bool :=
  srcNames.all fun name =>
    !(srcRepo.entryText srcPath name).isPrefixOf (dstRepo.text dstPath)

/-- `get_sub_dirents_hash_map`; of entries with one name the last one is kept. -/
def getSubDirentsHashMap (st : FsStore Id) (rootId : Id) (parentDir : Name) :
    Option (Name → Option (Dirent Id)) :=
  match getSeafdirByPath st rootId parentDir with
  | .error _ => none
  | .ok dir => some fun name => dir.entries.reverse.find? fun d => d.name = name

/-- The entries of the source names, under the names of the destination. -/
def dstDents (user : Name) (srcDents : List (Dirent Id)) (dstNames : List Name) :
    List (Dirent Id) :=
  srcDents.zipWith (fun d name => seafDirentNew d.mode d.id name d.mtime user d.size) dstNames

def srcParts (path : Name) : List Name := gStrsplit (skipSlash (getCanonicalPath path))

/-- `move_file_same_repo`, up to the commit. -/
def moveFileSameRepo (e : MoveEnv Id) (st : FsStore Id) (rootId : Id) (srcNames : List Name)
    (srcPath dstPath : Name) (dents : List (Dirent Id)) (replace : Bool) (user : Name) :
    Option (FsStore Id × Id) :=
  doPostMultiFiles e.writeObj e.putTime st rootId (getCanonicalPath dstPath) dents user replace []
    >>= fun w => (delFileRecursive ⟨e.writeObj, e.delTime⟩ srcNames (srcParts srcPath) w.store
      w.dirID).map fun r => (r.1, r.2.1)

def findSrcDents (dirents : Name → Option (Dirent Id)) :
    List Name → Except (Option GErr) (List (Dirent Id))
  | [] => .ok []
  | name :: names =>
    if name = [] then .error (some ⟨.badArgs, "Empty src_filenames"⟩)
    else match dirents name with
      | none => .error none
      | some d => (findSrcDents dirents names).map (d :: ·)

def moveDents (st : FsStore Id) (m : Move Id) : Except (Option GErr) (List (Dirent Id)) :=
  match getSubDirentsHashMap st m.srcRoot (formatDirPath m.srcDir) with
  | none => .error none
  | some dirents => match findSrcDents dirents m.srcNames with
    | .error e => .error e
    | .ok srcDents =>
      if m.dstNames.any List.isEmpty then .error (some ⟨.badArgs, "Empty dst_filenames"⟩)
      else .ok (dstDents m.user srcDents m.dstNames)

/-- The publication: within a library, or between a virtual library and its origin. -/
def movePublish (e : MoveEnv Id) (st : FsStore Id) (m : Move Id) (dents : List (Dirent Id)) :
    Moved Id :=
  let srcPath := formatDirPath m.srcDir
  let dstPath := formatDirPath m.dstDir
  if m.otherRepo = none then
    match moveFileSameRepo e st m.dstRoot m.srcNames srcPath dstPath dents m.replace m.user with
    | none => .refused (some ⟨.badArgs, "move file failed"⟩)
    | some (st', root) => match e.commit with
      | .error err => .refused (some err)
      | .ok () => .sameRepo st' root
  else
    -- `put_dirent_and_commit` gets no place for an error
    match doPostMultiFiles e.writeObj e.putTime st m.dstRoot dstPath dents m.user m.replace [] with
    | none => .refused none
    | some w => match e.commit with
      | .error _ => .refused none
      | .ok () => .virtualRepo w.store w.dirID
          (delFile ⟨e.writeObj, e.delTime⟩ w.store m.delRoot srcPath m.srcNames)

/-- `seafile_move_file` and `seaf_repo_manager_move_multiple_files` -/
def moveMultipleFiles (e : MoveEnv Id) (st : FsStore Id) (m : Move Id) : Moved Id :=
  if !e.repos then .refused (some ⟨.badArgs, "Invalid repo"⟩)
  else if !e.dstHead then .refused (some ⟨.badArgs, "Invalid commit"⟩)
  else if m.srcNames = [] ∨ m.dstNames = [] then
    .refused (some ⟨.badArgs, "Load filenames to json failed"⟩)
  else if m.dstNames.length ≠ m.srcNames.length then
    .refused (some ⟨.badArgs, "The number of files in the parameters does not match"⟩)
  else match e.prepare with
    | .error err => .refused (some err)
    | .ok () =>
      if m.otherRepo = none ∨ isVirtualRepoAndOrigin m.srcRepo m.dstRepo then
        if !checkMove m.srcRepo m.dstRepo (formatDirPath m.srcDir) (formatDirPath m.dstDir)
            m.srcNames then
          .refused (some ⟨.general, "Can not move directory to its subdirectory"⟩)
        else match moveDents st m with
          | .error err => .refused err
          | .ok dents => movePublish e st m dents
      else .crossRepo

end Server

end CloudFile
