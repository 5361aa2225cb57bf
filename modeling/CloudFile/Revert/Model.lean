/-
  Restoring a file from an old commit (`server/repo-op.c`). The parent directory is made in a
  commit of its own if it is missing, and the old entry goes into it. A file of the name is
  overwritten. Where the name is that of a directory, the name gets a number and is tried again.
-/
import CloudFile.Move.Rewrites

namespace CloudFile

open GoPath GLibPath

variable {Id : Type}

namespace Server

/-! ## Names -/

/-- `filename_splitext`: the text before the last dot, and the one from it on. -/
def filenameSplitext (filename : Name) : Name × Option Name :=
  if '.' ∈ filename then
    ((filename.rdropWhile (· ≠ '.')).dropLast, some ('.' :: filename.rtakeWhile (· ≠ '.')))
  else (filename, none)

/-- What `%s` writes: the C library has a text for a null pointer. -/
def printed : Option Name → Name
  | some s => s
  | none => "(null)".toList

/-- `"%s (%d)%s"` of the base name, a number and the extension -/
def renamed (filename : Name) (i : ℕ) : Name :=
  (filenameSplitext filename).1 ++ " (".toList ++ (Nat.repr i).toList ++ ")".toList ++
    printed (filenameSplitext filename).2

/-- Where the loop of `revert_file_to_parent_dir` ends. -/
inductive Place where
  | skipped
  | overwrite (name : Name)
  | insert (name : Name)
deriving DecidableEq

/-- The loop of `revert_file_to_parent_dir`, for at most `left` rounds -/
def placeFrom [DecidableEq Id] (entries : List (Dirent Id)) (oldDent : Dirent Id) :
    ℕ → ℕ → Name → Option Place
  | 0, _, _ => none
  | left + 1, i, newFileName =>
    match entries.find? fun dent => dent.name = newFileName && (dent.isReg || dent.isDir) with
    | none => some (.insert newFileName)
    | some dent =>
      if dent.isReg then
        if dent.id = oldDent.id then some .skipped else some (.overwrite newFileName)
      else placeFrom entries oldDent left (i + 1) (renamed oldDent.name i)

/-- A round takes a directory of its own, so there are at most as many rounds as entries, and the
    last. -/
def place [DecidableEq Id] (entries : List (Dirent Id)) (oldDent : Dirent Id) : Option Place :=
  placeFrom entries oldDent (entries.length + 1) 1 oldDent.name

/-! ## Making the parent directory -/

/-- What the steps of the call answer -/
structure RevertEnv (Id : Type) where
  writeObj : Id → Bool
  now : ℕ → ℤ
  mkdirNow : ℕ → ℕ → ℤ
  mkdirTime : ℕ → ℤ
  /-- `CF_FILEOP_PREPARE` -/
  prepare : Bool
  mkdirPrepare : Bool
  genNewCommit : Bool
  mkdirGenNewCommit : Bool
  /-- The library and its head can be read again. -/
  reread : Bool

inductive RevertErr where
  | badArgs (message : String)
  | badCommit (message : String)
  | general (message : String)
  /-- the error of `CF_FILEOP_PREPARE` -/
  | refused
  /-- the error of `gen_new_commit` -/
  | unpublished
  /-- `-1` with no error -/
  | unset
deriving DecidableEq

variable [ObjectId Id] [DecidableEq Id]

/-- The loop of `mkdir_with_parents` from the last folder on: the path of the deepest one that
    exists, and those below it. -/
def missingDirs (st : FsStore Id) (rootId : Id) : List Name → Name → List Name → Name × List Name
  | [], absPath, uncre => (absPath, uncre)
  | sub :: subs, absPath, uncre =>
    if sub = [] then missingDirs st rootId subs absPath uncre
    else
      let parent := absPath.take (absPath.length - (sub.length + 1))
      if checkFileExists st rootId parent sub then (parent ++ '/' :: sub, uncre)
      else missingDirs st rootId subs parent (sub :: uncre)

/-- The loop of `mkdir_with_parents` over the folders that do not exist; `k` of them are made. -/
def createDirs (e : RevertEnv Id) : ℕ → List Name → FsStore Id → Id → Name →
    Option (Written Id Unit)
  | _, [], st, rootId, _ => some ⟨rootId, st, ()⟩
  | k, uncre :: rest, st, rootId, absPath =>
    doPostFileReplace e.writeObj (e.mkdirNow k) st rootId absPath false
        (.new sIfdir emptySha1 uncre (e.mkdirTime k) [] (-1)) >>= fun w =>
      createDirs e (k + 1) rest w.store w.dirID (absPath ++ '/' :: uncre)

/-- `seaf_repo_manager_mkdir_with_parents` for the parent directory `/`: the root of the head that
    it leaves. -/
def mkdirWithParents (e : RevertEnv Id) (st : FsStore Id) (rootId : Id) (newDirPath : Name) :
    Except RevertErr (FsStore Id × Id) :=
  if newDirPath.head? = some '/' ∨ newDirPath.head? = some '\\' then
    .error (.badArgs "Invalid relative path")
  else
    let relativeDirCan := getCanonicalPath newDirPath
    let subFolders := gStrsplit relativeDirCan
    if subFolders.any fun sub => sub ≠ [] && shouldIgnoreFile sub then
      .error (.badArgs "Invalid dir name")
    else if e.mkdirPrepare = false then .error .refused
    else
      let missing := missingDirs st rootId subFolders.reverse ('/' :: relativeDirCan) []
      if missing.2 = [] then .ok (st, rootId)
      else match createDirs e 0 missing.2 st rootId missing.1 with
        | none => .error (.general "Failed to put dir")
        | some w => if e.mkdirGenNewCommit then .ok (w.store, w.dirID) else .error .unpublished

/-! ## The call -/

def getDirentByPath (st : FsStore Id) (rootId : Id) (path fileName : Name) :
    Except RevertErr (Dirent Id) :=
  match getSeafdirByPath st rootId path with
  | .error _ => .error (.badArgs "Invalid dir")
  | .ok dir => match findDirent fileName dir.entries with
    | none => .error (.badArgs "failed to get dirent")
    | some dent => .ok dent

def detectPathExist (st : FsStore Id) (rootId : Id) (path : Name) : Except PathErr Bool :=
  match getSeafdirByPath st rootId path with
  | .ok _ => .ok true
  | .error .pathNoExist => .ok false
  | .error err => .error err

/-- `revert_file_to_parent_dir`: the new root, or none if the file is skipped. -/
def revertFileToParentDir (e : RevertEnv Id) (st : FsStore Id) (rootId : Id) (parentDir : Name)
    (oldDent : Dirent Id) : Except RevertErr (Option (Written Id Unit)) :=
  match getSeafdirByPath st rootId parentDir with
  | .error _ => .error (.general "internal error")
  | .ok dir =>
    let newDent (name : Name) : Dirent Id :=
      .new stdFileMode oldDent.id name oldDent.mtime oldDent.modifier oldDent.size
    let written (w : Option (Written Id Unit)) : Except RevertErr (Option (Written Id Unit)) :=
      if w.isSome then .ok w else .error (.general "Failed to revert file")
    match place dir.entries oldDent with
    | some (.overwrite name) =>
      written (doPutFile e.writeObj e.now st rootId parentDir (newDent name))
    | some (.insert name) =>
      written (doPostFileReplace e.writeObj e.now st rootId parentDir false (newDent name))
    | _ => .ok none

/-- A call; the old root is there if its commit is of the library and not the head itself. -/
structure RevertCall (Id : Type) where
  filePath : Name
  headRoot : Id
  oldRoot : Option Id

def parentReady (e : RevertEnv Id) (st : FsStore Id) (headRoot : Id) (parentDir : Name) :
    Except RevertErr (FsStore Id × Id) :=
  match detectPathExist st headRoot parentDir with
  | .error _ => .error (.general "internal error")
  | .ok exist =>
    if e.prepare = false then .error .refused
    else if exist then .ok (st, headRoot)
    else match mkdirWithParents e st headRoot (stripSlash parentDir) with
      | .error _ => .error (.general "internal error")
      | .ok r => if e.reread then .ok r else .error (.badArgs "Invalid repo")

/-- `seaf_repo_manager_revert_file`, for an old commit other than the head: the objects and the
    root of the head. -/
def revertFile (e : RevertEnv Id) (st : FsStore Id) (c : RevertCall Id) :
    Except RevertErr (FsStore Id × Id) :=
  match c.oldRoot with
  | none => .error (.badCommit "bad commit id")
  | some oldRoot =>
    let canonPath := getCanonicalPath c.filePath
    if canonPath.getLast? = some '/' then .error (.badCommit "bad target file path")
    else
      let parentDir := gPathGetDirname canonPath
      match getDirentByPath st oldRoot parentDir (gPathGetBasename canonPath) with
      | .error err => .error err
      | .ok oldDent =>
        if oldDent.isDir then .error .unset
        else match parentReady e st c.headRoot parentDir with
          | .error err => .error err
          | .ok (st₁, root₁) => match revertFileToParentDir e st₁ root₁ parentDir oldDent with
            | .error err => .error err
            | .ok none => .ok (st₁, root₁)
            | .ok (some w) =>
              if e.genNewCommit then .ok (w.store, w.dirID) else .error .unpublished

end Server

end CloudFile
