/-
  Names of conflicting entries (`common/merge-new.c`, `common/vc-common.c`,
  `fileserver/merge.go`), made of the entry's name, an author and a time. Neither server looks
  whether the name is taken. What the history, the user directory and the clock answer is a
  parameter (`ConflictEnv`).
-/
import CloudFile.Fs.TreeWalk
import CloudFile.Lib.GoPath

namespace CloudFile

open GoPath

/-- What the generation of a conflict name reads. -/
structure ConflictEnv where
  /-- `get_file_modifier_mtime` in the remote head, if the file is found -/
  fileModifierMtime : Name → Option (Option Name × ℤ)
  /-- the creator of the remote head commit, if the commit is found -/
  creatorName : Option (Option Name)
  nickname : Option Name → Option Name
  now : ℤ
  formatTime : ℤ → Name

/-- The conflict name of an entry below a directory; none if it cannot be generated. -/
structure ConflictNames where
  fileName : List Name → Name → Option Name
  dirName : List Name → Name → Option Name

def conflictSuffix (modifier : Option Name) (timeBuf : Name) : Name :=
  match modifier with
  | some modifier => " (SFConflict ".toList ++ modifier ++ ' ' :: timeBuf ++ [')']
  | none => " (SFConflict ".toList ++ timeBuf ++ [')']

namespace Server

/-- `gen_conflict_path`: the suffix goes before the extension after the last dot. -/
def genConflictPath (originPath : Name) (modifier : Option Name) (timeBuf : Name) : Name :=
  if '.' ∈ originPath then
    (originPath.rdropWhile (· ≠ '.')).dropLast ++ conflictSuffix modifier timeBuf ++
      '.' :: originPath.rtakeWhile (· ≠ '.')
  else originPath ++ conflictSuffix modifier timeBuf

def mergeConflictFilename (env : ConflictEnv) (basedir filename : Name) : Option Name :=
  match env.fileModifierMtime (basedir ++ filename) with
  | some (modifier, mtime) =>
    some (genConflictPath filename (env.nickname modifier) (env.formatTime mtime))
  | none => env.creatorName.map fun creator =>
    genConflictPath filename (env.nickname creator) (env.formatTime env.now)

def mergeConflictDirname (env : ConflictEnv) (_basedir dirname : Name) : Option Name :=
  env.creatorName.map fun creator =>
    genConflictPath dirname (env.nickname creator) (env.formatTime env.now)

def conflictNames (env : ConflictEnv) : ConflictNames where
  fileName basedir := mergeConflictFilename env (basedirOf basedir)
  dirName basedir := mergeConflictDirname env (basedirOf basedir)

end Server

namespace Fileserver

/-- `genConflictPath`: the whole name, the suffix, and what follows the first dot.  The time
    is the present one, not the modification time. -/
def genConflictPath (originPath : Name) (modifier : Option Name) (timeBuf : Name) : Name :=
  if '.' ∈ originPath then
    originPath ++ conflictSuffix modifier timeBuf ++
      '.' :: (originPath.dropWhile (· ≠ '.')).tail
  else originPath ++ conflictSuffix modifier timeBuf

def mergeConflictFileName (env : ConflictEnv) (baseDir fileName : Name) : Option Name :=
  match env.fileModifierMtime (join [baseDir, fileName]) with
  | some (modifier, _) =>
    some (genConflictPath fileName (env.nickname modifier) (env.formatTime env.now))
  | none => env.creatorName.map fun creator =>
    genConflictPath fileName (env.nickname creator) (env.formatTime env.now)

/-- The directory prefix of a path as `mergeDirectories` carries it along. -/
def baseDirOf (parent : List Name) : Name :=
  parent.foldl (fun baseDir dirName => join [baseDir, dirName] ++ ['/']) []

/-- Files and directories get their conflict names from the same function. -/
def conflictNames (env : ConflictEnv) : ConflictNames where
  fileName baseDir := mergeConflictFileName env (baseDirOf baseDir)
  dirName baseDir := mergeConflictFileName env (baseDirOf baseDir)

end Fileserver

end CloudFile
