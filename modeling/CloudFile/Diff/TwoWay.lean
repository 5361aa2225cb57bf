/-
  The two-way diff of directory trees, before rename resolution (`common/diff-simple.c`,
  `fileserver/diff/diff.go`). The two diffs share the walker up to the loop that forms the rows,
  the end of the list at which a result is put, and the way its path is written. On readable trees
  both put the items of `report`.
-/
import CloudFile.Fs.TreeWalk
import CloudFile.Lib.GoPath

namespace CloudFile

open SortedWalk GoPath List Option

variable {Id σ : Type} [ObjectId Id] [DecidableEq Id]

inductive DiffStatus where
  | added
  | deleted
  | modified
  | renamed
  | unmerged
  | dirAdded
  | dirDeleted
  | dirRenamed
deriving DecidableEq

structure DiffEntry (Id : Type) where
  status : DiffStatus
  sha1 : Id
  name : Name
  size : ℤ
  originSize : ℤ
deriving DecidableEq

/-- The callbacks of a diff; a directory callback also says whether to go on below. -/
structure DiffOptions (Id σ : Type) where
  fileCb : Name → Row Id → σ → Option σ
  dirCb : Name → Row Id → σ → Option (σ × Bool)

def direntSame (a b : Dirent Id) : Bool := a.id = b.id && a.mode = b.mode && a.mtime = b.mtime

def rowSame : Row Id → Bool
  | [some a, some b] => direntSame a b
  | [some a, some b, some c] => direntSame a b && direntSame a c
  | _ => false

def diffFiles (opt : DiffOptions Id σ) (dents : Row Id) (basedir : Name) (s : σ) : Option σ :=
  let files := dents.map (Option.filter Dirent.isReg)
  if files.all Option.isNone then some s else opt.fileCb basedir files s

/-- The directory of an entry; a place without one is walked as an empty list. -/
def loadSubDir (st : FsStore Id) : Option (Dirent Id) → Option (List (Dirent Id))
  | none => some []
  | some d => st.getSeafdir d.id

def dirName (dirs : Row Id) : Name :=
  dirs.foldl (fun dirname d => match d with
    | some d => d.name
    | none => dirname) []

def diffDirectories (st : FsStore Id) (opt : DiffOptions Id σ)
    (recurse : List (List (Dirent Id)) → Name → σ → Option σ) (dents : Row Id) (basedir : Name)
    (s : σ) : Option σ :=
  let dirs := dents.map (Option.filter Dirent.isDir)
  if dirs.all Option.isNone then some s
  else opt.dirCb basedir dirs s >>= fun r =>
    if r.2 then dirs.mapM (loadSubDir st) >>= fun subDirs =>
      recurse subDirs (basedir ++ dirName dirs ++ ['/']) r.1
    else some r.1

def diffRow (st : FsStore Id) (opt : DiffOptions Id σ)
    (recurse : List (List (Dirent Id)) → Name → σ → Option σ) (basedir : Name) (s : σ)
    (dents : Row Id) : Option σ :=
  if rowSame dents then some s
  else diffFiles opt dents basedir s >>= diffDirectories st opt recurse dents basedir

/-- `diff_trees_recursive`, `diffTreesRecursive`, over the rows that the loop forms. -/
def diffTreesRecursive (treeWalk : List (List (Dirent Id)) → List (Row Id)) (st : FsStore Id)
    (opt : DiffOptions Id σ) : ℕ → List (List (Dirent Id)) → Name → σ → Option σ
  | 0, _, _, _ => none
  | fuel + 1, trees, basedir, s =>
    (treeWalk trees).foldlM
      (diffRow st opt (diffTreesRecursive treeWalk st opt fuel) basedir) s

def diffTrees (treeWalk : List (List (Dirent Id)) → List (Row Id)) (st : FsStore Id)
    (opt : DiffOptions Id σ) (fuel : ℕ) (roots : List Id) (s : σ) : Option σ :=
  roots.mapM st.getSeafdir >>= fun trees => diffTreesRecursive treeWalk st opt fuel trees [] s

/-! ## The callbacks of the two-way diff -/

/-- How a server writes a result: the path of an entry, and the place in the list. -/
structure Results (Id : Type) where
  path : Name → Name → Name
  push : List (DiffEntry Id) → DiffEntry Id → List (DiffEntry Id)

def diffEntryNewFromDirent (w : Results Id) (status : DiffStatus) (dent : Dirent Id)
    (basedir : Name) : DiffEntry Id where
  status := status
  sha1 := dent.id
  name := w.path basedir dent.name
  size := dent.size
  originSize := 0

def twowayDiffFiles (w : Results Id) (basedir : Name) (files : Row Id)
    (results : List (DiffEntry Id)) : Option (List (DiffEntry Id)) :=
  match files with
  | [none, some tree2] =>
    some (w.push results (diffEntryNewFromDirent w .added tree2 basedir))
  | [some tree1, none] =>
    some (w.push results (diffEntryNewFromDirent w .deleted tree1 basedir))
  | [some tree1, some tree2] =>
    if direntSame tree1 tree2 then some results
    else some (w.push results
      { diffEntryNewFromDirent w .modified tree2 basedir with originSize := tree1.size })
  | _ => none

def twowayDiffDirs (w : Results Id) (foldDirDiff : Bool) (basedir : Name) (dirs : Row Id)
    (results : List (DiffEntry Id)) : Option (List (DiffEntry Id) × Bool) :=
  match dirs with
  | [none, some tree2] =>
    if tree2.id = emptySha1 ∨ foldDirDiff = true then
      some (w.push results (diffEntryNewFromDirent w .dirAdded tree2 basedir), false)
    else some (results, true)
  | [some tree1, none] =>
    some (w.push results (diffEntryNewFromDirent w .dirDeleted tree1 basedir), !foldDirDiff)
  | [some _, some _] => some (results, true)
  | _ => none

def twoway (w : Results Id) (foldDirDiff : Bool) : DiffOptions Id (List (DiffEntry Id)) where
  fileCb := twowayDiffFiles w
  dirCb := twowayDiffDirs w foldDirDiff

namespace Server

def results : Results Id where
  path basedir name := basedir ++ name
  push results de := de :: results

/-- `diff_commit_roots` up to the call of `diff_resolve_renames`. -/
def diffCommitRoots (st : FsStore Id) (fuel : ℕ) (root1 root2 : Id) (foldDirDiff : Bool) :
    Option (List (DiffEntry Id)) :=
  diffTrees treeWalk st (twoway results foldDirDiff) fuel [root1, root2] []

end Server

namespace Fileserver

def results : Results Id where
  path basedir name := join [basedir, name]
  push results de := results ++ [de]

/-- `DiffCommitRoots` up to the call of `diffResolveRenames`. -/
def diffCommitRoots (st : FsStore Id) (fuel : ℕ) (root1 root2 : Id) (foldDirDiff : Bool) :
    Option (List (DiffEntry Id)) :=
  diffTrees treeWalk st (twoway results foldDirDiff) fuel [root1, root2] []

end Fileserver

/-! ## What is reported -/

/-- A difference at an entry below the directory `parent`. -/
structure DiffItem (Id : Type) where
  status : DiffStatus
  dent : Dirent Id
  parent : List Name
  originSize : ℤ

def DiffItem.toEntry (w : Results Id) (x : DiffItem Id) : DiffEntry Id :=
  { diffEntryNewFromDirent w x.status x.dent (basedirOf x.parent) with originSize := x.originSize }

def fileItems (o n : Option (Dirent Id)) (parent : List Name) : List (DiffItem Id) :=
  match o, n with
  | none, none => []
  | none, some tree2 => [⟨.added, tree2, parent, 0⟩]
  | some tree1, none => [⟨.deleted, tree1, parent, 0⟩]
  | some tree1, some tree2 =>
    if direntSame tree1 tree2 then [] else [⟨.modified, tree2, parent, tree1.size⟩]

/-- The difference of two directories of one name, and whether to look below. -/
def dirItems (foldDirDiff : Bool) (o n : Option (Dirent Id)) (parent : List Name) :
    List (DiffItem Id) × Bool :=
  match o, n with
  | none, none => ([], false)
  | none, some tree2 =>
    if tree2.id = emptySha1 ∨ foldDirDiff = true then ([⟨.dirAdded, tree2, parent, 0⟩], false)
    else ([], true)
  | some tree1, none => ([⟨.dirDeleted, tree1, parent, 0⟩], !foldDirDiff)
  | some _, some _ => ([], true)

/-- The results after the items. -/
def putAll (w : Results Id) (results : List (DiffEntry Id)) (items : List (DiffItem Id)) :
    List (DiffEntry Id) :=
  items.foldl (fun results x => w.push results (x.toEntry w)) results

variable {w : Results Id} {foldDirDiff : Bool} {o n : Option (Dirent Id)}

omit [ObjectId Id] in
theorem twowayDiffFiles_eq (h : ¬ (o = none ∧ n = none)) (parent : List Name)
    (rs : List (DiffEntry Id)) :
    twowayDiffFiles w (basedirOf parent) [o, n] rs =
      some (putAll w rs (fileItems o n parent)) := by
  cases o with
  | none =>
    cases n with
    | none => exact absurd ⟨rfl, rfl⟩ h
    | some t2 => rfl
  | some t1 =>
    cases n with
    | none => rfl
    | some t2 =>
      simp only [twowayDiffFiles, fileItems]
      split_ifs <;> rfl

theorem twowayDiffDirs_eq (h : ¬ (o = none ∧ n = none)) (parent : List Name)
    (rs : List (DiffEntry Id)) :
    twowayDiffDirs w foldDirDiff (basedirOf parent) [o, n] rs =
      some (putAll w rs (dirItems foldDirDiff o n parent).1,
        (dirItems foldDirDiff o n parent).2) := by
  cases o with
  | none =>
    cases n with
    | none => exact absurd ⟨rfl, rfl⟩ h
    | some t2 =>
      simp only [twowayDiffDirs, dirItems]
      split_ifs <;> rfl
  | some t1 => cases n <;> rfl

end CloudFile
