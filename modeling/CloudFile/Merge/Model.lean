/-
  The three-way merge of directory trees (`common/merge-new.c`, `fileserver/merge.go`). The files
  of a row are merged first, which may rename its remote entry in place; then its directories,
  which may go on below. The state is the object store, the conflict flag and the id of the last
  merged tree. The servers differ in what counts as a file and in how they collect and sort the
  merged entries.
-/
import CloudFile.Merge.ConflictName
import Mathlib.Data.List.Sort

namespace CloudFile

open SortedWalk

variable {Id : Type} [ObjectId Id] [DecidableEq Id]

/-- The entries of one name: `dents[0]`, `dents[1]` and `dents[2]`. -/
structure Dents (Id : Type) where
  base : Option (Dirent Id)
  head : Option (Dirent Id)
  remote : Option (Dirent Id)

def Dents.ofRow : Row Id → Option (Dents Id)
  | [base, head, remote] => some ⟨base, head, remote⟩
  | _ => none

/-- The directories at one path: `trees[0]`, `trees[1]` and `trees[2]`; some may be missing. -/
structure Trees (Id : Type) where
  base : Option (List (Dirent Id))
  head : Option (List (Dirent Id))
  remote : Option (List (Dirent Id))

def Trees.lists (t : Trees Id) : List (List (Dirent Id)) :=
  [t.base.getD [], t.head.getD [], t.remote.getD []]

structure MergeState (Id : Type) [ObjectId Id] where
  store : FsStore Id
  conflict : Bool
  mergedTreeRoot : Id

def hasId (d : Option (Dirent Id)) (id : Id) : Bool :=
  match d with
  | some d => d.id = id
  | none => false

omit [ObjectId Id] in
@[simp] theorem hasId_some (d : Dirent Id) (id : Id) : hasId (some d) id = decide (d.id = id) := rfl

omit [ObjectId Id] in
@[simp] theorem hasId_none (id : Id) : hasId none id = false := rfl

/-- The directory of an entry, if it is one; fails if it cannot be read. -/
def loadTree (st : FsStore Id) (d : Option (Dirent Id)) : Option (Option (List (Dirent Id))) :=
  match d.filter Dirent.isDir with
  | some d => (st.getSeafdir d.id).map some
  | none => some none

def loadTrees (st : FsStore Id) (dents : Dents Id) : Option (Trees Id) :=
  loadTree st dents.base >>= fun base => loadTree st dents.head >>= fun head =>
    loadTree st dents.remote >>= fun remote => some ⟨base, head, remote⟩

def Dents.dirname (dents : Dents Id) : Name :=
  match dents.base.filter Dirent.isDir, dents.head.filter Dirent.isDir,
      dents.remote.filter Dirent.isDir with
  | _, _, some d => d.name
  | _, some d, none => d.name
  | some d, none, none => d.name
  | none, none, none => []

/-- Keep the merged tree as `mergedTreeRoot`, and save it unless it is the tree of head or of
    remote. -/
def saveMerged (writeObj : Id → Bool) (t : Trees Id) (merged : List (Dirent Id))
    (s : MergeState Id) : Option (MergeState Id) :=
  let s := { s with mergedTreeRoot := seafDirId merged }
  if t.head.map seafDirId = some (seafDirId merged) ∨
      t.remote.map seafDirId = some (seafDirId merged) then some s
  else (s.store.saveSeafdir writeObj merged).map fun store => { s with store := store }

section Merge

variable (isFile : Dirent Id → Bool) (names : ConflictNames)
  (recurse : Trees Id → List Name → MergeState Id → Option (MergeState Id))

/-- `threeway_merge`, `mergeEntries`: the files of a row. Returns the row, with the remote entry
    renamed in place on a conflict, and the entries that are put. -/
def mergeEntries (basedir : List Name) (dents : Dents Id) (s : MergeState Id) :
    Option (Dents Id × List (Dirent Id) × MergeState Id) :=
  match dents.base.filter isFile, dents.head.filter isFile, dents.remote.filter isFile with
  | base, some head, some remote =>
    if head.id = remote.id then some (dents, [head], s)
    else if hasId base head.id then some (dents, [remote], s)
    else if hasId base remote.id then some (dents, [head], s)
    else
      -- file content conflict
      (names.fileName basedir head.name).map fun conflictName =>
        let remote := remote.withName conflictName
        ({ dents with remote := some remote }, [head, remote], { s with conflict := true })
  | some base, none, some remote =>
    if base.id ≠ remote.id then
      if dents.head.isSome then
        -- head replaces the file with a directory, remote changes the file
        (names.fileName basedir remote.name).map fun conflictName =>
          let remote := remote.withName conflictName
          ({ dents with remote := some remote }, [remote], { s with conflict := true })
      else some (dents, [remote], s)
    else some (dents, [], s)
  | some base, some head, none =>
    if base.id ≠ head.id then
      match dents.remote with
      | some remoteDir =>
        -- remote replaces the file with a directory, head changes the file
        (names.dirName basedir remoteDir.name).map fun conflictName =>
          ({ dents with remote := some (remoteDir.withName conflictName) }, [head],
            { s with conflict := true })
      | none => some (dents, [head], s)
    else some (dents, [], s)
  | none, none, some remote =>
    match dents.head with
    | none => some (dents, [remote], s)
    | some headDir =>
      if hasId dents.base headDir.id then some (dents, [remote], s)
      else (names.fileName basedir remote.name).map fun conflictName =>
        let remote := remote.withName conflictName
        ({ dents with remote := some remote }, [remote], { s with conflict := true })
  | none, some head, none =>
    match dents.remote with
    | none => some (dents, [head], s)
    | some remoteDir =>
      if hasId dents.base remoteDir.id then some (dents, [head], s)
      else (names.dirName basedir remoteDir.name).map fun conflictName =>
        ({ dents with remote := some (remoteDir.withName conflictName) }, [head],
          { s with conflict := true })
  | _, none, none => some (dents, [], s)

/-- `merge_directories`, `mergeDirectories`: the directories of a row, by the cases of
    `dir_mask`. -/
def mergeDirectories (basedir : List Name) (dents : Dents Id) (s : MergeState Id) :
    Option (List (Dirent Id) × MergeState Id) :=
  let below (merged : Dirent Id) : Option (List (Dirent Id) × MergeState Id) :=
    loadTrees s.store dents >>= fun subDirs =>
      recurse subDirs (basedir ++ [dents.dirname]) s >>= fun s =>
        some ([merged.withId s.mergedTreeRoot], s)
  match dents.base.filter Dirent.isDir, dents.head.filter Dirent.isDir,
      dents.remote.filter Dirent.isDir with
  | none, none, none => none
  | some _, none, none => some ([], s)
  | none, some head, none => some ([head], s)
  | some base, some head, none => if base.id = head.id then some ([], s) else below head
  | none, none, some remote => some ([remote], s)
  | some base, none, some remote => if base.id = remote.id then some ([], s) else below remote
  | _, some head, some remote =>
    -- the base entry may be of any kind here
    if head.id = remote.id then some ([head], s)
    else if hasId dents.base head.id then some ([remote], s)
    else if hasId dents.base remote.id then some ([head], s)
    else below head

/-- The body of the loop over the rows of the walk. -/
def mergeRow (basedir : List Name) (acc : List (Dirent Id) × MergeState Id) (row : Row Id) :
    Option (List (Dirent Id) × MergeState Id) :=
  Dents.ofRow row >>= fun dents =>
    let nFiles := row.countP fun d => (d.filter isFile).isSome
    let nDirs := row.countP fun d => (d.filter Dirent.isDir).isSome
    (if nFiles > 0 then mergeEntries isFile names basedir dents acc.2
      else some (dents, [], acc.2)) >>= fun r =>
    (if nDirs > 0 then mergeDirectories recurse basedir r.1 r.2.2
      else some ([], r.2.2)) >>= fun r' =>
    some (acc.1 ++ r.2.1 ++ r'.1, r'.2)

variable (treeWalk : List (List (Dirent Id)) → List (Row Id))
  (arrange : List (Dirent Id) → List (Dirent Id)) (writeObj : Id → Bool)

/-- `merge_trees_recursive`, `mergeTreesRecursive`; `arrange` gets the entries in the order in
    which they were put. -/
def mergeTreesRecursive : ℕ → Trees Id → List Name → MergeState Id → Option (MergeState Id)
  | 0, _, _, _ => none
  | fuel + 1, trees, basedir, s =>
    (treeWalk trees.lists).foldlM
        (mergeRow isFile names (mergeTreesRecursive fuel) basedir) ([], s) >>= fun r =>
      saveMerged writeObj trees (arrange r.1) r.2

/-- The merge of the trees of three roots. -/
def mergeRoots (fuel : ℕ) (st : FsStore Id) (base head remote : Id) : Option (MergeState Id) :=
  st.getSeafdir base >>= fun b => st.getSeafdir head >>= fun h => st.getSeafdir remote >>= fun r =>
    mergeTreesRecursive isFile names treeWalk arrange writeObj fuel ⟨some b, some h, some r⟩ []
      ⟨st, false, emptySha1⟩

end Merge

namespace Server

/-- `g_list_sort` with `compare_dirents`: a stable sort by descending name. -/
def sortDirents (dents : List (Dirent Id)) : List (Dirent Id) :=
  dents.insertionSort fun a b => b.name ≤ a.name

/-- `seaf_merge_trees` with three roots: regular files are files, and each entry that is put is
    prepended. -/
def seafMergeTrees (names : ConflictNames) (writeObj : Id → Bool) (fuel : ℕ) (st : FsStore Id)
    (base head remote : Id) : Option (MergeState Id) :=
  mergeRoots Dirent.isReg names treeWalk (fun dents => sortDirents dents.reverse) writeObj fuel st
    base head remote

end Server

namespace Fileserver

/-- Everything but a directory is merged like a file. -/
def isFile (d : Dirent Id) : Bool := !d.isDir

/-- `mergeTrees`: each entry that is put is appended; `sortDents` is what `sort.Sort` does with
    them. -/
def mergeTrees (names : ConflictNames) (writeObj : Id → Bool)
    (sortDents : List (Dirent Id) → List (Dirent Id)) (fuel : ℕ) (st : FsStore Id)
    (base head remote : Id) : Option (MergeState Id) :=
  mergeRoots isFile names treeWalk sortDents writeObj fuel st base head remote

/-- What `sort.Sort` promises: the same elements, by descending name; equal names come in any
    order. -/
def SortsDirents (sortDents : List (Dirent Id) → List (Dirent Id)) : Prop :=
  ∀ l, (sortDents l).Perm l ∧ (sortDents l).Pairwise fun a b => b.name ≤ a.name

end Fileserver

end CloudFile
