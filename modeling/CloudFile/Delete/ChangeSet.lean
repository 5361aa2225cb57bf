/-
  Change sets (`server/change-set.c`): a tree in memory from which entries are deleted before it is
  saved.

  A directory of a change set is a hash table of dirents.  A dirent has a `subdir` once a deletion
  has gone through it; before that its directory is the one in the store.  Directories are saved
  from the bottom up, with their dirents sorted, and the files among them get the mode bits 0644.
-/
import CloudFile.Merge.Model
import CloudFile.Fs.PathLookup

namespace CloudFile

open SortedWalk List
open Option hiding map_map mem_map

variable {Id : Type}

/-! ## The model -/

/-- The dirents of a directory, in the order of the hash table. -/
inductive ChangeSetDir (Id : Type) where
  | nil
  /-- a dirent whose `subdir` is `NULL` -/
  | dent (d : Dirent Id) (rest : ChangeSetDir Id)
  /-- a dirent with its `subdir` -/
  | loaded (d : Dirent Id) (subdir rest : ChangeSetDir Id)

namespace ChangeSetDir

/-- The dirents as a list. -/
def dents : ChangeSetDir Id → List (Dirent Id × Option (ChangeSetDir Id))
  | nil => []
  | dent d rest => (d, none) :: rest.dents
  | loaded d subdir rest => (d, some subdir) :: rest.dents

/-- The directory of a list of dirents. -/
def ofDents : List (Dirent Id × Option (ChangeSetDir Id)) → ChangeSetDir Id
  | [] => nil
  | (d, none) :: dents => dent d (ofDents dents)
  | (d, some subdir) :: dents => loaded d subdir (ofDents dents)

/-- `g_hash_table_lookup` -/
def lookup (dir : ChangeSetDir Id) (dname : Name) : Option (Dirent Id × Option (ChangeSetDir Id)) :=
  dir.dents.find? fun c => c.1.name = dname

/-- `remove_dent_from_dir` -/
def remove (dir : ChangeSetDir Id) (dname : Name) : ChangeSetDir Id :=
  ofDents (dir.dents.filter fun c => c.1.name ≠ dname)

/-- The dirent of the name gets its `subdir`. -/
def update (dir : ChangeSetDir Id) (dname : Name) (d : Dirent Id) (subdir : ChangeSetDir Id) :
    ChangeSetDir Id :=
  ofDents (dir.dents.map fun c => if c.1.name = dname then (d, some subdir) else c)

/-- `add_dent_to_dir`: a dirent of the same name is replaced. -/
def add (dir : ChangeSetDir Id) (d : Dirent Id) : ChangeSetDir Id := dent d (dir.remove d.name)

/-- `seaf_dir_to_changeset_dir` -/
def ofSeafDir (entries : List (Dirent Id)) : ChangeSetDir Id := entries.foldl add nil

end ChangeSetDir

/-- What `delete_from_tree` leaves, and whether the dirent stood in this very directory -/
structure Deletion (Id : Type) where
  dir : ChangeSetDir Id
  removed : Option (Dirent Id)
  here : Bool

/-- The dirent with another time. -/
def Dirent.withMtime (d : Dirent Id) (mtime : ℤ) : Dirent Id := { d with mtime := mtime }

/-- `changeset_dirent_to_seaf_dirent` -/
def changesetDirentToSeafDirent (d : Dirent Id) : Dirent Id :=
  Server.seafDirentNew d.mode d.id d.name d.mtime d.modifier d.size

theorem changesetDirentToSeafDirent_eq (d : Dirent Id) :
    changesetDirentToSeafDirent d = d.withFileMode := by
  obtain ⟨mode, id, name, mtime, modifier, size, plain⟩ := d
  cases hreg : sIsReg mode with
  | true =>
    simp [changesetDirentToSeafDirent, Server.seafDirentNew, Dirent.new, Dirent.withFileMode, hreg]
  | false =>
    obtain ⟨rfl, rfl⟩ := plain hreg
    simp [changesetDirentToSeafDirent, Server.seafDirentNew, Dirent.new, Dirent.withFileMode, hreg]

/-! ## Lookup in a change set -/

namespace ChangeSetDir

@[simp] theorem dents_ofDents (l : List (Dirent Id × Option (ChangeSetDir Id))) :
    (ofDents l).dents = l := by
  induction l with
  | nil => rfl
  | cons c l ih =>
    obtain ⟨d, _ | sub⟩ := c <;> simp [ofDents, dents, ih]

variable {dir : ChangeSetDir Id} {m : Name} {d : Dirent Id} {es : List (Dirent Id)}

theorem lookup_remove (dir : ChangeSetDir Id) (m n : Name) :
    (dir.remove m).lookup n = if n = m then none else dir.lookup n := by
  rw [lookup, remove, dents_ofDents, find?_filter]
  split
  next hn =>
    subst hn
    simp
  next hn =>
    refine congrArg (fun p => find? p dir.dents) (funext fun c => ?_)
    by_cases hc : c.1.name = n
    · simp [hc, hn]
    · simp [hc]

theorem lookup_update (dir : ChangeSetDir Id) (hname : d.name = m) (sub : ChangeSetDir Id)
    (n : Name) : (dir.update m d sub).lookup n =
      if n = m then (dir.lookup m).map fun _ => (d, some sub) else dir.lookup n := by
  simp only [lookup, update]
  induction dir.dents with
  | nil => split <;> rfl
  | cons c l ih =>
    by_cases hc : c.1.name = m
    · by_cases hn : n = m
      · simp [hc, hn, hname]
      · simpa [hc, hn, hname, Ne.symm hn] using ih
    · by_cases hn : c.1.name = n
      · have hnm : n ≠ m := fun h => hc (hn.trans h)
        simp [hn, hnm]
      · simpa [hc, hn] using ih

theorem lookup_add (dir : ChangeSetDir Id) (d : Dirent Id) (n : Name) :
    (dir.add d).lookup n = if n = d.name then some (d, none) else dir.lookup n := by
  have hcons : (dir.add d).lookup n =
      if d.name = n then some (d, none) else (dir.remove d.name).lookup n := by
    simp only [add, lookup, dents]
    by_cases hn : d.name = n <;> simp [hn]
  rw [hcons, lookup_remove]
  by_cases hn : n = d.name
  · simp [hn]
  · simp [hn, Ne.symm hn]

theorem lookup_foldl_add (hu : UniqueKeys Dirent.name es) (dir : ChangeSetDir Id) (n : Name) :
    (es.foldl add dir).lookup n =
      ((findDirent n es).map fun d => (d, none)).or (dir.lookup n) := by
  induction es generalizing dir with
  | nil => rfl
  | cons d es ih =>
    obtain ⟨hd, hes⟩ := nodup_cons.mp hu
    rw [foldl_cons, ih hes, lookup_add]
    by_cases hn : d.name = n
    · have hnone : findDirent n es = none :=
        find?_eq_none.mpr fun e he hname => hd (mem_map.mpr ⟨e, he, by
          simpa [hn] using hname⟩)
      have hcons : findDirent n (d :: es) = some d := by simp [findDirent, hn]
      simp [hnone, hcons, hn]
    · simp [findDirent, hn, Ne.symm hn]

theorem lookup_ofSeafDir (hu : UniqueKeys Dirent.name es) (n : Name) :
    (ofSeafDir es).lookup n = (findDirent n es).map fun d => (d, none) := by
  rw [ofSeafDir, lookup_foldl_add hu]
  exact or_none

/-- The keys of the hash table. -/
def names (dir : ChangeSetDir Id) : List Name := dir.dents.map fun c => c.1.name

theorem nodup_names_remove (h : dir.names.Nodup) (m : Name) :
    (dir.remove m).names.Nodup := by
  rw [names, remove, dents_ofDents]
  exact h.sublist (filter_sublist.map _)

theorem nodup_names_update (h : dir.names.Nodup) (hname : d.name = m) (sub : ChangeSetDir Id) :
    (dir.update m d sub).names.Nodup := by
  have heq : (dir.update m d sub).names = dir.names := by
    rw [names, update, dents_ofDents, map_map]
    refine map_congr_left fun c _ => ?_
    by_cases hc : c.1.name = m <;> simp [hc, hname]
  rwa [heq]

theorem nodup_names_add (h : dir.names.Nodup) (d : Dirent Id) :
    (dir.add d).names.Nodup := by
  refine nodup_cons.mpr ⟨?_, nodup_names_remove h d.name⟩
  rw [remove]
  simp

theorem nodup_names_ofSeafDir (es : List (Dirent Id)) : (ofSeafDir es).names.Nodup :=
  foldlRecOn (motive := fun dir => dir.names.Nodup) es add nodup_nil fun _ h d _ =>
    nodup_names_add h d

end ChangeSetDir

theorem findDirent_sortDirents {es : List (Dirent Id)} (hu : UniqueKeys Dirent.name es)
    (m : Name) :
    findDirent m (Server.sortDirents es) = findDirent m es := by
  have hperm : (Server.sortDirents es).Perm es := perm_insertionSort _ _
  have hu' : UniqueKeys Dirent.name (Server.sortDirents es) := (hperm.map _).nodup_iff.mpr hu
  ext d
  rw [findDirent_some hu', findDirent_some hu, hperm.mem_iff]

/-! ## Deletion and saving -/

variable [ObjectId Id] [DecidableEq Id] {st : FsStore Id} {es : List (Dirent Id)}

/-- The loop of `delete_from_tree` over the parts of a path. -/
def deleteFromTree (st : FsStore Id) (now : ℤ) : List Name → ChangeSetDir Id → Deletion Id
  | [], dir => ⟨dir, none, false⟩
  | [dname], dir =>
    match dir.lookup dname with
    | none => ⟨dir, none, false⟩
    | some (dent, _) =>
      if dent.isDir || dent.isReg then ⟨dir.remove dname, some dent, true⟩ else ⟨dir, none, false⟩
  | dname :: dname' :: parts, dir =>
    match dir.lookup dname with
    | none => ⟨dir, none, false⟩
    | some (dent, subdir) =>
      if dent.isDir then
        match subdir <|> (st.getSeafdir dent.id).map ChangeSetDir.ofSeafDir with
        | none => ⟨dir, none, false⟩
        | some sub =>
          let r := deleteFromTree st now (dname' :: parts) sub
          -- the mtime of a directory changes when one of its own entries goes
          ⟨dir.update dname (if r.here then dent.withMtime now else dent) r.dir, r.removed, false⟩
      else
        -- `dir` is not changed: the next part is looked up in the same directory
        deleteFromTree st now (dname' :: parts) dir

/-- The loop of `commit_tree_recursive`: the dirents after the sub-directories are saved. -/
def commitTree (writeObj : Id → Bool) :
    ChangeSetDir Id → FsStore Id → Option (List (Dirent Id) × FsStore Id)
  | .nil, st => some ([], st)
  | .dent d rest, st => (commitTree writeObj rest st).map fun r =>
      (changesetDirentToSeafDirent d :: r.1, r.2)
  | .loaded d subdir rest, st =>
    commitTree writeObj subdir st >>= fun sub =>
    sub.2.saveSeafdir writeObj (Server.sortDirents sub.1) >>= fun st' =>
    (commitTree writeObj rest st').map fun r =>
      (changesetDirentToSeafDirent (d.withId (seafDirId (Server.sortDirents sub.1))) :: r.1, r.2)

/-- `commit_tree_from_changeset`: the root directory is saved as well. -/
def commitTreeFromChangeset (writeObj : Id → Bool) (root : ChangeSetDir Id) (st : FsStore Id) :
    Option (FsStore Id × Id) :=
  commitTree writeObj root st >>= fun r =>
  (r.2.saveSeafdir writeObj (Server.sortDirents r.1)).map fun st' =>
    (st', seafDirId (Server.sortDirents r.1))

theorem entryIn_sortDirents (hu : UniqueKeys Dirent.name es) (path : List Name) :
    entryIn st (Server.sortDirents es) path = entryIn st es path := by
  cases path with
  | nil => rfl
  | cons m path =>
    cases path with
    | nil => exact findDirent_sortDirents hu m
    | cons m' path => simp only [entryIn, findDirent_sortDirents hu]

end CloudFile
