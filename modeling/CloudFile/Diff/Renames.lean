/-
  Rename resolution (`common/diff-simple.c`: `diff_resolve_renames`; `fileserver/diff/diff.go`:
  `diffResolveRenames`). An added and a deleted entry of the same content become a renamed one.
  Every entry is used once (`Resolved`), so no path gets lost (`Covers`) and no change is made up
  (`Origin`).
-/
import CloudFile.Diff.Exact
import Mathlib.Data.List.Perm.Basic

namespace CloudFile

open SortedWalk GoPath List

variable {Id : Type} [ObjectId Id] [DecidableEq Id]

/-- A diff entry with its new name, which is empty unless the entry is renamed. -/
structure Change (Id : Type) where
  status : DiffStatus
  sha1 : Id
  name : Name
  newName : Name
deriving DecidableEq

def DiffEntry.toChange (de : DiffEntry Id) : Change Id := ⟨de.status, de.sha1, de.name, []⟩

def renameOf (deDel deAdd : DiffEntry Id) : Change Id where
  status := if deAdd.status = .dirAdded then .dirRenamed else .renamed
  sha1 := deDel.sha1
  name := deDel.name
  newName := deAdd.name

def countEmpty (entries : List (DiffEntry Id)) (status : DiffStatus) : ℕ :=
  entries.countP fun de => de.sha1 = emptySha1 && de.status = status

/-- `check_empty_file`, `check_empty_dir`: exactly one entry with empty content was deleted,
    and exactly one was added. -/
def checkEmpty (entries : List (DiffEntry Id)) (del add : DiffStatus) : Bool :=
  countEmpty entries del = 1 && countEmpty entries add = 1

/-- Entries with empty content are only looked at if there is one pair of them. -/
def resolvable (entries : List (DiffEntry Id)) (del add : DiffStatus) (de : DiffEntry Id) :
    Bool :=
  de.sha1 ≠ emptySha1 || checkEmpty entries del add

/-! ## The C server -/

namespace Server

/-- A link of the list: an entry with its place. -/
abbrev Link (Id : Type) := DiffEntry Id × ℕ

/-- The links that are left, the renames, and the hash tables of deleted files and directories;
    the link inserted last comes first. -/
structure Renames (Id : Type) where
  links : List (Link Id)
  renames : List (Change Id)
  deletedFiles : List (Link Id)
  deletedDirs : List (Link Id)

def deletedTable (entries : List (DiffEntry Id)) (del add : DiffStatus) : List (Link Id) :=
  (entries.zipIdx.filter fun p => p.1.status = del && resolvable entries del add p.1).reverse

def addedLinks (entries : List (DiffEntry Id)) : List (Link Id) :=
  (entries.zipIdx.filter fun p =>
    p.1.status = .added && resolvable entries .deleted .added p.1 ||
    p.1.status = .dirAdded && resolvable entries .dirDeleted .dirAdded p.1).reverse

def lookupTable (table : List (Link Id)) (sha1 : Id) : Option (Link Id) :=
  table.find? fun p => p.1.sha1 = sha1

def removeKey (table : List (Link Id)) (sha1 : Id) : List (Link Id) :=
  table.filter fun p => p.1.sha1 ≠ sha1

/-- Replace an added and a deleted link by a rename. -/
def Renames.pair (s : Renames Id) (pAdd pDel : Link Id) : Renames Id :=
  { s with
    links := s.links.filter fun p => p.2 ≠ pAdd.2 && p.2 ≠ pDel.2
    renames := renameOf pDel.1 pAdd.1 :: s.renames }

/-- The round of the last loop for an added link. -/
def resolveAdded (s : Renames Id) (pAdd : Link Id) : Renames Id :=
  if pAdd.1.status = .added then match lookupTable s.deletedFiles pAdd.1.sha1 with
    | none => s
    | some pDel =>
      { s.pair pAdd pDel with deletedFiles := removeKey s.deletedFiles pAdd.1.sha1 }
  else match lookupTable s.deletedDirs pAdd.1.sha1 with
    | none => s
    | some pDel => { s.pair pAdd pDel with deletedDirs := removeKey s.deletedDirs pAdd.1.sha1 }

def diffResolveRenames (entries : List (DiffEntry Id)) : List (Change Id) :=
  let s := (addedLinks entries).foldl resolveAdded ⟨entries.zipIdx, [],
    deletedTable entries .deleted .added, deletedTable entries .dirDeleted .dirAdded⟩
  s.renames ++ s.links.map fun p => p.1.toChange

/-- `diff_commit_roots` -/
def diffCommits (st : FsStore Id) (fuel : ℕ) (root1 root2 : Id) (foldDirDiff : Bool) :
    Option (List (Change Id)) :=
  (diffCommitRoots st fuel root1 root2 foldDirDiff).map diffResolveRenames

/-- `threeway_diff_files`: a merge against its two parents. -/
def threewayDiffFiles (basedir : Name) (files : Row Id) (rs : List (DiffEntry Id)) :
    Option (List (DiffEntry Id)) :=
  let put (status : DiffStatus) (dent : Dirent Id) :=
    results.push rs (diffEntryNewFromDirent results status dent basedir)
  match files with
  | [some m, some p1, some p2] =>
    some (if direntSame m p1 || direntSame m p2 then rs else put .modified m)
  | [none, some p1, some _] => some (put .deleted p1)
  | [some m, none, some p2] => some (if direntSame m p2 then rs else put .modified m)
  | [some m, some p1, none] => some (if direntSame m p1 then rs else put .modified m)
  | [some m, none, none] => some (put .added m)
  | _ => some rs

/-- The options of the three-way diff: it goes down into all directories. -/
def threeway : DiffOptions Id (List (DiffEntry Id)) where
  fileCb := threewayDiffFiles
  dirCb _ _ rs := some (rs, true)

/-- `diff_merge`, over the roots of the merge and of its parents. -/
def diffMerge (st : FsStore Id) (fuel : ℕ) (root parent1 parent2 : Id) :
    Option (List (Change Id)) :=
  (diffTrees treeWalk st threeway fuel [root, parent1, parent2] []).map diffResolveRenames

end Server

/-! ## The file server -/

namespace Fileserver

/-- The results so far, the maps of deleted entries, and the added entries. -/
structure Renames (Id : Type) where
  results : List (Change Id)
  deletedFiles : List (DiffEntry Id)
  deletedDirs : List (DiffEntry Id)
  added : List (DiffEntry Id)

def hasKey (table : List (DiffEntry Id)) (sha1 : Id) : Bool := table.any fun de => de.sha1 = sha1

def collect (entries : List (DiffEntry Id)) (s : Renames Id) (de : DiffEntry Id) : Renames Id :=
  match de.status with
  | .deleted =>
    if !resolvable entries .deleted .added de || hasKey s.deletedFiles de.sha1 then
      { s with results := s.results ++ [de.toChange] }
    else { s with deletedFiles := s.deletedFiles ++ [de] }
  | .dirDeleted =>
    if !resolvable entries .dirDeleted .dirAdded de || hasKey s.deletedDirs de.sha1 then
      { s with results := s.results ++ [de.toChange] }
    else { s with deletedDirs := s.deletedDirs ++ [de] }
  | .added =>
    if !resolvable entries .deleted .added de then
      { s with results := s.results ++ [de.toChange] }
    else { s with added := s.added ++ [de] }
  | .dirAdded =>
    if !resolvable entries .dirDeleted .dirAdded de then
      { s with results := s.results ++ [de.toChange] }
    else { s with added := s.added ++ [de] }
  | .modified => { s with results := s.results ++ [de.toChange] }
  | .renamed | .unmerged | .dirRenamed => s

def removeKey (table : List (DiffEntry Id)) (sha1 : Id) : List (DiffEntry Id) :=
  table.eraseP fun de => de.sha1 = sha1

/-- A round of the loop over the added entries. -/
def resolveAdded (s : Renames Id) (de : DiffEntry Id) : Renames Id :=
  if de.status = .added then match s.deletedFiles.find? fun d => d.sha1 = de.sha1 with
    | none => { s with results := s.results ++ [de.toChange] }
    | some deDel => { s with
        results := s.results ++ [renameOf deDel de]
        deletedFiles := removeKey s.deletedFiles de.sha1 }
  else match s.deletedDirs.find? fun d => d.sha1 = de.sha1 with
    | none => { s with results := s.results ++ [de.toChange] }
    | some deDel => { s with
        results := s.results ++ [renameOf deDel de]
        deletedDirs := removeKey s.deletedDirs de.sha1 }

/-- `diffResolveRenames`; `order` is the order in which a map is iterated. -/
def diffResolveRenames (order : List (DiffEntry Id) → List (DiffEntry Id))
    (entries : List (DiffEntry Id)) : List (Change Id) :=
  let collected := entries.foldl (collect entries) ⟨[], [], [], []⟩
  let s := collected.added.foldl resolveAdded collected
  s.results ++ (order s.deletedFiles ++ order s.deletedDirs).map DiffEntry.toChange

/-- `DiffCommits`, after the commits are loaded. -/
def diffCommits (order : List (DiffEntry Id) → List (DiffEntry Id)) (st : FsStore Id) (fuel : ℕ)
    (root1 root2 : Id) (foldDirDiff : Bool) : Option (List (Change Id)) :=
  (diffCommitRoots st fuel root1 root2 foldDirDiff).map (diffResolveRenames order)

end Fileserver

/-- An order in which a map is iterated. -/
structure MapOrder (Id : Type) where
  order : List (DiffEntry Id) → List (DiffEntry Id)
  perm : ∀ l, (order l).Perm l

/-! ## What is resolved

The changes are the entries, except that some pairs of them have become renames. -/

def IsDeleted (status : DiffStatus) : Prop := status = .deleted ∨ status = .dirDeleted

/-- A deletion and an addition of one kind, with one content. -/
def IsPair (deDel deAdd : DiffEntry Id) : Prop :=
  (deDel.status = .deleted ∧ deAdd.status = .added ∨
    deDel.status = .dirDeleted ∧ deAdd.status = .dirAdded) ∧ deDel.sha1 = deAdd.sha1

/-- Every entry is used once: as it is, or in one pair that becomes a rename. -/
inductive Resolved : List (DiffEntry Id) → List (Change Id) → Prop
  | nil : Resolved [] []
  | entry {m c} (de : DiffEntry Id) : Resolved m c → Resolved (de :: m) (de.toChange :: c)
  | rename {m c} {deDel deAdd : DiffEntry Id} : IsPair deDel deAdd → Resolved m c →
      Resolved (deDel :: deAdd :: m) (renameOf deDel deAdd :: c)
  | perm {m m' c c'} : m.Perm m' → c.Perm c' → Resolved m c → Resolved m' c'

variable {m : List (DiffEntry Id)}

omit [ObjectId Id] [DecidableEq Id] in
theorem Resolved.append {c : List (Change Id)} (h : Resolved m c)
    (l : List (DiffEntry Id)) : Resolved (l ++ m) (l.map DiffEntry.toChange ++ c) := by
  induction l with
  | nil => exact h
  | cons de l ih => exact ih.entry de

namespace Server

variable {entries : List (DiffEntry Id)} {s : Renames Id} {ps : List (Link Id)}
  {pAdd pDel : Link Id}

/-- The invariant of the last loop: the entries are in the renames or left, and the tables and the
    added links to come are of what is left. -/
structure Renames.Keeps (entries : List (DiffEntry Id)) (ps : List (Link Id)) (s : Renames Id) :
    Prop where
  nodup : (s.links.map Prod.snd).Nodup
  split : ∃ m, Resolved m s.renames ∧ entries.Perm (s.links.map Prod.fst ++ m)
  files : ∀ p ∈ s.deletedFiles, p ∈ s.links ∧ p.1.status = .deleted
  dirs : ∀ p ∈ s.deletedDirs, p ∈ s.links ∧ p.1.status = .dirDeleted
  added : ∀ p ∈ ps, p ∈ s.links ∧ (p.1.status = .added ∨ p.1.status = .dirAdded)
  waiting : ps.Nodup

section

omit [ObjectId Id]

theorem Renames.pair_perm (hnodup : (s.links.map Prod.snd).Nodup) (hadd : pAdd ∈ s.links)
    (hdel : pDel ∈ s.links) (hne : pAdd ≠ pDel) :
    s.links.Perm (pDel :: pAdd :: (s.pair pAdd pDel).links) := by
  have hlinks : s.links.Nodup := hnodup.of_map
  have herase : (s.pair pAdd pDel).links = (s.links.erase pDel).erase pAdd := by
    rw [hlinks.erase_eq_filter, (hlinks.filter _).erase_eq_filter, filter_filter]
    refine List.filter_congr fun p hp => ?_
    have hidx : ∀ q ∈ s.links, p.2 = q.2 ↔ p = q := fun q hq =>
      ⟨inj_on_of_nodup_map hnodup hp hq, congrArg Prod.snd⟩
    rw [Bool.eq_iff_iff]
    simp [hidx pAdd hadd, hidx pDel hdel]
  rw [herase]
  have hrest : pAdd ∈ s.links.erase pDel := (mem_erase_of_ne hne).2 hadd
  exact (perm_cons_erase hdel).trans ((perm_cons_erase hrest).cons pDel)

theorem Renames.Keeps.pair (h : s.Keeps entries (pAdd :: ps)) (hdel : pDel ∈ s.links)
    (hpair : IsPair pDel.1 pAdd.1) {files dirs : List (Link Id)}
    (hfiles : ∀ p ∈ files, p ∈ s.deletedFiles ∧ p ≠ pDel)
    (hdirs : ∀ p ∈ dirs, p ∈ s.deletedDirs ∧ p ≠ pDel) :
    Renames.Keeps entries ps
      { s.pair pAdd pDel with deletedFiles := files, deletedDirs := dirs } := by
  obtain ⟨⟨hadd, hstatus⟩, hps⟩ := forall_mem_cons.1 h.added
  have hapart : ∀ p : Link Id, IsDeleted p.1.status →
      ¬ (p.1.status = .added ∨ p.1.status = .dirAdded) := by
    rintro p (hd | hd) <;> simp [hd]
  have hdeleted : IsDeleted pDel.1.status := hpair.1.imp And.left And.left
  have hperm := Renames.pair_perm h.nodup hadd hdel fun he => hapart pDel hdeleted (he ▸ hstatus)
  have hleft : ∀ p ∈ s.links, p ≠ pAdd → p ≠ pDel → p ∈ (s.pair pAdd pDel).links := by
    intro p hp hpa hpd
    simpa [hpa, hpd] using hperm.mem_iff.1 hp
  have htable : ∀ p ∈ s.links, IsDeleted p.1.status → p ≠ pDel → p ∈ (s.pair pAdd pDel).links :=
    fun p hp hd hne => hleft p hp (fun he => hapart p hd (he ▸ hstatus)) hne
  refine ⟨h.nodup.sublist (filter_sublist.map _), ?_, ?_, ?_, ?_, h.waiting.of_cons⟩
  · obtain ⟨m, hm, hentries⟩ := h.split
    exact ⟨_, hm.rename hpair, by grind⟩
  · intro p hp
    obtain ⟨hlink, hs⟩ := h.files p (hfiles p hp).1
    exact ⟨htable p hlink (.inl hs) (hfiles p hp).2, hs⟩
  · intro p hp
    obtain ⟨hlink, hs⟩ := h.dirs p (hdirs p hp).1
    exact ⟨htable p hlink (.inr hs) (hdirs p hp).2, hs⟩
  · intro p hp
    obtain ⟨hlink, hs⟩ := hps p hp
    refine ⟨hleft p hlink (fun he => ?_) (fun he => hapart p (he ▸ hdeleted) hs), hs⟩
    exact (nodup_cons.1 h.waiting).1 (he ▸ hp)

theorem Renames.Keeps.resolveAdded (h : s.Keeps entries (pAdd :: ps)) :
    (Server.resolveAdded s pAdd).Keeps entries ps := by
  obtain ⟨⟨hadd, hadded⟩, hps⟩ := forall_mem_cons.1 h.added
  have hnone : s.Keeps entries ps :=
    ⟨h.nodup, h.split, h.files, h.dirs, hps, h.waiting.of_cons⟩
  -- what stays in a table has another content than the link that was found in it
  have hkey : ∀ (table : List (Link Id)) (pDel : Link Id), pDel.1.sha1 = pAdd.1.sha1 →
      ∀ p ∈ removeKey table pAdd.1.sha1, p ∈ table ∧ p ≠ pDel := by
    intro table pDel hsha p hp
    obtain ⟨hp, hne⟩ := mem_filter.1 hp
    exact ⟨hp, fun he => of_decide_eq_true hne (he ▸ hsha)⟩
  unfold Server.resolveAdded
  split_ifs with hstatus
  · cases hdel : lookupTable s.deletedFiles pAdd.1.sha1 with
    | none => exact hnone
    | some pDel =>
      obtain ⟨hlink, hdeleted⟩ := h.files pDel (mem_of_find?_eq_some hdel)
      have hsha : pDel.1.sha1 = pAdd.1.sha1 := by simpa using find?_some hdel
      refine h.pair hlink ⟨.inl ⟨hdeleted, hstatus⟩, hsha⟩ (hkey _ pDel hsha) fun p hp => ⟨hp, ?_⟩
      rintro rfl
      simp [(h.dirs p hp).2] at hdeleted
  · have hdirAdded : pAdd.1.status = .dirAdded := hadded.resolve_left hstatus
    cases hdel : lookupTable s.deletedDirs pAdd.1.sha1 with
    | none => exact hnone
    | some pDel =>
      obtain ⟨hlink, hdeleted⟩ := h.dirs pDel (mem_of_find?_eq_some hdel)
      have hsha : pDel.1.sha1 = pAdd.1.sha1 := by simpa using find?_some hdel
      refine h.pair hlink ⟨.inr ⟨hdeleted, hdirAdded⟩, hsha⟩ (fun p hp => ⟨hp, ?_⟩)
        (hkey _ pDel hsha)
      rintro rfl
      simp [(h.files p hp).2] at hdeleted

theorem Renames.Keeps.foldl (h : s.Keeps entries ps) :
    (ps.foldl Server.resolveAdded s).Keeps entries [] := by
  induction ps generalizing s with
  | nil => exact h
  | cons pAdd ps ih => exact ih h.resolveAdded

end

/-- **The C server resolves renames.** -/
theorem diffResolveRenames_resolved (entries : List (DiffEntry Id)) :
    Resolved entries (diffResolveRenames entries) := by
  have htable : ∀ del add, ∀ p ∈ deletedTable entries del add,
      p ∈ entries.zipIdx ∧ p.1.status = del := by
    intro del add p hp
    obtain ⟨hp, hstatus⟩ := mem_filter.1 (mem_reverse.1 hp)
    exact ⟨hp, of_decide_eq_true (Bool.and_eq_true_iff.mp hstatus).1⟩
  have hnodup : (entries.zipIdx.map Prod.snd).Nodup := by
    rw [zipIdx_map_snd]
    exact nodup_range'
  have hstart : Renames.Keeps entries (addedLinks entries) ⟨entries.zipIdx, [],
      deletedTable entries .deleted .added, deletedTable entries .dirDeleted .dirAdded⟩ := by
    refine ⟨hnodup, ⟨[], .nil, by simp⟩, htable _ _, htable _ _, ?_,
      nodup_reverse.2 (hnodup.of_map.filter _)⟩
    intro p hp
    obtain ⟨hp, hstatus⟩ := mem_filter.1 (mem_reverse.1 hp)
    refine ⟨hp, ?_⟩
    simp only [Bool.or_eq_true, Bool.and_eq_true, decide_eq_true_eq] at hstatus
    exact hstatus.imp And.left And.left
  obtain ⟨m, hm, hentries⟩ := hstart.foldl.split
  refine (hm.append _).perm hentries.symm ?_
  rw [map_map]
  exact perm_append_comm

end Server

namespace Fileserver

def IsTwoWay (status : DiffStatus) : Prop :=
  status ≠ .renamed ∧ status ≠ .unmerged ∧ status ≠ .dirRenamed

instance : DecidablePred IsTwoWay := fun _ => inferInstanceAs (Decidable (_ ∧ _))

variable {entries done waiting : List (DiffEntry Id)} {s : Renames Id} {de : DiffEntry Id}
  {order : List (DiffEntry Id) → List (DiffEntry Id)}

/-- The invariant of both loops: the entries so far are in the results, in the maps or among the
    added ones to come. -/
structure Renames.Keeps (done waiting : List (DiffEntry Id)) (s : Renames Id) : Prop where
  split : ∃ m, Resolved m s.results ∧
    done.Perm (s.deletedFiles ++ s.deletedDirs ++ waiting ++ m)
  files : ∀ de ∈ s.deletedFiles, de.status = .deleted
  dirs : ∀ de ∈ s.deletedDirs, de.status = .dirDeleted
  added : ∀ de ∈ s.added, de.status = .added ∨ de.status = .dirAdded

omit [ObjectId Id] in
theorem Renames.Keeps.arrive (h : s.Keeps done waiting) (de : DiffEntry Id) :
    s.Keeps (done ++ [de]) (de :: waiting) := by
  obtain ⟨m, hm, hdone⟩ := h.split
  exact ⟨⟨m, hm, by grind⟩, h.files, h.dirs, h.added⟩

omit [ObjectId Id] in
theorem Renames.Keeps.put (h : s.Keeps done (de :: waiting)) :
    Renames.Keeps done waiting { s with results := s.results ++ [de.toChange] } := by
  obtain ⟨m, hm, hdone⟩ := h.split
  exact ⟨⟨de :: m, (hm.entry de).perm (.refl _) (by grind), by grind⟩, h.files, h.dirs, h.added⟩

theorem Renames.Keeps.collect (h : s.Keeps done s.added) (htwo : IsTwoWay de.status) :
    (Fileserver.collect entries s de).Keeps (done ++ [de])
      (Fileserver.collect entries s de).added := by
  have hput := (h.arrive de).put
  obtain ⟨m, hm, hdone⟩ := h.split
  unfold Fileserver.collect
  cases hs : de.status with
  | deleted =>
    simp only
    split_ifs
    · exact hput
    · exact ⟨⟨m, hm, by grind⟩,
        forall_mem_append.2 ⟨h.files, forall_mem_singleton.2 hs⟩, h.dirs, h.added⟩
  | dirDeleted =>
    simp only
    split_ifs
    · exact hput
    · exact ⟨⟨m, hm, by grind⟩, h.files,
        forall_mem_append.2 ⟨h.dirs, forall_mem_singleton.2 hs⟩, h.added⟩
  | added | dirAdded =>
    simp only
    split_ifs
    · exact hput
    · exact ⟨⟨m, hm, by grind⟩, h.files, h.dirs,
        forall_mem_append.2 ⟨h.added, forall_mem_singleton.2 (by simp [hs])⟩⟩
  | modified => exact hput
  | renamed => exact absurd hs htwo.1
  | unmerged => exact absurd hs htwo.2.1
  | dirRenamed => exact absurd hs htwo.2.2

theorem Renames.Keeps.foldl_collect (h : s.Keeps done s.added) (all entries : List (DiffEntry Id)) :
    (entries.foldl (Fileserver.collect all) s).Keeps
      (done ++ entries.filter fun de => IsTwoWay de.status)
      (entries.foldl (Fileserver.collect all) s).added := by
  induction entries generalizing s done with
  | nil => simpa using h
  | cons de entries ih =>
    by_cases htwo : IsTwoWay de.status
    · simpa [htwo] using ih (h.collect htwo)
    · have hskip : Fileserver.collect all s de = s := by
        unfold Fileserver.collect
        cases hs : de.status <;> simp_all [IsTwoWay]
      simpa [htwo, hskip] using ih h

omit [ObjectId Id] [DecidableEq Id] in
theorem perm_eraseP {l : List (DiffEntry Id)} {p : DiffEntry Id → Bool} {x : DiffEntry Id}
    (hx : l.find? p = some x) : l.Perm (x :: l.eraseP p) := by
  obtain ⟨hp, as, bs, rfl, has⟩ := find?_eq_some_iff_append.1 hx
  have hnot : ∀ a ∈ as, ¬ p a = true := fun a ha => by simpa using has a ha
  rw [eraseP_append_right _ hnot, eraseP_cons_of_pos hp]
  exact perm_middle

section

omit [ObjectId Id]

theorem Renames.Keeps.pair (h : s.Keeps done (de :: waiting)) {deDel : DiffEntry Id}
    (hpair : IsPair deDel de) {files dirs : List (DiffEntry Id)}
    (hperm : (s.deletedFiles ++ s.deletedDirs).Perm (deDel :: (files ++ dirs)))
    (hfiles : ∀ d ∈ files, d ∈ s.deletedFiles) (hdirs : ∀ d ∈ dirs, d ∈ s.deletedDirs) :
    Renames.Keeps done waiting { s with
      results := s.results ++ [renameOf deDel de]
      deletedFiles := files
      deletedDirs := dirs } := by
  obtain ⟨m, hm, hdone⟩ := h.split
  exact ⟨⟨_, (hm.rename hpair).perm (.refl _) (by grind), by grind⟩,
    fun d hd => h.files d (hfiles d hd), fun d hd => h.dirs d (hdirs d hd), h.added⟩

theorem Renames.Keeps.resolveAdded (h : s.Keeps done (de :: waiting)) (hde : de ∈ s.added) :
    (Fileserver.resolveAdded s de).Keeps done waiting := by
  unfold Fileserver.resolveAdded
  split_ifs with hstatus
  · cases hdel : s.deletedFiles.find? fun d => d.sha1 = de.sha1 with
    | none => exact h.put
    | some deDel =>
      have hsha : deDel.sha1 = de.sha1 := by simpa using find?_some hdel
      have hdeleted := h.files deDel (mem_of_find?_eq_some hdel)
      exact h.pair ⟨.inl ⟨hdeleted, hstatus⟩, hsha⟩ ((perm_eraseP hdel).append_right _)
        (fun d hd => mem_of_mem_eraseP hd) fun d hd => hd
  · have hdirAdded : de.status = .dirAdded := (h.added de hde).resolve_left hstatus
    cases hdel : s.deletedDirs.find? fun d => d.sha1 = de.sha1 with
    | none => exact h.put
    | some deDel =>
      have hsha : deDel.sha1 = de.sha1 := by simpa using find?_some hdel
      have hdeleted := h.dirs deDel (mem_of_find?_eq_some hdel)
      exact h.pair ⟨.inr ⟨hdeleted, hdirAdded⟩, hsha⟩
        (((perm_eraseP hdel).append_left _).trans perm_middle)
        (fun d hd => hd) fun d hd => mem_of_mem_eraseP hd

theorem resolveAdded_added : (resolveAdded s de).added = s.added := by
  unfold resolveAdded
  split_ifs
  · cases s.deletedFiles.find? fun d => d.sha1 = de.sha1 <;> rfl
  · cases s.deletedDirs.find? fun d => d.sha1 = de.sha1 <;> rfl

theorem Renames.Keeps.foldl_resolveAdded (h : s.Keeps done waiting)
    (hwaiting : ∀ de ∈ waiting, de ∈ s.added) :
    (waiting.foldl Fileserver.resolveAdded s).Keeps done [] := by
  induction waiting generalizing s with
  | nil => exact h
  | cons de waiting ih =>
    rw [forall_mem_cons] at hwaiting
    exact ih (h.resolveAdded hwaiting.1) (by simpa [resolveAdded_added] using hwaiting.2)

end

/-- **The file server resolves renames** among the entries of a two-way diff. -/
theorem diffResolveRenames_resolved
    (horder : ∀ l, (order l).Perm l) (entries : List (DiffEntry Id)) :
    Resolved (entries.filter fun de => IsTwoWay de.status) (diffResolveRenames order entries) := by
  let start : Renames Id := ⟨[], [], [], []⟩
  have hstart : start.Keeps [] start.added :=
    ⟨⟨[], .nil, .refl _⟩, by simp [start], by simp [start], by simp [start]⟩
  obtain ⟨m, hm, hdone⟩ :=
    ((hstart.foldl_collect entries entries).foldl_resolveAdded fun _ => id).split
  rw [append_nil] at hdone
  refine (hm.append _).perm hdone.symm (perm_append_comm.trans ?_)
  exact (((horder _).symm.append (horder _).symm).map _).append_left _

theorem resolved_of_twoWay
    (horder : ∀ l, (order l).Perm l) (htwo : ∀ de ∈ entries, IsTwoWay de.status) :
    Resolved entries (diffResolveRenames order entries) := by
  have h := diffResolveRenames_resolved horder entries
  rwa [filter_eq_self.2 fun de hde => decide_eq_true (htwo de hde)] at h

end Fileserver

/-! ## No path gets lost, and nothing is made up -/

/-- The entry itself, or a rename from or to its name. -/
def Covers (ch : Change Id) (de : DiffEntry Id) : Prop :=
  ch = de.toChange ∨ (ch.status = .renamed ∨ ch.status = .dirRenamed) ∧
    (ch.name = de.name ∨ ch.newName = de.name)

/-- Where a change comes from: an entry, or a deleted entry and one that takes over from it. -/
inductive Origin (entries : List (DiffEntry Id)) : Change Id → Prop
  | entry {de : DiffEntry Id} : de ∈ entries → Origin entries de.toChange
  | rename {del add : DiffEntry Id} : del ∈ entries → IsDeleted del.status → add ∈ entries →
      Origin entries (renameOf del add)

section
variable {m : List (DiffEntry Id)} {changes : List (Change Id)} (h : Resolved m changes)
include h

section

omit [ObjectId Id] [DecidableEq Id]

theorem Resolved.covers : ∀ de ∈ m, ∃ ch ∈ changes, Covers ch de := by
  induction h with
  | nil => simp
  | entry de h ih =>
    rw [forall_mem_cons]
    exact ⟨⟨_, mem_cons_self, .inl rfl⟩, fun d hd => exists_mem_cons_of_exists (ih d hd)⟩
  | @rename m c deDel deAdd hpair h ih =>
    have hstatus : (renameOf deDel deAdd).status = .renamed ∨
        (renameOf deDel deAdd).status = .dirRenamed := by
      unfold renameOf
      split_ifs <;> simp
    rw [forall_mem_cons, forall_mem_cons]
    exact ⟨⟨_, mem_cons_self, .inr ⟨hstatus, .inl rfl⟩⟩,
      ⟨_, mem_cons_self, .inr ⟨hstatus, .inr rfl⟩⟩,
      fun d hd => exists_mem_cons_of_exists (ih d hd)⟩
  | perm hm hc h ih =>
    intro de hde
    obtain ⟨ch, hch, hcov⟩ := ih de (hm.mem_iff.2 hde)
    exact ⟨ch, hc.mem_iff.1 hch, hcov⟩

theorem Resolved.origin {entries : List (DiffEntry Id)} (hm : ∀ de ∈ m, de ∈ entries) :
    ∀ ch ∈ changes, Origin entries ch := by
  induction h with
  | nil => simp
  | entry de h ih =>
    rw [forall_mem_cons] at hm ⊢
    exact ⟨.entry hm.1, ih hm.2⟩
  | rename hpair h ih =>
    rw [forall_mem_cons, forall_mem_cons] at hm
    rw [forall_mem_cons]
    exact ⟨.rename hm.1 (hpair.1.imp And.left And.left) hm.2.1, ih hm.2.2⟩
  | perm hperm hc h ih =>
    exact fun ch hch => ih (fun de hde => hm de (hperm.mem_iff.1 hde)) ch (hc.mem_iff.2 hch)

end

end

/-! ## Differences that are reported -/

/-- Some change stands for a difference of that status under that name. -/
def Reported (changes : List (Change Id)) (status : DiffStatus) (name : Name) : Prop :=
  ∃ ch ∈ changes, ∃ de : DiffEntry Id, Covers ch de ∧ de.status = status ∧ de.name = name

variable {s : DiffStatus}

theorem isTwoWay_of_differs {st : FsStore Id} {o n : Option (Dirent Id)}
    (h : Differs st s o n) : Fileserver.IsTwoWay s := by
  cases h <;> simp [Fileserver.IsTwoWay]

/-- **Every difference is reported** after the renames are resolved, by both servers. -/
theorem diffCommits_reported {st : FsStore Id} {k : ℕ} {root1 root2 : Id} {path : List Name}
    (h1 : Tree (Desc Dirent.name) st k root1)
    (h2 : Tree (Desc Dirent.name) st k root2) (hpath : ∀ n ∈ path, ValidName n)
    (hd : Differs st s (entryAt st root1 path) (entryAt st root2 path)) :
    (∀ changes, Server.diffCommits st k root1 root2 false = some changes →
      Reported changes s (joinFields path)) ∧
    (∀ order changes, (∀ l, (order l).Perm l) →
      Fileserver.diffCommits order st k root1 root2 false = some changes →
      Reported changes s (joinFields path)) := by
  obtain ⟨⟨rs, hrs, de, hde, hstatus, hname⟩, ⟨rs', hrs', de', hde', hstatus', hname'⟩⟩ :=
    diffCommitRoots_reports h1 h2 hpath hd
  constructor
  · intro changes h
    rw [Server.diffCommits, hrs, Option.map_some, Option.some.injEq] at h
    subst h
    obtain ⟨ch, hch, hc⟩ := (Server.diffResolveRenames_resolved rs).covers de hde
    exact ⟨ch, hch, de, hc, hstatus, hname⟩
  · intro order changes horder h
    rw [Fileserver.diffCommits, hrs', Option.map_some, Option.some.injEq] at h
    subst h
    obtain ⟨ch, hch, hc⟩ := (Fileserver.diffResolveRenames_resolved horder rs').covers de'
      (mem_filter.2 ⟨hde', decide_eq_true (hstatus' ▸ isTwoWay_of_differs hd)⟩)
    exact ⟨ch, hch, de', hc, hstatus', hname'⟩

/-! ## The paths of a diff -/

def paths (status : DiffStatus) (path : Change Id → Name) (changes : List (Change Id)) :
    List Name :=
  (changes.filter fun ch => ch.status = status).map path

/-- The paths that go and that come are those of the input, where a rename stands for both; and
    the modified files are there as they are. -/
structure SameMeaning (input changes : List (Change Id)) : Prop where
  deleted : (paths .deleted Change.name changes ++ paths .renamed Change.name changes).Perm
    (paths .deleted Change.name input)
  added : (paths .added Change.name changes ++ paths .renamed Change.newName changes).Perm
    (paths .added Change.name input)
  dirDeleted : (paths .dirDeleted Change.name changes ++ paths .dirRenamed Change.name changes).Perm
    (paths .dirDeleted Change.name input)
  dirAdded : (paths .dirAdded Change.name changes ++ paths .dirRenamed Change.newName changes).Perm
    (paths .dirAdded Change.name input)
  modified : (changes.filter fun ch => ch.status = .modified).Perm
    (input.filter fun ch => ch.status = .modified)

variable (status : DiffStatus)

section

omit [ObjectId Id] [DecidableEq Id]

@[simp] theorem paths_cons (path : Change Id → Name) (ch : Change Id)
    (changes : List (Change Id)) : paths status path (ch :: changes) =
      if ch.status = status then path ch :: paths status path changes
      else paths status path changes := by
  unfold paths
  split_ifs with h <;> simp [h]

theorem paths_perm (path : Change Id → Name) {c c' : List (Change Id)}
    (h : c.Perm c') : (paths status path c).Perm (paths status path c') :=
  (h.filter _).map _

end

omit [ObjectId Id] in
theorem Resolved.sameMeaning {changes : List (Change Id)}
    (h : Resolved m changes) (htwo : ∀ de ∈ m, Fileserver.IsTwoWay de.status) :
    SameMeaning (m.map DiffEntry.toChange) changes := by
  induction h with
  | nil => constructor <;> simp [paths]
  | entry de h ih =>
    rw [forall_mem_cons] at htwo
    obtain ⟨hd, ha, hdd, hda, ho⟩ := ih htwo.2
    obtain ⟨⟨hr, hu, hdr⟩, -⟩ := htwo
    have hs : de.toChange.status = de.status := rfl
    constructor <;> simp only [map_cons, paths_cons] <;> grind
  | rename hpair h ih =>
    rw [forall_mem_cons, forall_mem_cons] at htwo
    obtain ⟨hd, ha, hdd, hda, ho⟩ := ih htwo.2.2
    obtain ⟨⟨hdel, hadd⟩ | ⟨hdel, hadd⟩, -⟩ := hpair <;>
      constructor <;> simp [renameOf, DiffEntry.toChange] <;> grind
  | @perm m m' c c' hm hc h ih =>
    obtain ⟨hd, ha, hdd, hda, ho⟩ := ih fun de hde => htwo de (hm.mem_iff.1 hde)
    have hinput := hm.map DiffEntry.toChange
    have hmove : ∀ status status' path, (paths status Change.name c ++ paths status' path c).Perm
        (paths status Change.name (m.map DiffEntry.toChange)) →
        (paths status Change.name c' ++ paths status' path c').Perm
          (paths status Change.name (m'.map DiffEntry.toChange)) := by
      intro status status' path h
      have hchanges := (paths_perm status Change.name hc).append (paths_perm status' path hc)
      exact (hchanges.symm.trans h).trans (paths_perm _ _ hinput)
    exact ⟨hmove _ _ _ hd, hmove _ _ _ ha, hmove _ _ _ hdd, hmove _ _ _ hda,
      ((hc.filter _).symm.trans ho).trans (hinput.filter _)⟩

/-- **Resolving the renames keeps the meaning of a diff**, on both servers. -/
theorem diffResolveRenames_keeps_meaning (entries : List (DiffEntry Id))
    (htwo : ∀ de ∈ entries, Fileserver.IsTwoWay de.status) (maps : MapOrder Id) :
    ∀ changes ∈ [Server.diffResolveRenames entries,
        Fileserver.diffResolveRenames maps.order entries],
      SameMeaning (entries.map DiffEntry.toChange) changes ∧ Resolved entries changes := by
  have hgo := Fileserver.resolved_of_twoWay maps.perm htwo
  have hc := Server.diffResolveRenames_resolved entries
  simpa using ⟨⟨hc.sameMeaning htwo, hc⟩, hgo.sameMeaning htwo, hgo⟩

def mergedCopies : List (DiffEntry ℕ) :=
  [⟨.deleted, 7, ['a'], 1, 0⟩, ⟨.deleted, 7, ['b'], 1, 0⟩, ⟨.added, 7, ['c'], 1, 0⟩,
    ⟨.modified, 8, ['d'], 1, 0⟩]

theorem mergedCopies_keep_meaning : (∀ de ∈ mergedCopies, Fileserver.IsTwoWay de.status) ∧
    ∀ changes ∈ [Server.diffResolveRenames mergedCopies,
        Fileserver.diffResolveRenames id mergedCopies],
      SameMeaning (mergedCopies.map DiffEntry.toChange) changes ∧ Resolved mergedCopies changes :=
  ⟨by decide, diffResolveRenames_keeps_meaning mergedCopies (by decide) ⟨id, fun _ => .refl _⟩⟩

end CloudFile
