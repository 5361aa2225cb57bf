/-
  The file at a path in a commit, as the listing of revisions finds it (`server/repo-op.c`). What
  is found in one commit is kept for its parents: the file, and the directories on the way; where
  a parent has the same directory the search ends there. What is kept is what the commit has
  (`Fits`, `getFileInfo_spec`).
-/
import CloudFile.History.Trash
import CloudFile.Lib.GLibPath

namespace CloudFile

open GoPath GLibPath SortedWalk List Option

variable {Id : Type} [ObjectId Id] [DecidableEq Id]

/-- What `get_file_info` finds of the file in a commit. -/
structure FileInfo (Id : Type) where
  fileSize : ℤ
  fileId : Id
  dirIds : List Id
deriving DecidableEq

/-- The answers kept by the commit's id. -/
abbrev FileInfoCache (Id : Type) := Id → Option (FileInfo Id)

namespace Revision

/-- `compare_or_add_id`: the ids of this commit, and whether the directory is the same. -/
def compareOrAddId (dirIds curDirIds : List Id) (dirId : Id) : List Id × Bool :=
  if dirIds.head? = some dirId then (curDirIds ++ dirIds, true) else (curDirIds ++ [dirId], false)

/-- The first directory of that name. -/
def findDir (name : Name) (entries : List (Dirent Id)) : Option (Dirent Id) :=
  entries.find? fun dent => dent.name = name && dent.isDir

/-- The first regular file of that name. -/
def findFile (name : Name) (entries : List (Dirent Id)) : Option (Dirent Id) :=
  entries.find? fun dent => dent.name = name && dent.isReg

/-- The loop of `get_seafdir_by_path` over the names of a path. -/
def seafdirLoop (st : FsStore Id) :
    List Name → List (Dirent Id) → List Id → List Id →
    Except PathErr (Option (List (Dirent Id)) × List Id)
  | [], dir, _, curDirIds => .ok (some dir, curDirIds)
  | name :: names, dir, dirIds, curDirIds => match findDir name dir with
    | none => .error .pathNoExist
    | some dent =>
      let (curDirIds, same) := compareOrAddId dirIds curDirIds dent.id
      if same then .ok (none, curDirIds)
      else match st.getSeafdir dent.id with
        | none => .error .dirMissing
        | some dir => seafdirLoop st names dir dirIds.tail curDirIds

/-- `get_seafdir_by_path`: the directory, none where it has not changed, and the ids on the way -/
def getSeafdirByPath (st : FsStore Id) (rootId : Id) (path : Name) (dirIds : List Id) :
    Except PathErr (Option (List (Dirent Id)) × List Id) :=
  match st.getSeafdir rootId with
  | none => .error .dirMissing
  | some dir =>
    let (curDirIds, same) := compareOrAddId dirIds [] rootId
    if same then .ok (none, curDirIds)
    else if path = dot ∨ path = ['/'] then .ok (some dir, curDirIds)
    else seafdirLoop st (fields path) dir dirIds.tail curDirIds

/-- The size of a file: from its entry, and in libraries of version 0 from its object. -/
def sizeOf (st : FsStore Id) (version : ℕ) (dirent : Dirent Id) : ℤ :=
  if 0 < version then dirent.size else (st.fileSize dirent.id).getD (-1)

/-- The info of the directory that was found; without a change the file is that of the last
    commit. -/
def infoIn (st : FsStore Id) (version : ℕ) (path : Name) (lastInfo : Option (FileInfo Id)) :
    Option (List (Dirent Id)) × List Id → Option (FileInfo Id)
  | (none, curDirIds) => lastInfo.map fun last => ⟨last.fileSize, last.fileId, curDirIds⟩
  | (some entries, curDirIds) => (findFile (gPathGetBasename path) entries).map fun dirent =>
      ⟨sizeOf st version dirent, dirent.id, curDirIds⟩

/-- `get_file_info`: the info of the file, none if there is no such file, and the table. -/
def getFileInfo (st : FsStore Id) (version : ℕ) (path : Name) (commit : Commit Id)
    (cache : FileInfoCache Id) (lastInfo : Option (FileInfo Id)) :
    Except PathErr (Option (FileInfo Id) × FileInfoCache Id) :=
  match cache commit.commitId with
  | some info => .ok (some info, cache)
  | none =>
    match getSeafdirByPath st commit.rootId (gPathGetDirname path)
        (lastInfo.elim [] FileInfo.dirIds) with
    | .error .pathNoExist => .ok (none, cache)
    | .error e => .error e
    | .ok dir => match infoIn st version path lastInfo dir with
      | none => .ok (none, cache)
      | some info => .ok (some info, Function.update cache commit.commitId (some info))

end Revision

/-! ## The file at a path -/

/-- The file below the directories of the path. -/
def fileAt (st : FsStore Id) (name : Name) : Id → List Name → Option (Dirent Id)
  | id, [] => st.getSeafdir id >>= Revision.findFile name
  | id, n :: names => st.getSeafdir id >>= Revision.findDir n >>= fun d => fileAt st name d.id names

/-- The ids of the directories on the way down a path, the first one included. -/
def dirChain (st : FsStore Id) : Id → List Name → Option (List Id)
  | id, [] => some [id]
  | id, n :: names => st.getSeafdir id >>= Revision.findDir n >>= fun d =>
      (dirChain st d.id names).map (id :: ·)

variable {st : FsStore Id} {n : Name} {id : Id} {names : List Name} {es : List (Dirent Id)}

theorem fileAt_cons {name : Name} (hes : st.getSeafdir id = some es) :
    fileAt st name id (n :: names) = (Revision.findDir n es).bind fun d =>
      fileAt st name d.id names := by
  simp [fileAt, hes]

theorem dirChain_cons (hes : st.getSeafdir id = some es) :
    dirChain st id (n :: names) = (Revision.findDir n es).bind fun d =>
      (dirChain st d.id names).map (id :: ·) := by
  simp [dirChain, hes]

theorem head?_of_dirChain {ids : List Id} (h : dirChain st id names = some ids) :
    ids.head? = some id := by
  cases names with
  | nil =>
    cases h
    rfl
  | cons n names =>
    obtain ⟨d, -, h⟩ := bind_eq_some_iff.1 h
    obtain ⟨ids, -, rfl⟩ := map_eq_some_iff.1 h
    rfl

omit [ObjectId Id] [DecidableEq Id] in
theorem mem_of_findDir {d : Dirent Id} (h : Revision.findDir n es = some d) :
    d ∈ es ∧ d.isDir = true := by
  have hd := find?_some h
  rw [Bool.and_eq_true] at hd
  exact ⟨mem_of_find?_eq_some h, hd.2⟩

/-! ## The directories of the last commit -/

namespace Revision

variable {st : FsStore Id} {name : Name} {last : Option (Dirent Id)}

/-- The ids are those of the directories of the last commit, which has the file. -/
def LastOk (st : FsStore Id) (name : Name) (last : Option (Dirent Id)) (names : List Name)
    (dirIds : List Id) : Prop :=
  dirIds = [] ∨ last.isSome = true ∧
    ∃ id, dirChain st id names = some dirIds ∧ fileAt st name id names = last

variable {names : List Name} {dirIds : List Id}

theorem LastOk.tail (h : LastOk st name last (n :: names) dirIds) :
    LastOk st name last names dirIds.tail := by
  rcases h with rfl | ⟨hsome, id, hchain, hfile⟩
  · exact .inl rfl
  · cases hes : st.getSeafdir id with
    | none => simp [dirChain, hes] at hchain
    | some es =>
      rw [dirChain_cons hes] at hchain
      obtain ⟨d, hd, hchain⟩ := bind_eq_some_iff.1 hchain
      obtain ⟨ids, hids, rfl⟩ := map_eq_some_iff.1 hchain
      rw [fileAt_cons hes, hd] at hfile
      exact .inr ⟨hsome, d.id, hids, hfile⟩

variable {id : Id} {curDirIds : List Id} {k version : ℕ} {path : Name}

theorem LastOk.of_head? (h : LastOk st name last names dirIds) (hid : dirIds.head? = some id) :
    last.isSome = true ∧ dirChain st id names = some dirIds ∧ fileAt st name id names = last := by
  rcases h with rfl | ⟨hsome, id', hchain, hfile⟩
  · cases hid
  · obtain rfl : id' = id := by
      rw [head?_of_dirChain hchain] at hid
      exact Option.some.inj hid
    exact ⟨hsome, hchain, hfile⟩

/-- What the search for a directory leaves. -/
inductive Outcome (st : FsStore Id) (name : Name) (last : Option (Dirent Id)) (id : Id)
    (names : List Name) (curDirIds : List Id) :
    Except PathErr (Option (List (Dirent Id)) × List Id) → Prop
  | missing : fileAt st name id names = none →
      Outcome st name last id names curDirIds (.error .pathNoExist)
  | same {ids : List Id} : dirChain st id names = some (id :: ids) →
      fileAt st name id names = last → last.isSome = true →
      Outcome st name last id names curDirIds (.ok (none, curDirIds ++ ids))
  | walked {ids : List Id} {entries : List (Dirent Id)} :
      dirChain st id names = some (id :: ids) → fileAt st name id names = findFile name entries →
      Outcome st name last id names curDirIds (.ok (some entries, curDirIds ++ ids))

theorem Outcome.cons {d : Dirent Id} {r : Except PathErr (Option (List (Dirent Id)) × List Id)}
    (hes : st.getSeafdir id = some es) (hd : findDir n es = some d)
    (h : Outcome st name last d.id names (curDirIds ++ [d.id]) r) :
    Outcome st name last id (n :: names) curDirIds r := by
  have hfile : fileAt st name id (n :: names) = fileAt st name d.id names := by
    rw [fileAt_cons hes, hd]
    rfl
  have hchain : ∀ {ids}, dirChain st d.id names = some ids →
      dirChain st id (n :: names) = some (id :: ids) := by
    intro ids hids
    rw [dirChain_cons hes, hd, bind_some, hids]
    rfl
  cases h with
  | missing hnone => exact .missing (hfile.trans hnone)
  | same hids hlast hsome =>
    rw [append_assoc]
    exact .same (hchain hids) (hfile.trans hlast) hsome
  | walked hids hentries =>
    rw [append_assoc]
    exact .walked (hchain hids) (hfile.trans hentries)

theorem Outcome.unchanged (hlast : LastOk st name last names dirIds)
    (hid : dirIds.head? = some id) :
    Outcome st name last id names curDirIds (.ok (none, curDirIds ++ dirIds.tail)) := by
  obtain ⟨hsome, hchain, hfile⟩ := hlast.of_head? hid
  obtain ⟨i, ids⟩ := dirIds
  · cases hid
  · cases hid
    exact .same hchain hfile hsome

theorem seafdirLoop_outcome (hT : Tree (fun _ => True) st k id) (hes : st.getSeafdir id = some es)
    (hlast : LastOk st name last names dirIds) :
    Outcome st name last id names curDirIds
      (seafdirLoop st names es dirIds.tail curDirIds) := by
  induction names generalizing id k es dirIds curDirIds with
  | nil =>
    have hwalk : Outcome st name last id [] curDirIds (.ok (some es, curDirIds ++ [])) :=
      .walked rfl (by simp [fileAt, hes])
    rwa [append_nil] at hwalk
  | cons n names ih =>
    unfold seafdirLoop
    cases hd : findDir n es with
    | none => exact .missing (by rw [fileAt_cons hes, hd]; rfl)
    | some d =>
      obtain ⟨k', hT'⟩ : ∃ k', Tree (fun _ => True) st k' d.id := by
        obtain ⟨hmem, hdir⟩ := mem_of_findDir hd
        exact ⟨k, (hT.subTrees_of hes).2 d hmem hdir⟩
      obtain ⟨es', hes', -⟩ := hT'.readable
      by_cases hsame : dirIds.tail.head? = some d.id
      · obtain ⟨ids, hids⟩ := head?_eq_some_iff.1 hsame
        have h : Outcome st name last d.id names (curDirIds ++ [d.id])
            (.ok (none, curDirIds ++ [d.id] ++ dirIds.tail.tail)) :=
          .unchanged hlast.tail hsame
        rw [hids, tail_cons, append_assoc, singleton_append, ← hids] at h
        simp only [compareOrAddId, if_pos hsame, if_true]
        exact h.cons hes hd
      · simp only [compareOrAddId, if_neg hsame, hes']
        exact (ih hT' hes' hlast.tail).cons hes hd

variable {names : List Name}

/-- A path from the root that ends in a name. -/
structure IsFilePath (path : Name) (names : List Name) (name : Name) : Prop where
  rooted : isRooted path = true
  endsInPart : EndsInPart path
  fields : GoPath.fields path = names ++ [name]

theorem IsFilePath.split (hp : IsFilePath path names name) :
    GoPath.fields (gPathGetDirname path) = names ∧ gPathGetBasename path = name := by
  have h := (fields_dirname_basename hp.rooted hp.endsInPart).symm.trans hp.fields
  exact append_inj' h rfl |>.imp_right List.cons.inj |>.imp_right And.left

theorem getSeafdirByPath_outcome (hp : IsFilePath path names name) {rootId : Id}
    (hT : Tree (fun _ => True) st k rootId) (hlast : LastOk st name last names dirIds) :
    Outcome st name last rootId names [rootId]
      (getSeafdirByPath st rootId (gPathGetDirname path) dirIds) := by
  obtain ⟨es, hes, -⟩ := hT.readable
  have hnames := hp.split.1
  unfold getSeafdirByPath
  rw [hes]
  by_cases hsame : dirIds.head? = some rootId
  · obtain ⟨ids, hids⟩ := head?_eq_some_iff.1 hsame
    have h : Outcome st name last rootId names [rootId] (.ok (none, [rootId] ++ dirIds.tail)) :=
      .unchanged hlast hsame
    rw [hids, tail_cons, singleton_append, ← hids] at h
    simpa only [compareOrAddId, if_pos hsame, if_true, nil_append] using h
  · have hloop : Outcome st name last rootId names [rootId]
        (seafdirLoop st names es dirIds.tail [rootId]) := seafdirLoop_outcome hT hes hlast
    simp only [compareOrAddId, if_neg hsame, Bool.false_eq_true, if_false, nil_append]
    split_ifs with hroot
    · -- the root itself: the loop over no names
      have hnil : names = [] := by
        rw [← hnames, hroot.resolve_left (gPathGetDirname_ne_dot hp.rooted)]
        rfl
      rwa [hnil] at hloop ⊢
    · rwa [hnames]

/-- What is kept of a commit is what the commit has. -/
structure Fits (st : FsStore Id) (version : ℕ) (names : List Name) (name : Name)
    (commit : Commit Id) (info : FileInfo Id) : Prop where
  dirIds : dirChain st commit.rootId names = some info.dirIds
  file : ∃ d, fileAt st name commit.rootId names = some d ∧ info.fileId = d.id ∧
    info.fileSize = sizeOf st version d

/-- Every kept answer is right for its commit. -/
def CacheFits (get : Id → Option (Commit Id)) (st : FsStore Id) (version : ℕ) (names : List Name)
    (name : Name) (cache : FileInfoCache Id) : Prop :=
  ∀ id info, cache id = some info → ∃ c, get id = some c ∧ Fits st version names name c info

variable {get : Id → Option (Commit Id)} {cache : FileInfoCache Id} {commit lastCommit : Commit Id}
  {lastInfo : Option (FileInfo Id)}

theorem CacheFits.update (h : CacheFits get st version names name cache) {c : Commit Id}
    {info : FileInfo Id} (hc : get c.commitId = some c)
    (hfits : Fits st version names name c info) :
    CacheFits get st version names name (Function.update cache c.commitId (some info)) := by
  intro id info' hinfo
  by_cases hid : id = c.commitId
  · subst hid
    rw [Function.update_self] at hinfo
    cases hinfo
    exact ⟨c, hc, hfits⟩
  · rw [Function.update_of_ne hid] at hinfo
    exact h id info' hinfo

theorem CacheFits.erase (h : CacheFits get st version names name cache) (id : Id) :
    CacheFits get st version names name (Function.update cache id none) := by
  intro id' info hinfo
  by_cases hid : id' = id
  · subst hid
    rw [Function.update_self] at hinfo
    cases hinfo
  · rw [Function.update_of_ne hid] at hinfo
    exact h id' info hinfo

theorem infoIn_fits (hp : IsFilePath path names name)
    (hlast : ∀ info ∈ lastInfo, Fits st version names name lastCommit info)
    {dir : Option (List (Dirent Id)) × List Id}
    (h : Outcome st name (lastInfo.bind fun _ => fileAt st name lastCommit.rootId names)
      commit.rootId names [commit.rootId] (.ok dir)) :
    (∀ info ∈ infoIn st version path lastInfo dir, Fits st version names name commit info) ∧
      ((infoIn st version path lastInfo dir).isSome =
        (fileAt st name commit.rootId names).isSome) := by
  cases h with
  | same hchain hfile hsome =>
    cases lastInfo with
    | none => cases hsome
    | some info =>
      obtain ⟨d, hd, hid, hsize⟩ := (hlast info rfl).file
      rw [bind_some, hd] at hfile
      refine ⟨fun info' hinfo => ?_, by rw [hfile]; rfl⟩
      cases hinfo
      exact ⟨hchain, d, hfile, hid, hsize⟩
  | @walked ids entries hchain hfile =>
    rw [hfile]
    unfold infoIn
    rw [hp.split.2]
    refine ⟨fun info hinfo => ?_, by simp⟩
    obtain ⟨d, hd, rfl⟩ := map_eq_some_iff.1 hinfo
    exact ⟨hchain, d, hfile.trans hd, rfl, rfl⟩

/-- **A lookup** finds the file of the commit, if it has one, and keeps the table right. -/
theorem getFileInfo_spec (hp : IsFilePath path names name)
    (hget : get commit.commitId = some commit) (hT : Tree (fun _ => True) st k commit.rootId)
    (hcache : CacheFits get st version names name cache)
    (hlast : ∀ info ∈ lastInfo, Fits st version names name lastCommit info) :
    ∃ info cache', getFileInfo st version path commit cache lastInfo = .ok (info, cache') ∧
      CacheFits get st version names name cache' ∧
      (∀ i ∈ info, Fits st version names name commit i) ∧
      info.isSome = (fileAt st name commit.rootId names).isSome := by
  unfold getFileInfo
  cases hhit : cache commit.commitId with
  | some info =>
    obtain ⟨c, hc, hfits⟩ := hcache _ info hhit
    obtain rfl := mem_unique hget hc
    obtain ⟨d, hd, -⟩ := hfits.file
    exact ⟨some info, cache, rfl, hcache, fun i hi => by cases hi; exact hfits, by rw [hd]; rfl⟩
  | none =>
    have hlastOk : LastOk st name
        (lastInfo.bind fun _ => fileAt st name lastCommit.rootId names) names
        (lastInfo.elim [] FileInfo.dirIds) := by
      cases lastInfo with
      | none => exact .inl rfl
      | some info =>
        obtain ⟨d, hd, -⟩ := (hlast info rfl).file
        exact .inr ⟨by rw [bind_some, hd]; rfl, _, (hlast info rfl).dirIds, rfl⟩
    have hout := getSeafdirByPath_outcome hp hT hlastOk
    revert hout
    cases getSeafdirByPath st commit.rootId (gPathGetDirname path)
      (lastInfo.elim [] FileInfo.dirIds) with
    | error e =>
      intro hout
      cases hout with
      | missing hnone => exact ⟨none, cache, rfl, hcache, by simp, by rw [hnone]; rfl⟩
    | ok dir =>
      intro hout
      obtain ⟨hfits, hsome⟩ := infoIn_fits hp hlast hout
      simp only
      cases hinfo : infoIn st version path lastInfo dir with
      | none =>
        rw [hinfo] at hsome
        exact ⟨none, cache, rfl, hcache, by simp, hsome⟩
      | some info =>
        rw [hinfo] at hsome
        have hfit := hfits info hinfo
        exact ⟨some info, _, rfl, hcache.update hget hfit,
          fun i hi => by cases hi; exact hfit, hsome⟩

end Revision

end CloudFile
