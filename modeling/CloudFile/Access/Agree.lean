/-
  When the two servers decide alike on a library (`Access.Model`). They ask the same sources in
  the same order, and differ in what they see of them (`AccessView`): groups above those of the
  user, several permissions on one folder, administrators.
-/
import CloudFile.Access.Model
import CloudFile.Lib.Cascade

namespace CloudFile

open GoPath Cascade List
open Option hiding or_assoc

/-! ## The sources -/

/-- What the rows grant on one folder. -/
def permsAt (rows : List (Name × Permission)) (folder : Name) : List Permission :=
  (rows.filter fun row => row.1 = folder).map (·.2)

/-- `rw` if it is there, or else `r`. -/
def Highest (perms : List Permission) (p : Permission) : Prop :=
  p ∈ perms ∧ (.rw ∈ perms → p = .rw)

/-- The last of some rows, as a map built from them keeps. -/
def Last (perms : List Permission) (p : Permission) : Prop := perms.getLast? = some p

/-- What a server sees of the shares. -/
structure AccessView where
  groups : List ℤ
  /-- the folders at which the share of a folder is looked up, the nearest first -/
  folders : Name → List Name
  /-- the permission of several groups on one folder -/
  pick : List Permission → Permission → Prop

/-- The nearest of the folders that have rows gives the permission. -/
def nearest (pick : List Permission → Permission → Prop) (rows : List (Name × Permission))
    (folders : List Name) : Permission → Prop :=
  Answer (folders.map fun folder => pick (permsAt rows folder))

namespace AccessView

variable (v : AccessView) (conf : AccessConf) (db : AccessTables)

/-- The shares of a library to the user, to the groups and to everyone. -/
def library (repoId : RepoId) (user : Name) : List (Permission → Prop) :=
  [fun p => (db.selectShared repoId user).head? = some p,
    Highest (db.selectRepoGroup repoId v.groups),
    fun p => conf.cloudMode = false ∧ (db.selectInnerPub repoId).head? = some p]

/-- The shares of folders of a library to the user and to the groups, for the folder `path`. -/
def folder (originRepo : RepoId) (user path : Name) : List (Permission → Prop) :=
  [nearest Last (db.selectSharedDirs originRepo user) (v.folders path),
    nearest v.pick (db.selectGroupDirs originRepo v.groups) (v.folders path)]

end AccessView

/-! ### The folders that are looked up -/

/-- The folders `getDirPerm` tries, with its fuel. -/
def Share.foldersLoop : ℕ → Name → List Name
  | 0, _ => []
  | n + 1, tmp =>
    if tmp = ['/'] ∨ tmp = ['.'] ∨ tmp = [] then [] else tmp :: Share.foldersLoop n (dir tmp)

/-- The path and its parents, as the fileserver walks them. -/
def Share.folders (path : Name) : List Name := Share.foldersLoop (path.length + 1) path

/-- The folders `get_dir_perm` tries, with its fuel. -/
def RepoPerm.foldersLoop : ℕ → Name → List Name
  | 0, _ => []
  | n + 1, tmp =>
    if tmp = [] then []
    else tmp :: if '/' ∈ tmp then RepoPerm.foldersLoop n (upToSlash tmp).dropLast else []

/-- The path and its parents, as the server walks them. -/
def RepoPerm.folders (path : Name) : List Name := RepoPerm.foldersLoop path.length path

/-! ### The condition -/

/-- The view of the file server: the groups of the user. -/
def Share.view (db : AccessTables) (user : Name) : AccessView where
  groups := (db.selectUserGroups user).map (·.id)
  folders := Share.folders
  pick := Last

/-- The view of the C server: the groups of the user and those above them. -/
def RepoPerm.view (db : AccessTables) (user : Name) : AccessView where
  groups := (RepoPerm.getGroupsByUser db user true).map (·.id)
  folders := RepoPerm.folders
  pick := Highest

/-- What the fileserver grants the owner. -/
def Share.base (db : AccessTables) (repoId : RepoId) (user : Name) (p : Permission) : Prop :=
  (user ≠ [] ∧ (db.selectOwner repoId).head? = some user) ∧ p = .rw

/-- The full permission of an owner, whose name is put in lower case, and of an administrator. -/
def RepoPerm.base (conf : AccessConf) (db : AccessTables) (repoId : RepoId) (user : Name)
    (p : Permission) : Prop :=
  ((db.selectOwner repoId).head?.map (fun owner => owner.map Char.toLower) = some user ∨
    RepoPerm.isGlobalLibraryAdmin conf db user = true) ∧ p = .rw

/-- The fileserver's walk over the parents ends. -/
def WalkEnds (path : Name) (rows : List (Name × Permission)) (l : Permission → Prop) : Prop :=
  rows = [] ∨ path = [] ∨ isRooted path = true ∨ ¬ Silent l

/-- The C server comes back from the walks over the shared folders. -/
def RepoPerm.Returns (db : AccessTables) (originRepo : RepoId) (user path : Name) : Prop :=
  let toUser := db.selectSharedDirs originRepo user
  let toGroups := db.selectGroupDirs originRepo (RepoPerm.view db user).groups
  WalkEnds path toUser (nearest Last toUser (RepoPerm.folders path)) ∧
    (Silent (nearest Last toUser (RepoPerm.folders path)) →
      WalkEnds path toGroups (nearest Highest toGroups (RepoPerm.folders path)))

/-- The conditions under which the servers decide alike. -/
structure AccessAlike (conf : AccessConf) (db : AccessTables) (repoId : RepoId) (user : Name) :
    Prop where
  /-- a library without an owner is not shared to the user -/
  orphan : db.selectVirtual repoId = [] → db.selectOwner repoId = [] →
    Silent (Answer ((Share.view db user).library conf db repoId user))
  plain : db.selectVirtual repoId = [] → db.selectOwner repoId ≠ [] →
    Agree (RepoPerm.base conf db repoId user ::
        (RepoPerm.view db user).library conf db repoId user)
      (Share.base db repoId user :: (Share.view db user).library conf db repoId user)
  virtual : ∀ v, (db.selectVirtual repoId).head? = some v →
    Agree (RepoPerm.base conf db v.originRepo user ::
        ((RepoPerm.view db user).folder db v.originRepo user v.path ++
          (RepoPerm.view db user).library conf db v.originRepo user))
      (Share.base db v.originRepo user ::
        ((Share.view db user).folder db v.originRepo user v.path ++
          (Share.view db user).library conf db v.originRepo user))
  returns : ∀ v, (db.selectVirtual repoId).head? = some v →
    Silent (RepoPerm.base conf db v.originRepo user) →
    RepoPerm.Returns db v.originRepo user v.path

/-! ## Permissions of several rows -/

/-- The highest of some permissions. -/
def highest (perms : List Permission) : Option Permission :=
  if .rw ∈ perms then some .rw else if .r ∈ perms then some .r else none

theorem highest_eq_some {perms : List Permission} {p : Permission} :
    highest perms = some p ↔ Highest perms p := by
  unfold highest Highest
  cases p with
  | r => split_ifs <;> simp_all
  | rw => split_ifs <;> simp_all

theorem highest_nil : highest [] = none := rfl

variable (perms : List Permission)

theorem foldl_perm (origPerm : Option Permission) :
    perms.foldl (fun origPerm perm =>
      if perm = .rw then some perm
      else if perm = .r ∧ origPerm = none then some perm
      else origPerm) origPerm =
      if .rw ∈ perms then some .rw else origPerm.or (highest perms) := by
  induction perms generalizing origPerm with
  | nil => simp [highest_nil]
  | cons perm perms ih =>
    rw [foldl_cons, ih]
    cases perm <;> cases origPerm <;> simp [highest]

theorem RepoPerm.checkRepoSharePermRows_eq (origPerm : Option Permission) :
    RepoPerm.checkRepoSharePermRows origPerm perms =
      if .rw ∈ perms then some .rw else origPerm.or (highest perms) := by
  induction perms generalizing origPerm with
  | nil => simp [RepoPerm.checkRepoSharePermRows, highest_nil]
  | cons perm perms ih =>
    rw [RepoPerm.checkRepoSharePermRows, ih, ih]
    cases perm <;> cases origPerm <;> simp [highest]

theorem ite_or_highest :
    (if .rw ∈ perms then some .rw else (none : Option Permission).or (highest perms)) =
      highest perms := by
  by_cases h : Permission.rw ∈ perms <;> simp [highest]

variable (rows : List (Name × Permission))

theorem permsAt_concat (row : Name × Permission) (folder : Name) : permsAt (rows ++ [row]) folder =
      if row.1 = folder then permsAt rows folder ++ [row.2] else permsAt rows folder := by
  unfold permsAt
  split_ifs with h <;> simp [h]

theorem lookup_replace (dirs : DirPerms) (row : Name × Permission) (folder : Name) :
    (dirs.replace row).lookup folder =
      if row.1 = folder then some row.2 else dirs.lookup folder := by
  rw [DirPerms.replace, lookup_cons]
  by_cases h : row.1 = folder
  · simp [h]
  · rw [beq_false_of_ne (Ne.symm h), if_neg h]

theorem lookup_foldl_replace (folder : Name) :
    (rows.foldl DirPerms.replace []).lookup folder = (permsAt rows folder).getLast? := by
  induction rows using reverseRecOn with
  | nil => rfl
  | append_singleton rows row ih =>
    rw [foldl_concat, lookup_replace, permsAt_concat, ih]
    split_ifs <;> simp

theorem lookup_foldl_addSharedDirToGroup (folder : Name) :
    (rows.foldl RepoPerm.addSharedDirToGroup []).lookup folder =
      highest (permsAt rows folder) := by
  induction rows using reverseRecOn with
  | nil => rfl
  | append_singleton rows row ih =>
    rw [foldl_concat, permsAt_concat]
    generalize rows.foldl RepoPerm.addSharedDirToGroup [] = dirs at ih
    by_cases hrow : row.1 = folder
    · rw [RepoPerm.addSharedDirToGroup, hrow, ih]
      by_cases hrw : Permission.rw ∈ permsAt rows folder
      · simp [hrw, ih, highest]
      · by_cases hr : Permission.r ∈ permsAt rows folder <;> cases hperm : row.2 <;>
          simp [hrw, hr, hperm, ih, highest, lookup_replace, hrow]
    · rw [RepoPerm.addSharedDirToGroup]
      split_ifs
      · rw [lookup_replace, if_neg hrow, ih]
      · exact ih

theorem foldl_replace_isEmpty :
    (rows.foldl DirPerms.replace []).isEmpty = rows.isEmpty := by
  induction rows using reverseRecOn with
  | nil => rfl
  | append_singleton rows row => simp [DirPerms.replace]

theorem foldl_addSharedDirToGroup_isEmpty :
    (rows.foldl RepoPerm.addSharedDirToGroup []).isEmpty = rows.isEmpty := by
  induction rows using reverseRecOn with
  | nil => rfl
  | append_singleton rows row ih =>
    rw [foldl_concat]
    generalize rows.foldl RepoPerm.addSharedDirToGroup [] = dirs at ih
    -- a row is left out only where there is one already
    cases dirs with
    | nil => simp [RepoPerm.addSharedDirToGroup, DirPerms.replace]
    | cons d dirs =>
      rw [RepoPerm.addSharedDirToGroup]
      split_ifs <;> simp [DirPerms.replace]

/-! ## The walks up a path -/

/-- The permission of the first folder that has one. -/
def DirPerms.firstOf (perms : DirPerms) (folders : List Name) : Option Permission :=
  firstSome (folders.map fun folder => perms.lookup folder)

variable (perms : DirPerms)

theorem DirPerms.firstOf_cons (folder : Name) (folders : List Name) :
    perms.firstOf (folder :: folders) = (perms.lookup folder).or (perms.firstOf folders) := rfl

namespace Share

theorem getDirPermLoop_eq (n : ℕ) (tmp : Name) :
    getDirPermLoop perms n tmp = perms.firstOf (foldersLoop n tmp) := by
  induction n generalizing tmp with
  | zero => rfl
  | succ n ih =>
    rw [getDirPermLoop, foldersLoop]
    split
    · rfl
    · rw [DirPerms.firstOf_cons, ih]

end Share

namespace RepoPerm

variable {tmp : Name}

theorem length_cut_lt (h : '/' ∈ tmp) :
    (upToSlash tmp).dropLast.length < tmp.length := by
  rcases upToSlash_cases tmp with ⟨hno, -⟩ | ⟨q, t, rfl, -, hu⟩
  · exact absurd h hno
  · rw [hu, dropLast_concat, length_append, length_cons]
    omega

theorem isRooted_cut (h : '/' ∈ tmp) :
    (upToSlash tmp).dropLast = [] ∨ isRooted (upToSlash tmp).dropLast = true ↔
      isRooted tmp = true := by
  rcases upToSlash_cases tmp with ⟨hno, -⟩ | ⟨q, t, rfl, -, hu⟩
  · exact absurd h hno
  · rw [hu, dropLast_concat]
    cases q with
    | nil => simp [isRooted]
    | cons c q => simp [isRooted]

/-- The walk returns from a path that starts with a slash, and from any other one if it finds a
    folder. -/
theorem getDirPermLoop_eq {n : ℕ} (hn : tmp.length ≤ n) :
    getDirPermLoop perms n tmp =
      if tmp = [] ∨ isRooted tmp = true ∨
          perms.firstOf (foldersLoop n tmp) ≠ none then
        some (perms.firstOf (foldersLoop n tmp))
      else none := by
  induction n generalizing tmp with
  | zero =>
    obtain rfl := length_eq_zero_iff.1 (Nat.le_zero.1 hn)
    rfl
  | succ n ih =>
    rw [getDirPermLoop, foldersLoop]
    by_cases hnil : tmp = []
    · simp [hnil, DirPerms.firstOf, firstSome]
    rw [if_neg hnil, if_neg hnil, DirPerms.firstOf_cons]
    cases hlookup : perms.lookup tmp with
    | some perm => simp
    | none =>
      by_cases hslash : '/' ∈ tmp
      · have hlt := length_cut_lt hslash
        rw [if_pos hslash, if_pos hslash, ih (by omega)]
        refine if_congr ?_ rfl rfl
        rw [← or_assoc, isRooted_cut hslash]
        simp [hnil]
      · have hroot : isRooted tmp = false := by
          cases tmp with
          | nil => rfl
          | cons c tmp => simpa [isRooted] using fun hc => hslash (by simp [hc])
        simp [hslash, hnil, hroot, DirPerms.firstOf, firstSome]

end RepoPerm

/-! ## The decisions -/

section Decisions

variable (conf : AccessConf) (db : AccessTables) (repoId : RepoId) (user path : Name)

theorem selectRepoGroup_nil : db.selectRepoGroup repoId [] = [] := by
  simp [AccessTables.selectRepoGroup]

theorem selectGroupDirs_nil : db.selectGroupDirs repoId [] = [] := by
  simp [AccessTables.selectGroupDirs]

theorem DirPerms.firstOf_nil (folders : List Name) : DirPerms.firstOf [] folders = none := by
  induction folders with
  | nil => rfl
  | cons folder folders ih => rw [DirPerms.firstOf_cons, ih]; rfl

/-- What the shares of the library answer, in order. -/
def libraryAnswers (groups : List ℤ) : List (Option Permission) :=
  [(db.selectShared repoId user).head?, highest (db.selectRepoGroup repoId groups),
    if conf.cloudMode then none else (db.selectInnerPub repoId).head?]

theorem speak_library (v : AccessView) :
    Speak (libraryAnswers conf db repoId user v.groups) (v.library conf db repoId user) := by
  refine .cons (fun p => Iff.rfl) (.cons (fun p => highest_eq_some) (.cons (fun p => ?_) .nil))
  cases conf.cloudMode <;> simp

variable {perms : DirPerms}

theorem firstOf_eq_some {pick : List Permission → Permission → Prop}
    {rows : List (Name × Permission)}
    (h : ∀ folder p, perms.lookup folder = some p ↔ pick (permsAt rows folder) p)
    (folders : List Name) (p : Permission) :
    perms.firstOf folders = some p ↔ nearest pick rows folders p := by
  have hspeak : Speak (folders.map fun folder => perms.lookup folder)
      (folders.map fun folder => pick (permsAt rows folder)) := by
    induction folders with
    | nil => exact .nil
    | cons folder folders ih => exact .cons (h folder) ih
  exact (answer_iff hspeak).symm

theorem firstOf_replace (folders : List Name) (p : Permission) :
    (rows.foldl DirPerms.replace []).firstOf folders = some p ↔ nearest Last rows folders p :=
  firstOf_eq_some (fun folder p => by rw [lookup_foldl_replace, Last]) folders p

theorem firstOf_addSharedDirToGroup (folders : List Name)
    (p : Permission) : (rows.foldl RepoPerm.addSharedDirToGroup []).firstOf folders = some p ↔
      nearest Highest rows folders p :=
  firstOf_eq_some (fun folder p => by rw [lookup_foldl_addSharedDirToGroup, highest_eq_some])
    folders p

/-- What full access answers. -/
def baseAnswer (full : Prop) [Decidable full] : Option Permission :=
  if full then some .rw else none

theorem firstSome_base (full : Prop) [Decidable full] (os : List (Option Permission)) :
    firstSome (baseAnswer full :: os) = if full then some .rw else firstSome os := by
  rw [baseAnswer]
  split <;> rfl

theorem baseAnswer_eq_some {full : Prop} [Decidable full] (p : Permission) :
    baseAnswer full = some p ↔ full ∧ p = .rw := by
  unfold baseAnswer
  split_ifs with h <;> simp [h, eq_comm]

namespace Share

theorem checkGroupPermByUser_eq : checkGroupPermByUser db repoId user =
    highest (db.selectRepoGroup repoId (view db user).groups) := by
  have hgroups : getGroupsByUser db user false = some (db.selectUserGroups user) := rfl
  rw [checkGroupPermByUser, hgroups, bind_some, view]
  split
  next hempty =>
    rw [List.isEmpty_iff.1 hempty, map_nil, selectRepoGroup_nil, highest_nil]
  next => rw [foldl_perm, ite_or_highest]

theorem owner_iff : getRepoOwner db repoId ≠ [] ∧ getRepoOwner db repoId = user ↔
    user ≠ [] ∧ (db.selectOwner repoId).head? = some user := by
  unfold getRepoOwner
  constructor
  · rintro ⟨hne, rfl⟩
    refine ⟨hne, ?_⟩
    cases howner : (db.selectOwner repoId).head? with
    | none => simp [howner] at hne
    | some owner => rfl
  · rintro ⟨hne, howner⟩
    simp [howner, hne]

theorem checkRepoSharePerm_eq : checkRepoSharePerm conf db repoId user =
    firstSome (baseAnswer (user ≠ [] ∧ (db.selectOwner repoId).head? = some user) ::
      libraryAnswers conf db repoId user (view db user).groups) := by
  simp only [checkRepoSharePerm, owner_iff, checkGroupPermByUser_eq, firstSome, libraryAnswers,
    baseAnswer, checkSharedRepoPerm, checkInnerPubRepoPerm]
  split
  · rfl
  · cases conf.cloudMode <;> simp

def folderAnswers : List (Option Permission) :=
  [(getSharedDirsToUser db repoId user).firstOf (folders path),
    (getSharedDirsToGroup db repoId (db.selectUserGroups user)).firstOf (folders path)]

theorem speak_folder :
    Speak (folderAnswers db repoId user path) ((view db user).folder db repoId user path) :=
  .cons (firstOf_replace _ _) (.cons (firstOf_replace _ _) .nil)

theorem checkPermOnParentRepo_eq : checkPermOnParentRepo db repoId user path =
    firstSome (folderAnswers db repoId user path) := by
  have hgroups : (getGroupsByUser db user false).getD [] = db.selectUserGroups user := rfl
  have hwalk : ∀ perms : DirPerms,
      (if perms.isEmpty then none else getDirPerm perms path) = perms.firstOf (folders path) := by
    intro perms
    split
    next hempty => rw [List.isEmpty_iff.1 hempty, DirPerms.firstOf_nil]
    next => exact getDirPermLoop_eq perms _ path
  simp only [checkPermOnParentRepo, hgroups, hwalk, folderAnswers, firstSome, or_none]
  split
  next hempty =>
    rw [getSharedDirsToGroup, List.isEmpty_iff.1 hempty, map_nil, selectGroupDirs_nil,
      foldl_nil, DirPerms.firstOf_nil]
  next => rfl

theorem checkVirtualRepoPerm_eq : checkVirtualRepoPerm conf db repoId user path =
    firstSome (baseAnswer (user ≠ [] ∧ (db.selectOwner repoId).head? = some user) ::
      (folderAnswers db repoId user path ++
        libraryAnswers conf db repoId user (view db user).groups)) := by
  simp only [checkVirtualRepoPerm, owner_iff, checkPermOnParentRepo_eq, checkRepoSharePerm_eq]
  rw [firstSome, firstSome, firstSome_append, baseAnswer]
  split <;> simp

end Share

namespace RepoPerm

theorem checkGroupPermissionByUser_eq : checkGroupPermissionByUser db repoId user =
    highest (db.selectRepoGroup repoId (view db user).groups) := by
  rw [checkGroupPermissionByUser, view]
  split
  next hempty =>
    rw [List.isEmpty_iff.1 hempty, map_nil, selectRepoGroup_nil, highest_nil]
  next => rw [checkRepoSharePermRows_eq, ite_or_highest]

theorem checkRepoSharePermission_eq : checkRepoSharePermission conf db repoId user =
    firstSome (libraryAnswers conf db repoId user (view db user).groups) := by
  rw [checkRepoSharePermission, checkGroupPermissionByUser_eq]
  cases hmode : conf.cloudMode <;> simp [libraryAnswers, firstSome, hmode]

def folderAnswers : List (Option Permission) :=
  [(getSharedDirsToUser db repoId user).firstOf (folders path),
    (getSharedDirsToGroup db repoId (getGroupsByUser db user true)).firstOf (folders path)]

theorem speak_folder :
    Speak (folderAnswers db repoId user path) ((view db user).folder db repoId user path) :=
  .cons (firstOf_replace _ _) (.cons (firstOf_addSharedDirToGroup _ _) .nil)

theorem walk_eq {rows : List (Name × Permission)} {l : Permission → Prop}
    (hempty : perms.isEmpty = rows.isEmpty)
    (hl : ∀ p, perms.firstOf (folders path) = some p ↔ l p) :
    WalkEnds path rows l ∧ (if perms.isEmpty then some none else getDirPerm perms path) =
        some (perms.firstOf (folders path)) ∨
      ¬ WalkEnds path rows l ∧
        (if perms.isEmpty then some none else getDirPerm perms path) = none := by
  rw [WalkEnds, silent_iff hl, hempty]
  by_cases hrows : rows = []
  · subst hrows
    rw [List.isEmpty_iff.1 hempty, DirPerms.firstOf_nil]
    exact .inl ⟨.inl rfl, rfl⟩
  · rw [if_neg (by simpa using hrows), getDirPerm, getDirPermLoop_eq perms le_rfl]
    by_cases hends : path = [] ∨ isRooted path = true ∨ perms.firstOf (folders path) ≠ none
    · exact .inl ⟨.inr hends, if_pos hends⟩
    · exact .inr ⟨fun h => hends (h.resolve_left hrows), if_neg hends⟩

theorem checkPermOnParentRepo_cases :
    Returns db repoId user path ∧ checkPermOnParentRepo db repoId user path =
        some (firstSome (folderAnswers db repoId user path)) ∨
      ¬ Returns db repoId user path ∧ checkPermOnParentRepo db repoId user path = none := by
  have hgroups : checkPermOnParentRepo db repoId user path =
      (if (getSharedDirsToUser db repoId user).isEmpty then some none
        else getDirPerm (getSharedDirsToUser db repoId user) path).bind fun perm =>
      if perm.isSome then some perm
      else if (getSharedDirsToGroup db repoId (getGroupsByUser db user true)).isEmpty then some none
      else getDirPerm (getSharedDirsToGroup db repoId (getGroupsByUser db user true)) path := by
    -- without groups there is nothing to look up
    rw [checkPermOnParentRepo]
    congr 1
    by_cases hempty : (getGroupsByUser db user true).isEmpty = true
    · have hnone : getSharedDirsToGroup db repoId (getGroupsByUser db user true) = [] := by
        rw [getSharedDirsToGroup, List.isEmpty_iff.1 hempty, map_nil, selectGroupDirs_nil]
        rfl
      simp [hnone]
    · simp only [hempty]
      rfl
  have hsilent := silent_iff (firstOf_replace (db.selectSharedDirs repoId user) (folders path))
  rw [hgroups, Returns, folderAnswers, firstSome, firstSome, firstSome, or_none]
  rcases walk_eq path (foldl_replace_isEmpty (db.selectSharedDirs repoId user))
    (firstOf_replace _ (folders path)) with ⟨hends, huser⟩ | ⟨hends, huser⟩
  · rw [getSharedDirsToUser, huser, hsilent]
    cases hfound : DirPerms.firstOf
        ((db.selectSharedDirs repoId user).foldl DirPerms.replace []) (folders path) with
    | some perm => exact .inl ⟨⟨hends, fun hnone => by cases hnone⟩, rfl⟩
    | none =>
      rcases walk_eq path
        (foldl_addSharedDirToGroup_isEmpty (db.selectGroupDirs repoId (view db user).groups))
        (firstOf_addSharedDirToGroup _ (folders path)) with ⟨hends', hgroup⟩ | ⟨hends', hgroup⟩
      · exact .inl ⟨⟨hends, fun _ => hends'⟩, hgroup⟩
      · exact .inr ⟨fun h => hends' (h.2 rfl), hgroup⟩
  · rw [getSharedDirsToUser, huser]
    exact .inr ⟨fun h => hends h.1, rfl⟩

theorem speak_base : ∀ p, baseAnswer (getRepoOwner db repoId = some user ∨
    isGlobalLibraryAdmin conf db user = true) = some p ↔ base conf db repoId user p :=
  baseAnswer_eq_some

end RepoPerm

theorem Share.speak_base (p : Permission) :
    baseAnswer (user ≠ [] ∧ (db.selectOwner repoId).head? = some user) = some p ↔
      Share.base db repoId user p :=
  baseAnswer_eq_some p

theorem checkRepoSharePermission_alike_iff :
    firstSome (baseAnswer (RepoPerm.getRepoOwner db repoId = some user ∨
        RepoPerm.isGlobalLibraryAdmin conf db user = true) ::
      libraryAnswers conf db repoId user (RepoPerm.view db user).groups) =
        Share.checkRepoSharePerm conf db repoId user ↔
      Agree (RepoPerm.base conf db repoId user ::
          (RepoPerm.view db user).library conf db repoId user)
        (Share.base db repoId user :: (Share.view db user).library conf db repoId user) := by
  have hagree := agree_iff
    (Forall₂.cons (RepoPerm.speak_base conf db repoId user)
      (speak_library conf db repoId user (RepoPerm.view db user)))
    (Forall₂.cons (Share.speak_base db repoId user)
      (speak_library conf db repoId user (Share.view db user))) rfl
  rw [Share.checkRepoSharePerm_eq, hagree]

theorem checkVirtualRepoPermission_alike_iff :
    RepoPerm.checkVirtualRepoPermission conf db repoId user path =
        some (Share.checkVirtualRepoPerm conf db repoId user path) ↔
      Agree (RepoPerm.base conf db repoId user ::
          ((RepoPerm.view db user).folder db repoId user path ++
            (RepoPerm.view db user).library conf db repoId user))
        (Share.base db repoId user ::
          ((Share.view db user).folder db repoId user path ++
            (Share.view db user).library conf db repoId user)) ∧
      (Silent (RepoPerm.base conf db repoId user) → RepoPerm.Returns db repoId user path) := by
  have hagree := agree_iff
    (Forall₂.cons (RepoPerm.speak_base conf db repoId user)
      (speak_append (RepoPerm.speak_folder db repoId user path)
        (speak_library conf db repoId user (RepoPerm.view db user))))
    (Forall₂.cons (Share.speak_base db repoId user)
      (speak_append (Share.speak_folder db repoId user path)
        (speak_library conf db repoId user (Share.view db user)))) rfl
  rw [hagree, ← Share.checkVirtualRepoPerm_eq, RepoPerm.checkVirtualRepoPermission,
    silent_iff (RepoPerm.speak_base conf db repoId user)]
  generalize Share.checkVirtualRepoPerm conf db repoId user path = perm
  by_cases hbase : RepoPerm.getRepoOwner db repoId = some user ∨
      RepoPerm.isGlobalLibraryAdmin conf db user = true
  · have hfull := (baseAnswer_eq_some Permission.rw).2 ⟨hbase, rfl⟩
    rw [if_pos hbase, firstSome_base, if_pos hbase, hfull]
    simp
  · rw [if_neg hbase, firstSome_base, if_neg hbase, firstSome_append, baseAnswer, if_neg hbase,
      RepoPerm.checkRepoSharePermission_eq]
    rcases RepoPerm.checkPermOnParentRepo_cases db repoId user path with ⟨hret, h⟩ | ⟨hret, h⟩
    · simp [h, hret]
    · simp [h, hret]

end Decisions

variable {conf : AccessConf} {db : AccessTables} {repoId : RepoId} {user : Name}

/-- **The servers decide alike** under the conditions of `AccessAlike`. -/
theorem checkPerm_alike_iff :
    RepoPerm.checkPermission conf db repoId user = some (Share.checkPerm conf db repoId user) ↔
      AccessAlike conf db repoId user := by
  rw [RepoPerm.checkPermission, Share.checkPerm]
  cases hvirtual : db.selectVirtual repoId with
  | cons v rows =>
    rw [head?_cons, elim_some, elim_some, checkVirtualRepoPermission_alike_iff]
    constructor
    · rintro ⟨hagree, hreturns⟩
      refine ⟨fun h => ?_, fun h => ?_, fun v' hv' => ?_, fun v' hv' => ?_⟩
      · cases hvirtual.symm.trans h
      · cases hvirtual.symm.trans h
      · rw [hvirtual] at hv'
        cases hv'
        exact hagree
      · rw [hvirtual] at hv'
        cases hv'
        exact hreturns
    · intro h
      have hv : (db.selectVirtual repoId).head? = some v := by rw [hvirtual]; rfl
      exact ⟨h.virtual v hv, h.returns v hv⟩
  | nil =>
    rw [head?_nil, elim_none, elim_none, some_inj]
    have hno : ∀ v, (db.selectVirtual repoId).head? ≠ some v := by simp [hvirtual]
    cases howner : db.selectOwner repoId with
    | nil =>
      have hsilent : Silent (Answer ((Share.view db user).library conf db repoId user)) ↔
          Share.checkRepoSharePerm conf db repoId user = none := by
        rw [silent_answer_iff (speak_library conf db repoId user _), Share.checkRepoSharePerm_eq,
          firstSome, baseAnswer, if_neg (by simp [howner]), none_or]
      have hnone : RepoPerm.getRepoOwner db repoId = none := by
        rw [RepoPerm.getRepoOwner, howner]
        rfl
      rw [hnone, bind_none, eq_comm, ← hsilent]
      constructor
      · intro h
        exact ⟨fun _ _ => h, fun _ hne => absurd howner hne, fun v hv => absurd hv (hno v),
          fun v hv => absurd hv (hno v)⟩
      · exact fun h => h.orphan hvirtual howner
    | cons owner owners =>
      have hsome : RepoPerm.getRepoOwner db repoId = some (owner.map Char.toLower) := by
        rw [RepoPerm.getRepoOwner, howner]
        rfl
      have halike := checkRepoSharePermission_alike_iff conf db repoId user
      simp only [firstSome_base, hsome, some_inj] at halike
      rw [hsome, bind_some, RepoPerm.checkRepoSharePermission_eq, halike]
      constructor
      · intro h
        exact ⟨fun _ hnil => absurd hnil (by simp [howner]), fun _ _ => h,
          fun v hv => absurd hv (hno v), fun v hv => absurd hv (hno v)⟩
      · exact fun h => h.plain hvirtual (by simp [howner])

/-! ### Where they differ -/

/-- `l` of `o` is shared to the group 1, the parent of the group 2 of `u`; `p` without an owner is
    shared to `u`; `m` is an administrator. -/
def sharedTables : AccessTables where
  repoOwner := [(['l'], ['o']), (['c'], "Big".toList)]
  sharedRepo := [⟨['p'], ['u'], .r⟩]
  repoGroup := [⟨['l'], 1, .r⟩, ⟨['v'], 3, .rw⟩, ⟨['w'], 4, .r⟩]
  innerPubRepo := []
  virtualRepo := [⟨['v'], ['l'], "/a".toList⟩, ⟨['w'], ['l'], "/a".toList⟩]
  group := [⟨1, -1⟩, ⟨2, 1⟩, ⟨3, 0⟩, ⟨4, 0⟩]
  groupUser := [(2, ['u']), (3, ['x']), (4, ['x'])]
  groupStructure := [⟨1, [1], by decide⟩, ⟨2, [1, 2], by decide⟩]
  emailUser := [⟨['m'], true, true⟩]
  adminRole := []

/-- A server with sharing on. -/
def sharedConf : AccessConf := ⟨false, true, .unset⟩

/-- **The servers differ** on a share to a group above the user's, on a library without an owner,
    on an administrator, on an owner with a capital letter, and on a folder of two groups. -/
theorem checkPerm_not_alike :
    (RepoPerm.checkPermission sharedConf sharedTables ['l'] ['u'] = some (some .r) ∧
      Share.checkPerm sharedConf sharedTables ['l'] ['u'] = none) ∧
    (RepoPerm.checkPermission sharedConf sharedTables ['p'] ['u'] = some none ∧
      Share.checkPerm sharedConf sharedTables ['p'] ['u'] = some .r) ∧
    (RepoPerm.checkPermission sharedConf sharedTables ['l'] ['m'] = some (some .rw) ∧
      Share.checkPerm sharedConf sharedTables ['l'] ['m'] = none) ∧
    (RepoPerm.checkPermission sharedConf sharedTables ['c'] "Big".toList = some none ∧
      Share.checkPerm sharedConf sharedTables ['c'] "Big".toList = some .rw) ∧
    (RepoPerm.checkPermission sharedConf sharedTables ['v'] ['x'] = some (some .rw) ∧
      Share.checkPerm sharedConf sharedTables ['v'] ['x'] = some .r) := by
  decide +kernel

end CloudFile
