/-
  The permission of a user on a library, decided by `CheckPerm` (`fileserver/share/share.go`) and
  by `seaf_repo_manager_check_permission` (`server/repo-perm.c`, `server/share-mgr.c`,
  `common/group-mgr.c`, `common/user-mgr.c`). A query gives the rows it selects in the order of
  the table. Permissions in the tables are `r` or `rw` (`is_permission_valid`).
-/
import CloudFile.Gc.TraverseCommits
import CloudFile.Lib.GoPath

namespace CloudFile

open GoPath

/-! ## The tables -/

/-- A stored permission: read, or read and write. -/
inductive Permission where
  | r
  | rw
deriving DecidableEq

/-- A row of `SharedRepo`: a share to a user. -/
structure SharedRepo where
  repoId : RepoId
  toEmail : Name
  permission : Permission

/-- A row of `RepoGroup`: a share to a group. -/
structure RepoGroup where
  repoId : RepoId
  groupId : ℤ
  permission : Permission

/-- A row of `VirtualRepo`: a shared folder's own library. -/
structure VirtualFolder where
  repoId : RepoId
  originRepo : RepoId
  path : Name

/-- A row of `Group`; the group at the top of a hierarchy has the parent -1, and a group outside of
    every hierarchy the parent 0. -/
structure CcnetGroup where
  id : ℤ
  parentGroupId : ℤ
deriving DecidableEq

/-- A row of `GroupStructure`: a group with the ids on the way to it from the top of its
    hierarchy. -/
structure GroupStructure where
  groupId : ℤ
  path : List ℤ
  path_ne : path ≠ []

/-- A row of `EmailUser`. -/
structure EmailUser where
  email : Name
  isStaff : Bool
  isActive : Bool

/-- A row of `role_permissions_adminrole`. -/
structure AdminRole where
  email : Name
  role : Name

/-- The tables the permission checks read. -/
structure AccessTables where
  repoOwner : List (RepoId × Name)
  sharedRepo : List SharedRepo
  repoGroup : List RepoGroup
  innerPubRepo : List (RepoId × Permission)
  virtualRepo : List VirtualFolder
  group : List CcnetGroup
  groupUser : List (ℤ × Name)
  groupStructure : List GroupStructure
  emailUser : List EmailUser
  adminRole : List AdminRole

/-- The environment variable `CF_ADMIN_ROLE_PERMISSIONS_JSON`. -/
inductive RolePermissions where
  /-- not set, or empty -/
  | unset
  /-- not the text of an object -/
  | invalid
  /-- for each role, whether its `can_manage_library` is true -/
  | roles (canManageLibrary : List (Name × Bool))

/-- The options they read. -/
structure AccessConf where
  cloudMode : Bool
  /-- the tables of the users are on the database server of the library tables -/
  sharedDatabase : Bool
  rolePermissions : RolePermissions

/-! ### Queries -/

namespace AccessTables

variable (db : AccessTables)

/-- `SELECT owner_id FROM RepoOwner WHERE repo_id=?` -/
def selectOwner (repoId : RepoId) : List Name :=
  (db.repoOwner.filter fun o => o.1 = repoId).map fun o => o.2

/-- `SELECT .. FROM VirtualRepo WHERE repo_id = ?` -/
def selectVirtual (repoId : RepoId) : List VirtualFolder :=
  db.virtualRepo.filter fun v => v.repoId = repoId

/-- `SELECT permission FROM SharedRepo WHERE repo_id=? AND to_email=?` -/
def selectShared (repoId : RepoId) (email : Name) : List Permission :=
  (db.sharedRepo.filter fun s => s.repoId = repoId ∧ s.toEmail = email).map (·.permission)

/-- `SELECT permission FROM RepoGroup WHERE repo_id = ? AND group_id IN (..)` -/
def selectRepoGroup (repoId : RepoId) (groupIds : List ℤ) : List Permission :=
  (db.repoGroup.filter fun s => s.repoId = repoId ∧ s.groupId ∈ groupIds).map (·.permission)

/-- `SELECT permission FROM InnerPubRepo WHERE repo_id=?` -/
def selectInnerPub (repoId : RepoId) : List Permission :=
  (db.innerPubRepo.filter fun o => o.1 = repoId).map fun o => o.2

/-- `SELECT v.path, s.permission FROM SharedRepo s, VirtualRepo v WHERE s.repo_id = v.repo_id AND
    s.to_email = ? AND v.origin_repo = ?` -/
def selectSharedDirs (originRepo : RepoId) (email : Name) : List (Name × Permission) :=
  db.sharedRepo.flatMap fun s =>
    (db.virtualRepo.filter fun v =>
      s.repoId = v.repoId ∧ s.toEmail = email ∧ v.originRepo = originRepo).map fun v =>
        (v.path, s.permission)

/-- `SELECT v.path, s.permission FROM RepoGroup s, VirtualRepo v WHERE s.repo_id = v.repo_id AND
    v.origin_repo = ? AND s.group_id in (..)` -/
def selectGroupDirs (originRepo : RepoId) (groupIds : List ℤ) : List (Name × Permission) :=
  db.repoGroup.flatMap fun s =>
    (db.virtualRepo.filter fun v =>
      s.repoId = v.repoId ∧ v.originRepo = originRepo ∧ s.groupId ∈ groupIds).map fun v =>
        (v.path, s.permission)

/-- The groups, the newest first. -/
def orderByIdDesc (groups : List CcnetGroup) : List CcnetGroup :=
  groups.insertionSort fun g g' => g'.id ≤ g.id

/-- `SELECT .. FROM Group g, GroupUser u WHERE g.group_id = u.group_id AND user_name=?
    ORDER BY g.group_id DESC` -/
def selectUserGroups (userName : Name) : List CcnetGroup :=
  orderByIdDesc <| db.group.flatMap fun g =>
    (db.groupUser.filter fun u => g.id = u.1 ∧ u.2 = userName).map fun _ => g

/-- `SELECT path FROM GroupStructure WHERE group_id IN (..)`, with the paths put together -/
def selectPaths (groupIds : List ℤ) : List ℤ :=
  (db.groupStructure.filter fun s => s.groupId ∈ groupIds).flatMap (·.path)

/-- `SELECT .. FROM Group g WHERE g.group_id IN (..) ORDER BY g.group_id DESC` -/
def selectGroups (groupIds : List ℤ) : List CcnetGroup :=
  orderByIdDesc (db.group.filter fun g => g.id ∈ groupIds)

/-- `SELECT CASE WHEN r.email IS NULL THEN 'system_admin' ELSE r.role END FROM EmailUser u LEFT JOIN
    role_permissions_adminrole r ON r.email=u.email WHERE u.email=? AND u.is_active=1 AND
    u.is_staff=1` -/
def selectRoles (username : Name) : List Name :=
  (db.emailUser.filter fun u => u.email = username ∧ u.isActive ∧ u.isStaff).flatMap fun u =>
    let roles := (db.adminRole.filter fun r => r.email = u.email).map (·.role)
    if roles.isEmpty then ["system_admin".toList] else roles

end AccessTables

/-- The permissions of folders by their paths, the last one that was put in first. -/
abbrev DirPerms := List (Name × Permission)

/-- `g_hash_table_replace`, and the assignment to a map -/
def DirPerms.replace (dirs : DirPerms) (row : Name × Permission) : DirPerms := row :: dirs

/-! ## The file server -/

namespace Share

variable (conf : AccessConf) (db : AccessTables)

/-- `repomgr.GetRepoOwner`, empty if there is none -/
def getRepoOwner (repoId : RepoId) : Name := (db.selectOwner repoId).head?.getD []

/-- `getGroupsByUser`, or an error -/
def getGroupsByUser (userName : Name) (returnAncestors : Bool) : Option (List CcnetGroup) :=
  let groups := db.selectUserGroups userName
  if !returnAncestors then some groups
  else
    let nested := groups.filter (·.parentGroupId ≠ 0)
    let ret := groups.filter (·.parentGroupId = 0)
    if nested.isEmpty then some ret
    else
      let paths := db.selectPaths (nested.map (·.id))
      if paths.isEmpty then none else some (ret ++ db.selectGroups paths)

/-- `checkGroupPermByUser`; an error is logged by the caller and gives no permission -/
def checkGroupPermByUser (repoId : RepoId) (userName : Name) : Option Permission :=
  (getGroupsByUser db userName false).bind fun groups =>
    if groups.isEmpty then none
    else (db.selectRepoGroup repoId (groups.map (·.id))).foldl
      (fun origPerm perm =>
        if perm = .rw then some perm
        else if perm = .r ∧ origPerm = none then some perm
        else origPerm) none

/-- What the library's share to the user grants. -/
def checkSharedRepoPerm (repoId : RepoId) (email : Name) : Option Permission :=
  (db.selectShared repoId email).head?

/-- What its publication grants. -/
def checkInnerPubRepoPerm (repoId : RepoId) : Option Permission := (db.selectInnerPub repoId).head?

/-- Owner, then user, groups and publication. -/
def checkRepoSharePerm (repoId : RepoId) (userName : Name) : Option Permission :=
  let owner := getRepoOwner db repoId
  if owner ≠ [] ∧ owner = userName then some .rw
  else (checkSharedRepoPerm db repoId userName).or <|
    (checkGroupPermByUser db repoId userName).or <|
    if !conf.cloudMode then checkInnerPubRepoPerm db repoId else none

/-- The folders shared to the user. -/
def getSharedDirsToUser (originRepoId : RepoId) (toEmail : Name) : DirPerms :=
  (db.selectSharedDirs originRepoId toEmail).foldl DirPerms.replace []

/-- The folders shared to the groups. -/
def getSharedDirsToGroup (originRepoId : RepoId) (groups : List CcnetGroup) : DirPerms :=
  (db.selectGroupDirs originRepoId (groups.map (·.id))).foldl DirPerms.replace []

/-- The loop of `getDirPerm`; `filepath.Dir` makes the path shorter until the loop ends. -/
def getDirPermLoop (perms : DirPerms) : ℕ → Name → Option Permission
  | 0, _ => none
  | n + 1, tmp =>
    if tmp = ['/'] ∨ tmp = ['.'] ∨ tmp = [] then none
    else (perms.lookup tmp).or (getDirPermLoop perms n (dir tmp))

/-- The permission of the nearest shared folder. -/
def getDirPerm (perms : DirPerms) (path : Name) : Option Permission :=
  getDirPermLoop perms (path.length + 1) path

/-- What the shared folders of the origin grant. -/
def checkPermOnParentRepo (originRepoId : RepoId) (user vPath : Name) : Option Permission :=
  let userPerms := getSharedDirsToUser db originRepoId user
  (if userPerms.isEmpty then none else getDirPerm userPerms vPath).or <|
    -- an error is logged and leaves no groups
    let groups := (getGroupsByUser db user false).getD []
    if groups.isEmpty then none
    else
      let groupPerms := getSharedDirsToGroup db originRepoId groups
      if groupPerms.isEmpty then none else getDirPerm groupPerms vPath

/-- The permission on a shared folder. -/
def checkVirtualRepoPerm (originRepoId : RepoId) (user vPath : Name) : Option Permission :=
  let owner := getRepoOwner db originRepoId
  if owner ≠ [] ∧ owner = user then some .rw
  else (checkPermOnParentRepo db originRepoId user vPath).or
    (checkRepoSharePerm conf db originRepoId user)

/-- The permission the fileserver finds. -/
def checkPerm (repoId : RepoId) (user : Name) : Option Permission :=
  (db.selectVirtual repoId).head?.elim (checkRepoSharePerm conf db repoId user) fun vInfo =>
    checkVirtualRepoPerm conf db vInfo.originRepo user vInfo.path

end Share

/-! ## The C server -/

namespace RepoPerm

variable (conf : AccessConf) (db : AccessTables)

/-- `seaf_repo_manager_get_repo_owner`, in lower case -/
def getRepoOwner (repoId : RepoId) : Option Name :=
  (db.selectOwner repoId).head?.map fun owner => owner.map Char.toLower

/-- `cloudfile_library_administrator`: whether the role of the row manages the libraries -/
def cloudfileLibraryAdministrator (role : Name) : Bool :=
  role = "system_admin".toList && match conf.rolePermissions with
    | .unset => true
    | .invalid => false
    | .roles canManageLibrary => (canManageLibrary.lookup role).getD true

/-- `ccnet_user_manager_is_global_library_admin`; only the first row is looked at -/
def isGlobalLibraryAdmin (username : Name) : Bool :=
  if !conf.sharedDatabase || username.isEmpty then false
  else (db.selectRoles username).head?.any (cloudfileLibraryAdministrator conf)

/-- `ccnet_group_manager_get_groups_by_user`; an error leaves no groups -/
def getGroupsByUser (userName : Name) (returnAncestors : Bool) : List CcnetGroup :=
  let groups := db.selectUserGroups userName
  if !returnAncestors then groups
  else
    let nested := groups.filter (·.parentGroupId ≠ 0)
    let ret := groups.filter (·.parentGroupId = 0)
    if nested.isEmpty then AccessTables.orderByIdDesc ret
    else
      let paths := db.selectPaths (nested.map (·.id))
      if paths.isEmpty then []
      else AccessTables.orderByIdDesc (ret ++ db.selectGroups paths)

/-- The rows for `check_repo_share_perm_cb`, which takes no more of them after `rw`. -/
def checkRepoSharePermRows : Option Permission → List Permission → Option Permission
  | origPerm, [] => origPerm
  | origPerm, perm :: rows =>
    if perm = .rw then some perm
    else if perm = .r ∧ origPerm = none then checkRepoSharePermRows (some perm) rows
    else checkRepoSharePermRows origPerm rows

/-- What the shares to the user's groups grant. -/
def checkGroupPermissionByUser (repoId : RepoId) (userName : Name) : Option Permission :=
  let groups := getGroupsByUser db userName true
  if groups.isEmpty then none
  else checkRepoSharePermRows none (db.selectRepoGroup repoId (groups.map (·.id)))

/-- User, then groups, then publication. -/
def checkRepoSharePermission (repoId : RepoId) (userName : Name) : Option Permission :=
  (db.selectShared repoId userName).head?.or <|
    (checkGroupPermissionByUser db repoId userName).or <|
    if !conf.cloudMode then (db.selectInnerPub repoId).head? else none

/-- The folders shared to the user. -/
def getSharedDirsToUser (originRepoId : RepoId) (toEmail : Name) : DirPerms :=
  (db.selectSharedDirs originRepoId toEmail).foldl DirPerms.replace []

/-- One row of `seaf_share_manager_get_shared_dirs_to_group`. -/
def addSharedDirToGroup (dirs : DirPerms) (row : Name × Permission) : DirPerms :=
  let prevPerm := dirs.lookup row.1
  if some row.2 ≠ prevPerm ∧ (prevPerm = none ∨ prevPerm = some .r) then dirs.replace row else dirs

/-- The folders shared to the groups, each at its highest. -/
def getSharedDirsToGroup (originRepoId : RepoId) (groups : List CcnetGroup) : DirPerms :=
  (db.selectGroupDirs originRepoId (groups.map (·.id))).foldl addSharedDirToGroup []

/-- The loop of `get_dir_perm`, which cuts the text at its last slash; where there is none, a null
    pointer is written to. -/
def getDirPermLoop (perms : DirPerms) : ℕ → Name → Option (Option Permission)
  | 0, _ => some none
  | n + 1, tmp =>
    if tmp = [] then some none
    else (perms.lookup tmp).elim
      (if '/' ∈ tmp then getDirPermLoop perms n (upToSlash tmp).dropLast else none)
      fun perm => some (some perm)

/-- The permission of the nearest shared folder. -/
def getDirPerm (perms : DirPerms) (path : Name) : Option (Option Permission) :=
  getDirPermLoop perms path.length path

/-- What the shared folders of the origin grant. -/
def checkPermOnParentRepo (originRepoId : RepoId) (user vpath : Name) :
    Option (Option Permission) :=
  let userPerms := getSharedDirsToUser db originRepoId user
  (if userPerms.isEmpty then some none else getDirPerm userPerms vpath).bind fun perm =>
    if perm.isSome then some perm
    else
      let groups := getGroupsByUser db user true
      if groups.isEmpty then some none
      else
        let groupPerms := getSharedDirsToGroup db originRepoId groups
        if groupPerms.isEmpty then some none else getDirPerm groupPerms vpath

/-- The permission on a shared folder. -/
def checkVirtualRepoPermission (originRepoId : RepoId) (user vpath : Name) :
    Option (Option Permission) :=
  if getRepoOwner db originRepoId = some user ∨ isGlobalLibraryAdmin conf db user then
    some (some .rw)
  else (checkPermOnParentRepo db originRepoId user vpath).map fun perm =>
    perm.or (checkRepoSharePermission conf db originRepoId user)

/-- `seaf_repo_manager_check_permission`, if it returns -/
def checkPermission (repoId : RepoId) (user : Name) : Option (Option Permission) :=
  (db.selectVirtual repoId).head?.elim
    (some <| (getRepoOwner db repoId).bind fun owner =>
      if owner = user ∨ isGlobalLibraryAdmin conf db user then some .rw
      else checkRepoSharePermission conf db repoId user)
    fun vinfo => checkVirtualRepoPermission conf db vinfo.originRepo user vinfo.path

end RepoPerm

end CloudFile
