/-
  The listing of a directory in pages (`common/cf-dir-page.c`:
  `cf_list_dir_page_json`; `server/repo-perm.c`: `comp_dirent_func`,
  `seaf_repo_manager_list_dir_with_perm_page`; `common/cf-acl.c`:
  `filter_chunk`, `cf_acl_filter_dirents`).

  A page is cut from the sorted entries before any row is dropped.
-/
import CloudFile.Acl.Changes
import CloudFile.FileOp.SubjectPaths
import CloudFile.Lib.GLibPath
import CloudFile.Write.Rewrite

namespace CloudFile

open GLibPath List

variable {Id : Type}

/-- A `SeafileDirent` -/
structure ListedDirent (Id : Type) where
  dent : Dirent Id
  permission : Name
  isShared : Bool

/-- `none` is a permission that is null. -/
structure PermissionReply extends HubReply where
  permissions : List (Option Name)

/-- What the calls of a request find. -/
structure PageEnv (Id : Type) where
  strcasecmp : Name → Name → ℤ
  gListSort : (Dirent Id → Dirent Id → ℤ) → List (Dirent Id) → List (Dirent Id)
  isObjectIdValid : Id → Bool
  /-- `seaf_repo_manager_check_permission` -/
  nativePerm : Option Name
  /-- `cf_ext_check_permission` of the directory -/
  parentPerm : Option Name
  /-- `seafile_get_dir_id_by_path` -/
  revision : Option Id
  getSeafdir : Id → Option (List (Dirent Id))
  sharedSubDirs : Option (List Name)
  cfAclOn : Bool
  /-- `cf_v2_acl_unscoped` -/
  scope : ℤ
  hub : List AclCheck → Option PermissionReply

/-- The arguments of `cf_list_dir_page_json`. -/
structure PageRequest (Id : Type) where
  repoId : Name
  path : Name
  user : Name
  dirRevision : Id
  start : ℤ
  limit : ℤ

/-- Its errors. -/
inductive PageErr where
  | badArgs
  | repoAuth
  | dirMissing
  | badDirId

/-- The page it answers. -/
structure DirPage (Id : Type) where
  dirRevision : Id
  scannedCount : ℕ
  scanExhausted : Bool
  visibleItems : List (ListedDirent Id)
  nextScanPosition : Option ℤ

namespace Server

/-- Directories first, then by name. -/
def compDirentFunc (strcasecmp : Name → Name → ℤ) (a b : Dirent Id) : ℤ :=
  if a.isDir && b.isReg then -1
  else if a.isReg && b.isDir then 1
  else strcasecmp a.name b.name

variable (e : PageEnv Id)

/-- The directory in the order of the listing. -/
def sortedEntries (entries : List (Dirent Id)) : List (Dirent Id) :=
  e.gListSort (compDirentFunc e.strcasecmp) entries

/-- An entry as the listing shows it. -/
def listedDirent (dirPath perm : Name) (dent : Dirent Id) : Option (ListedDirent Id) :=
  let curPath := if dirPath = ['/'] then dirPath ++ dent.name else dirPath ++ '/' :: dent.name
  if !e.isObjectIdValid dent.id then none
  else some ⟨dent, perm, dent.isDir && e.sharedSubDirs.any (any · (· = curPath))⟩

/-- The loop over the sorted entries: the rows, `scanned_count` and `scan_exhausted`. -/
def scanLoop (dirPath perm : Name) (offset limit : ℕ) :
    ℕ → List (Dirent Id) → List (ListedDirent Id) × ℕ × Bool
  | _, [] => ([], 0, true)
  | index, dent :: rest =>
    if index < offset then scanLoop dirPath perm offset limit (index + 1) rest
    else if 0 < limit ∧ limit ≤ index - offset then ([], 0, false)
    else
      let (res, count, exhausted) := scanLoop dirPath perm offset limit (index + 1) rest
      ((listedDirent e dirPath perm dent).toList ++ res, count + 1, exhausted)

/-- `seaf_repo_manager_list_dir_with_perm_page`; there is no limit if it is 0. -/
def listDirWithPermPage (dirPath perm : Name) (offset limit : ℕ) (entries : List (Dirent Id)) :
    List (ListedDirent Id) × ℕ × Bool :=
  scanLoop e dirPath perm offset limit 0 (sortedEntries e entries)

/-- The question the hub is asked about an entry. -/
def childCheck (dir : Name) (d : Dirent Id) : Option AclCheck :=
  if d.isDir then some ⟨gBuildPath [dir, d.name], .dir, .read⟩
  else if d.isReg then some ⟨gBuildPath [dir, d.name], .file, .read⟩ else none

/-- The permissions a listing accepts. -/
def isLevel (permission : Name) : Bool := permission = ['r'] || permission = ['r', 'w']

/-- One request to the hub, over at most 512 entries. -/
def filterChunk (dir : Name) (rows : List (ListedDirent Id)) : Option (List (ListedDirent Id)) :=
  let included := rows.filterMap fun r => (childCheck dir r.dent).map (r, ·)
  let checks := included.map Prod.snd
  if rows.any (fun r => ¬ ValidName r.dent.name) then none
  else if checks = [] then some []
  else if 512 < checks.length then none
  else (e.hub checks).bind fun reply =>
    if reply.allows && reply.permissions.length = checks.length &&
        reply.permissions.all (Option.all isLevel) then
      some ((included.zip reply.permissions).filterMap fun x =>
        x.2.map fun permission => { x.1.1 with permission := permission })
    else none

/-- The loop of `cf_acl_filter_dirents` -/
def filterChunks (dir : Name) (rows : List (ListedDirent Id)) : Option (List (ListedDirent Id)) :=
  if rows = [] then some []
  else (filterChunk e dir (rows.take 512)).bind fun visible =>
    (filterChunks dir (rows.drop 512)).map (visible ++ ·)
termination_by rows.length
decreasing_by rw [length_drop]; exact Nat.sub_lt (length_pos_iff.2 ‹_›) (by decide)

/-- The entries the hub lets the user see. -/
def cfAclFilterDirents (dir user : Name) (rows : List (ListedDirent Id)) :
    List (ListedDirent Id) :=
  if !e.cfAclOn || rows = [] || e.scope = 0 then rows
  else if e.scope ≠ -2 || user = [] then []
  else (filterChunks e dir rows).getD []

/-- The checks of the arguments. -/
def validPageRequest (q : PageRequest Id) : Bool :=
  (isUuidValid q.repoId && q.path.head? = some '/' && (String.ofList q.path).utf8ByteSize ≤ 4096 &&
    q.user ≠ [] && e.isObjectIdValid q.dirRevision && 1 ≤ q.limit && q.limit ≤ 500) &&
    (0 ≤ q.start && q.start ≤ 2 ^ 31 - 1 - q.limit)

/-- `cf_list_dir_page_json`; `none` is `DIR_REVISION_CHANGED`. -/
def cfListDirPageJson [DecidableEq Id] (q : PageRequest Id) :
    Except PageErr (Option (DirPage Id)) :=
  if !validPageRequest e q then .error .badArgs else
  match e.nativePerm, e.parentPerm, e.revision with
  | none, _, _ | _, none, _ => .error .repoAuth
  | _, _, none => .error .dirMissing
  | some perm, some _, some revision =>
    if revision ≠ q.dirRevision then .ok none else
    match e.getSeafdir revision with
    | none => .error .badDirId
    | some entries =>
      let path := formatDirPath q.path
      let (rows, count, exhausted) :=
        listDirWithPermPage e path perm q.start.toNat q.limit.toNat entries
      .ok (some ⟨revision, count, exhausted, cfAclFilterDirents e path q.user rows,
        if exhausted then none else some (q.start + count)⟩)

/-- A client that follows the next position to the end. -/
def followPages [DecidableEq Id] (q : PageRequest Id) : ℕ → ℤ → Option (List (DirPage Id))
  | 0, _ => none
  | fuel + 1, start =>
    match cfListDirPageJson e { q with start := start } with
    | .ok (some page) =>
      match page.nextScanPosition with
      | none => some [page]
      | some next => (followPages q fuel next).map (page :: ·)
    | _ => none

/-! ## What a page shows -/

/-- The Hub is there, and its answer to a check does not change. -/
structure Available (perms : AclCheck → Option Name) : Prop where
  hub : ∀ checks, e.hub checks = some ⟨⟨200, true, "cf-acl-v1"⟩, checks.map perms⟩
  level : ∀ c, (perms c).all isLevel = true

/-- An entry with the permission the hub gave it. -/
def allowed (perms : AclCheck → Option Name) (dir : Name) (r : ListedDirent Id) :
    Option (ListedDirent Id) :=
  ((childCheck dir r.dent).bind perms).map fun permission => { r with permission := permission }

/-- An entry as the user sees it, if they do. -/
def visible (perms : AclCheck → Option Name) (dir perm : Name) (d : Dirent Id) :
    Option (ListedDirent Id) :=
  (listedDirent e dir perm d).bind fun r =>
    if !e.cfAclOn || e.scope = 0 then some r else allowed perms dir r

variable {e} {perms : AclCheck → Option Name} {dir perm user : Name} {es : List (Dirent Id)}
  {rows : List (ListedDirent Id)}

theorem filterChunk_eq (h : Available e perms) (hvalid : ∀ r ∈ rows, ValidName r.dent.name)
    (hlen : rows.length ≤ 512) :
    filterChunk e dir rows = some (rows.filterMap (allowed perms dir)) := by
  have hnames : rows.any (fun r => ¬ ValidName r.dent.name) = false := by simpa using hvalid
  have hall : rows.filterMap (allowed perms dir)
      = (rows.filterMap fun r => (childCheck dir r.dent).map (r, ·)).filterMap fun x =>
        (perms x.2).map fun permission => { x.1 with permission := permission } := by
    rw [filterMap_filterMap]
    refine filterMap_congr fun r _ => ?_
    cases hc : childCheck dir r.dent <;> simp [allowed, hc]
  have hle := (length_filterMap_le (fun r => (childCheck dir r.dent).map (r, ·)) rows).trans hlen
  rw [filterChunk, hall]
  generalize rows.filterMap (fun r => (childCheck dir r.dent).map (r, ·)) = included at hle
  simp only [hnames, Bool.false_eq_true, if_false, h.hub, Option.bind_some, length_map]
  split_ifs with hnil hlong hok
  · simp [map_eq_nil_iff.1 hnil]
  · omega
  · rw [map_map, ← map_prod_left_eq_zip, filterMap_map]
    rfl
  · exact absurd (by simp [HubReply.allows, h.level]) hok

theorem filterChunks_eq (h : Available e perms) (hvalid : ∀ r ∈ rows, ValidName r.dent.name) :
    filterChunks e dir rows = some (rows.filterMap (allowed perms dir)) := by
  induction rows using filterChunks.induct with
  | case1 => simp [filterChunks]
  | case2 rows hne ih =>
    rw [filterChunks, if_neg hne, ih fun r hr => hvalid r (mem_of_mem_drop hr),
      filterChunk_eq h (fun r hr => hvalid r (mem_of_mem_take hr)) (length_take_le _ _)]
    simp [← filterMap_append]

theorem cfAclFilterDirents_eq (h : Available e perms)
    (hscope : e.cfAclOn → e.scope = 0 ∨ e.scope = -2) (huser : user ≠ [])
    (hvalid : ∀ d ∈ es, ValidName d.name) :
    cfAclFilterDirents e dir user (es.filterMap (listedDirent e dir perm))
      = es.filterMap (visible e perms dir perm) := by
  have hrows : ∀ r ∈ es.filterMap (listedDirent e dir perm), ValidName r.dent.name := by
    intro r hr
    obtain ⟨d, hd, hrow⟩ := mem_filterMap.1 hr
    obtain rfl := Option.some.inj (Option.ite_none_left_eq_some.1 hrow).2
    exact hvalid d hd
  have hall : es.filterMap (visible e perms dir perm)
      = (es.filterMap (listedDirent e dir perm)).filterMap fun r =>
        if !e.cfAclOn || e.scope = 0 then some r else allowed perms dir r :=
    filterMap_filterMap.symm
  rw [hall, cfAclFilterDirents]
  generalize es.filterMap (listedDirent e dir perm) = rows at hrows
  cases hon : e.cfAclOn with
  | false => simp
  | true =>
    rcases hscope hon with h0 | h2
    · simp [h0]
    · cases rows with
      | nil => rfl
      | cons r rows => simp [h2, huser, filterChunks_eq h hrows]

theorem scanLoop_eq {offset limit : ℕ} (hpos : 0 < limit) (index : ℕ) :
    let rest := es.drop (offset - index)
    let room := limit - (index - offset)
    scanLoop e dir perm offset limit index es =
      ((rest.take room).filterMap (listedDirent e dir perm), (rest.take room).length,
        decide (rest.length ≤ room)) := by
  induction es generalizing index with
  | nil => simp [scanLoop]
  | cons d es ih =>
    rw [scanLoop]
    split_ifs with hbefore hfull
    · have hdrop : offset - index = offset - (index + 1) + 1 := by omega
      have hroom : index - offset = index + 1 - offset := by omega
      simpa only [hdrop, hroom, drop_succ_cons] using ih (index + 1)
    · have hdrop : offset - index = 0 := by omega
      have hroom : limit - (index - offset) = 0 := by omega
      simp [hdrop, hroom]
    · have hdrop : offset - index = 0 := by omega
      have hdrop' : offset - (index + 1) = 0 := by omega
      have hroom : limit - (index - offset) = limit - (index + 1 - offset) + 1 := by omega
      simp only [ih (index + 1), hdrop, hdrop', hroom, drop_zero, take_succ_cons]
      cases hd : listedDirent e dir perm d <;> simp [hd]

theorem scanLoop_unlimited (index : ℕ) :
    (scanLoop e dir perm 0 0 index es).1 = es.filterMap (listedDirent e dir perm) := by
  induction es generalizing index with
  | nil => rfl
  | cons d es ih =>
    rw [scanLoop, if_neg (Nat.not_lt_zero _), if_neg (by simp)]
    cases hd : listedDirent e dir perm d <;> simp [hd, ih]

/-! ## Following the pages -/

/-- A request to a directory that stays as it is while the pages are followed. Its object is read
    with an `int` length, and an entry takes more than 40 bytes. -/
structure Listable (e : PageEnv Id) (q : PageRequest Id) (perm : Name)
    (entries : List (Dirent Id)) : Prop where
  valid : validPageRequest e { q with start := 0 } = true
  native : e.nativePerm = some perm
  parent : e.parentPerm.isSome
  revision : e.revision = some q.dirRevision
  dir : e.getSeafdir q.dirRevision = some entries
  scope : e.cfAclOn → e.scope = 0 ∨ e.scope = -2
  names : ∀ d ∈ entries, ValidName d.name
  sorts : (sortedEntries e entries).Perm entries
  fits : 40 * entries.length < 2 ^ 31

section Following

variable {q : PageRequest Id} {entries : List (Dirent Id)} (h : Listable e q perm entries)
include h

theorem Listable.bounds : q.user ≠ [] ∧ 1 ≤ q.limit ∧ q.limit ≤ 500 := by
  have hvalid := h.valid
  simp only [validPageRequest, Bool.and_eq_true, decide_eq_true_eq] at hvalid
  obtain ⟨⟨⟨⟨⟨_, huser⟩, _⟩, hone⟩, hmax⟩, _⟩ := hvalid
  exact ⟨huser, hone, hmax⟩

theorem Listable.valid_start {start : ℕ} (hstart : start ≤ entries.length) :
    validPageRequest e { q with start := start } = true := by
  have hvalid := h.valid
  have hlimit := h.bounds.2
  have hfits := h.fits
  rw [validPageRequest, Bool.and_eq_true] at hvalid ⊢
  refine ⟨hvalid.1, ?_⟩
  simp only [Bool.and_eq_true, decide_eq_true_eq]
  omega

variable [DecidableEq Id] (ha : Available e perms)
include ha

theorem cfListDirPageJson_eq {start : ℕ} (hstart : start ≤ entries.length) :
    ∃ page, cfListDirPageJson e { q with start := start } = .ok (some page) ∧
      page.visibleItems = (((sortedEntries e entries).drop start).take q.limit.toNat).filterMap
        (visible e perms (formatDirPath q.path) perm) ∧
      page.nextScanPosition = if entries.length ≤ start + q.limit.toNat then none
        else some ↑(start + q.limit.toNat) := by
  obtain ⟨parent, hparent⟩ := Option.isSome_iff_exists.1 h.parent
  have hlimit := h.bounds.2
  have hlen := h.sorts.length_eq
  have hscan := @scanLoop_eq _ e (formatDirPath q.path) perm (sortedEntries e entries) start
    q.limit.toNat (by omega) 0
  simp only [Nat.sub_zero, Nat.zero_sub] at hscan
  have hnames : ∀ d ∈ ((sortedEntries e entries).drop start).take q.limit.toNat,
      ValidName d.name := fun d hd =>
    h.names d (h.sorts.subset (mem_of_mem_drop (mem_of_mem_take hd)))
  simp only [cfListDirPageJson, h.valid_start hstart, h.native, hparent, h.revision, h.dir,
    listDirWithPermPage, Int.toNat_natCast, hscan, Bool.not_true, Bool.false_eq_true, if_false,
    ne_eq, not_true]
  refine ⟨_, rfl, cfAclFilterDirents_eq ha h.scope h.bounds.1 hnames, ?_⟩
  simp only [length_take, length_drop, hlen, decide_eq_true_eq]
  split_ifs <;> first | rfl | omega | (congr 1; omega)

theorem followPages_eq (start : ℕ) (hstart : start ≤ entries.length) :
    ∃ pages, (∀ fuel, entries.length < start + fuel → followPages e q fuel start = some pages) ∧
      pages.flatMap DirPage.visibleItems = ((sortedEntries e entries).drop start).filterMap
        (visible e perms (formatDirPath q.path) perm) := by
  have hlimit := h.bounds.2
  obtain ⟨page, hpage, hitems, hnext⟩ := cfListDirPageJson_eq h ha hstart
  by_cases hlast : entries.length ≤ start + q.limit.toNat
  · rw [if_pos hlast] at hnext
    have hlen := h.sorts.length_eq
    rw [take_of_length_le (by rw [length_drop]; omega)] at hitems
    refine ⟨[page], fun fuel hfuel => ?_, by simpa using hitems⟩
    obtain ⟨fuel, rfl⟩ : ∃ n, fuel = n + 1 := ⟨fuel - 1, by omega⟩
    rw [followPages, hpage]
    simp only [hnext]
  · rw [if_neg hlast] at hnext
    obtain ⟨pages, hpages, hrest⟩ := followPages_eq (start + q.limit.toNat) (by omega)
    refine ⟨page :: pages, fun fuel hfuel => ?_, ?_⟩
    · obtain ⟨fuel, rfl⟩ : ∃ n, fuel = n + 1 := ⟨fuel - 1, by omega⟩
      rw [followPages, hpage]
      simp only [hnext, hpages fuel (by omega), Option.map_some]
    · rw [flatMap_cons, hrest, hitems, ← filterMap_append, ← drop_drop, take_append_drop]
termination_by entries.length - start

/-- **Pages are lossless**: while the revision and the permissions stay, following the next position
    ends, and the pages together are the listing without a limit, as filtered. -/
theorem followPages_lossless :
    ∃ pages, (∀ fuel > entries.length, followPages e q fuel 0 = some pages) ∧
      let items := pages.flatMap DirPage.visibleItems
      let path := formatDirPath q.path
      items = cfAclFilterDirents e path q.user (listDirWithPermPage e path perm 0 0 entries).1 ∧
      items.Perm (entries.filterMap (visible e perms path perm)) ∧
      (e.cfAclOn → e.scope = -2 →
        ∀ r ∈ items, (childCheck path r.dent).bind perms = some r.permission) := by
  obtain ⟨pages, hpages, hitems⟩ := followPages_eq h ha 0 (Nat.zero_le _)
  have hperm := h.sorts.filterMap (visible e perms (formatDirPath q.path) perm)
  rw [drop_zero] at hitems
  rw [← hitems] at hperm
  refine ⟨pages, fun fuel hfuel => hpages fuel (by omega), ?_, hperm, fun hon hscope r hr => ?_⟩
  · rw [listDirWithPermPage, scanLoop_unlimited, hitems]
    exact (cfAclFilterDirents_eq ha h.scope h.bounds.1 fun d hd =>
      h.names d (h.sorts.subset hd)).symm
  · obtain ⟨d, -, hd⟩ := mem_filterMap.1 (hperm.subset hr)
    obtain ⟨row, -, hrow⟩ := Option.bind_eq_some_iff.1 hd
    rw [if_neg (by simp [hon, hscope])] at hrow
    obtain ⟨permission, hp, rfl⟩ := Option.map_eq_some_iff.1 hrow
    exact hp

end Following

def threeEntries : List (Dirent ℕ) :=
  [.new sIfdir 1 ['d'] 0 [] 0, .new sIfreg 2 ['f'] 0 [] 0, .new sIfreg 3 ['g'] 0 [] 0]

def filesReadable (c : AclCheck) : Option Name := if c.kind = .file then some ['r'] else none

def threeEnv : PageEnv ℕ where
  strcasecmp _ _ := 0
  gListSort _ entries := entries
  isObjectIdValid _ := true
  nativePerm := some ['r', 'w']
  parentPerm := some ['r']
  revision := some 0
  getSeafdir _ := some threeEntries
  sharedSubDirs := none
  cfAclOn := true
  scope := -2
  hub checks := some ⟨⟨200, true, "cf-acl-v1"⟩, checks.map filesReadable⟩

def threeRequest : PageRequest ℕ :=
  ⟨"00000000-0000-0000-0000-000000000000".toList, ['/'], ['u'], 0, 0, 2⟩

theorem followPages_lossless_three :
    ∃ pages, (∀ fuel > 3, followPages threeEnv threeRequest fuel 0 = some pages) ∧
      ((pages.flatMap DirPage.visibleItems).map (·.dent.name)).Perm [['f'], ['g']] := by
  have ha : Available threeEnv filesReadable :=
    ⟨fun _ => rfl, fun c => by rw [filesReadable]; split <;> rfl⟩
  have h : Listable threeEnv threeRequest ['r', 'w'] threeEntries :=
    ⟨by decide, rfl, rfl, rfl, rfl, fun _ => .inr rfl, by decide, .refl _, by decide⟩
  obtain ⟨pages, hpages, -, hperm, -⟩ := followPages_lossless h ha
  exact ⟨pages, hpages, hperm.map _⟩

end Server

end CloudFile
