/-
  Where the objects of a library lie (`cf_v2_store_dir`, `v2StorageBackend`). Both servers ask the
  same rows, keep what they found in a bounded cache and look at the managed root before every
  answer. A library without a row of `RepoStorageId` lies in the native tree, if the tables know
  it and no lost route is in sight.
-/
import CloudFile.FileOp.SubjectPaths
import CloudFile.Lib.GLibPath
import CloudFile.Lib.Lru
import CloudFile.Sync.Uploads

namespace CloudFile

namespace Routing

open GoPath GLibPath Lru List

/-! ## The tables -/

/-- The rows of the tables, by the id of a library, which is unique in each of them. -/
structure Tables where
  /-- `RepoStorageId.storage_id` -/
  repoStorageId : Text → Option (Option Text)
  /-- `cf_library_storage.repo_key` and `.state` -/
  libraryStorage : Text → Option (Text × Text)
  repo : Text → Bool
  repoTrash : Text → Bool
  garbageRepos : Text → Bool
  virtualRepo : Text → Bool

/-- The one row the query gives; a column is none where it is NULL. -/
structure RouteRow where
  storageId : Option Text
  routeOwner : Option Text
  repoKey : Option Text
  state : Option Text
  nativeRepo : Option Text

/-- One of the tables of libraries has the id. -/
def Tables.isNative (t : Tables) (repoId : Text) : Bool :=
  t.repo repoId || t.repoTrash repoId || t.garbageRepos repoId || t.virtualRepo repoId

/-- The query: the tables other than `RepoStorageId` are joined where it has no row. -/
def Tables.routeRow (t : Tables) (repoId : Text) : RouteRow :=
  match t.repoStorageId repoId with
  | some storageId => ⟨storageId, some repoId, none, none, none⟩
  | none =>
    ⟨none, none, (t.libraryStorage repoId).map Prod.fst, (t.libraryStorage repoId).map Prod.snd,
      if t.isNative repoId then some repoId else none⟩

/-- The scheme of a managed route. -/
def autoLocal : Text := "auto-local:".toList

/-- The key of a library in the native store. -/
def nativeKey (repoId : Text) : Text := "native-".toList ++ repoId

/-- The state of a binding in use. -/
def active : Text := "active".toList

/-- The state of a binding given up. -/
def retired : Text := "retired".toList

/-! ## The file system -/

/-- What `lstat` tells of a path. -/
inductive FileKind where
  | directory
  | other
deriving DecidableEq

/-- The steps along a path: a dot is none. -/
def steps (fs : List Text) : List Text := fs.filter (· ≠ dot)

/-- The path from the root leads, by the steps `dirs`, to the entry `name`. -/
structure LeadsTo (path : Text) (dirs : List Text) (name : Text) : Prop where
  rooted : isRooted path = true
  endsInPart : EndsInPart path
  fields : ∃ fs, fields path = fs ++ [name] ∧ steps fs = dirs

/-- What `lstat` says of each path. Two spellings of one entry, which differ by slashes and dots,
    have one answer. -/
structure FileSystem where
  lstat : Text → Except Errno FileKind
  lstat_congr : ∀ {p q : Text} {dirs : List Text} {name : Text}, Plain name →
    LeadsTo p dirs name → LeadsTo q dirs name → lstat p = lstat q

/-- The directory of the data and `auto_local_root`. Both are absolute and have no `..`, which
    `filepath.Join` takes out of the text, where the kernel goes up. -/
structure Deployment where
  dataDir : Text
  autoLocalRoot : Text
  dataDir_rooted : isRooted dataDir = true
  root_rooted : isRooted autoLocalRoot = true
  dataDir_plain : dotdot ∉ fields dataDir
  root_plain : dotdot ∉ fields autoLocalRoot

/-- The directory of a kind of objects. -/
def ObjType.dirName : ObjType → Text
  | .commits => "commits".toList
  | .fs => "fs".toList
  | .blocks => "blocks".toList

/-- The directory above them. -/
def storageName : Text := "storage".toList

/-- Both caches have room for `ROUTE_CACHE_MAX`, `v2RouteCacheCapacity` entries. -/
theorem cacheMax_pos : 0 < 1024 := by decide

/-- The readings of the clock in one lookup, when the cache is asked and when it is filled. -/
structure Clock where
  asked : ℕ
  filled : ℕ

/-! ## `cf-v2-storage.c` -/

/-- The C server's route of a library. -/
structure Route where
  storageId : Option Text
  legacyKey : Option Text
  legacyState : Option Text
  routeRowPresent : Bool
  nativeRepoPresent : Bool

/-- `ROUTE_CACHE_MAX` entries -/
abbrev RouteCache := Cache Text Route 1024

/-- How long a managed route is kept. -/
def routeCacheTtlUsec : ℕ := 10000000

/-- How long a native one is. -/
def routeCacheNativeTtlUsec : ℕ := 1000000

/-- A kept route that has not expired. -/
def routeCacheGet (now : ℕ) (repoId : Text) (cache : RouteCache) : Option Route × RouteCache :=
  cache.get now repoId

/-- Keeping a route. -/
def routeCachePut (now : ℕ) (repoId : Text) (route : Route) (cache : RouteCache) : RouteCache :=
  cache.put cacheMax_pos ⟨repoId, route,
    now + if route.routeRowPresent then routeCacheTtlUsec else routeCacheNativeTtlUsec⟩

/-- A route from its row. -/
def readRoute (row : RouteRow) : Route where
  storageId := row.storageId
  legacyKey := row.repoKey
  legacyState := row.state
  routeRowPresent := row.routeOwner.isSome
  nativeRepoPresent := row.nativeRepo.isSome

/-- The path is a directory and no link. -/
def realDirectory (fs : FileSystem) (path : Text) : Bool :=
  match fs.lstat path with
  | .ok kind => kind = .directory
  | .error _ => false

/-- The configured root, if it is usable. -/
def storageRoot (fs : FileSystem) (root : Text) : Option Text :=
  if isRooted root && realDirectory fs root then some root else none

/-- A key that is safe as a directory's name. -/
def keyValid (key : Text) : Bool :=
  0 < key.length && key.length ≤ 80 && key.zipIdx.all fun ci =>
    ci.1.isLower || ci.1.isDigit || (ci.1 = '-' && 0 < ci.2 && ci.2 + 1 < key.length)

/-- The key of a storage id, after its prefix -/
def routeKey (storageId : Option Text) : Option Text :=
  storageId.bind fun s => if autoLocal.isPrefixOf s then some (s.drop autoLocal.length) else none

/-- A library of the native store. -/
def recognized (repoId : Text) (route : Route) : Bool :=
  route.nativeRepoPresent &&
    (route.legacyKey.isNone ||
      (route.legacyKey = some (nativeKey repoId) &&
        (route.legacyState = some active || route.legacyState = some retired)))

/-- `cf_v2_store_dir`, from the route on -/
def locate (fs : FileSystem) (autoLocalRoot nativeObjDir repoId : Text) (route : Route) :
    Option Text :=
  if route.routeRowPresent = false then
    if recognized repoId route then some (gBuildPath [nativeObjDir, repoId]) else none
  else do
    let key ← (routeKey route.storageId).filter keyValid
    let root ← storageRoot fs autoLocalRoot
    let keyDir := gBuildPath [root, key]
    if realDirectory fs keyDir then
      some (gBuildPath [keyDir, storageName, gPathGetBasename nativeObjDir, repoId])
    else none

/-- `cf_v2_store_dir`: a database that does not answer gives no row. -/
def cfV2StoreDir (db : Option Tables) (fs : FileSystem) (autoLocalRoot : Option Text)
    (clock : Clock) (nativeObjDir repoId : Text) (cache : RouteCache) : Option Text × RouteCache :=
  match autoLocalRoot with
  | none => (some (gBuildPath [nativeObjDir, repoId]), cache)
  | some root =>
    if isUuidValid repoId = false then (none, cache)
    else match routeCacheGet clock.asked repoId cache with
      | (some route, cache) => (locate fs root nativeObjDir repoId route, cache)
      | (none, cache) =>
        match db with
        | none => (none, cache)
        | some tables =>
          let route := readRoute (tables.routeRow repoId)
          match locate fs root nativeObjDir repoId route with
          | none => (none, cache)
          | some result => (some result, routeCachePut clock.filled repoId route cache)

/-- `obj_backend_fs_new`, `block_backend_fs_new` -/
def nativeObjDir (dataDir : Text) (objType : ObjType) : Text :=
  gBuildPath [dataDir, storageName, ObjType.dirName objType]

/-! ## `cf_v2_storage.go` -/

/-- The error of a lookup: the one of a system call, the one of the query, or a text. -/
inductive V2Error where
  | os (errno : Errno)
  | query
  | text (message : String)

/-- The fileserver's backend of one kind of objects. -/
structure FsBackend where
  objDir : Text
  objType : ObjType

/-- The backend of the native store. -/
def newFSBackend (seafileDataDir : Text) (objType : ObjType) : FsBackend :=
  ⟨join [seafileDataDir, storageName, ObjType.dirName objType], objType⟩

/-- The directory of a library's objects, below which `read` and `write` of a backend go. -/
def FsBackend.storeDir (b : FsBackend) (repoId : Text) : Text := join [b.objDir, repoId]

/-- The route, the key and the state of the historical registry; a text is empty where there is
    none. -/
structure V2Route where
  route : Text
  legacyKey : Text
  legacyState : Text

/-- `v2RouteCacheCapacity` entries -/
abbrev V2Cache := Cache Text V2Route 1024

/-- How long a managed route is kept, in nanoseconds. -/
def v2RouteCacheTTL : ℕ := 10000000000

/-- How long a native one is. -/
def v2NativeRouteCacheTTL : ℕ := 1000000000

/-- A kept route that has not expired. -/
def cachedRoute (now : ℕ) (repoId : Text) (cache : V2Cache) : Option V2Route × V2Cache :=
  cache.get now repoId

/-- Keeping a route. -/
def rememberRoute (now : ℕ) (repoId : Text) (r : V2Route) (cache : V2Cache) : V2Cache :=
  cache.pushTrim cacheMax_pos
    ⟨repoId, r, now + if r.route = [] then v2NativeRouteCacheTTL else v2RouteCacheTTL⟩

/-- The fileserver's check of a key. -/
def v2KeyValid (key : Text) : Bool :=
  !(key.length = 0 || 80 < key.length) && key.zipIdx.all fun ci =>
    ('a' ≤ ci.1 && ci.1 ≤ 'z') || ('0' ≤ ci.1 && ci.1 ≤ '9') ||
      (ci.1 = '-' && 0 < ci.2 && ci.2 + 1 < key.length)

/-- Its check of a directory. -/
def v2RealDirectory (fs : FileSystem) (dir : Text) : Except V2Error Unit :=
  match fs.lstat dir with
  | .error errno => .error (.os errno)
  | .ok .directory => .ok ()
  | .ok .other => .error (.text "V2 storage directory is not a real directory")

/-- The marker of a library that was native before the registry -/
def isNativeMarker (repoId key state : Text) : Bool :=
  key = nativeKey repoId && (state = active || state = retired)

/-- `v2Lookup`, from the row on -/
def v2Scan (repoId : Text) (row : RouteRow) : Except V2Error V2Route :=
  if row.routeOwner.isSome then
    if row.storageId.getD [] = [] then .error (.text "V2 route row has no storage ID")
    else .ok ⟨row.storageId.getD [], [], []⟩
  else if row.nativeRepo.isNone ||
      !(row.repoKey.isNone || isNativeMarker repoId (row.repoKey.getD []) (row.state.getD [])) then
    .error (.text "unresolved native Seafile library")
  else .ok ⟨[], row.repoKey.getD [], row.state.getD []⟩

/-- A database that does not answer gives the error of the query. -/
def v2Lookup (db : Option Tables) (repoId : Text) : Except V2Error V2Route :=
  match db with
  | none => .error .query
  | some tables => v2Scan repoId (tables.routeRow repoId)

/-- The backend that routes by library. -/
structure V2StorageBackend where
  native : FsBackend
  root : Text

/-- The backend a route leads to. -/
def V2StorageBackend.resolveRoute (b : V2StorageBackend) (fs : FileSystem) (repoId : Text)
    (r : V2Route) : Except V2Error FsBackend :=
  if r.route = [] then
    if r.legacyKey = [] || isNativeMarker repoId r.legacyKey r.legacyState then .ok b.native
    else .error (.text "unresolved historical native binding")
  else if autoLocal.isPrefixOf r.route = false then .error (.text "unsupported V2 storage route")
  else
    let key := r.route.drop autoLocal.length
    if v2KeyValid key = false then .error (.text "invalid V2 storage directory key")
    else do
      v2RealDirectory fs b.root
      let keyDir := join [b.root, key]
      v2RealDirectory fs keyDir
      .ok ⟨join [keyDir, storageName, ObjType.dirName b.native.objType], b.native.objType⟩

/-- The backend of a library. -/
def V2StorageBackend.resolve (b : V2StorageBackend) (db : Option Tables) (fs : FileSystem)
    (clock : Clock) (repoId : Text) (cache : V2Cache) : Except V2Error FsBackend × V2Cache :=
  if isUuidValid repoId = false then
    (.error (.text "invalid V2 storage repository ID"), cache)
  else match cachedRoute clock.asked repoId cache with
    | (some r, cache) => (b.resolveRoute fs repoId r, cache)
    | (none, cache) =>
      match v2Lookup db repoId with
      | .error e => (.error e, cache)
      | .ok r =>
        match b.resolveRoute fs repoId r with
        | .error e => (.error e, cache)
        | .ok child => (.ok child, rememberRoute clock.filled repoId r cache)

/-! ## Paths -/

theorem steps_append (fs fs' : List Text) : steps (fs ++ fs') = steps fs ++ steps fs' :=
  filter_append ..

@[simp] theorem steps_steps (fs : List Text) : steps (steps fs) = steps fs := by
  simp [steps]

variable {fs : List Text} {p name : Text}

theorem steps_of_ne_dot (h : ∀ s ∈ fs, s ≠ dot) : steps fs = fs :=
  filter_eq_self.2 fun s hs => by simpa using h s hs

theorem cleanFields_eq_steps (h : dotdot ∉ fs) :
    cleanFields true fs = steps fs := by
  induction fs using reverseRecOn with
  | nil => rfl
  | append_singleton fs s ih =>
    obtain ⟨hfs, hs⟩ : dotdot ∉ fs ∧ dotdot ≠ s := by simpa using h
    rw [steps_append, ← ih hfs]
    by_cases hdot : s = dot
    · subst hdot
      simp [cleanFields, cleanStep, steps]
    · rw [cleanFields_concat_plain ⟨hdot, hs.symm⟩, steps_of_ne_dot (by simpa using hdot)]

variable (es : List Text)

section

variable (hroot : isRooted p = true)
include hroot

theorem leadsTo_gBuildPath (hpart : ∀ e ∈ es ++ [name], Part e) (hplain : ∀ e ∈ es, e ≠ dot) :
    LeadsTo (gBuildPath (p :: (es ++ [name]))) (steps (fields p) ++ es) name := by
  obtain ⟨hrooted, hends, hfields⟩ := fields_gBuildPath hroot (by simp) hpart
  refine ⟨hrooted, hends, fields p ++ es, by rw [hfields, append_assoc], ?_⟩
  rw [steps_append, steps_of_ne_dot hplain]

theorem fields_join {es : List Text} (hdots : dotdot ∉ fields p)
    (hpart : ∀ e ∈ es, Part e) (hplain : ∀ e ∈ es, Plain e) :
    isRooted (join (p :: es)) = true ∧ fields (join (p :: es)) = steps (fields p) ++ es := by
  have hjoin := join_parts hroot hpart hplain
  have hcomps : comps p = steps (fields p) := cleanFields_eq_steps hdots
  refine ⟨by rw [hjoin]; rfl, ?_⟩
  rw [hjoin, hcomps, fields_slash, fields_joinFields]
  intro s hs
  rcases mem_append.1 hs with hp | he
  · exact part_of_mem_fields (mem_filter.1 hp).1
  · exact hpart s he

theorem leadsTo_join (hdots : dotdot ∉ fields p)
    (hpart : ∀ e ∈ es ++ [name], Part e) (hplain : ∀ e ∈ es ++ [name], Plain e) :
    LeadsTo (join (p :: (es ++ [name]))) (steps (fields p) ++ es) name := by
  obtain ⟨hrooted, hfields⟩ := fields_join hroot hdots hpart hplain
  refine ⟨hrooted, ?_, steps (fields p) ++ es, by rw [hfields, append_assoc], ?_⟩
  · rw [join_parts hroot hpart hplain, ← append_assoc]
    exact endsInPart_cons (endsInPart_joinFields_append _ (by simp)
      fun s hs => hpart s (mem_append_right _ hs))
  · rw [steps_append, steps_steps,
      steps_of_ne_dot fun s hs => (hplain s (mem_append_left _ hs)).1]

end

/-! ## Names -/

/-- One plain step of a path. -/
def DirName (s : Text) : Prop := Part s ∧ Plain s

variable (objType : ObjType)

theorem dirName_objType : DirName (ObjType.dirName objType) := by
  cases objType <;> exact ⟨by decide, by decide⟩

theorem dirName_storageName : DirName storageName := ⟨by decide, by decide⟩

theorem dirNames_store :
    ∀ e ∈ [storageName, ObjType.dirName objType], DirName e := by
  simpa using ⟨dirName_storageName, dirName_objType objType⟩

theorem v2KeyValid_eq (key : Text) : v2KeyValid key = keyValid key := by
  have hlen : (!(decide (key.length = 0) || decide (80 < key.length))) =
      (decide (0 < key.length) && decide (key.length ≤ 80)) := by
    rw [Bool.not_or, ← decide_not, ← decide_not]
    congr 1 <;> exact decide_eq_decide.2 (by omega)
  rw [v2KeyValid, hlen]
  rfl

variable {s : Text}

theorem dirName_of_chars (hne : s ≠ []) (h : ∀ c ∈ s, c ≠ '/' ∧ c ≠ '.') :
    DirName s := by
  have hdot : '.' ∉ s := fun hmem => (h _ hmem).2 rfl
  refine ⟨⟨hne, fun hmem => (h _ hmem).1 rfl⟩, ?_, ?_⟩
  · rintro rfl
    exact hdot (by decide)
  · rintro rfl
    exact hdot (by decide)

theorem exists_place {c : Char} (h : c ∈ s) : ∃ i, (c, i) ∈ s.zipIdx := by
  rw [← zipIdx_map_fst 0 s] at h
  obtain ⟨⟨c', i⟩, hci, rfl⟩ := mem_map.1 h
  exact ⟨i, hci⟩

theorem dirName_of_keyValid {key : Text} (h : keyValid key = true) : DirName key := by
  simp only [keyValid, Bool.and_eq_true, decide_eq_true_eq, all_eq_true] at h
  obtain ⟨⟨hpos, -⟩, hchars⟩ := h
  refine dirName_of_chars (ne_nil_of_length_pos hpos) fun c hc => ?_
  obtain ⟨i, hi⟩ := exists_place hc
  have hcheck := hchars _ hi
  constructor <;> rintro rfl <;> simp at hcheck

theorem dirName_of_isUuidValid (h : isUuidValid s = true) : DirName s := by
  simp only [isUuidValid, Bool.and_eq_true, decide_eq_true_eq, all_eq_true] at h
  obtain ⟨hlen, hchars⟩ := h
  refine dirName_of_chars (ne_nil_of_length_pos (by omega)) fun c hc => ?_
  obtain ⟨i, hi⟩ := exists_place hc
  have hcheck := hchars _ hi
  constructor <;> rintro rfl <;> simp at hcheck

/-! ## The directories -/

/-- Two spellings of one directory. -/
def SameDirectory (p q : Text) : Prop :=
  ∃ dirs name, Plain name ∧ LeadsTo p dirs name ∧ LeadsTo q dirs name

/-- A directory spelled by both: below it lie the same entries, whichever of the two builds the
    path. -/
structure SpelledAlike (p q : Text) : Prop where
  rooted : isRooted p = true
  rooted' : isRooted q = true
  noParent : dotdot ∉ fields q
  steps : steps (fields p) = steps (fields q)

theorem SpelledAlike.refl (hroot : isRooted p = true) (hdots : dotdot ∉ fields p) :
    SpelledAlike p p := ⟨hroot, hroot, hdots, rfl⟩

section Below

variable {p q : Text} (h : SpelledAlike p q)

include h

variable {es : List Text}

theorem SpelledAlike.below (hne : es ≠ []) (hes : ∀ e ∈ es, DirName e) :
    SpelledAlike (gBuildPath (p :: es)) (join (q :: es)) := by
  have hpart : ∀ e ∈ es, Part e := fun e he => (hes e he).1
  have hplain : ∀ e ∈ es, Plain e := fun e he => (hes e he).2
  obtain ⟨hrooted, -, hfields⟩ := fields_gBuildPath h.rooted hne hpart
  obtain ⟨hrooted', hfields'⟩ := fields_join h.rooted' h.noParent hpart hplain
  refine ⟨hrooted, hrooted', ?_, ?_⟩
  · rw [hfields', mem_append, not_or]
    exact ⟨fun hmem => h.noParent (mem_filter.1 hmem).1,
      fun hmem => (hplain _ hmem).2 rfl⟩
  · rw [hfields, hfields', steps_append, steps_append, steps_steps, h.steps]

variable {name : Text}

theorem SpelledAlike.sameDirectory (hname : DirName name) :
    SameDirectory (gBuildPath [p, name]) (join [q, name]) := by
  refine ⟨Routing.steps (fields q), name, hname.2, ?_, ?_⟩
  · have hp := leadsTo_gBuildPath [] h.rooted (by simpa using hname.1) (by simp)
    rwa [append_nil, h.steps] at hp
  · have hq := leadsTo_join [] h.rooted' h.noParent (by simpa using hname.1)
      (by simpa using hname.2)
    rwa [append_nil] at hq

theorem SpelledAlike.lstat (fs : FileSystem) (hname : DirName name) :
    fs.lstat (gBuildPath [p, name]) = fs.lstat (join [q, name]) := by
  obtain ⟨dirs, name', hplain, hp, hq⟩ := h.sameDirectory hname
  exact fs.lstat_congr hplain hp hq

/-- One call of `g_build_filename` or two of `filepath.Join` -/
theorem SpelledAlike.sameDirectory_below (hne : es ≠ []) (hes : ∀ e ∈ es, DirName e)
    (hname : DirName name) :
    SameDirectory (gBuildPath (p :: (es ++ [name]))) (join [join (q :: es), name]) := by
  have hall : ∀ e ∈ es ++ [name], DirName e := by
    intro e he
    rcases mem_append.1 he with he | he
    · exact hes e he
    · rwa [mem_singleton.1 he]
  have hbelow := h.below hne hes
  obtain ⟨-, hfields⟩ := fields_join h.rooted' h.noParent (fun e he => (hes e he).1)
    fun e he => (hes e he).2
  have hp := leadsTo_gBuildPath es h.rooted (fun e he => (hall e he).1)
    fun e he => (hes e he).2.1
  have hq := leadsTo_join [] hbelow.rooted' hbelow.noParent (by simpa using hname.1)
    (by simpa using hname.2)
  rw [hfields, append_nil, steps_append, steps_steps,
    steps_of_ne_dot fun e he => (hes e he).2.1] at hq
  rw [h.steps] at hp
  exact ⟨_, name, hname.2, hp, hq⟩

end Below

/-! ## One route -/

section Route

variable (d : Deployment) (fs : FileSystem) (objType : ObjType)

/-- The fileserver's backend. -/
def Deployment.backend : V2StorageBackend := ⟨newFSBackend d.dataDir objType, d.autoLocalRoot⟩

theorem spelledAlike_nativeObjDir :
    SpelledAlike (nativeObjDir d.dataDir objType) (newFSBackend d.dataDir objType).objDir :=
  (SpelledAlike.refl d.dataDir_rooted d.dataDir_plain).below (by simp) (dirNames_store objType)

theorem gPathGetBasename_nativeObjDir :
    gPathGetBasename (nativeObjDir d.dataDir objType) = ObjType.dirName objType := by
  have hparts : ∀ e ∈ [storageName, ObjType.dirName objType], Part e :=
    fun e he => (dirNames_store objType e he).1
  obtain ⟨hrooted, hends, hfields⟩ := fields_gBuildPath d.dataDir_rooted (by simp) hparts
  have hsplit := fields_dirname_basename hrooted hends
  rw [hfields, ← singleton_append, ← append_assoc] at hsplit
  have hlast := (append_inj' hsplit rfl).2
  exact (singleton_inj.1 hlast).symm

theorem v2RealDirectory_bind {α : Type} (path : Text) (next : Unit → Except V2Error α) :
    (v2RealDirectory fs path >>= next).toOption =
      if realDirectory fs path then (next ()).toOption else none := by
  unfold realDirectory v2RealDirectory
  cases fs.lstat path with
  | error errno => rfl
  | ok kind => cases kind <;> rfl

/-- What the file server makes of a route, as the directory of the library -/
def fileserverDir (repoId : Text) (r : V2Route) : Option Text :=
  ((d.backend objType).resolveRoute fs repoId r).toOption.map (·.storeDir repoId)

variable {s : Text} {route : Route} (repoId : Text)

theorem locate_routed (hpresent : route.routeRowPresent = true) (hs : route.storageId = some s) :
    locate fs d.autoLocalRoot (nativeObjDir d.dataDir objType) repoId route =
      if autoLocal.isPrefixOf s && keyValid (s.drop autoLocal.length) &&
          realDirectory fs d.autoLocalRoot &&
          realDirectory fs (gBuildPath [d.autoLocalRoot, s.drop autoLocal.length]) then
        some (gBuildPath [gBuildPath [d.autoLocalRoot, s.drop autoLocal.length], storageName,
          ObjType.dirName objType, repoId])
      else none := by
  have hroot : storageRoot fs d.autoLocalRoot =
      if realDirectory fs d.autoLocalRoot = true then some d.autoLocalRoot else none := by
    rw [storageRoot, d.root_rooted, Bool.true_and]
  unfold locate
  rw [if_neg (by simp [hpresent]), hs, gPathGetBasename_nativeObjDir, hroot, routeKey,
    Option.bind_some]
  cases hstart : autoLocal.isPrefixOf s with
  | false => rfl
  | true =>
    rw [if_pos rfl]
    cases hkey : keyValid (s.drop autoLocal.length) with
    | false =>
      rw [Option.filter_some_neg hkey]
      rfl
    | true =>
      rw [Option.filter_some_pos hkey]
      cases realDirectory fs d.autoLocalRoot <;> rfl

theorem fileserverDir_routed (hne : s ≠ []) :
    fileserverDir d fs objType repoId ⟨s, [], []⟩ =
      if autoLocal.isPrefixOf s && keyValid (s.drop autoLocal.length) &&
          realDirectory fs d.autoLocalRoot &&
          realDirectory fs (join [d.autoLocalRoot, s.drop autoLocal.length]) then
        some (join [join [join [d.autoLocalRoot, s.drop autoLocal.length], storageName,
          ObjType.dirName objType], repoId])
      else none := by
  unfold fileserverDir V2StorageBackend.resolveRoute
  rw [if_neg hne]
  simp only [v2KeyValid_eq]
  cases hstart : autoLocal.isPrefixOf s with
  | false => rfl
  | true =>
    rw [if_neg Bool.noConfusion]
    cases hkey : keyValid (s.drop autoLocal.length) with
    | false => rfl
    | true =>
      rw [if_neg Bool.noConfusion, v2RealDirectory_bind, v2RealDirectory_bind]
      have hroot : (d.backend objType).root = d.autoLocalRoot := rfl
      rw [hroot]
      cases realDirectory fs d.autoLocalRoot with
      | false => rfl
      | true =>
        cases realDirectory fs (join [d.autoLocalRoot, s.drop autoLocal.length]) <;> rfl

/-- The library has no route, the tables know it, and a row of the registry is the native marker. -/
def Tables.goesNative (t : Tables) (repoId : Text) : Bool :=
  t.isNative repoId && (t.libraryStorage repoId).all fun row => isNativeMarker repoId row.1 row.2

variable {t : Tables}

section Native

variable {t : Tables} {repoId : Text} (hroute : t.repoStorageId repoId = none)

include hroute

theorem routeRow_native :
    t.routeRow repoId =
      ⟨none, none, (t.libraryStorage repoId).map Prod.fst, (t.libraryStorage repoId).map Prod.snd,
        if t.isNative repoId then some repoId else none⟩ := by
  rw [Tables.routeRow, hroute]

theorem locate_native :
    locate fs d.autoLocalRoot (nativeObjDir d.dataDir objType) repoId
        (readRoute (t.routeRow repoId)) =
      if t.goesNative repoId then some (gBuildPath [nativeObjDir d.dataDir objType, repoId])
      else none := by
  have hrecognized : recognized repoId (readRoute (t.routeRow repoId)) = t.goesNative repoId := by
    rw [routeRow_native hroute, Tables.goesNative, recognized]
    cases t.isNative repoId with
    | false => rfl
    | true =>
      cases t.libraryStorage repoId with
      | none => rfl
      | some row => simp [readRoute, isNativeMarker]
  unfold locate
  rw [hrecognized, if_pos (by rw [routeRow_native hroute]; rfl)]

theorem v2Lookup_eq_native :
    v2Lookup (some t) repoId =
      if t.goesNative repoId then
        .ok ⟨[], ((t.libraryStorage repoId).map Prod.fst).getD [],
          ((t.libraryStorage repoId).map Prod.snd).getD []⟩
      else .error (.text "unresolved native Seafile library") := by
  rw [v2Lookup, routeRow_native hroute, Tables.goesNative, v2Scan]
  cases hlib : t.libraryStorage repoId with
  | none => cases t.isNative repoId <;> rfl
  | some row =>
    cases t.isNative repoId with
    | false => rfl
    | true => cases hmarker : isNativeMarker repoId row.1 row.2 <;> simp [hmarker]

theorem v2Lookup_native :
    (v2Lookup (some t) repoId).toOption.bind (fileserverDir d fs objType repoId) =
      if t.goesNative repoId then some ((newFSBackend d.dataDir objType).storeDir repoId)
      else none := by
  rw [v2Lookup_eq_native hroute]
  by_cases hgoes : t.goesNative repoId = true
  · rw [if_pos hgoes, if_pos hgoes]
    obtain ⟨-, hmarker⟩ := Bool.and_eq_true_iff.1 hgoes
    cases hlib : t.libraryStorage repoId with
    | none => rfl
    | some row =>
      rw [hlib] at hmarker
      have hok : isNativeMarker repoId row.1 row.2 = true := hmarker
      simp only [Except.toOption, Option.bind_some, fileserverDir, V2StorageBackend.resolveRoute,
        Option.map_some, Option.getD_some, hok, Bool.or_true]
      rfl
  · rw [if_neg hgoes, if_neg hgoes]
    rfl

end Native

variable {fs} {repoId : Text} (hid : DirName repoId)

include hid

theorem sameDirectory_native :
    SameDirectory (gBuildPath [nativeObjDir d.dataDir objType, repoId])
      ((newFSBackend d.dataDir objType).storeDir repoId) :=
  (spelledAlike_nativeObjDir d objType).sameDirectory hid

/-- **A managed library**: both go below the key under the root, or both refuse. -/
theorem rel_routed (hpresent : route.routeRowPresent = true) (hs : route.storageId = some s)
    (hne : s ≠ []) :
    Option.Rel SameDirectory
      (locate fs d.autoLocalRoot (nativeObjDir d.dataDir objType) repoId route)
      (fileserverDir d fs objType repoId ⟨s, [], []⟩) := by
  rw [locate_routed d fs objType repoId hpresent hs, fileserverDir_routed d fs objType repoId hne]
  cases hstart : autoLocal.isPrefixOf s with
  | false => exact .none
  | true =>
    cases hkey : keyValid (s.drop autoLocal.length) with
    | false => exact .none
    | true =>
      have hname := dirName_of_keyValid hkey
      have hroot := SpelledAlike.refl d.root_rooted d.root_plain
      have hsame : realDirectory fs (gBuildPath [d.autoLocalRoot, s.drop autoLocal.length]) =
          realDirectory fs (join [d.autoLocalRoot, s.drop autoLocal.length]) := by
        unfold realDirectory
        rw [hroot.lstat fs hname]
      rw [hsame]
      split
      · have hkeyDir := hroot.below (cons_ne_nil (s.drop autoLocal.length) [])
          (by simpa using hname)
        exact .some (hkeyDir.sameDirectory_below (by simp) (dirNames_store objType) hid)
      · exact .none

/-- **One state of the tables**: without their caches, both come to the same directory, or both
    refuse. -/
theorem rel_lookup (t : Tables) :
    Option.Rel SameDirectory
      (locate fs d.autoLocalRoot (nativeObjDir d.dataDir objType) repoId
        (readRoute (t.routeRow repoId)))
      ((v2Lookup (some t) repoId).toOption.bind (fileserverDir d fs objType repoId)) := by
  cases hroute : t.repoStorageId repoId with
  | none =>
    rw [locate_native d fs objType hroute, v2Lookup_native d fs objType hroute]
    split
    · exact .some (sameDirectory_native d objType hid)
    · exact .none
  | some storageId =>
    have hrow : t.routeRow repoId = ⟨storageId, some repoId, none, none, none⟩ := by
      rw [Tables.routeRow, hroute]
    rw [v2Lookup, hrow]
    cases storageId with
    | none => exact .none
    | some s =>
      by_cases hempty : s = []
      · -- an empty storage id has no prefix
        subst hempty
        exact .none
      · have hscan : v2Scan repoId ⟨some s, some repoId, none, none, none⟩ = .ok ⟨s, [], []⟩ :=
          if_neg hempty
        simp only [hscan]
        exact rel_routed d objType hid rfl rfl hempty

end Route

/-! ## Lookups through the caches -/

/-- The directory the C server uses. -/
def Deployment.askServer (d : Deployment) (db : Option Tables) (fs : FileSystem) (clock : Clock)
    (objType : ObjType) (repoId : Text) (cache : RouteCache) : Option Text × RouteCache :=
  cfV2StoreDir db fs (some d.autoLocalRoot) clock (nativeObjDir d.dataDir objType) repoId cache

/-- The directory the fileserver uses. -/
def Deployment.askFileserver (d : Deployment) (db : Option Tables) (fs : FileSystem)
    (clock : Clock) (objType : ObjType) (repoId : Text) (cache : V2Cache) :
    Option Text × V2Cache :=
  let resolved := (d.backend objType).resolve db fs clock repoId cache
  (resolved.1.toOption.map (·.storeDir repoId), resolved.2)

/-- The C server has one cache for all its stores, the file server one for each. -/
structure Caches where
  server : RouteCache
  fileserver : ObjType → V2Cache

/-- The caches at the start. -/
def Caches.empty : Caches := ⟨.empty, fun _ => .empty⟩

/-- The two servers. -/
inductive Side where
  | server
  | fileserver

/-- A lookup, and the database, file system and clock it meets -/
structure Lookup where
  side : Side
  objType : ObjType
  repoId : Text
  answered : Bool
  fs : FileSystem
  clock : Clock

/-- The tables, if the database answered. -/
def Lookup.db (l : Lookup) (t : Tables) : Option Tables := if l.answered then some t else none

/-- What a lookup leaves in the caches. -/
def Lookup.run (d : Deployment) (t : Tables) (c : Caches) (l : Lookup) : Caches :=
  match l.side with
  | .server =>
    { c with server := (d.askServer (l.db t) l.fs l.clock l.objType l.repoId c.server).2 }
  | .fileserver =>
    { c with
      fileserver := Function.update c.fileserver l.objType
        (d.askFileserver (l.db t) l.fs l.clock l.objType l.repoId (c.fileserver l.objType)).2 }

/-- The caches after a sequence of lookups, from the start of the servers -/
def cachesAfter (d : Deployment) (t : Tables) (lookups : List Lookup) : Caches :=
  lookups.foldl (Lookup.run d t) .empty

/-- Every entry is what the tables say of its library. -/
structure Faithful (t : Tables) (c : Caches) : Prop where
  server : c.server.All fun repoId route => route = readRoute (t.routeRow repoId)
  fileserver : ∀ objType,
    (c.fileserver objType).All fun repoId r => v2Lookup (some t) repoId = .ok r

section Caches

variable {d : Deployment} {t : Tables} {fs : FileSystem} {objType : ObjType} {clock : Clock}
  {repoId : Text} {cache : RouteCache} {db : Option Tables} {v2Cache : V2Cache} {c : Caches}

variable (hdb : ∀ t' ∈ db, t' = t)

theorem askServer_invalid (huuid : isUuidValid repoId = false) :
    d.askServer db fs clock objType repoId cache = (none, cache) :=
  if_pos huuid

include hdb in
/-- **The C server's cache changes no answer** and stays faithful; without the database there may
    be no answer. -/
theorem askServer_cached (h : cache.All fun repoId route => route = readRoute (t.routeRow repoId)) :
    (d.askServer db fs clock objType repoId cache).2.All
        (fun repoId route => route = readRoute (t.routeRow repoId)) ∧
      (isUuidValid repoId = true →
        (d.askServer db fs clock objType repoId cache).1 =
            locate fs d.autoLocalRoot (nativeObjDir d.dataDir objType) repoId
              (readRoute (t.routeRow repoId)) ∨
          db = none ∧ (d.askServer db fs clock objType repoId cache).1 = none) := by
  obtain ⟨hkept, hfound⟩ := h.get clock.asked repoId
  cases huuid : isUuidValid repoId with
  | false =>
    rw [askServer_invalid huuid]
    exact ⟨h, Bool.noConfusion⟩
  | true =>
    unfold Deployment.askServer cfV2StoreDir routeCacheGet
    dsimp only
    rw [if_neg (by simp [huuid])]
    cases hget : cache.get clock.asked repoId with
    | mk found cache' =>
      rw [hget] at hkept hfound
      cases found with
      | some route => exact ⟨hkept, fun _ => .inl (by rw [hfound route rfl])⟩
      | none =>
        cases db with
        | none => exact ⟨hkept, fun _ => .inr ⟨rfl, rfl⟩⟩
        | some t' =>
          obtain rfl : t' = t := hdb t' rfl
          dsimp only
          split
          · rename_i hlocate
            exact ⟨hkept, fun _ => .inl hlocate.symm⟩
          · rename_i hlocate
            exact ⟨hkept.put cacheMax_pos rfl, fun _ => .inl hlocate.symm⟩

theorem askFileserver_invalid (huuid : isUuidValid repoId = false) :
    d.askFileserver db fs clock objType repoId v2Cache = (none, v2Cache) := by
  unfold Deployment.askFileserver V2StorageBackend.resolve
  rw [if_pos huuid]
  rfl

include hdb in
/-- **The file server's cache changes no answer**, and stays faithful. -/
theorem askFileserver_cached (h : v2Cache.All fun repoId r => v2Lookup (some t) repoId = .ok r) :
    (d.askFileserver db fs clock objType repoId v2Cache).2.All
        (fun repoId r => v2Lookup (some t) repoId = .ok r) ∧
      (isUuidValid repoId = true →
        (d.askFileserver db fs clock objType repoId v2Cache).1 =
            (v2Lookup (some t) repoId).toOption.bind (fileserverDir d fs objType repoId) ∨
          db = none ∧ (d.askFileserver db fs clock objType repoId v2Cache).1 = none) := by
  obtain ⟨hkept, hfound⟩ := h.get clock.asked repoId
  cases huuid : isUuidValid repoId with
  | false =>
    rw [askFileserver_invalid huuid]
    exact ⟨h, Bool.noConfusion⟩
  | true =>
    unfold Deployment.askFileserver V2StorageBackend.resolve cachedRoute
    rw [if_neg (by simp [huuid])]
    cases hget : v2Cache.get clock.asked repoId with
    | mk found cache' =>
      rw [hget] at hkept hfound
      cases found with
      | some r => exact ⟨hkept, fun _ => .inl (by rw [hfound r rfl]; rfl)⟩
      | none =>
        cases db with
        | none => exact ⟨hkept, fun _ => .inr ⟨rfl, rfl⟩⟩
        | some t' =>
          obtain rfl : t' = t := hdb t' rfl
          cases hlookup : v2Lookup (some t') repoId with
          | error e => exact ⟨hkept, fun _ => .inl rfl⟩
          | ok r =>
            dsimp only
            cases hresolve : (d.backend objType).resolveRoute fs repoId r with
            | error e =>
              exact ⟨hkept, fun _ => .inl (by simp [Except.toOption, fileserverDir, hresolve])⟩
            | ok child =>
              exact ⟨hkept.pushTrim cacheMax_pos hlookup,
                fun _ => .inl (by simp [Except.toOption, fileserverDir, hresolve])⟩

theorem Lookup.db_eq {l : Lookup} : ∀ t' ∈ l.db t, t' = t := by
  intro t' ht'
  unfold Lookup.db at ht'
  split at ht'
  · exact (Option.mem_some.1 ht').symm
  · cases ht'

theorem Faithful.run (h : Faithful t c) (l : Lookup) :
    Faithful t (Lookup.run d t c l) := by
  unfold Lookup.run
  cases l.side with
  | server => exact ⟨(askServer_cached Lookup.db_eq h.server).1, h.fileserver⟩
  | fileserver =>
    refine ⟨h.server, fun objType => ?_⟩
    by_cases htype : objType = l.objType
    · subst htype
      simp only [Function.update_self]
      exact (askFileserver_cached Lookup.db_eq (h.fileserver l.objType)).1
    · simp only [Function.update_of_ne htype]
      exact h.fileserver objType

theorem Faithful.runs (h : Faithful t c) (lookups : List Lookup) :
    Faithful t (lookups.foldl (Lookup.run d t) c) := by
  induction lookups generalizing c with
  | nil => exact h
  | cons l lookups ih => exact ih (h.run l)

theorem faithful_cachesAfter (lookups : List Lookup) : Faithful t (cachesAfter d t lookups) :=
  Faithful.runs ⟨Cache.All.empty, fun _ => Cache.All.empty⟩ lookups

end Caches

/-! ## Agreement -/

/-- **Routing agrees and never falls back**: after any lookups both servers resolve a library to one
    directory or refuse it, and none resolves it without a route or a native marker. -/
theorem storeDir_agree (d : Deployment) (t : Tables) (lookups : List Lookup) (fs : FileSystem)
    (objType : ObjType) (repoId : Text) (atServer atFileserver : Clock) :
    Option.Rel SameDirectory
        (d.askServer (some t) fs atServer objType repoId (cachesAfter d t lookups).server).1
        (d.askFileserver (some t) fs atFileserver objType repoId
          ((cachesAfter d t lookups).fileserver objType)).1 ∧
      (t.repoStorageId repoId = none →
        ∀ row ∈ t.libraryStorage repoId, isNativeMarker repoId row.1 row.2 = false →
        ∀ db : Option Tables, (∀ t' ∈ db, t' = t) →
          (d.askServer db fs atServer objType repoId (cachesAfter d t lookups).server).1 = none ∧
          (d.askFileserver db fs atFileserver objType repoId
            ((cachesAfter d t lookups).fileserver objType)).1 = none) := by
  have hfaithful := faithful_cachesAfter (d := d) (t := t) lookups
  cases huuid : isUuidValid repoId with
  | false =>
    simp only [askServer_invalid huuid, askFileserver_invalid huuid]
    exact ⟨.none, fun _ _ _ _ _ _ => ⟨trivial, trivial⟩⟩
  | true =>
    refine ⟨?_, fun hroute row hrow hmarker db hdb => ?_⟩
    · have hdb : ∀ t' ∈ some t, t' = t := fun t' ht' => (Option.mem_some.1 ht').symm
      rw [((askServer_cached hdb hfaithful.server).2 huuid).resolve_right (by simp),
        ((askFileserver_cached hdb (hfaithful.fileserver objType)).2 huuid).resolve_right (by simp)]
      exact rel_lookup d objType (dirName_of_isUuidValid huuid) t
    · have hgoes : t.goesNative repoId = false := by
        rw [Tables.goesNative, Option.mem_def.1 hrow, Option.all_some, hmarker, Bool.and_false]
      refine ⟨((askServer_cached hdb hfaithful.server).2 huuid).elim (fun h => ?_) And.right,
        ((askFileserver_cached hdb (hfaithful.fileserver objType)).2 huuid).elim (fun h => ?_)
          And.right⟩
      · rw [h, locate_native d fs objType hroute, hgoes]
        rfl
      · rw [h, v2Lookup_native d fs objType hroute, hgoes]
        rfl

theorem rooted_samplePaths : isRooted "/srv/seafile-data/".toList = true ∧
    isRooted "/srv//libraries".toList = true := ⟨rfl, rfl⟩

theorem plain_samplePaths : dotdot ∉ fields "/srv/seafile-data/".toList ∧
    dotdot ∉ fields "/srv//libraries".toList := ⟨by decide, by decide⟩

def sampleDeployment : Deployment where
  dataDir := "/srv/seafile-data/".toList
  autoLocalRoot := "/srv//libraries".toList
  dataDir_rooted := rooted_samplePaths.1
  root_rooted := rooted_samplePaths.2
  dataDir_plain := plain_samplePaths.1
  root_plain := plain_samplePaths.2

def managedId : Text := "11111111-1111-4111-8111-111111111111".toList

def lostId : Text := "22222222-2222-4222-8222-222222222222".toList

def sampleTables : Tables where
  repoStorageId id := if id = managedId then some (some (autoLocal ++ "shelf-1".toList)) else none
  libraryStorage id := if id = lostId then some ("shelf-2".toList, active) else none
  repo _ := true
  repoTrash _ := false
  garbageRepos _ := false
  virtualRepo _ := false

def sampleLstat (path : Text) : Except Errno FileKind :=
  if steps (fields path) ∈ [["srv".toList, "libraries".toList],
      ["srv".toList, "libraries".toList, "shelf-1".toList]]
  then .ok .directory else .error .enoent

theorem sampleLstat_congr {q : Text} {dirs : List Text} (_ : Plain name) (hp : LeadsTo p dirs name)
    (hq : LeadsTo q dirs name) : sampleLstat p = sampleLstat q := by
  obtain ⟨fs, hfs, rfl⟩ := hp.fields
  obtain ⟨fs', hfs', hsteps⟩ := hq.fields
  rw [sampleLstat, sampleLstat, hfs, hfs', steps_append, steps_append, hsteps]

def sampleFileSystem : FileSystem := ⟨sampleLstat, sampleLstat_congr⟩

def sampleLookups : List Lookup :=
  [⟨.server, .fs, managedId, true, sampleFileSystem, ⟨0, 1⟩⟩,
    ⟨.fileserver, .blocks, lostId, true, sampleFileSystem, ⟨2, 3⟩⟩]

def serverSpelling : Text :=
  "/srv//libraries/shelf-1/storage/fs/11111111-1111-4111-8111-111111111111".toList

def fileserverSpelling : Text :=
  "/srv/libraries/shelf-1/storage/fs/11111111-1111-4111-8111-111111111111".toList

theorem storeDir_agree_sample :
    ((sampleDeployment.askServer (some sampleTables) sampleFileSystem ⟨4, 5⟩ .fs managedId
        (cachesAfter sampleDeployment sampleTables sampleLookups).server).1 =
          some serverSpelling ∧
      (sampleDeployment.askFileserver (some sampleTables) sampleFileSystem ⟨4, 5⟩ .fs managedId
        ((cachesAfter sampleDeployment sampleTables sampleLookups).fileserver .fs)).1 =
          some fileserverSpelling ∧
      SameDirectory serverSpelling fileserverSpelling) ∧
    (sampleDeployment.askServer none sampleFileSystem ⟨4, 5⟩ .fs lostId
      (cachesAfter sampleDeployment sampleTables sampleLookups).server).1 = none ∧
    (sampleDeployment.askFileserver none sampleFileSystem ⟨4, 5⟩ .fs lostId
      ((cachesAfter sampleDeployment sampleTables sampleLookups).fileserver .fs)).1 = none := by
  have hmanaged := (storeDir_agree sampleDeployment sampleTables sampleLookups sampleFileSystem .fs
    managedId ⟨4, 5⟩ ⟨4, 5⟩).1
  have hlost := (storeDir_agree sampleDeployment sampleTables sampleLookups sampleFileSystem .fs
    lostId ⟨4, 5⟩ ⟨4, 5⟩).2
  have hserver : (sampleDeployment.askServer (some sampleTables) sampleFileSystem ⟨4, 5⟩ .fs
      managedId (cachesAfter sampleDeployment sampleTables sampleLookups).server).1 =
        some serverSpelling := by decide +kernel
  have hfileserver : (sampleDeployment.askFileserver (some sampleTables) sampleFileSystem ⟨4, 5⟩ .fs
      managedId ((cachesAfter sampleDeployment sampleTables sampleLookups).fileserver .fs)).1 =
        some fileserverSpelling := by decide +kernel
  refine ⟨⟨hserver, hfileserver, ?_⟩, hlost (by decide +kernel) ("shelf-2".toList, active)
    (by decide +kernel) (by decide +kernel) none (by simp)⟩
  cases hmanaged with
  | some hsame => exact hsame

end Routing

end CloudFile
