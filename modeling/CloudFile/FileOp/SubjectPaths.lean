/-
  The paths that the file operation seam is asked about (`common/cf-path.c`,
  `common/cf-fileop.c`), and the way the C server writes, splits and checks the paths and ids of a
  request. An entry lies at or below a subject path when the parts of that path begin its own
  (`AtOrBelow`).
-/
import CloudFile.Fs.TreeWalk
import CloudFile.Lib.GoPath

namespace CloudFile

open GoPath List

/-! ## The model -/

/-- `cf_path_normalize`: every part between slashes with one slash before it. -/
def cfPathNormalize (path : Name) : Name :=
  if fields path = [] then ['/'] else (fields path).flatMap ('/' :: ·)

/-- `cf_path_join` -/
def cfPathJoin (dir entry : Name) : Name :=
  if entry = [] then cfPathNormalize dir else cfPathNormalize (dir ++ '/' :: entry)

/-- `cf_fileop_subject_paths`, for an operation that gives its names as a list; without names the
    subject is the directory. -/
def cfFileopSubjectPaths (dir : Name) (names : List Name) : List Name :=
  if names = [] then [cfPathJoin dir []] else names.map (cfPathJoin dir)

/-- `is_uuid_valid`: what `uuid_parse` and, of a text of 36 characters, `uuid.Parse` accept:
    hexadecimal digits, with a hyphen at four places. -/
def isUuidValid (s : Name) : Bool :=
  s.length = 36 && s.zipIdx.all fun ci =>
    if ci.2 ∈ [8, 13, 18, 23] then ci.1 = '-'
    else ci.1.isDigit || ('a' ≤ ci.1 && ci.1 ≤ 'f') || ('A' ≤ ci.1 && ci.1 ≤ 'F')

namespace Server

/-- `get_canonical_path`: slashes for backslashes, and none at the end. -/
def getCanonicalPath (path : Name) : Name :=
  (path.map fun c => if c = '\\' then '/' else c).rdropWhile (· = '/')

/-- The path without its first slash. -/
def skipSlash : Name → Name
  | '/' :: path => path
  | path => path

/-- `g_strsplit` at slashes: the empty string has no parts. -/
def gStrsplit (path : Name) : List Name := if path = [] then [] else path.splitOn '/'

end Server

/-- The entry at a path lies at or below the subject. -/
def AtOrBelow (subject : Name) (path : List Name) : Prop := fields subject <+: path.flatMap fields

/-! ## Parts of paths -/

variable (path : Name)

theorem fields_cfPathNormalize : fields (cfPathNormalize path) = fields path := by
  have hparts : ∀ fs : List Name, (∀ s ∈ fs, Part s) → fields (fs.flatMap ('/' :: ·)) = fs := by
    intro fs
    induction fs with
    | nil => exact fun _ => rfl
    | cons s fs ih =>
      intro hfs
      have hs := fields_part (hfs s mem_cons_self)
      have hrest := ih fun t ht => hfs t (mem_cons_of_mem _ ht)
      rw [flatMap_cons, cons_append, fields_slash]
      cases fs with
      | nil => simpa using hs
      | cons t fs =>
        rw [flatMap_cons, cons_append, fields_slash] at hrest
        rw [flatMap_cons, cons_append, fields_append_slash, hs, hrest]
        rfl
  unfold cfPathNormalize
  split
  next hnil => rw [hnil]; rfl
  next => exact hparts _ fun s hs => part_of_mem_fields hs

theorem fields_cfPathJoin (dir entry : Name) :
    fields (cfPathJoin dir entry) = fields dir ++ fields entry := by
  unfold cfPathJoin
  split
  next hnil => rw [fields_cfPathNormalize, hnil, fields_nil, append_nil]
  next => rw [fields_cfPathNormalize, fields_append_slash]

theorem Server.fields_skipSlash : fields (Server.skipSlash path) = fields path := by
  unfold skipSlash
  split
  · rw [fields_slash]
  · rfl

theorem Server.flatMap_gStrsplit :
    (Server.gStrsplit path).flatMap fields = fields path := by
  unfold gStrsplit
  split
  next hnil => rw [hnil]; rfl
  next => rw [← fields_intercalate, intercalate_splitOn]

theorem Server.fields_getCanonicalPath {path : Name} (h : '\\' ∉ path) :
    fields (Server.getCanonicalPath path) = fields path := by
  have hmap : (path.map fun c => if c = '\\' then '/' else c) = path := by
    conv_rhs => rw [← map_id path]
    refine map_congr_left fun c hc => ?_
    have hne : c ≠ '\\' := fun heq => h (heq ▸ hc)
    exact if_neg hne
  rw [getCanonicalPath, hmap, fields_rdropWhile_slash]

theorem Server.backslash_notMem_getCanonicalPath : '\\' ∉ Server.getCanonicalPath path := by
  intro hmem
  obtain ⟨c, -, hc⟩ := mem_map.1 (( rdropWhile_prefix _ _).subset hmem)
  split_ifs at hc with hback
  · cases hc
  · exact hback hc

theorem AtOrBelow.trans {subject : Name} {t path : List Name} (h : AtOrBelow subject t)
    (hle : t <+: path) : AtOrBelow subject path := by
  obtain ⟨rest, rfl⟩ := hle
  rw [AtOrBelow, flatMap_append]
  exact IsPrefix.trans h (prefix_append _ _)

/-! ## Lists of names -/

theorem flatMap_fields_parts {path : List Name} (h : ∀ n ∈ path, Part n) :
    path.flatMap fields = path := by
  induction path with
  | nil => rfl
  | cons n path ih =>
    rw [flatMap_cons, fields_part (h n mem_cons_self),
      ih fun n' hn' => h n' (mem_cons_of_mem _ hn')]
    rfl

theorem Server.slash_notMem_gStrsplit : ∀ p ∈ gStrsplit path, '/' ∉ p := by
  intro p hp
  unfold gStrsplit at hp
  split_ifs at hp
  · cases hp
  · by_cases hne : p = []
    · rw [hne]
      exact not_mem_nil
    · exact (part_of_mem_fields ((mem_fields hne).2 hp)).2

end CloudFile
