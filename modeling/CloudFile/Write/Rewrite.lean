/-
  Rewriting the directories along a path (`fileserver/fileop.go`, `server/repo-op.c`). Each of
  these functions walks down a path by names, changes the entries of the last directory, and on
  the way back writes each directory again with a new id and time. An entry on the path is never
  asked for its type.
-/
import CloudFile.Write.Entries
import CloudFile.Fs.PathLookup

namespace CloudFile

open SortedWalk GoPath List Option

variable {Id : Type}

/-! ## The names of a path -/

/-- The names of a path that is cut at its first slash until nothing is left. -/
def toPathNames : Name → List Name
  | [] => []
  | c :: p =>
    if c = '/' then [] :: toPathNames p
    else match toPathNames p with
      | [] => [[c]]
      | name :: names => (c :: name) :: names

theorem toPathNames_of_notMem {name : Name} (hne : name ≠ []) (h : '/' ∉ name) :
    toPathNames name = [name] := by
  induction name with
  | nil => exact absurd rfl hne
  | cons c p ih =>
    simp only [mem_cons, not_or] at h
    cases p with
    | nil => simp [toPathNames, Ne.symm h.1]
    | cons c' p => rw [toPathNames, if_neg (Ne.symm h.1), ih (cons_ne_nil _ _) h.2]

theorem toPathNames_append_slash {firstName : Name} (h : '/' ∉ firstName) (remain : Name) :
    toPathNames (firstName ++ '/' :: remain) = firstName :: toPathNames remain := by
  induction firstName with
  | nil => rfl
  | cons c p ih =>
    simp only [mem_cons, not_or] at h
    simp [toPathNames, Ne.symm h.1, ih h.2]

theorem toPathNames_joinFields {names : List Name} (h : ∀ n ∈ names, Part n) :
    toPathNames (joinFields names) = names := by
  induction names using joinFields.induct with
  | case1 => rfl
  | case2 n =>
    obtain ⟨hne, hslash⟩ := h n (by simp)
    exact toPathNames_of_notMem hne hslash
  | case3 n n' names ih =>
    obtain ⟨-, hslash⟩ := h n (by simp)
    rw [joinFields, toPathNames_append_slash hslash,
      ih fun m hm => h m (mem_cons_of_mem _ hm)]

def stripSlash (parentDir : Name) : Name :=
  if parentDir.head? = some '/' then parentDir.tail else parentDir

/-- `format_dir_path`: one slash before, and none at the end. -/
def Server.formatDirPath (path : Name) : Name := '/' :: (stripSlash path).rdropWhile (· = '/')

/-! ## The model -/

def updateDirent (name : Name) (f : Dirent Id → Dirent Id) : List (Dirent Id) → List (Dirent Id)
  | [] => []
  | dent :: entries =>
    if dent.name = name then f dent :: entries else dent :: updateDirent name f entries

/-- An entry on the way to a changed directory. -/
def Dirent.touch (d : Dirent Id) (id : Id) (mtime : ℤ) : Dirent Id :=
  { d with id := id, mtime := mtime }

@[simp] theorem Dirent.touch_id (d : Dirent Id) (i : Id) (t : ℤ) : (d.touch i t).id = i := rfl
@[simp] theorem Dirent.touch_isDir (d : Dirent Id) (i : Id) (t : ℤ) :
    (d.touch i t).isDir = d.isDir := rfl

/-- An entry is as before, or, on the way to a change, so but for its id and time. -/
def AsBefore (onTheWay : Prop) (before after : Option (Dirent Id)) : Prop :=
  after = before ∨ onTheWay ∧ ∃ i t, after = before.map fun d => d.touch i t

namespace AsBefore

variable {p q : Prop} {a b c : Option (Dirent Id)} (h : AsBefore p a b)
include h

theorem none_iff : b = none ↔ a = none := by
  rcases h with rfl | ⟨-, i, t, rfl⟩
  · exact Iff.rfl
  · exact Option.map_eq_none_iff

theorem exists_some {d : Dirent Id} (hd : b = some d) : ∃ e, a = some e ∧ e.mode = d.mode := by
  rcases h with rfl | ⟨-, i, t, rfl⟩
  · exact ⟨d, hd, rfl⟩
  · obtain ⟨e, he, rfl⟩ := Option.map_eq_some_iff.1 hd
    exact ⟨e, he, rfl⟩

theorem trans (h' : AsBefore q b c) : AsBefore (q ∨ p) a c := by
  rcases h with rfl | ⟨hp, i, t, rfl⟩ <;> rcases h' with rfl | ⟨hq, i', t', rfl⟩
  · exact .inl rfl
  · exact .inr ⟨.inl hq, i', t', rfl⟩
  · exact .inr ⟨.inr hp, i, t, rfl⟩
  · exact .inr ⟨.inr hp, i', t', Option.map_map ..⟩

theorem imp (hpq : p → q) : AsBefore q a b := Or.imp_right (And.imp_left hpq) h

end AsBefore

variable [ObjectId Id] {α : Type}

/-- A written directory, the store that holds it, and what the caller gets besides. -/
structure Written (Id : Type) [ObjectId Id] (α : Type) where
  dirID : Id
  store : FsStore Id
  out : α

variable [DecidableEq Id]

/-- `NewSeafdir` and `SaveSeafdir`. -/
def newSeafdir (writeObj : Id → Bool) (st : FsStore Id) (entries : List (Dirent Id)) (out : α) :
    Option (Written Id α) :=
  (FsStore.saveSeafdir writeObj st entries).map fun st' => ⟨seafDirId entries, st', out⟩

/-- The recursion of all rewriters; `edit` changes the last directory, `now n` is the time with
    `n` names to go. -/
def rewriteRecursive (writeObj : Id → Bool) (now : ℕ → ℤ)
    (edit : List (Dirent Id) → Option (List (Dirent Id) × α)) (st : FsStore Id) :
    Id → List Name → Option (Written Id α)
  | dirID, [] => st.getSeafdir dirID >>= edit >>= fun r => newSeafdir writeObj st r.1 r.2
  | dirID, firstName :: remain =>
    st.getSeafdir dirID >>= fun entries =>
    findDirent firstName entries >>= fun dent =>
    rewriteRecursive writeObj now edit st dent.id remain >>= fun w =>
    newSeafdir writeObj w.store
      (updateDirent firstName (fun d => d.touch w.dirID (now remain.length)) entries) w.out

/-- What a write reads besides the tree: the storage backend, `sort.Sort` and the clock. -/
structure WriteEnv (Id : Type) where
  writeObj : Id → Bool
  sortDents : List (Dirent Id) → List (Dirent Id)
  now : ℕ → ℤ
  genTime : ℕ → ℤ
  mtime : ℤ

namespace Fileserver

/-- `doPostMultiFiles`; an empty `parentDir` is an index out of range. -/
def doPostMultiFiles (writeObj : Id → Bool) (now : ℕ → ℤ)
    (sortDents : List (Dirent Id) → List (Dirent Id)) (st : FsStore Id) (rootID : Id)
    (parentDir : Name) (dents : List (Dirent Id)) (user : Name) (replace : Bool)
    (names : List Name) : Option (Written Id (List Name)) :=
  if parentDir = [] then none
  else rewriteRecursive writeObj now (addNewEntries sortDents user dents replace names) st rootID
    (toPathNames (stripSlash parentDir))

def doPutFile (writeObj : Id → Bool) (now : ℕ → ℤ) (st : FsStore Id) (rootID : Id)
    (parentDir : Name) (dent : Dirent Id) : Option (Written Id Unit) :=
  rewriteRecursive writeObj now (fun entries => some (replaceEntry dent entries, ())) st rootID
    (toPathNames (stripSlash parentDir))

/-! ### Directories that do not exist yet -/

/-- `S_IFDIR | 0644`. -/
def dirMode : UInt32 := sIfdir ||| 0o644

/-- The loop of `checkAndCreateDir`: the folders up to the first one that does not exist, and the
    rest. -/
def missingFolders (st : FsStore Id) :
    List (Dirent Id) → List Name → Option (Option (List Name × List Name))
  | _, [] => some none
  | entries, dirName :: subFolders => match findDirent dirName entries with
    | none => some (some ([dirName], subFolders))
    | some de => (st.getSeafdir de.id >>= fun sub => missingFolders st sub subFolders).map
        (Option.map fun r => (dirName :: r.1, r.2))

/-- `genDirRecursive`: one directory in the other; never called without a name. -/
def genDirRecursive (writeObj : Id → Bool) (now : ℕ → ℤ) (st : FsStore Id) :
    List Name → Option (Written Id Unit)
  | [] => none
  | [name] => newSeafdir writeObj st [.new dirMode emptySha1 name (now 0) [] 0] ()
  | name :: toPath => genDirRecursive writeObj now st toPath >>= fun w =>
      newSeafdir writeObj w.store [.new dirMode w.dirID name (now toPath.length) [] 0] ()

/-- `checkAndCreateDir`: the path of the directory to add, empty if there is none, and its
    content. -/
def checkAndCreateDir (writeObj : Id → Bool) (now : ℕ → ℤ) (st : FsStore Id) (rootID : Id)
    (parentDir : Name) (subFolders : List Name) : Option (Written Id Name) :=
  (getSeafdirByPath st rootID parentDir).toOption >>= fun dir =>
  missingFolders st dir.entries subFolders >>= fun missing => match missing with
    | none => some ⟨emptySha1, st, []⟩
    | some (relativePath, dirList) =>
      let absPath := join [parentDir, join relativePath]
      if dirList = [] then some ⟨emptySha1, st, absPath⟩
      else (genDirRecursive writeObj now st dirList).map fun w => ⟨w.dirID, w.store, absPath⟩

def getCanonPath (p : Name) : Name := join [p.map fun c => if c = '\\' then '/' else c]

/-- `shouldIgnoreFile`; the names of the model are valid UTF-8. -/
def shouldIgnoreFile (fileName : Name) : Bool :=
  (fileName.splitOn '/').contains dotdot || (String.ofList fileName).utf8ByteSize ≥ 256 ||
    '/' ∈ fileName

def canonParent (parentDir : Name) : Name :=
  if parentDir = ['/'] ∨ parentDir = ['\\'] then ['/'] else getCanonPath parentDir

def subFolders (newDirPath : Name) : List Name := (getCanonPath newDirPath).splitOn '/'

/-- The new root `mkdirWithParents` commits; if every folder exists it is the old one. -/
def mkdirWithParents (env : WriteEnv Id) (st : FsStore Id) (rootID : Id)
    (parentDir newDirPath user : Name) : Option (Written Id Unit) :=
  if (subFolders newDirPath).any fun name => name ≠ [] && shouldIgnoreFile name then none
  else
    checkAndCreateDir env.writeObj env.genTime st rootID (canonParent parentDir)
      (subFolders newDirPath) >>= fun w =>
    if w.out = [] then some ⟨rootID, w.store, ()⟩
    else
      let dent := Dirent.new dirMode w.dirID (base w.out) env.mtime [] 0
      (doPostMultiFiles env.writeObj env.now env.sortDents w.store rootID (dir w.out) [dent]
        user false []).map fun w => ⟨w.dirID, w.store, ()⟩

end Fileserver

namespace Server

def doPostFileReplace (writeObj : Id → Bool) (now : ℕ → ℤ) (st : FsStore Id) (rootId : Id)
    (parentDir : Name) (replaceExisted : Bool) (dent : Dirent Id) : Option (Written Id Unit) :=
  rewriteRecursive writeObj now
    (fun entries => (postEntry replaceExisted dent entries).map fun es => (es, ())) st rootId
    (toPathNames (stripSlash parentDir))

def doPostMultiFiles (writeObj : Id → Bool) (now : ℕ → ℤ) (st : FsStore Id) (rootId : Id)
    (parentDir : Name) (dents : List (Dirent Id)) (user : Name) (replaceExisted : Bool)
    (nameList : List Name) : Option (Written Id (List Name)) :=
  rewriteRecursive writeObj now (addNewEntries user dents replaceExisted nameList) st rootId
    (toPathNames (stripSlash parentDir))

end Server

/-! ## What a rewrite has done -/

/-- `Rewritten edit now st st' id path id' out`: `id'` is in `st'` the directory `id` of `st` with
    the one edited to which the path leads by names. -/
inductive Rewritten (edit : List (Dirent Id) → Option (List (Dirent Id) × α)) (now : ℕ → ℤ)
    (st st' : FsStore Id) : Id → List Name → Id → α → Prop
  | here {id id' : Id} {es es' : List (Dirent Id)} {a : α} :
      st.getSeafdir id = some es → edit es = some (es', a) → st'.getSeafdir id' = some es' →
      Rewritten edit now st st' id [] id' a
  | down {id id' i : Id} {es : List (Dirent Id)} {d : Dirent Id} {n : Name} {path : List Name}
      {a : α} :
      st.getSeafdir id = some es → findDirent n es = some d →
      Rewritten edit now st st' d.id path i a →
      st'.getSeafdir id' = some (updateDirent n (fun d => d.touch i (now path.length)) es) →
      Rewritten edit now st st' id (n :: path) id' a

/-- The entries a path goes through, up to a missing name or an entry that cannot be read. -/
def trail (st : FsStore Id) : List (Dirent Id) → List Name → List (Dirent Id)
  | _, [] => []
  | es, n :: path => match findDirent n es with
    | none => []
    | some d => d :: match st.getSeafdir d.id with
      | none => []
      | some es' => trail st es' path

variable {st st' st'' : FsStore Id} {writeObj : Id → Bool} {now : ℕ → ℤ}
  {edit : List (Dirent Id) → Option (List (Dirent Id) × α)} {id id' : Id} {path : List Name}
  {w : Written Id α}

theorem newSeafdir_spec {es : List (Dirent Id)} {a : α} (h : newSeafdir writeObj st es a = some w) :
    st ≤ w.store ∧ w.store.getSeafdir w.dirID = some es ∧ w.out = a := by
  obtain ⟨st', hst', rfl⟩ := map_eq_some_iff.1 h
  obtain ⟨hle, hget⟩ := FsStore.saveSeafdir_spec hst'
  exact ⟨hle, hget, rfl⟩

theorem Rewritten.mono {a : α} (h : Rewritten edit now st st' id path id' a) (hle : st' ≤ st'') :
    Rewritten edit now st st'' id path id' a := by
  induction h with
  | here hes hedit hes' => exact .here hes hedit (FsStore.getSeafdir_mono hle hes')
  | down hes hd _ hes' ih => exact .down hes hd ih (FsStore.getSeafdir_mono hle hes')

theorem rewriteRecursive_spec (h : rewriteRecursive writeObj now edit st id path = some w) :
    st ≤ w.store ∧ Rewritten edit now st w.store id path w.dirID w.out := by
  induction path generalizing id w with
  | nil =>
    simp only [rewriteRecursive, bind_eq_bind, bind_eq_some_iff] at h
    obtain ⟨r, ⟨es, hes, hedit⟩, hnew⟩ := h
    obtain ⟨hle, hget, hout⟩ := newSeafdir_spec hnew
    exact ⟨hle, hout ▸ .here hes hedit hget⟩
  | cons n path ih =>
    simp only [rewriteRecursive, bind_eq_bind, bind_eq_some_iff] at h
    obtain ⟨es, hes, d, hd, w', hw', hnew⟩ := h
    obtain ⟨hle', hrew⟩ := ih hw'
    obtain ⟨hle, hget, hout⟩ := newSeafdir_spec hnew
    exact ⟨hle'.trans hle, hout ▸ .down hes hd (hrew.mono hle) hget⟩

/-! ## Lookup after a rewrite -/

section Update

omit [ObjectId Id] [DecidableEq Id]

variable {f : Dirent Id → Dirent Id} {n : Name} {es : List (Dirent Id)} {t : ℤ}

theorem map_name_updateDirent (hf : ∀ d, (f d).name = d.name) :
    (updateDirent n f es).map Dirent.name = es.map Dirent.name := by
  induction es with
  | nil => rfl
  | cons d es ih =>
    simp only [updateDirent]
    split_ifs <;> simp [hf, ih]

theorem mem_updateDirent {d e : Dirent Id} (hd : findDirent n es = some d)
    (he : e ∈ updateDirent n f es) : e ∈ es ∨ e = f d := by
  induction es with
  | nil => simp [updateDirent] at he
  | cons d' es ih =>
    simp only [updateDirent] at he
    by_cases hn : d'.name = n
    · obtain rfl : d' = d := by simpa [findDirent, hn] using hd
      rcases mem_cons.1 (by simpa [hn] using he) with rfl | he
      exacts [.inr rfl, .inl (mem_cons_of_mem _ he)]
    · rw [if_neg hn] at he
      rcases mem_cons.1 he with rfl | he
      · exact .inl mem_cons_self
      · have hd' : findDirent n es = some d := by simpa [findDirent, hn] using hd
        exact (ih hd' he).imp_left (mem_cons_of_mem _)

theorem findDirent_updateDirent (hf : ∀ d, (f d).name = d.name) (m : Name) :
    findDirent m (updateDirent n f es) =
      if m = n then (findDirent m es).map f else findDirent m es := by
  induction es with
  | nil => simp [updateDirent, findDirent]
  | cons d es ih =>
    unfold findDirent at ih ⊢
    by_cases hn : d.name = n
    · subst hn
      by_cases hm : d.name = m
      · simp [updateDirent, hf, hm]
      · simp [updateDirent, hf, hm, Ne.symm hm]
    · by_cases hm : d.name = m
      · subst hm
        simp [updateDirent, hn]
      · simpa [updateDirent, hn, hm] using ih

theorem desc_touch {i : Id} (h : Desc Dirent.name es) :
    Desc Dirent.name (updateDirent n (fun d => d.touch i t) es) := by
  rw [desc_iff_names] at h ⊢
  rwa [map_name_updateDirent (f := fun d => d.touch i t) fun _ => rfl]

theorem findDirent_touch {d : Dirent Id} {i : Id} (h : findDirent n es = some d) :
    findDirent n (updateDirent n (fun d => d.touch i t) es) = some (d.touch i t) := by
  rw [findDirent_updateDirent (f := fun d => d.touch i t) (fun _ => rfl), if_pos rfl, h]
  rfl

theorem findDirent_touch_ne {m : Name} {i : Id} (h : m ≠ n) :
    findDirent m (updateDirent n (fun d => d.touch i t) es) = findDirent m es := by
  rw [findDirent_updateDirent (f := fun d => d.touch i t) (fun _ => rfl), if_neg h]

end Update

end CloudFile
