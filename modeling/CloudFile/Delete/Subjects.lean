/-
  What a deletion asks about.  Before a deletion the seam is asked about the subject paths of the
  listed names.  `del_file` only removes what was asked about; `batch_del_files` does so when every
  name that strays from its own path ends at or below a subject path (`delete_asked_iff`).
-/
import CloudFile.Delete.Stands

namespace CloudFile

open SortedWalk GoPath List Option

/-! ## Shapes of trees -/

/-- The modes of the entries of a tree, by path, with the bits that saving sets. -/
abbrev Shape := List Name → Option UInt32

namespace Shape

/-- The tree below a name. -/
def below (T : Shape) (m : Name) : Shape := fun p => if p = [] then none else T (m :: p)

/-- What is left without the entry `t` and everything below it. -/
def without (T : Shape) (t : List Name) : Shape := fun p => if t <+: p then none else T p

/-- The path of the entry that a deletion of the parts removes. -/
def reached (T : Shape) : List Name → Option (List Name)
  | [] => none
  | [m] => (T [m]).bind fun mode => if sIsDir mode || sIsReg mode then some [m] else none
  | m :: m' :: parts => (T [m]).bind fun mode =>
      if sIsDir mode then (reached (T.below m) (m' :: parts)).map (m :: ·)
      else reached T (m' :: parts)

/-- The parts lead through an entry that is not a directory. -/
def passesFile (T : Shape) : List Name → Bool
  | [] | [_] => false
  | m :: m' :: parts => (T [m]).any fun mode =>
      if sIsDir mode then passesFile (T.below m) (m' :: parts) else true

/-- What a deletion of the parts leaves. -/
def deleted (T : Shape) (parts : List Name) : Shape := (T.reached parts).elim T T.without


/-- What a listed path leaves. -/
def deletedName (T : Shape) (name : Name) : Shape :=
  if name = [] then T else T.deleted (Server.delParts name)

/-- A name that has a backslash or leads through something other than a directory, and still
    reaches an entry, ends at or below a subject. -/
def StraysAsked (subjects : List Name) : Shape → List Name → Prop
  | _, [] => True
  | T, name :: names =>
    ('\\' ∈ name ∨ T.passesFile (Server.delParts name) = true →
      ∀ t, T.reached (Server.delParts name) = some t → ∃ s ∈ subjects, AtOrBelow s t) ∧
    StraysAsked subjects (T.deletedName name) names

end Shape

/-- Every entry that is gone lies at or below a subject path. -/
def OnlyAsked (subjects : List Name) (before after : Shape) : Prop :=
  ∀ path, before path ≠ none → after path = none → ∃ s ∈ subjects, AtOrBelow s path

/-! ## What a list of names removes -/

section Shapes

variable {T : Shape} {parts t path subjects names : List Name}

theorem Shape.reached_ne_nil (h : T.reached parts = some t) :
    t ≠ [] := by
  induction parts generalizing T t with
  | nil => cases h
  | cons m parts ih =>
    cases parts with
    | nil =>
      obtain ⟨mode, -, hmode⟩ := bind_eq_some_iff.1 h
      split at hmode
      · cases hmode
        exact cons_ne_nil _ _
      · cases hmode
    | cons m' parts =>
      obtain ⟨mode, -, hmode⟩ := bind_eq_some_iff.1 h
      split at hmode
      · obtain ⟨t', -, rfl⟩ := map_eq_some_iff.1 hmode
        exact cons_ne_nil _ _
      · exact ih hmode

theorem Shape.reached_present (h : T.reached parts = some t) : T t ≠ none := by
  induction parts generalizing T t with
  | nil => cases h
  | cons m parts ih =>
    cases parts with
    | nil =>
      obtain ⟨mode', hmode', hrest⟩ := bind_eq_some_iff.1 h
      split at hrest
      · cases hrest
        rw [hmode']
        exact some_ne_none _
      · cases hrest
    | cons m' parts =>
      obtain ⟨mode', hmode', hrest⟩ := bind_eq_some_iff.1 h
      split at hrest
      · obtain ⟨t', ht', rfl⟩ := map_eq_some_iff.1 hrest
        have hin := ih ht'
        rwa [Shape.below, if_neg (Shape.reached_ne_nil ht')] at hin
      · exact ih hrest

theorem Shape.reached_straight (hpass : T.passesFile parts = false)
    (h : T.reached parts = some t) : t = parts := by
  induction parts generalizing T t with
  | nil => cases h
  | cons m parts ih =>
    cases parts with
    | nil =>
      obtain ⟨mode, hmode, hrest⟩ := bind_eq_some_iff.1 h
      split at hrest
      · cases hrest
        rfl
      · cases hrest
    | cons m' parts =>
      obtain ⟨mode, hmode, hrest⟩ := bind_eq_some_iff.1 h
      simp only [Shape.passesFile, hmode, any_some] at hpass
      split at hrest
      next hdir =>
        rw [if_pos hdir] at hpass
        obtain ⟨t', ht', rfl⟩ := map_eq_some_iff.1 hrest
        rw [ih hpass ht']
      next hdir =>
        rw [if_neg hdir] at hpass
        cases hpass

theorem Shape.deletedName_eq (name : Name) (path : List Name) : T.deletedName name path =
    if ∃ t, T.reached (Server.delParts name) = some t ∧ t <+: path then none else T path := by
  have hdel : T.deletedName name = T.deleted (Server.delParts name) := by
    unfold Shape.deletedName
    split
    next hnil =>
      subst hnil
      rfl
    next => rfl
  rw [hdel, Shape.deleted]
  cases hreached : T.reached (Server.delParts name) with
  | none => simp
  | some t => simp [Shape.without]

/-- What a list of paths leaves. -/
def Shape.deletedNames (T : Shape) (names : List Name) : Shape := names.foldl Shape.deletedName T

theorem Shape.deletedNames_none (h : T path = none) :
    T.deletedNames names path = none := by
  induction names generalizing T with
  | nil => exact h
  | cons name names ih =>
    refine ih ?_
    rw [Shape.deletedName_eq, h]
    exact ite_self none

/-- Every entry that is reached lies at or below a subject. -/
def Shape.AllAsked (subjects : List Name) : Shape → List Name → Prop
  | _, [] => True
  | T, name :: names =>
    (∀ t, T.reached (Server.delParts name) = some t → ∃ s ∈ subjects, AtOrBelow s t) ∧
    AllAsked subjects (T.deletedName name) names

theorem Shape.onlyAsked_iff :
    OnlyAsked subjects T (T.deletedNames names) ↔ T.AllAsked subjects names := by
  induction names generalizing T with
  | nil => exact ⟨fun _ => trivial, fun _ path hpath hgone => absurd hgone hpath⟩
  | cons name names ih =>
    have htail : T.deletedNames (name :: names) = (T.deletedName name).deletedNames names := rfl
    rw [htail, Shape.AllAsked, ← ih]
    constructor
    · intro h
      refine ⟨fun t ht => ?_, fun path hpath hgone => ?_⟩
      · refine h t (Shape.reached_present ht) (Shape.deletedNames_none ?_)
        rw [Shape.deletedName_eq, if_pos ⟨t, ht, prefix_rfl⟩]
      · refine h path (fun hnone => hpath ?_) hgone
        rw [Shape.deletedName_eq, hnone]
        exact ite_self none
    · rintro ⟨hreached, hrest⟩ path hpath hgone
      by_cases hin : ∃ t, T.reached (Server.delParts name) = some t ∧ t <+: path
      · obtain ⟨t, ht, hle⟩ := hin
        obtain ⟨s, hs, hbelow⟩ := hreached t ht
        exact ⟨s, hs, hbelow.trans hle⟩
      · refine hrest path ?_ hgone
        rwa [Shape.deletedName_eq, if_neg hin]

theorem atOrBelow_own {name : Name} (hname : '\\' ∉ name) :
    AtOrBelow (cfPathJoin ['/'] name) (Server.delParts name) := by
  rw [AtOrBelow, fields_cfPathJoin, Server.delParts, Server.flatMap_gStrsplit,
    Server.fields_skipSlash, Server.fields_getCanonicalPath hname]
  exact prefix_rfl

theorem Shape.allAsked_iff (hown : ∀ name ∈ names, cfPathJoin ['/'] name ∈ subjects) :
    T.AllAsked subjects names ↔ T.StraysAsked subjects names := by
  induction names generalizing T with
  | nil => exact Iff.rfl
  | cons name names ih =>
    obtain ⟨hsubject, hrest⟩ := forall_mem_cons.1 hown
    refine and_congr ⟨fun h _ => h, fun h t ht => ?_⟩ (ih hrest)
    by_cases hstray : '\\' ∈ name ∨ T.passesFile (Server.delParts name) = true
    · exact h hstray t ht
    · obtain ⟨hname, hpass⟩ := not_or.1 hstray
      obtain rfl := Shape.reached_straight (by simpa using hpass) ht
      exact ⟨_, hsubject, atOrBelow_own hname⟩

end Shapes

/-! ## Deletion of a list of paths -/

variable {Id : Type} [ObjectId Id] [DecidableEq Id]

/-- The shape of a stored tree. -/
def storedShape (st : FsStore Id) (root : Id) : Shape :=
  fun p => (entryAt st root p).map fun d => fileMode d.mode

/-- The shape of a directory without some paths. -/
def leftShape (st : FsStore Id) (es : List (Dirent Id)) (R : List (List Name)) : Shape := fun p =>
  if ∃ t ∈ R, t <+: p then none else (entryIn st es p).map fun d => fileMode d.mode

section Batch

variable {e : DeleteEnv Id} {st st' X : FsStore Id} {rootId : Id} {k : ℕ} {R : List (List Name)}
  {es dents : List (Dirent Id)} {m : Name} {p parts : List Name}

theorem exists_prefix_cons (hR : [] ∉ R) :
    (∃ t ∈ R, t <+: m :: p) ↔ ∃ t ∈ after m R, t <+: p := by
  constructor
  · rintro ⟨t, ht, hpre⟩
    obtain ⟨n, t, rfl⟩ := exists_cons_of_ne_nil fun hnil : t = [] => hR (hnil ▸ ht)
    obtain ⟨rfl, hrest⟩ := cons_prefix_cons.1 hpre
    exact ⟨t, mem_after.2 ht, hrest⟩
  · rintro ⟨t, ht, hpre⟩
    exact ⟨m :: t, mem_after.1 ht, cons_prefix_cons.2 ⟨rfl, hpre⟩⟩

theorem leftShape_root : leftShape st es R [] = none := ite_self none

theorem leftShape_singleton (hR : [] ∉ R) :
    leftShape st es R [m] = (leftIn R es m).map fun d => fileMode d.mode := by
  have hmem : (∃ t ∈ R, t <+: [m]) ↔ [m] ∈ R := by
    rw [exists_prefix_cons hR]
    simp [mem_after]
  by_cases hm : [m] ∈ R
  · rw [leftShape, if_pos (hmem.2 hm), leftIn_of_mem hm]
    rfl
  · rw [leftShape, if_neg (mt hmem.1 hm), leftIn_of_notMem es hm]
    rfl

theorem leftShape_cons (hR : [] ∉ R) (hp : p ≠ []) : leftShape st es R (m :: p) =
    leftShape st (subEntries st (findDirent m es)) (after m R) p := by
  simp only [leftShape, exists_prefix_cons hR, entryIn_cons es m hp]

theorem below_leftShape (hR : [] ∉ R) : (leftShape st es R).below m =
    leftShape st (subEntries st (findDirent m es)) (after m R) := by
  funext p
  unfold Shape.below
  split_ifs with hp
  · rw [hp, leftShape_root]
  · exact leftShape_cons hR hp

theorem reached_leftShape (hsub : SubTrees (UniqueKeys Dirent.name) st k es) (hR : [] ∉ R) :
    (leftShape st es R).reached parts = reachedFrom st R es parts := by
  induction parts generalizing R es with
  | nil => rfl
  | cons m parts ih =>
    cases parts with
    | nil =>
      rw [Shape.reached, reachedFrom, leftShape_singleton hR]
      cases leftIn R es m <;> simp [Dirent.isDir, Dirent.isReg]
    | cons m' parts =>
      rw [Shape.reached, reachedFrom, leftShape_singleton hR]
      cases hd : leftIn R es m with
      | none => rfl
      | some d =>
        obtain ⟨hm, hfind⟩ := leftIn_some hd
        rw [map_some, bind_some, bind_some, sIsDir_fileMode, ← Dirent.isDir]
        split_ifs with hdir
        · obtain ⟨es', hes', -⟩ := (hsub.2 d (mem_of_findDirent hfind).1 hdir).readable
          rw [below_leftShape hR, hfind, subEntries, if_pos hdir, hes', getD_some, bind_some,
            ih (hsub.load hfind hdir hes').2 (mt mem_after.1 hm)]
        · exact ih hsub hR

theorem deletedNames_leftShape (hsub : SubTrees (UniqueKeys Dirent.name) st k es)
    (filepaths : List Name) : (leftShape st es []).deletedNames filepaths =
      leftShape st es (reachedAll st es filepaths) := by
  induction filepaths using reverseRecOn with
  | nil => rfl
  | append_singleton filepaths name ih =>
    have hR : [] ∉ reachedAll st es filepaths := nil_notMem_reachedAll filepaths
    have hconcat : (leftShape st es []).deletedNames (filepaths ++ [name]) =
        ((leftShape st es []).deletedNames filepaths).deletedName name := foldl_append
    rw [hconcat, ih, reachedAll_concat, addReached]
    funext path
    rw [Shape.deletedName_eq, reached_leftShape hsub hR]
    cases reachedFrom st (reachedAll st es filepaths) es (Server.delParts name) with
    | none => simp
    | some t => by_cases ht : t <+: path <;> simp [leftShape, ht]

/-- **The saved tree is the one that is left.** -/
theorem Stands.shape_saved {now : ℤ} {dir : ChangeSetDir Id} {writeObj : Id → Bool}
    {st₀ : FsStore Id} (h : Stands st now R es dir) (hR : [] ∉ R)
    (hsub : SubTrees (UniqueKeys Dirent.name) st k es) (hst : st ≤ st₀)
    (hcommit : commitTree writeObj dir st₀ = some (dents, st')) (hX : st' ≤ X) (path : List Name) :
    (entryIn X dents path).map (fun d => fileMode d.mode) = leftShape st es R path := by
  induction h generalizing st₀ st' dents path with
  | @mk R es dir _ hnone hleft hstands ih =>
    have hsaved := commitTree_savedAs hcommit
    cases path with
    | nil => exact leftShape_root.symm
    | cons n path =>
      by_cases hpath : path = []
      · subst hpath
        rw [leftShape_singleton hR, show entryIn X dents [n] = findDirent n dents from rfl]
        cases hd : leftIn R es n with
        | none => rw [hsaved.absent n (hnone n hd).1, map_none]
        | some d =>
          rcases hleft n d hd with ⟨hlookup, -⟩ | ⟨-, -, sub, hlookup⟩
          · simp [hsaved.stored n d hlookup, Dirent.withFileMode, fileMode_fileMode]
          · obtain ⟨_, _, _, -, -, -, -, hfind⟩ := hsaved.loaded n _ sub hlookup
            simp [hfind, Dirent.withFileMode, fileMode_fileMode, Dirent.withId]
      · rw [leftShape_cons hR hpath, entryIn_cons dents n hpath]
        cases hd : leftIn R es n with
        | none =>
          rw [hsaved.absent n (hnone n hd).1, subEntries, entryIn_nil, leftShape]
          by_cases hn : [n] ∈ R
          · rw [if_pos ⟨[], mem_after.2 hn, nil_prefix⟩]
            rfl
          · rw [leftIn_of_notMem es hn] at hd
            simp [hd, subEntries]
        | some d =>
          obtain ⟨hn, hfind⟩ := leftIn_some hd
          rcases hleft n d hd with ⟨hlookup, hafter⟩ | ⟨hdir, hsome, sub, hlookup⟩
          · rw [hsaved.stored n d hlookup, hafter, hfind]
            by_cases hdir : d.isDir = true
            · have hT := hsub.2 d (mem_of_findDirent hfind).1 hdir
              have hle : st ≤ X := (hst.trans hsaved.le).trans hX
              obtain ⟨es', hes', -⟩ := hT.readable
              have hes'' := FsStore.getSeafdir_mono hle hes'
              rw [Dirent.withFileMode_of_isDir hdir, subEntries, subEntries, if_pos hdir,
                if_pos hdir, hes', hes'', getD_some, ← entryAt_eq hes'', hT.entryAt_mono hle,
                entryAt_eq hes']
              simp [leftShape]
            · simp [subEntries, hdir, leftShape]
          · obtain ⟨es', hes'⟩ := isSome_iff_exists.1 hsome
            obtain ⟨st₁, st₂, es₂, hle₁, hcommit₂, hle₂, hsaved₂, hfind₂⟩ :=
              hsaved.loaded n _ sub hlookup
            rw [hfind₂, hfind, subEntries, if_pos (by simpa using hdir), Dirent.withFileMode_id,
              Dirent.withId_id, FsStore.getSeafdir_mono hX hsaved₂, getD_some,
              entryIn_sortDirents ((hstands n d es' _ sub hd hes' hlookup).unique hcommit₂),
              subEntries, if_pos hdir, hes', getD_some]
            exact ih n d es' _ sub hd hes' hlookup (mt mem_after.1 hn)
              (hsub.load hfind hdir hes').2 (hst.trans hle₁) hcommit₂ (hle₂.trans hX) path

/-- **What `batch_del_files` publishes.** -/
theorem storedShape_batchDelFiles (htree : Tree (UniqueKeys Dirent.name) st k rootId)
    {filepaths : List Name} {root' : Id}
    (h : Server.batchDelFiles e st rootId filepaths = some (st', root')) :
    storedShape st' root' = (storedShape st rootId).deletedNames filepaths := by
  obtain ⟨dir, hdir, h⟩ := bind_eq_some_iff.1 h
  obtain ⟨es, hes, rfl⟩ := map_eq_some_iff.1 hdir
  obtain ⟨hu, hdirs⟩ := htree.subTrees_of hes
  have hperm : (Server.sortDirents es).Perm es := perm_insertionSort _ _
  have hsub : SubTrees (UniqueKeys Dirent.name) st k (Server.sortDirents es) :=
    ⟨(hperm.map _).nodup_iff.2 hu, fun d hd => hdirs d (hperm.mem_iff.1 hd)⟩
  have hbefore : storedShape st rootId = leftShape st (Server.sortDirents es) [] := by
    funext path
    rw [storedShape, entryAt_eq hes, ← entryIn_sortDirents hu]
    simp [leftShape]
  simp only at h
  split at h
  · cases h
  obtain ⟨dents, st₁, hcommit, hle, -, hsaved⟩ := commitTreeFromChangeset_some h
  have hstands := (stands_doBatchDelFiles (e := e) st hsub filepaths).1
  rw [hbefore, deletedNames_leftShape hsub]
  funext path
  rw [storedShape, entryAt_eq hsaved, entryIn_sortDirents (hstands.unique hcommit),
    hstands.shape_saved (nil_notMem_reachedAll filepaths) hsub le_rfl hcommit hle]

end Batch

/-! ## Deletion of names of one directory -/

section DelFile

variable {e : DeleteEnv Id} {filenames parts path : List Name} {st st' : FsStore Id}
  {dirId id' : Id} {n k : ℕ} {m : Name} {es : List (Dirent Id)}

theorem gone_below {id id₁ : Id} {es' : List (Dirent Id)} {d : Dirent Id} {now : ℤ}
    (hes : st.getSeafdir id = some es) (hes' : st.getSeafdir id' = some es')
    (hd : findDirent m es = some d) (hd' : findDirent m es' = some ((d.withId id₁).withMtime now))
    (hbefore : entryAt st id (m :: path) ≠ none) (hafter : entryAt st id' (m :: path) = none) :
    d.isDir = true ∧ entryAt st d.id path ≠ none ∧ entryAt st id₁ path = none := by
  by_cases hpath : path = []
  · rw [entryAt_eq hes', hpath, entryIn, hd'] at hafter
    cases hafter
  · rw [entryAt_cons_of_dir hes hd hpath] at hbefore
    rw [entryAt_cons_of_dir hes' hd' hpath] at hafter
    have hdir : d.isDir = true := by
      by_contra hdir
      rw [if_neg hdir] at hbefore
      exact hbefore rfl
    have hdir' : ((d.withId id₁).withMtime now).isDir = true := hdir
    rw [if_pos hdir] at hbefore
    rw [if_pos hdir'] at hafter
    exact ⟨hdir, hbefore, hafter⟩

theorem delFileRecursive_gone (htree : Tree (UniqueKeys Dirent.name) st k dirId)
    (h : Server.delFileRecursive e filenames parts st dirId = some (st', id', n))
    {st'' : FsStore Id} (hle : st' ≤ st'')
    (hbefore : entryAt st'' dirId path ≠ none) (hafter : entryAt st'' id' path = none) :
    ∃ m ∈ filenames, parts ++ [m] <+: path := by
  have hle₀ := (delFileRecursive_le h).trans hle
  induction parts generalizing st st' dirId id' n k path with
  | nil =>
    obtain ⟨es, hes, -, rfl | hnew⟩ := delFileRecursive_nil h
    · exact absurd hafter hbefore
    obtain ⟨hunique, -⟩ := htree.subTrees_of hes
    cases path with
    | nil => exact absurd rfl hbefore
    | cons m path =>
      refine ⟨m, ?_, prefix_append [m] path⟩
      by_contra hm
      have hfind := (findDirent_filter_names hm).trans (findDirent_sortDirents hunique m)
      rw [entryAt_congr (FsStore.getSeafdir_mono hle₀ hes) (FsStore.getSeafdir_mono hle hnew)
        hfind path] at hafter
      exact hbefore hafter
  | cons part remain ih =>
    obtain ⟨es, dent, st₁, id₁, n₁, hes, hdent, hrec, hle₁, rfl | hnew⟩ := delFileRecursive_cons h
    · exact absurd hafter hbefore
    have hold := FsStore.getSeafdir_mono hle₀ hes
    have hnew := FsStore.getSeafdir_mono hle hnew
    have hfind := findDirent_replaceDir e.now part id₁ (Server.sortDirents es)
    obtain ⟨hunique, hsub⟩ := htree.subTrees_of hes
    rw [findDirent_sortDirents hunique] at hdent
    simp only [findDirent_sortDirents hunique, hdent] at hfind
    cases path with
    | nil => exact absurd rfl hbefore
    | cons m path =>
      by_cases hm : m = part
      · -- the entry itself stays, and what is below it is the deletion below
        subst hm
        obtain ⟨hdir, hbefore, hafter⟩ :=
          gone_below hold hnew hdent ((hfind m).trans (if_pos rfl)) hbefore hafter
        obtain ⟨m', hm', hprefix⟩ := ih (hsub dent (mem_of_findDirent hdent).1 hdir) hrec
          (hle₁.trans hle) hbefore hafter hle₀
        exact ⟨m', hm', cons_prefix_cons.2 ⟨rfl, hprefix⟩⟩
      · rw [entryAt_congr hold hnew ((hfind m).trans (if_neg hm)) path] at hafter
        exact absurd hafter hbefore

/-- **What `del_file` removes** stands at or below a subject. -/
theorem onlyAsked_delFile {rootId root' : Id} {parentDir : Name}
    (htree : Tree (UniqueKeys Dirent.name) st k rootId)
    (h : Server.delFile e st rootId parentDir filenames = some (st', root')) :
    OnlyAsked (cfFileopSubjectPaths (Server.getCanonicalPath parentDir) filenames)
      (storedShape st rootId) (storedShape st' root') := by
  intro path hbefore hafter
  unfold Server.delFile at h
  split at h
  · cases h
  obtain ⟨⟨st₁, id₁, n₁⟩, hrec, h⟩ := bind_eq_some_iff.1 h
  simp only at h
  split at h
  · cases h
  cases h
  have hbefore' : entryAt st' rootId path ≠ none := by
    rw [htree.entryAt_mono (delFileRecursive_le hrec)]
    exact fun hnone => hbefore (by rw [storedShape, hnone]; rfl)
  obtain ⟨m, hm, hprefix⟩ := delFileRecursive_gone htree hrec le_rfl hbefore'
    (map_eq_none_iff.1 hafter)
  have hsome : filenames ≠ [] := ne_nil_of_mem hm
  rw [cfFileopSubjectPaths, if_neg hsome]
  refine ⟨_, mem_map_of_mem hm, AtOrBelow.trans ?_ hprefix⟩
  rw [AtOrBelow, fields_cfPathJoin, flatMap_append, Server.flatMap_gStrsplit,
    Server.fields_skipSlash]
  simp

end DelFile

/-! ## Both deletions -/

/-- **Deletion removes what was asked about**, when every name of a list of paths that strays from
    its own path ends at or below a subject. -/
theorem delete_asked_iff {e : DeleteEnv Id} {st : FsStore Id} {rootId : Id} {k : ℕ}
    (htree : Tree (UniqueKeys Dirent.name) st k rootId) :
    (∀ parentDir filenames st' root',
      Server.delFile e st rootId parentDir filenames = some (st', root') →
      OnlyAsked (cfFileopSubjectPaths (Server.getCanonicalPath parentDir) filenames)
        (storedShape st rootId) (storedShape st' root')) ∧
    ∀ filepaths st' root', Server.batchDelFiles e st rootId filepaths = some (st', root') →
      (OnlyAsked (cfFileopSubjectPaths ['/'] filepaths)
          (storedShape st rootId) (storedShape st' root') ↔
        (storedShape st rootId).StraysAsked (cfFileopSubjectPaths ['/'] filepaths) filepaths) := by
  refine ⟨fun _ _ _ _ h => onlyAsked_delFile htree h, fun filepaths st' root' h => ?_⟩
  rw [storedShape_batchDelFiles htree h, Shape.onlyAsked_iff]
  refine Shape.allAsked_iff fun name hname => ?_
  have hsome : filepaths ≠ [] := ne_nil_of_mem hname
  rw [cfFileopSubjectPaths, if_neg hsome]
  exact mem_map_of_mem hname

/-! ### Two files and a directory -/

/-- A file entry. -/
def listedFile (name : Name) : Dirent ℕ := .new 0o100644 0 name 0 [] 0

/-- The directory `a` with the file `b`. -/
def listedDir : Dirent ℕ := .new 0o040000 (seafDirId [listedFile ['b']]) ['a'] 0 [] 0

theorem nonempty_listedDir : (FsObj.dir [listedFile ['b']]).Nonempty := cons_ne_nil _ _

theorem nonempty_listedRoot :
    (FsObj.dir [listedFile ['g'], listedFile ['f'], listedDir]).Nonempty := cons_ne_nil _ _

/-- The store of the files `g` and `f` beside `a`. -/
def listedStore : FsStore ℕ :=
  (FsStore.empty.insert (.dir [listedFile ['b']]) nonempty_listedDir).insert
    (.dir [listedFile ['g'], listedFile ['f'], listedDir]) nonempty_listedRoot

/-- Its root. -/
def listedRoot : ℕ := seafDirId [listedFile ['g'], listedFile ['f'], listedDir]

/-- Every write goes through. -/
def listedEnv : DeleteEnv ℕ := ⟨fun _ => true, 0⟩

theorem delete_asked_listed : Tree (UniqueKeys Dirent.name) listedStore 2 listedRoot ∧ (∃ st' root',
      Server.delFile listedEnv listedStore listedRoot ['/'] [['g']] = some (st', root') ∧
      OnlyAsked (cfFileopSubjectPaths [] [['g']]) (storedShape listedStore listedRoot)
        (storedShape st' root')) ∧
    ∃ st' root', Server.batchDelFiles listedEnv listedStore listedRoot ["/a/b/".toList] =
        some (st', root') ∧
      OnlyAsked (cfFileopSubjectPaths ['/'] ["/a/b/".toList]) (storedShape listedStore listedRoot)
        (storedShape st' root') := by
  have htree : Tree (UniqueKeys Dirent.name) listedStore 2 listedRoot := by decide +kernel
  have hdel : (Server.delFile listedEnv listedStore listedRoot ['/'] [['g']]).isSome = true := by
    decide +kernel
  have hbatch : (Server.batchDelFiles listedEnv listedStore listedRoot
      ["/a/b/".toList]).isSome = true := by
    decide +kernel
  obtain ⟨⟨st₁, root₁⟩, hdel⟩ := isSome_iff_exists.1 hdel
  obtain ⟨⟨st₂, root₂⟩, hbatch⟩ := isSome_iff_exists.1 hbatch
  refine ⟨htree, ⟨st₁, root₁, hdel, ?_⟩, st₂, root₂, hbatch, ?_⟩
  · exact (delete_asked_iff htree).1 _ _ _ _ hdel
  · refine ((delete_asked_iff htree).2 _ _ _ hbatch).2 ⟨fun hstray => ?_, trivial⟩
    exact absurd hstray (by decide +kernel)

/-- The tree after a list of paths. -/
def listedAfter (filepaths : List Name) : Option Shape :=
  (Server.batchDelFiles listedEnv listedStore listedRoot filepaths).map fun r =>
    storedShape r.1 r.2

/-- `f/g` deletes the file `g` beside `f`, and `a\b` the file `b` in `a`. -/
theorem delete_strays :
    (∀ name ∈ ["f/g".toList, "a\\b".toList],
      (listedAfter [name]).isSome = true) ∧
    (∀ after, listedAfter ["f/g".toList] = some after →
      ¬ OnlyAsked (cfFileopSubjectPaths ['/'] ["f/g".toList])
        (storedShape listedStore listedRoot) after) ∧
    ∀ after, listedAfter ["a\\b".toList] = some after →
      ¬ OnlyAsked (cfFileopSubjectPaths ['/'] ["a\\b".toList])
        (storedShape listedStore listedRoot) after := by
  have hgone : ∀ {name : Name} {path : List Name} {after : Shape},
      (listedAfter [name]).map (· path) = some none →
      storedShape listedStore listedRoot path ≠ none →
      (∀ s ∈ cfFileopSubjectPaths ['/'] [name], ¬ AtOrBelow s path) →
      listedAfter [name] = some after →
      ¬ OnlyAsked (cfFileopSubjectPaths ['/'] [name]) (storedShape listedStore listedRoot)
        after := by
    intro name path after hnone hbefore hsubjects hafter hasked
    rw [hafter] at hnone
    obtain ⟨s, hs, hbelow⟩ := hasked path hbefore (Option.some.inj hnone)
    exact hsubjects s hs hbelow
  have hfile : ∀ s ∈ cfFileopSubjectPaths ['/'] ["f/g".toList], ¬ AtOrBelow s [['g']] := by
    unfold AtOrBelow
    decide +kernel
  have hback : ∀ s ∈ cfFileopSubjectPaths ['/'] ["a\\b".toList], ¬ AtOrBelow s [['a'], ['b']] := by
    unfold AtOrBelow
    decide +kernel
  refine ⟨by decide +kernel, fun after => ?_, fun after => ?_⟩
  · exact hgone (by decide +kernel) (by decide +kernel) hfile
  · exact hgone (by decide +kernel) (by decide +kernel) hback

end CloudFile
