/-
  The parent directory of a restored file. If it is missing, it is made with those above it, each
  by a rewrite of its own. The path then leads through directories, the last folder is new and
  empty, and the files are where they were.
-/
import CloudFile.Revert.Kept

namespace CloudFile

open SortedWalk GoPath GLibPath List Option

variable {Id : Type}

/-! ## Texts of paths -/

theorem flatMap_fields_of_slash {ps : List Name} (h : ∀ p ∈ ps, '/' ∉ p) :
    ps.flatMap fields = ps.filter (· ≠ []) := by
  induction ps with
  | nil => rfl
  | cons p ps ih =>
    rw [flatMap_cons, ih fun q hq => h q (mem_cons_of_mem _ hq)]
    by_cases hp : p = []
    · simp [hp]
    · rw [fields_part ⟨hp, h p mem_cons_self⟩, filter_cons_of_pos (by simpa using hp)]
      rfl

variable {p : Name}

theorem joinFields_toPathNames (h : p.getLast? ≠ some '/') :
    joinFields (toPathNames p) = p := by
  induction hk : p.length using Nat.strong_induction_on generalizing p with
  | _ k ih =>
    by_cases hslash : '/' ∈ p
    · obtain ⟨a, b, rfl, ha⟩ := eq_append_cons_of_mem hslash
      have hb : b ≠ [] := by
        rintro rfl
        exact h (by simp)
      have hlast : b.getLast? ≠ some '/' := by
        rwa [getLast?_append_of_ne_nil _ (cons_ne_nil _ _),
          getLast?_cons_of_ne_nil hb] at h
      have hrec := ih b.length (by rw [← hk, length_append, length_cons]; omega) hlast rfl
      have hne : toPathNames b ≠ [] := by
        intro hnil
        rw [hnil] at hrec
        exact hb hrec.symm
      obtain ⟨n, ns, hns⟩ := exists_cons_of_ne_nil hne
      rw [toPathNames_append_slash ha, hns, joinFields, ← hns, hrec]
    · by_cases hne : p = []
      · rw [hne]
        rfl
      · rw [toPathNames_of_notMem hne hslash]
        rfl

namespace Server

def pathText (names : List Name) : Name := names.flatMap ('/' :: ·)

variable (names : List Name)

theorem pathText_concat (n : Name) :
    pathText (names ++ [n]) = pathText names ++ '/' :: n := by
  simp [pathText]

theorem append_pathText (n : Name) (names : List Name) :
    n ++ pathText names = joinFields (n :: names) := by
  induction names generalizing n with
  | nil => simp [pathText, joinFields]
  | cons m names ih =>
    rw [joinFields, ← ih m]
    simp [pathText]

theorem stripSlash_pathText :
    stripSlash (pathText names) = joinFields names := by
  cases names with
  | nil => rfl
  | cons n names => exact append_pathText n names

theorem slash_stripSlash (hp : stripSlash p ≠ []) (hlast : (stripSlash p).getLast? ≠ some '/') :
    '/' :: stripSlash p = pathText (toPathNames (stripSlash p)) := by
  have hjoin := joinFields_toPathNames hlast
  generalize toPathNames (stripSlash p) = names at hjoin
  cases names with
  | nil => exact absurd hjoin.symm hp
  | cons n names =>
    rw [← hjoin, ← append_pathText]
    simp [pathText]

variable [ObjectId Id] [DecidableEq Id]

/-! ## The folders to make -/

variable (st : FsStore Id)

theorem missingDirs_filter (rootId : Id) (subs : List Name) (absPath : Name) (uncre : List Name) :
    missingDirs st rootId (subs.filter (· ≠ [])) absPath uncre =
      missingDirs st rootId subs absPath uncre := by
  induction subs generalizing absPath uncre with
  | nil => rfl
  | cons sub subs ih =>
    by_cases hsub : sub = []
    · rw [filter_cons_of_neg (by simpa using hsub), ih, missingDirs, if_pos hsub]
    · rw [filter_cons_of_pos (by simpa using hsub)]
      simp only [missingDirs, if_neg hsub, ih]

theorem missingDirs_spec (rootId : Id) {subs : List Name}
    (hsubs : ∀ sub ∈ subs, sub ≠ []) (uncre : List Name) :
    ∃ pre post, subs = pre ++ post ∧
      missingDirs st rootId subs.reverse (pathText subs) uncre = (pathText pre, post ++ uncre) := by
  induction subs using reverseRecOn generalizing uncre with
  | nil => exact ⟨[], [], rfl, rfl⟩
  | append_singleton subs sub ih =>
    have hsub : sub ≠ [] := hsubs sub (by simp)
    have hparent : (pathText (subs ++ [sub])).take
        ((pathText (subs ++ [sub])).length - (sub.length + 1)) = pathText subs := by
      rw [pathText_concat]
      simp
    rw [reverse_concat, missingDirs, if_neg hsub]
    simp only [hparent]
    split
    · exact ⟨subs ++ [sub], [], (append_nil _).symm, by rw [pathText_concat]; rfl⟩
    · obtain ⟨pre, post, rfl, hrec⟩ := ih (fun s hs => hsubs s (by simp [hs])) (sub :: uncre)
      exact ⟨pre, post ++ [sub], append_assoc .., by rw [hrec]; simp⟩

variable {uncre : List Name}

theorem ne_nil_of_missingDirs (rootId : Id)
    (huncre : ∀ u ∈ uncre, u ≠ []) (subs : List Name) (absPath : Name) :
    ∀ u ∈ (missingDirs st rootId subs absPath uncre).2, u ≠ [] := by
  induction subs generalizing absPath uncre with
  | nil => exact huncre
  | cons sub subs ih =>
    rw [missingDirs]
    split
    · exact ih huncre absPath
    next hsub =>
      dsimp only
      split
      · exact huncre
      · exact ih (forall_mem_cons.2 ⟨hsub, huncre⟩) _

/-! ## Making them -/

/-- The folders with the names on the paths where they are posted. -/
def dirSteps : Name → List Name → List (List Name × Name)
  | _, [] => []
  | absPath, u :: uncre =>
    (toPathNames (stripSlash absPath), u) :: dirSteps (absPath ++ '/' :: u) uncre

theorem ne_nil_of_dirSteps {absPath : Name} (h : ∀ u ∈ uncre, u ≠ []) :
    ∀ s ∈ dirSteps absPath uncre, s.2 ≠ [] := by
  induction uncre generalizing absPath with
  | nil => simp [dirSteps]
  | cons u uncre ih =>
    obtain ⟨hu, hrest⟩ := forall_mem_cons.1 h
    exact forall_mem_cons.2 ⟨hu, ih hrest⟩

/-- New folders, one after the other. -/
inductive DirsMade (X : FsStore Id) : Id → List (List Name × Name) → Id → Prop
  | done {r : Id} : DirsMade X r [] r
  | next {path : List Name} {steps : List (List Name × Name)} {r r₁ r' : Id} {dent : Dirent Id}
      {now : ℕ → ℤ} :
      Rewritten (posted dent) now X X r path r₁ () → dent.isDir = true → dent.id = emptySha1 →
      DirsMade X r₁ steps r' → DirsMade X r ((path, dent.name) :: steps) r'

omit [ObjectId Id] [DecidableEq Id] in
theorem isDir_folder (i : Id) (n : Name) (t : ℤ) :
    (Dirent.new sIfdir i n t [] (-1)).isDir = true := by
  simp only [Dirent.isDir, Dirent.new_mode]
  decide

theorem createDirs_spec {e : RevertEnv Id} {k : ℕ} {absPath : Name}
    {st : FsStore Id} {rootId : Id} {w : Written Id Unit}
    (h : createDirs e k uncre st rootId absPath = some w) :
    st ≤ w.store ∧ ∀ X, w.store ≤ X → DirsMade X rootId (dirSteps absPath uncre) w.dirID := by
  induction uncre generalizing k absPath st rootId with
  | nil =>
    cases h
    exact ⟨le_rfl, fun _ _ => .done⟩
  | cons u uncre ih =>
    rw [createDirs] at h
    obtain ⟨w₁, hw₁, hrest⟩ := bind_eq_some_iff.1 h
    obtain ⟨hle, hmade⟩ := ih hrest
    obtain ⟨hle₁, hrew⟩ := rewriteRecursive_spec hw₁
    refine ⟨hle₁.trans hle, fun X hX => ?_⟩
    have hwithin : Rewritten (posted (.new sIfdir emptySha1 u (e.mkdirTime k) [] (-1))) _ X X _ _ _
        () := hrew.within (hle₁.trans (hle.trans hX)) (hle.trans hX)
    have hnext := DirsMade.next hwithin (isDir_folder ..) (Dirent.new_id ..) (hmade X hX)
    exact hnext

section DirsMade

variable {X : FsStore Id} {steps : List (List Name × Name)} {pre uncre : List Name} {r r' : Id}

theorem DirsMade.wellNamed (h : DirsMade X r steps r') {k : ℕ}
    (hT : Tree (UniqueNames (· ≠ [])) X k r)
    (hsteps : ∀ s ∈ steps, s.2 ≠ []) : ∃ k', Tree (UniqueNames (· ≠ [])) X k' r' := by
  induction h generalizing k with
  | done => exact ⟨k, hT⟩
  | next hrew _ hid _ ih =>
    obtain ⟨hname, hrest⟩ := forall_mem_cons.1 hsteps
    obtain ⟨k₁, hT₁⟩ := hrew.posted_wellNamed hT hname fun _ => hid
    exact ih hT₁ hrest

theorem DirsMade.file_back (h : DirsMade X r steps r') {q : List Name} {d : Dirent Id}
    (hq : entryAt X r' q = some d) (hreg : d.isReg = true) : ∃ d', entryAt X r q = some d' := by
  suffices hsuff : ∃ d', entryAt X r q = some d' ∧ d'.isReg = true from hsuff.imp fun _ => And.left
  induction h with
  | done => exact ⟨d, hq, hreg⟩
  | next hrew hdir hid _ ih =>
    obtain ⟨d₁, hq₁, hreg₁⟩ := ih hq
    exact hrew.file_back hdir hid hq₁ hreg₁

theorem DirsMade.kept (hparts : ∀ n ∈ pre ++ uncre, Part n)
    (h : DirsMade X r (dirSteps (pathText pre) uncre) r')
    (hres : Resolvable X r' (pre ++ uncre)) :
    Resolvable X r pre ∧
      (∀ q d, entryAt X r q = some d → d.isReg = true → entryAt X r' q = some d) ∧
      (Resolvable X r (pre ++ uncre) ∨ resolve X r' (pre ++ uncre) = some emptySha1) := by
  induction uncre generalizing pre r with
  | nil =>
    cases h
    rw [append_nil] at hres ⊢
    exact ⟨hres, fun _ _ hq _ => hq, .inl hres⟩
  | cons u uncre ih =>
    rw [dirSteps, ← pathText_concat, stripSlash_pathText,
      toPathNames_joinFields fun n hn => hparts n (by simp [hn])] at h
    generalize hsteps : dirSteps (pathText (pre ++ [u])) uncre = steps at h
    rcases h with _ | ⟨hrew, hdir, hid, hmade⟩
    rw [append_cons] at hparts hres ⊢
    subst hsteps
    obtain ⟨hres₁, hfiles, hor⟩ := ih hparts hmade hres
    have hpre := hrew.resolvable_back (resolvable_of_append hres₁)
    obtain ⟨-, -, -, -, -, -, hfiles₁⟩ := hrew.posted_spec hpre
    refine ⟨hpre, fun q d hq hreg => hfiles q d (hfiles₁ q d hq hreg) hreg, ?_⟩
    rcases hor with hold | hempty
    · rw [← append_cons] at hold ⊢
      rcases hrew.resolvable_made hdir hid hold with hbefore | ⟨rfl, hnew⟩
      · exact .inl hbefore
      · -- the last folder
        cases hmade
        exact .inr hnew
    · exact .inr hempty

end DirsMade

/-! ## The parent directory -/

section Parent

variable {e : RevertEnv Id} {st st₁ X : FsStore Id} {headRoot r₁ : Id} {parentDir : Name} {k : ℕ}

omit [ObjectId Id] [DecidableEq Id] in
theorem filter_toPathNames (p : Name) :
    (toPathNames (stripSlash p)).filter (· ≠ []) = fields p := by
  rw [← flatMap_fields_of_slash (slash_notMem_toPathNames _), flatMap_toPathNames,
    fields_stripSlash]

theorem toPathNames_eq_fields {id : Id} {es : List (Dirent Id)}
    (hT : Tree (UniqueNames (· ≠ [])) X k id) (hres : Resolvable X id (fields p))
    (h : leadsTo X id (toPathNames (stripSlash p)) = some es) :
    toPathNames (stripSlash p) = fields p := by
  have hfilter := filter_toPathNames p
  generalize toPathNames (stripSlash p) = names at h hfilter
  rw [← hfilter, eq_comm, filter_eq_self]
  intro n hn
  rw [decide_eq_true_eq]
  rintro rfl
  obtain ⟨a, b, rfl, ha⟩ := eq_append_cons_of_mem hn
  have ha' : a.filter (· ≠ []) = a := filter_eq_self.2 fun m hm => by
    rw [decide_eq_true_eq]
    rintro rfl
    exact ha hm
  rw [← hfilter, filter_append, ha'] at hres
  obtain ⟨i, hi⟩ := isSome_iff_exists.1 (resolvable_of_append hres)
  obtain ⟨k', -, hTi⟩ := hT.resolve hi
  obtain ⟨es₀, hes₀, hnamed⟩ := hTi.readable
  rw [leadsTo_append, leadsTo_of_resolve hi, hes₀] at h
  obtain ⟨d, hd, -⟩ := bind_eq_some_iff.1 h
  obtain ⟨hmem, hname⟩ := mem_of_findDirent hd
  exact hnamed.2 d hmem hname

theorem mkdirWithParents_ok (h : mkdirWithParents e st headRoot p = .ok (st₁, r₁)) :
    ∃ missing, missing = missingDirs st headRoot (gStrsplit (getCanonicalPath p)).reverse
        ('/' :: getCanonicalPath p) [] ∧
      createDirs e 0 missing.2 st headRoot missing.1 = some ⟨r₁, st₁, ()⟩ := by
  refine ⟨_, rfl, ?_⟩
  unfold mkdirWithParents at h
  split at h
  · cases h
  dsimp only at h
  split at h
  · cases h
  split at h
  · cases h
  generalize missingDirs st headRoot (gStrsplit (getCanonicalPath p)).reverse
    ('/' :: getCanonicalPath p) [] = missing at h ⊢
  split at h
  next hnone =>
    cases h
    rw [hnone]
    rfl
  next =>
    split at h
    · cases h
    next w hw =>
      split at h
      · cases h
        exact hw
      · cases h

theorem parentReady_ok (h : parentReady e st headRoot parentDir = .ok (st₁, r₁)) :
    (∃ dir, getSeafdirByPath st headRoot parentDir = .ok dir) ∧ st₁ = st ∧ r₁ = headRoot ∨
      getSeafdirByPath st headRoot parentDir = .error .pathNoExist ∧
        mkdirWithParents e st headRoot (stripSlash parentDir) = .ok (st₁, r₁) := by
  unfold parentReady detectPathExist at h
  split at h
  · cases h
  next exist hexist =>
    split at h
    · cases h
    split at h
    next hyes =>
      cases h
      subst hyes
      split at hexist
      next dir hdir => exact .inl ⟨⟨dir, hdir⟩, rfl, rfl⟩
      all_goals cases hexist
    next hno =>
      split at h
      · cases h
      next r hr =>
        split at h
        · obtain rfl := Except.ok.inj h
          refine .inr ⟨?_, hr⟩
          split at hexist
          · cases hexist
            exact absurd rfl hno
          · assumption
          · cases hexist
        · cases h

theorem getCanonicalPath_of_clean (hback : '\\' ∉ p) (hlast : p.getLast? ≠ some '/') :
    getCanonicalPath p = p := by
  have hmap : (p.map fun c => if c = '\\' then '/' else c) = p := by
    refine (map_congr_left fun c hc => if_neg ?_).trans (map_id p)
    rintro rfl
    exact hback hc
  rw [getCanonicalPath, hmap]
  refine rdropWhile_eq_self_iff.2 fun hne hslash => hlast ?_
  rw [getLast?_eq_some_getLast hne, of_decide_eq_true hslash]

theorem not_resolvable_of_missing (hT : Tree (UniqueNames (· ≠ [])) st k headRoot)
    (h : getSeafdirByPath st headRoot parentDir = .error .pathNoExist) :
    ¬ Resolvable st headRoot (fields parentDir) := by
  intro hres
  obtain ⟨i, hi⟩ := isSome_iff_exists.1 hres
  obtain ⟨k', -, hTi⟩ := hT.resolve hi
  obtain ⟨es, hes, -⟩ := hTi.readable
  have hok := (getSeafdirByPath_ok (hT.imp fun _ => And.left) parentDir ⟨i, es⟩).2
    ⟨i, hi, seafdir_some.2 ⟨hes, rfl⟩⟩
  rw [h] at hok
  cases hok

theorem mkdirWithParents_steps
    (h : mkdirWithParents e st headRoot (stripSlash parentDir) = .ok (st₁, r₁))
    (hback : '\\' ∉ stripSlash parentDir) (hlast : (stripSlash parentDir).getLast? ≠ some '/')
    (hnames : toPathNames (stripSlash parentDir) = fields parentDir)
    (hne : fields parentDir ≠ []) :
    ∃ pre uncre, fields parentDir = pre ++ uncre ∧
      ∀ X, st₁ ≤ X → DirsMade X headRoot (dirSteps (pathText pre) uncre) r₁ := by
  obtain ⟨missing, hmissing, hmade⟩ := mkdirWithParents_ok h
  have hstrip : stripSlash parentDir ≠ [] := by
    intro hnil
    rw [hnil] at hnames
    exact hne hnames.symm
  have hsubs : (gStrsplit (stripSlash parentDir)).filter (· ≠ []) = fields parentDir := by
    rw [← flatMap_fields_of_slash (slash_notMem_gStrsplit _), flatMap_gStrsplit, fields_stripSlash]
  rw [getCanonicalPath_of_clean hback hlast, slash_stripSlash hstrip hlast, hnames,
    ← missingDirs_filter, filter_reverse, hsubs] at hmissing
  obtain ⟨pre, uncre, hsplit, hspec⟩ := missingDirs_spec st headRoot
    (fun sub hsub => (part_of_mem_fields hsub : Part sub).1) []
  rw [hspec, append_nil] at hmissing
  subst hmissing
  exact ⟨pre, uncre, hsplit, (createDirs_spec hmade).2⟩

/-- The directory in which the file is restored was there, or is a new one without files. -/
theorem parentReady_spec (hT : Tree (UniqueNames (· ≠ [])) st k headRoot)
    (hback : '\\' ∉ stripSlash parentDir) (hlast : (stripSlash parentDir).getLast? ≠ some '/')
    (h : parentReady e st headRoot parentDir = .ok (st₁, r₁)) {dir : SeafDir Id}
    (hdir : getSeafdirByPath st₁ r₁ parentDir = .ok dir) :
    st ≤ st₁ ∧ (∃ k', Tree (UniqueNames (· ≠ [])) st₁ k' r₁) ∧
      (getSeafdirByPath st headRoot parentDir = .ok dir ∧ st₁ = st ∧ r₁ = headRoot ∨
        (∀ dir', getSeafdirByPath st headRoot parentDir ≠ .ok dir') ∧
        (∀ d ∈ dir.entries, d.isReg = false) ∧
        (toPathNames (stripSlash parentDir) = fields parentDir → dir.entries = [] ∧
          ∀ q d, entryAt st headRoot q = some d → d.isReg = true → entryAt st₁ r₁ q = some d)) := by
  rcases parentReady_ok h with ⟨-, rfl, rfl⟩ | ⟨hmissing, hmkdir⟩
  · exact ⟨le_rfl, ⟨k, hT⟩, .inl ⟨hdir, rfl, rfl⟩⟩
  obtain ⟨missing, hmiss, hcreate⟩ := mkdirWithParents_ok hmkdir
  obtain ⟨hle, hmade⟩ := createDirs_spec hcreate
  have hnames : ∀ s ∈ dirSteps missing.1 missing.2, s.2 ≠ [] := by
    refine ne_nil_of_dirSteps ?_
    rw [hmiss]
    exact ne_nil_of_missingDirs st headRoot (by simp) _ _
  obtain ⟨k', hT₁⟩ := (hmade st₁ le_rfl).wellNamed (hT.store_mono hle) hnames
  obtain ⟨i, hi, hseaf⟩ :=
    (getSeafdirByPath_ok (hT₁.imp fun _ => And.left) parentDir dir).1 hdir
  have hes := (seafdir_some.1 hseaf).1
  have hnot := not_resolvable_of_missing hT hmissing
  refine ⟨hle, ⟨k', hT₁⟩, .inr ⟨fun dir' hok => ?_, fun d hd => ?_, fun hclean => ?_⟩⟩
  · rw [hmissing] at hok
    cases hok
  · by_contra hreg
    rw [Bool.not_eq_false] at hreg
    obtain ⟨es, hes', hnamed⟩ := (hT₁.resolve hi).choose_spec.2.readable
    obtain rfl := mem_unique hes hes'
    have hentry : entryAt st₁ r₁ (fields parentDir ++ [d.name]) = some d := by
      rw [entryAt_concat, hi]
      simpa [hes] using (findDirent_some hnamed.1).2 ⟨hd, rfl⟩
    obtain ⟨d', hd'⟩ := (hmade st₁ le_rfl).file_back hentry hreg
    rw [hT.entryAt_mono hle, entryAt_of_not_resolvable hnot] at hd'
    cases hd'
  · have hne : fields parentDir ≠ [] := by
      intro hnil
      rw [hnil] at hnot
      exact hnot rfl
    obtain ⟨pre, uncre, hsplit, hsteps⟩ := mkdirWithParents_steps hmkdir hback hlast hclean hne
    have hparts : ∀ n ∈ pre ++ uncre, Part n := fun n hn =>
      part_of_mem_fields (p := parentDir) (hsplit ▸ hn)
    have hres : Resolvable st₁ r₁ (pre ++ uncre) := by
      rw [← hsplit, Resolvable, hi]
      rfl
    obtain ⟨-, hfiles, hor⟩ := (hsteps st₁ le_rfl).kept hparts hres
    rw [← hsplit] at hor
    refine ⟨?_, fun q d hq hreg => hfiles q d ((hT.entryAt_mono hle q).trans hq) hreg⟩
    rcases hor with hold | hempty
    · rw [Resolvable, resolve_eq_entryAt hne, hT.entryAt_mono hle, ← resolve_eq_entryAt hne] at hold
      exact absurd hold hnot
    · rw [hi] at hempty
      obtain rfl := Option.some.inj hempty
      rw [FsStore.getSeafdir_empty] at hes
      exact (Option.some.inj hes).symm

end Parent

end Server

end CloudFile
