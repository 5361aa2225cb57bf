/-
  Writes and the types of entries. A tree is well typed when each entry names an object of the
  type its mode says, the all-zero id being both. The rewriters read the ids on their path as
  directories, so what is added below an empty file turns its entry into the name of a directory
  (`writes_wellTyped_iff`).
-/
import CloudFile.Write.Rewrite
import CloudFile.Merge.Outcome

namespace CloudFile

open SortedWalk GoPath List
open Option hiding any_eq_true

variable {Id : Type} [ObjectId Id] [DecidableEq Id] {α : Type}

/-! ## Well typed trees -/

/-- The entries of a directory: sorted, and regular files name file objects. -/
def WellTypedDir (st : FsStore Id) (es : List (Dirent Id)) : Prop :=
  Desc Dirent.name es ∧ ∀ e ∈ es, e.isReg = true → (st.getSeafile e.id).isSome

instance (st : FsStore Id) : DecidablePred (WellTypedDir st) := fun es =>
  inferInstanceAs (Decidable (Desc Dirent.name es ∧
    ∀ e ∈ es, e.isReg = true → (st.getSeafile e.id).isSome = true))

/-- Every directory entry names a directory whose entries are well typed in turn. -/
def WellTyped (st : FsStore Id) (id : Id) : Prop := ∃ n, Tree (WellTypedDir st) st n id

/-- An entry that can be added to a well typed tree. -/
structure Typed (st : FsStore Id) (d : Dirent Id) : Prop where
  dir : d.isDir = true → WellTyped st d.id
  file : d.isReg = true → (st.getSeafile d.id).isSome

/-- The path, through directories, names a regular file. -/
def NamesFile (st : FsStore Id) (root : Id) (path : List Name) : Prop :=
  ∃ d, entryAt st root path = some d ∧ d.isReg = true

/-- The entry a path stands for when it is looked up by names alone. -/
def standsFor (st : FsStore Id) : List (Dirent Id) → List Name → Option (Dirent Id)
  | _, [] => none
  | es, [n] => findDirent n es
  | es, n :: n' :: path => findDirent n es >>= fun d => st.getSeafdir d.id >>= fun es' =>
      standsFor st es' (n' :: path)

variable {st st' : FsStore Id} {id id' root f : Id} {path : List Name} {k m : ℕ}
  {es : List (Dirent Id)} {d : Dirent Id}

theorem FsStore.getSeafile_of_obj {bs : List Id} {z : ℤ} (h : st.obj f = some (.file bs z)) :
    st.getSeafile f = some bs := by
  have hne : f ≠ emptySha1 := fun he => sha1_ne_emptySha1 _ ((st.saved f _ h).2.trans he)
  simp [getSeafile, hne, h]

theorem FsStore.isSome_getSeafile :
    (st.getSeafile f).isSome ↔ f = emptySha1 ∨ ∃ bs z, st.obj f = some (.file bs z) := by
  constructor
  · intro h
    unfold getSeafile at h
    split_ifs at h with hf
    · exact .inl hf
    · split at h
      · next bs z ho => exact .inr ⟨bs, z, ho⟩
      · cases h
  · rintro (rfl | ⟨bs, z, ho⟩)
    · simp [getSeafile]
    · simp [getSeafile_of_obj ho]

theorem FsStore.isSome_getSeafile_mono (hle : st ≤ st') (h : (st.getSeafile f).isSome) :
    (st'.getSeafile f).isSome := by
  rcases isSome_getSeafile.1 h with rfl | ⟨bs, z, ho⟩
  · exact isSome_getSeafile.2 (.inl rfl)
  · exact isSome_getSeafile.2 (.inr ⟨bs, z, hle _ _ ho⟩)

/-- **Only the empty object is both**: what reads as a file and as a directory is empty. -/
theorem FsStore.file_and_dir (hf : (st.getSeafile f).isSome) (hd : st.getSeafdir f = some es) :
    f = emptySha1 ∧ es = [] := by
  rcases getSeafdir_obj hd with h | hobj
  · exact h
  · rcases isSome_getSeafile.1 hf with rfl | ⟨bs, z, ho⟩
    · exact ⟨rfl, mem_unique hd getSeafdir_empty⟩
    · rw [ho] at hobj; cases hobj

theorem WellTypedDir.mono (hle : st ≤ st') (h : WellTypedDir st es) :
    WellTypedDir st' es :=
  ⟨h.1, fun e he hr => FsStore.isSome_getSeafile_mono hle (h.2 e he hr)⟩

theorem tree_mono (hle : st ≤ st') (h : Tree (WellTypedDir st) st k id) :
    Tree (WellTypedDir st') st' k id :=
  (h.imp fun _ => WellTypedDir.mono hle).store_mono hle

theorem WellTyped.mono (hle : st ≤ st') (h : WellTyped st id) : WellTyped st' id :=
  h.imp fun _ => tree_mono hle

theorem Typed.mono (hle : st ≤ st') (h : Typed st d) : Typed st' d :=
  ⟨fun hd => (h.dir hd).mono hle, fun hr => FsStore.isSome_getSeafile_mono hle (h.file hr)⟩

theorem wellTyped_of_entries (hes : st.getSeafdir id = some es) (hd : Desc Dirent.name es)
    (ht : ∀ e ∈ es, Typed st e) : WellTyped st id := by
  -- a depth that is enough for each of the finitely many entries
  have hdepth : ∃ n, ∀ e ∈ es, e.isDir = true → Tree (WellTypedDir st) st n e.id := by
    clear hes hd
    induction es with
    | nil => exact ⟨0, by simp⟩
    | cons e es ih =>
      obtain ⟨n, hn⟩ := ih fun e he => ht e (mem_cons_of_mem _ he)
      by_cases hdir : e.isDir = true
      · obtain ⟨n', hn'⟩ := (ht e mem_cons_self).dir hdir
        refine ⟨max n n', fun e' he' hd' => ?_⟩
        rcases mem_cons.1 he' with rfl | he'
        · exact hn'.depth_mono (le_max_right _ _)
        · exact (hn e' he' hd').depth_mono (le_max_left _ _)
      · refine ⟨n, fun e' he' hd' => ?_⟩
        rcases mem_cons.1 he' with rfl | he'
        · exact absurd hd' hdir
        · exact hn e' he' hd'
  obtain ⟨n, hn⟩ := hdepth
  exact ⟨n + 1, es, hes, ⟨hd, fun e he => (ht e he).file⟩, hn⟩

theorem WellTyped.entries (h : WellTyped st id) :
    ∃ es, st.getSeafdir id = some es ∧ Desc Dirent.name es ∧ ∀ e ∈ es, Typed st e := by
  obtain ⟨n, hn⟩ := h
  obtain ⟨es, hes, hd, hf⟩ := hn.readable
  exact ⟨es, hes, hd, fun e he => ⟨fun hdir => ⟨n, (hn.subTrees_of hes).2 e he hdir⟩, hf e he⟩⟩

theorem wellTyped_iff (hes : st.getSeafdir id = some es) :
    WellTyped st id ↔ Desc Dirent.name es ∧ ∀ e ∈ es, Typed st e := by
  refine ⟨fun h => ?_, fun ⟨hd, ht⟩ => wellTyped_of_entries hes hd ht⟩
  obtain ⟨es', hes', hd, ht⟩ := h.entries
  obtain rfl := mem_unique hes hes'
  exact ⟨hd, ht⟩

/-! ## A rewrite keeps the types or not -/

/-- The change of a directory keeps it sorted and adds well typed entries only. -/
def TypedEdit (st : FsStore Id) (edit : List (Dirent Id) → Option (List (Dirent Id) × α)) : Prop :=
  ∀ es es' a, edit es = some (es', a) → Desc Dirent.name es →
    Desc Dirent.name es' ∧ ∀ e ∈ es', e ∈ es ∨ Typed st e

def FillsEmpty (edit : List (Dirent Id) → Option (List (Dirent Id) × α)) : Prop :=
  ∃ es a, edit [] = some (es, a) ∧ es ≠ []

variable {edit : List (Dirent Id) → Option (List (Dirent Id) × α)} {now : ℕ → ℤ} {a : α}

section

variable (h : Rewritten edit now st st' id path id' a)
include h

/-- **A rewrite is well typed** unless it fills a regular file. -/
theorem Rewritten.wellTyped (hle : st ≤ st') (hedit : TypedEdit st edit) (hT : WellTyped st id)
    (hok : NamesFile st id path → ¬ FillsEmpty edit) : WellTyped st' id' := by
  induction h with
  | @here id id' es es' a hes hed hes' =>
    obtain ⟨hd, ht⟩ := (wellTyped_iff hes).1 hT
    obtain ⟨hd', ht'⟩ := hedit es es' a hed hd
    refine (wellTyped_iff hes').2 ⟨hd', fun e he => ?_⟩
    rcases ht' e he with hold | hnew
    · exact (ht e hold).mono hle
    · exact hnew.mono hle
  | @down id id' i es d n path a hes hfind hrew hes' ih =>
    obtain ⟨hd, ht⟩ := (wellTyped_iff hes).1 hT
    have hdT : Typed st d := ht d (mem_of_findDirent hfind).1
    refine (wellTyped_iff hes').2 ⟨desc_touch hd, fun e he => ?_⟩
    rcases mem_updateDirent hfind he with hold | rfl
    · exact (ht e hold).mono hle
    refine ⟨fun hdir => ?_, fun hreg => ?_⟩
    · -- a directory on the path: what is below it is well typed by induction
      refine ih (hdT.dir hdir) fun ⟨e, he, hr⟩ => hok ⟨e, ?_, hr⟩
      have hne : path ≠ [] := by rintro rfl; simp [entryAt] at he
      rw [entryAt_cons_of_dir hes hfind hne, if_pos (show d.isDir = true from hdir), he]
    · -- a regular file on the path is empty, so it is the last one and stays empty
      cases hrew with
      | @here _ _ es₀ es₁ _ hes₀ hed hes₁ =>
        obtain ⟨-, rfl⟩ := FsStore.file_and_dir (hdT.file hreg) hes₀
        have hfill := hok ⟨d, by simp [entryAt, hes, hfind], hreg⟩
        have hnil : es₁ = [] := by
          by_contra hne
          exact hfill ⟨es₁, a, hed, hne⟩
        rw [hnil] at hes₁
        exact FsStore.isSome_getSeafile.2 (.inl (FsStore.getSeafdir_nil.1 hes₁))
      | @down _ _ _ es₀ d₀ n₀ _ _ hes₀ hfind₀ _ _ =>
        obtain ⟨-, rfl⟩ := FsStore.file_and_dir (hdT.file hreg) hes₀
        simp [findDirent] at hfind₀

theorem Rewritten.edits_nil (hT : WellTyped st id) (hname : NamesFile st id path) :
    ∃ es a, edit [] = some (es, a) ∧ (WellTyped st' id' → es = []) := by
  induction h with
  | here => obtain ⟨d, hd, -⟩ := hname; simp [entryAt] at hd
  | @down id id' i es d n path a hes hfind hrew hes' ih =>
    obtain ⟨-, ht⟩ := (CloudFile.wellTyped_iff hes).1 hT
    have hdT : Typed st d := ht d (mem_of_findDirent hfind).1
    have hnew : WellTyped st' id' → Typed st' (d.touch i (now path.length)) := fun hT' =>
      ((CloudFile.wellTyped_iff hes').1 hT').2 _ (mem_of_findDirent (findDirent_touch hfind)).1
    obtain ⟨e, he, hr⟩ := hname
    cases hrew with
    | @here _ _ es₀ es₁ _ hes₀ hed hes₁ =>
      obtain rfl : d = e := by simpa [entryAt, hes, hfind] using he
      obtain ⟨-, rfl⟩ := FsStore.file_and_dir (hdT.file hr) hes₀
      exact ⟨es₁, a, hed, fun hT' => (FsStore.file_and_dir ((hnew hT').file hr) hes₁).2⟩
    | @down _ _ _ _ _ n₀ path₀ _ _ _ hrew₀ _ =>
      rw [entryAt_cons_of_dir hes hfind (cons_ne_nil _ _)] at he
      split_ifs at he with hdir
      obtain ⟨es₁, a₁, hed, hnil⟩ := ih (hdT.dir hdir) ⟨e, he, hr⟩
      exact ⟨es₁, a₁, hed, fun hT' => hnil ((hnew hT').dir hdir)⟩

/-- **What a rewrite does to the types**, for a change that fills the empty directory or not. -/
theorem Rewritten.wellTyped_iff {fills : Prop}
    (hle : st ≤ st') (hedit : TypedEdit st edit) (hT : WellTyped st id)
    (hfills : ∀ es a, edit [] = some (es, a) → (es ≠ [] ↔ fills)) :
    WellTyped st' id' ↔ ¬ (fills ∧ NamesFile st id path) := by
  constructor
  · rintro hT' ⟨hf, hname⟩
    obtain ⟨es, a, hes, hnil⟩ := h.edits_nil hT hname
    exact (hfills es a hes).2 hf (hnil hT')
  · intro hok
    refine h.wellTyped hle hedit hT fun hname hfill => ?_
    obtain ⟨es, a, hes, hne⟩ := hfill
    exact hok ⟨(hfills es a hes).1 hne, hname⟩

end

/-! ## The changes of the servers -/

section Edits

variable {dents : List (Dirent Id)} {user : Name} {replace : Bool} {names : List Name}
  {dent : Dirent Id}

theorem Typed.named {d : Dirent Id} (h : Typed st d) (user n : Name) : Typed st (d.named user n) :=
  ⟨fun hdir => by simpa using h.dir (by simpa using hdir),
    fun hreg => by simpa using h.file (by simpa using hreg)⟩

theorem Typed.withFileMode {d : Dirent Id} (h : Typed st d) : Typed st d.withFileMode :=
  ⟨fun hdir => h.dir (by simpa using hdir), fun hreg => h.file (by simpa using hreg)⟩

theorem Adds.typed {old : List (Dirent Id)} {ns : List Name} (h : Adds user replace old dents ns es)
    (ht : ∀ d ∈ dents, Typed st d) :
    ∀ e ∈ es, e ∈ old ∨ Typed st e := by
  intro e he
  rcases h.mem he with hold | ⟨d, hd, n, rfl⟩
  · exact .inl hold
  · exact .inr ((ht d hd).named user n)

theorem Fileserver.typedEdit_addNewEntries {sortDents : List (Dirent Id) → List (Dirent Id)}
    (hsort : SortsDirents sortDents) (ht : ∀ d ∈ dents, Typed st d) :
    TypedEdit st (addNewEntries sortDents user dents replace names) := by
  intro es es' a h hd
  obtain ⟨hd', ns, -, hadds⟩ := addNewEntries_spec hsort hd.uniqueKeys h
  exact ⟨hd', hadds.typed ht⟩

theorem Server.typedEdit_addNewEntries (ht : ∀ d ∈ dents, Typed st d) :
    TypedEdit st (addNewEntries user dents replace names) := by
  intro es es' a h hd
  obtain ⟨hd', ns, -, hadds⟩ := addNewEntries_spec hd h
  exact ⟨hd', hadds.typed (forall_mem_map.2 fun d hd => (ht d hd).withFileMode)⟩

theorem typedEdit_replaceEntry (ht : Typed st dent) :
    TypedEdit st fun entries => some (replaceEntry dent entries, ()) := by
  rintro es es' a h hd
  cases h
  refine ⟨desc_replaceEntry hd dent, fun e he => (mem_replaceEntry he).imp_right ?_⟩
  rintro rfl
  exact ht

theorem Server.typedEdit_postEntry (ht : Typed st dent) :
    TypedEdit st fun entries => (postEntry replace dent entries).map fun es => (es, ()) := by
  intro es es' a h hd
  obtain ⟨es₁, hes₁, heq⟩ := map_eq_some_iff.1 h
  cases heq
  obtain ⟨hd', hmem⟩ := postEntry_spec hd hes₁
  refine ⟨hd', fun e he => (hmem e he).imp_right ?_⟩
  rintro ⟨n, rfl | rfl⟩
  exacts [ht.withFileMode.named _ n, ht]

end Edits

/-! ## New directories -/

section Mkdir

open Fileserver

variable {writeObj : Id → Bool} {i : Id} {n : Name} {t : ℤ} {folders : List Name}

theorem wellTyped_empty : WellTyped st emptySha1 :=
  (wellTyped_iff FsStore.getSeafdir_empty).2 ⟨List.Pairwise.nil, by simp⟩

omit [ObjectId Id] [DecidableEq Id] in
theorem isReg_dirMode :
    (Dirent.new dirMode i n t [] 0).isReg = false := by
  simp only [Dirent.isReg, Dirent.new_mode]
  decide

theorem typed_dir (h : WellTyped st i) (n : Name) (t : ℤ) :
    Typed st (Dirent.new dirMode i n t [] 0) where
  dir _ := by simpa using h
  file hr := by simp [isReg_dirMode] at hr

theorem wellTyped_singleton (h : WellTyped st i)
    (hes : st.getSeafdir id = some [Dirent.new dirMode i n t [] 0]) : WellTyped st id := by
  refine (wellTyped_iff hes).2 ⟨pairwise_singleton _ _, ?_⟩
  intro e he
  rw [mem_singleton.1 he]
  exact typed_dir h n t

theorem genDirRecursive_spec {toPath : List Name} {w : Written Id Unit}
    (h : genDirRecursive writeObj now st toPath = some w) :
    st ≤ w.store ∧ WellTyped w.store w.dirID := by
  induction toPath generalizing w with
  | nil => simp [genDirRecursive] at h
  | cons n toPath ih =>
    cases toPath with
    | nil =>
      obtain ⟨hle, hes, -⟩ := newSeafdir_spec h
      exact ⟨hle, wellTyped_singleton wellTyped_empty hes⟩
    | cons n' toPath =>
      obtain ⟨w', hw', hnew⟩ := bind_eq_some_iff.1 h
      obtain ⟨hle', hT'⟩ := ih hw'
      obtain ⟨hle, hes, -⟩ := newSeafdir_spec hnew
      exact ⟨hle'.trans hle, wellTyped_singleton (hT'.mono hle) hes⟩

/-- The first of the folders, looked up by names, that does not exist: its path. -/
def newFolder (st : FsStore Id) (es : List (Dirent Id)) (parentDir : Name)
    (folders : List Name) : Option Name :=
  let found := (trail st es folders).length
  if found < folders.length then some (join [parentDir, join (folders.take (found + 1))]) else none

theorem missingFolders_eq {r : Option (List Name × List Name)}
    (h : missingFolders st es folders = some r) :
    r = if (trail st es folders).length < folders.length then
        some (folders.take ((trail st es folders).length + 1),
          folders.drop ((trail st es folders).length + 1))
      else none := by
  induction folders generalizing es r with
  | nil =>
    simp only [missingFolders, Option.some.injEq] at h
    simp [← h]
  | cons n folders ih =>
    simp only [missingFolders] at h
    cases hd : findDirent n es with
    | none =>
      rw [hd] at h
      obtain rfl := Option.some.inj h
      simp [trail, hd]
    | some d =>
      rw [hd] at h
      obtain ⟨r', hr', rfl⟩ := map_eq_some_iff.1 h
      obtain ⟨es', hes', hrest⟩ := bind_eq_some_iff.1 hr'
      rw [ih hrest]
      by_cases hlt : (trail st es' folders).length < folders.length
      · simp [trail, hd, hes']
      · simp [trail, hd, hes']

theorem checkAndCreateDir_spec {parentDir : Name} {w : Written Id Name}
    (h : checkAndCreateDir writeObj now st root parentDir folders = some w) :
    ∃ dir, (getSeafdirByPath st root parentDir).toOption = some dir ∧ st ≤ w.store ∧
      WellTyped w.store w.dirID ∧ w.out = (newFolder st dir.entries parentDir folders).getD [] := by
  obtain ⟨dir, hdir, h⟩ := bind_eq_some_iff.1 h
  obtain ⟨r, hr, h⟩ := bind_eq_some_iff.1 h
  refine ⟨dir, hdir, ?_⟩
  have hmissing := missingFolders_eq hr
  unfold newFolder
  split_ifs at hmissing with hlt
  · subst hmissing
    rw [if_pos hlt]
    simp only at h
    split_ifs at h with hnil
    · cases h
      exact ⟨le_rfl, wellTyped_empty, rfl⟩
    · obtain ⟨w', hw', rfl⟩ := map_eq_some_iff.1 h
      obtain ⟨hle, hT⟩ := genDirRecursive_spec hw'
      exact ⟨hle, hT, rfl⟩
  · subst hmissing
    rw [if_neg hlt]
    cases h
    exact ⟨le_rfl, wellTyped_empty, rfl⟩

end Mkdir

/-! ## Lookups in a larger store -/

theorem entryAt_mono (hle : st ≤ st') (hT : WellTyped st id) :
    entryAt st' id path = entryAt st id path := by
  obtain ⟨k, hk⟩ := hT
  exact hk.entryAt_mono hle path

theorem namesFile_mono (hle : st ≤ st') (hT : WellTyped st id) :
    NamesFile st' id path ↔ NamesFile st id path := by
  unfold NamesFile
  rw [entryAt_mono hle hT]

theorem mem_trail_of_entryAt (hes : st.getSeafdir id = some es) (h : entryAt st id path = some d) :
    d ∈ trail st es path := by
  induction path generalizing id es with
  | nil => simp [entryAt] at h
  | cons n path ih =>
    cases hd : findDirent n es with
    | none =>
      cases path with
      | nil => simp [entryAt, hes, hd] at h
      | cons n' path => simp [entryAt, hes, hd] at h
    | some d' =>
      cases path with
      | nil =>
        obtain rfl : d' = d := by simpa [entryAt, hes, hd] using h
        simp [trail, hd]
      | cons n' path =>
        rw [entryAt_cons_of_dir hes hd (cons_ne_nil _ _)] at h
        split_ifs at h
        cases hes' : st.getSeafdir d'.id with
        | none => cases path <;> simp [entryAt, hes'] at h
        | some es' =>
          have hmem := ih hes' h
          simp only [trail, hd, hes', mem_cons]
          exact .inr hmem

theorem forall_trail_iff {p : Dirent Id → Prop} :
    (∀ d ∈ trail st es path, p d) ↔ ∀ q, q <+: path → ∀ d, standsFor st es q = some d → p d := by
  induction path generalizing es with
  | nil =>
    constructor
    · intro _ q hq d hd
      rw [prefix_nil.1 hq] at hd
      simp [standsFor] at hd
    · simp [trail]
  | cons n path ih =>
    cases hfind : findDirent n es with
    | none =>
      refine ⟨fun _ q hq d hd => ?_, by simp [trail, hfind]⟩
      rcases prefix_cons_iff.1 hq with rfl | ⟨q', rfl, -⟩
      · simp [standsFor] at hd
      · cases q' <;> simp [standsFor, hfind] at hd
    | some e =>
      -- what is no directory leads on like an empty one
      obtain ⟨es', htrail, hstands⟩ : ∃ es', trail st es (n :: path) = e :: trail st es' path ∧
          ∀ m q, standsFor st es (n :: m :: q) = standsFor st es' (m :: q) := by
        cases hes' : st.getSeafdir e.id with
        | none =>
          have hnil : ∀ m, findDirent m ([] : List (Dirent Id)) = none := fun _ => rfl
          refine ⟨[], ?_, fun m q => ?_⟩
          · cases path <;> simp [trail, hfind, hes', hnil]
          · cases q <;> simp [standsFor, hfind, hes', hnil]
        | some es' => exact ⟨es', by simp [trail, hfind, hes'], by simp [standsFor, hfind, hes']⟩
      rw [htrail, forall_mem_cons, ih]
      constructor
      · rintro ⟨he, h⟩ q hq d hd
        rcases prefix_cons_iff.1 hq with rfl | ⟨q', rfl, hq'⟩
        · simp [standsFor] at hd
        · cases q' with
          | nil =>
            obtain rfl : e = d := by simpa [standsFor, hfind] using hd
            exact he
          | cons m q' => exact h _ hq' d ((hstands m q').symm.trans hd)
      · intro h
        refine ⟨h [n] (by simp) e (by simp [standsFor, hfind]), fun q hq d hd => ?_⟩
        cases q with
        | nil => simp [standsFor] at hd
        | cons m q => exact h (n :: m :: q) (by simpa using hq) d ((hstands m q).trans hd)

/-! ## Every write -/

/-- A call of one of the functions that write a tree. -/
inductive TreeWrite (Id : Type) where
  /-- `doPostMultiFiles` -/
  | postMultiFiles (parentDir : Name) (dents : List (Dirent Id)) (user : Name) (replace : Bool)
      (names : List Name)
  /-- `doPutFile` -/
  | putFile (parentDir : Name) (dent : Dirent Id)
  /-- `mkdirWithParents` -/
  | mkdir (parentDir newDirPath user : Name)
  /-- `do_post_file_replace` -/
  | postFile (parentDir : Name) (replaceExisted : Bool) (dent : Dirent Id)
  /-- `do_post_multi_files` -/
  | postMultiFilesC (parentDir : Name) (dents : List (Dirent Id)) (user : Name)
      (replaceExisted : Bool) (nameList : List Name)

namespace TreeWrite

def run (env : WriteEnv Id) (st : FsStore Id) (root : Id) : TreeWrite Id → Option (Id × FsStore Id)
  | postMultiFiles parentDir dents user replace names =>
    (Fileserver.doPostMultiFiles env.writeObj env.now env.sortDents st root parentDir dents user
      replace names).map fun w => (w.dirID, w.store)
  | putFile parentDir dent =>
    (Fileserver.doPutFile env.writeObj env.now st root parentDir dent).map
      fun w => (w.dirID, w.store)
  | mkdir parentDir newDirPath user =>
    (Fileserver.mkdirWithParents env st root parentDir newDirPath user).map
      fun w => (w.dirID, w.store)
  | postFile parentDir replaceExisted dent =>
    (Server.doPostFileReplace env.writeObj env.now st root parentDir replaceExisted dent).map
      fun w => (w.dirID, w.store)
  | postMultiFilesC parentDir dents user replaceExisted nameList =>
    (Server.doPostMultiFiles env.writeObj env.now st root parentDir dents user replaceExisted
      nameList).map fun w => (w.dirID, w.store)

def dents : TreeWrite Id → List (Dirent Id)
  | postMultiFiles _ dents .. | postMultiFilesC _ dents .. => dents
  | putFile _ dent | postFile _ _ dent => [dent]
  | mkdir .. => []

/-- Entries are added to the target directory: a put only replaces one. -/
def Adds : TreeWrite Id → Prop
  | postMultiFiles _ dents .. | postMultiFilesC _ dents .. => dents ≠ []
  | putFile .. => False
  | mkdir .. | postFile .. => True

/-- The path to the directory that changes, if one does: for new folders it is the parent
    of the first one that does not exist. -/
def target (st : FsStore Id) (root : Id) : TreeWrite Id → Option (List Name)
  | postMultiFiles parentDir .. | putFile parentDir .. | postFile parentDir ..
  | postMultiFilesC parentDir .. => some (toPathNames (stripSlash parentDir))
  | mkdir parentDir newDirPath _ =>
    (Fileserver.getSeafdirByPath st root (Fileserver.canonParent parentDir)).toOption >>= fun d =>
    ((newFolder st d.entries (Fileserver.canonParent parentDir)
      (Fileserver.subFolders newDirPath)).filter (· ≠ [])).map fun absPath =>
        toPathNames (stripSlash (GoPath.dir absPath))

/-- The paths that are looked up by names, each with the entries where it starts. -/
def lookups (st : FsStore Id) (root : Id) (w : TreeWrite Id) :
    List (List (Dirent Id) × List Name) :=
  (match w with
    | mkdir parentDir newDirPath _ =>
      (Fileserver.getSeafdirByPath st root (Fileserver.canonParent parentDir)).toOption.toList.map
        fun d => (d.entries, Fileserver.subFolders newDirPath)
    | _ => []) ++
  (w.target st root).toList.map fun path => ((st.getSeafdir root).getD [], path)

end TreeWrite

section Writes

variable {env : WriteEnv Id} {root' : Id} {parentDir user : Name}

theorem rewrite_wellTyped_iff {p : Prop} {w : Written Id α}
    (h : rewriteRecursive env.writeObj env.now edit st root path = some w)
    (hedit : TypedEdit st edit) (hT : WellTyped st root)
    (hfills : ∀ es a, edit [] = some (es, a) → (es ≠ [] ↔ p)) :
    WellTyped w.store w.dirID ↔ ¬ (p ∧ NamesFile st root path) := by
  obtain ⟨hle, hrew⟩ := rewriteRecursive_spec h
  exact hrew.wellTyped_iff hle hedit hT hfills

theorem doPostMultiFiles_wellTyped_iff (hsort : Fileserver.SortsDirents env.sortDents)
    (hT : WellTyped st root) {dents : List (Dirent Id)} {replace : Bool} {names : List Name}
    (hdents : ∀ d ∈ dents, Typed st d) {w : Written Id (List Name)}
    (h : Fileserver.doPostMultiFiles env.writeObj env.now env.sortDents st root parentDir dents
      user replace names = some w) :
    WellTyped w.store w.dirID ↔
      ¬ (dents ≠ [] ∧ NamesFile st root (toPathNames (stripSlash parentDir))) := by
  unfold Fileserver.doPostMultiFiles at h
  split_ifs at h
  exact rewrite_wellTyped_iff h (Fileserver.typedEdit_addNewEntries hsort hdents) hT
    fun es a hes => Fileserver.addNewEntries_fills hsort hes

theorem mkdirWithParents_wellTyped_iff (hsort : Fileserver.SortsDirents env.sortDents)
    (hT : WellTyped st root) {newDirPath : Name} {w : Written Id Unit}
    (h : Fileserver.mkdirWithParents env st root parentDir newDirPath user = some w) :
    WellTyped w.store w.dirID ↔
      ¬ ∃ path, (TreeWrite.mkdir parentDir newDirPath user).target st root = some path ∧
        NamesFile st root path := by
  unfold Fileserver.mkdirWithParents at h
  split_ifs at h
  obtain ⟨w₁, hw₁, h⟩ := bind_eq_some_iff.1 h
  obtain ⟨d, hd, hle, hdirT, hout⟩ := checkAndCreateDir_spec hw₁
  have htarget : (TreeWrite.mkdir parentDir newDirPath user).target st root =
      ((newFolder st d.entries (Fileserver.canonParent parentDir)
        (Fileserver.subFolders newDirPath)).filter (· ≠ [])).map fun absPath =>
          toPathNames (stripSlash (GoPath.dir absPath)) := by
    simp only [TreeWrite.target, hd]
    rfl
  rw [htarget]
  split_ifs at h with hnil
  · -- every folder exists
    cases h
    have hnone : (newFolder st d.entries (Fileserver.canonParent parentDir)
        (Fileserver.subFolders newDirPath)).filter (· ≠ []) = none := by
      cases hf : newFolder st d.entries (Fileserver.canonParent parentDir)
          (Fileserver.subFolders newDirPath) with
      | none => rfl
      | some p => simpa [hf, hout] using hnil
    simp only [hnone, map_none, reduceCtorEq, false_and, exists_false, not_false_iff,
      iff_true]
    exact hT.mono hle
  · have hsome : newFolder st d.entries (Fileserver.canonParent parentDir)
        (Fileserver.subFolders newDirPath) = some w₁.out := by
      cases hf : newFolder st d.entries (Fileserver.canonParent parentDir)
          (Fileserver.subFolders newDirPath) with
      | none => exact absurd (by simpa [hf] using hout) hnil
      | some p => simp [hout, hf]
    obtain ⟨w₂, hw₂, rfl⟩ := map_eq_some_iff.1 h
    have hdent : ∀ e ∈ [Dirent.new Fileserver.dirMode w₁.dirID (base w₁.out) env.mtime [] 0],
        Typed w₁.store e := by
      intro e he
      rw [mem_singleton.1 he]
      exact typed_dir hdirT _ _
    have hpost := doPostMultiFiles_wellTyped_iff hsort (hT.mono hle) hdent hw₂
    rw [hpost, namesFile_mono hle hT]
    simp [hsome, hnil]

theorem TreeWrite.wellTyped_iff (w : TreeWrite Id) (hsort : Fileserver.SortsDirents env.sortDents)
    (hdents : ∀ d ∈ w.dents, Typed st d) (hT : WellTyped st root)
    (hrun : w.run env st root = some (root', st')) :
    WellTyped st' root' ↔
      ¬ (w.Adds ∧ ∃ path, w.target st root = some path ∧ NamesFile st root path) := by
  cases w with
  | postMultiFiles parentDir dents user replace names =>
    obtain ⟨r, hr, heq⟩ := map_eq_some_iff.1 hrun
    cases heq
    have hdents : ∀ d ∈ dents, Typed st d := hdents
    simpa [Adds, target] using doPostMultiFiles_wellTyped_iff hsort hT hdents hr
  | putFile parentDir dent =>
    obtain ⟨r, hr, heq⟩ := map_eq_some_iff.1 hrun
    cases heq
    have hput := rewrite_wellTyped_iff (p := False) hr
      (typedEdit_replaceEntry (hdents dent mem_cons_self)) hT (by simp [replaceEntry])
    simpa [Adds] using hput
  | mkdir parentDir newDirPath user =>
    obtain ⟨r, hr, heq⟩ := map_eq_some_iff.1 hrun
    cases heq
    simpa only [Adds, true_and] using mkdirWithParents_wellTyped_iff hsort hT hr
  | postFile parentDir replaceExisted dent =>
    obtain ⟨r, hr, heq⟩ := map_eq_some_iff.1 hrun
    cases heq
    have hfills : ∀ es (a : Unit),
        (Server.postEntry replaceExisted dent []).map (fun es => (es, ())) = some (es, a) →
          (es ≠ [] ↔ True) := by
      intro es a h
      obtain ⟨es', hes', heq⟩ := map_eq_some_iff.1 h
      cases heq
      exact iff_true_intro (Server.postEntry_nil_ne hes')
    have hpost := rewrite_wellTyped_iff (p := True) hr
      (Server.typedEdit_postEntry (hdents dent mem_cons_self)) hT hfills
    simpa [Adds, target] using hpost
  | postMultiFilesC parentDir dents user replaceExisted nameList =>
    obtain ⟨r, hr, heq⟩ := map_eq_some_iff.1 hrun
    cases heq
    have hpost := rewrite_wellTyped_iff hr (Server.typedEdit_addNewEntries hdents) hT
      fun es a hes => Server.addNewEntries_fills hes
    simpa [Adds, target] using hpost

/-- **Writes and types.** The new tree is well typed exactly if nothing is added to a regular file;
    none is descended into exactly if no path that is looked up goes through one. -/
theorem writes_wellTyped_iff (w : TreeWrite Id) (hsort : Fileserver.SortsDirents env.sortDents)
    (hdents : ∀ d ∈ w.dents, Typed st d) (hT : WellTyped st root)
    (hrun : w.run env st root = some (root', st')) :
    (WellTyped st' root' ↔
      ¬ (w.Adds ∧ ∃ path, w.target st root = some path ∧ NamesFile st root path)) ∧
    ((WellTyped st' root' ∧
        ∀ l ∈ w.lookups st root, ∀ d ∈ trail st l.1 l.2, d.isReg = false) ↔
      ∀ l ∈ w.lookups st root, ∀ q, q <+: l.2 → ∀ d, standsFor st l.1 q = some d →
        d.isReg = false) := by
  have hiff := w.wellTyped_iff hsort hdents hT hrun
  refine ⟨hiff, ?_⟩
  constructor
  · rintro ⟨-, h⟩ l hl
    exact forall_trail_iff.1 (h l hl)
  · intro h
    have hno : ∀ l ∈ w.lookups st root, ∀ d ∈ trail st l.1 l.2, d.isReg = false := by
      intro l hl
      exact forall_trail_iff.2 (h l hl)
    refine ⟨hiff.2 ?_, hno⟩
    rintro ⟨-, path, hpath, d, hd, hreg⟩
    obtain ⟨es, hes, -⟩ := hT.entries
    have hl : ((st.getSeafdir root).getD [], path) ∈ w.lookups st root := by
      simp [TreeWrite.lookups, hpath]
    have hmem : d ∈ trail st ((st.getSeafdir root).getD []) path := by
      rw [hes]
      exact mem_trail_of_entryAt hes hd
    simp [hno _ hl d hmem] at hreg

end Writes

/-! ## Uploads below an empty file -/

def fileDir : List (Dirent ℕ) := [.new 0o100644 0 ['f'] 5 [] 0]

def emptyFileRoot : List (Dirent ℕ) :=
  [.new 0o100644 0 ['e'] 5 [] 0, .new 0o040755 (seafDirId fileDir) ['a'] 5 [] 0]

def emptyFileStore : FsStore ℕ :=
  (FsStore.empty.insert (.dir fileDir) (List.cons_ne_nil _ _)).insert (.dir emptyFileRoot)
    (List.cons_ne_nil _ _)

def plainEnv : WriteEnv ℕ where
  writeObj _ := true
  sortDents := Server.sortDirents
  now _ := 9
  genTime _ := 9
  mtime := 9

def newEntry : Dirent ℕ := .new 0o100644 0 ['g'] 7 [] 0

theorem emptyFileStore_wellTyped : WellTyped emptyFileStore (seafDirId emptyFileRoot) :=
  ⟨2, by decide +kernel⟩

theorem newEntry_typed : Typed emptyFileStore newEntry where
  dir h := absurd h (by decide)
  file _ := by decide

theorem post_below_directory :
    (TreeWrite.postMultiFiles ['/', 'a'] [newEntry] ['u'] false []).lookups emptyFileStore
        (seafDirId emptyFileRoot) = [(emptyFileRoot, [['a']])] ∧
    ∃ root' st', (TreeWrite.postMultiFiles ['/', 'a'] [newEntry] ['u'] false []).run plainEnv
        emptyFileStore (seafDirId emptyFileRoot) = some (root', st') ∧ WellTyped st' root' := by
  have hlook : (TreeWrite.postMultiFiles ['/', 'a'] [newEntry] ['u'] false []).lookups
      emptyFileStore (seafDirId emptyFileRoot) = [(emptyFileRoot, [['a']])] := by decide +kernel
  refine ⟨hlook, ?_⟩
  have hsome : ((TreeWrite.postMultiFiles ['/', 'a'] [newEntry] ['u'] false []).run plainEnv
      emptyFileStore (seafDirId emptyFileRoot)).isSome = true := by decide +kernel
  obtain ⟨⟨root', st'⟩, hrun⟩ := isSome_iff_exists.1 hsome
  have hdents : ∀ d ∈ (TreeWrite.postMultiFiles ['/', 'a'] [newEntry] ['u'] false []).dents,
      Typed emptyFileStore d := by
    intro d hd
    rw [mem_singleton.1 hd]
    exact newEntry_typed
  refine ⟨root', st', hrun, ?_⟩
  refine ((writes_wellTyped_iff _ Server.sortDirents_sorts hdents emptyFileStore_wellTyped
    hrun).2.2 ?_).1
  intro l hl
  rw [mem_singleton.1 hl]
  refine forall_trail_iff.1 ?_
  decide +kernel

/-- The root has a regular file entry whose id is not one of a file. -/
def hasFilledFile (r : Option (ℕ × FsStore ℕ)) : Bool :=
  r.any fun (root, st) => ((st.getSeafdir root).getD []).any fun e =>
    e.isReg && (st.getSeafile e.id).isNone

theorem not_wellTyped_of_filledFile {root : ℕ} {st : FsStore ℕ}
    (h : hasFilledFile (some (root, st)) = true) : ¬ WellTyped st root := by
  intro hT
  obtain ⟨es, hes, -, ht⟩ := hT.entries
  simp only [hasFilledFile, any_some, hes, any_eq_true,
    Bool.and_eq_true] at h
  obtain ⟨e, he, hreg, hnone⟩ := h
  have hfile := (ht e he).file hreg
  rw [isNone_iff_eq_none.1 hnone] at hfile
  cases hfile

/-- **Both servers fill an empty file**: after an upload to `/e`, the regular file entry `e` names
    a directory. -/
theorem upload_fills_file :
    WellTyped emptyFileStore (seafDirId emptyFileRoot) ∧ Typed emptyFileStore newEntry ∧
    ∀ w ∈ [TreeWrite.postMultiFiles ['/', 'e'] [newEntry] ['u'] false [],
        .mkdir ['/'] ['e', '/', 'x'] ['u'], .postFile ['/', 'e'] false newEntry,
        .postMultiFilesC ['/', 'e'] [newEntry] ['u'] true []],
      ∃ root' st', w.run plainEnv emptyFileStore (seafDirId emptyFileRoot) = some (root', st') ∧
        ¬ WellTyped st' root' := by
  refine ⟨emptyFileStore_wellTyped, newEntry_typed, ?_⟩
  have hfilled : ∀ w ∈ [TreeWrite.postMultiFiles ['/', 'e'] [newEntry] ['u'] false [],
      .mkdir ['/'] ['e', '/', 'x'] ['u'], .postFile ['/', 'e'] false newEntry,
      .postMultiFilesC ['/', 'e'] [newEntry] ['u'] true []],
      hasFilledFile (w.run plainEnv emptyFileStore (seafDirId emptyFileRoot)) = true := by
    decide +kernel
  intro w hw
  cases hrun : w.run plainEnv emptyFileStore (seafDirId emptyFileRoot) with
  | none =>
    have := hfilled w hw
    rw [hrun] at this
    cases this
  | some r =>
    refine ⟨r.1, r.2, rfl, not_wellTyped_of_filledFile ?_⟩
    rw [← hfilled w hw, hrun]

end CloudFile
