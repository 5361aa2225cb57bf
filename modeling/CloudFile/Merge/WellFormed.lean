/-
  When the merged tree is well formed.

  Neither server looks whether a generated conflict name is taken.  A merge
  of sorted trees yields sorted directories without repeated names exactly if
  the generated names are fresh in each directory the merge goes into
  (`FreshNames`): `merge_sorted_iff`.
-/
import CloudFile.Merge.Rows
import Mathlib.Data.List.Pairwise

namespace CloudFile

open SortedWalk List

variable {Id : Type} [ObjectId Id] [DecidableEq Id]

/-- In the directory at `basedir` the generated names are new, and no row keeps two entries under
    its name. -/
def LevelFresh (isFile : Dirent Id → Bool) (names : ConflictNames) (basedir : List Name)
    (t : Trees Id) : Prop :=
  (∀ m ∈ t.names, (t.row m).doubled isFile = false) ∧
    ∀ m ∈ t.names, ∀ c, (t.row m).conflictName isFile names basedir = some c →
      (∀ m' ∈ t.names, (t.row m').stays isFile = true → c ≠ m') ∧
      ∀ m' ∈ t.names, m' ≠ m → (t.row m').conflictName isFile names basedir ≠ some c

/-- The generated names are fresh in each directory the merge goes into. -/
def FreshNames (isFile : Dirent Id → Bool) (names : ConflictNames) (st : FsStore Id) :
    ℕ → Trees Id → List Name → Prop
  | 0, _, _ => True
  | fuel + 1, t, basedir => LevelFresh isFile names basedir t ∧
      ∀ m ∈ t.names, ∀ n, (t.row m).below isFile names basedir = some n →
        FreshNames isFile names st fuel ((t.row m).trees st) (basedir ++ [n])

instance decidableForallSome {α : Type} {p : α → Prop} [DecidablePred p] (o : Option α) :
    Decidable (∀ a, o = some a → p a) :=
  match o with
  | none => .isTrue (by simp)
  | some a => decidable_of_iff (p a) (by simp)

instance (isFile : Dirent Id → Bool) (names : ConflictNames) (basedir : List Name) (t : Trees Id) :
    Decidable (LevelFresh isFile names basedir t) :=
  inferInstanceAs (Decidable (_ ∧ _))

instance FreshNames.decidable (isFile : Dirent Id → Bool) (names : ConflictNames)
    (st : FsStore Id) : ∀ (fuel : ℕ) (t : Trees Id) (basedir : List Name),
      Decidable (FreshNames isFile names st fuel t basedir)
  | 0, _, _ => .isTrue trivial
  | fuel + 1, _, _ =>
    haveI := FreshNames.decidable isFile names st fuel
    inferInstanceAs (Decidable (_ ∧ _))

/-! ## One directory -/

theorem nodup_names {ms : List Name} (hms : ms.Nodup) {own twice : Name → Bool}
    {other : Name → Option Name} (htwice : ∀ m, twice m = true → own m = true) :
    (ms.flatMap fun m => (if own m then [m] else []) ++ (if twice m then [m] else []) ++
        (other m).toList).Nodup ↔
      (∀ m ∈ ms, twice m = false) ∧ ∀ m ∈ ms, ∀ c, other m = some c →
        (∀ m' ∈ ms, own m' = true → c ≠ m') ∧ ∀ m' ∈ ms, m' ≠ m → other m' ≠ some c := by
  have hmem : ∀ m x, x ∈ (if own m then [m] else []) ++ (if twice m then [m] else []) ++
      (other m).toList ↔ own m = true ∧ x = m ∨ other m = some x := by
    intro m x
    have := htwice m
    by_cases h : own m = true <;> by_cases h' : twice m = true <;> simp_all
  rw [nodup_flatMap]
  constructor
  · rintro ⟨hrow, hpair⟩
    have hsymm : Std.Symm (Function.onFun List.Disjoint fun m => (if own m then [m] else []) ++
        (if twice m then [m] else []) ++ (other m).toList) := ⟨fun _ _ h => List.Disjoint.symm h⟩
    have hdisj := fun m (hm : m ∈ ms) m' (hm' : m' ∈ ms) (hne : m ≠ m') => hpair.forall hm hm' hne
    refine ⟨fun m hm => ?_, fun m hm c hc => ⟨fun m' hm' hown he => ?_, fun m' hm' hne hc' => ?_⟩⟩
    · by_contra h
      have h' := hrow m hm
      simp [htwice m (by simpa using h), show twice m = true by simpa using h] at h'
    · subst he
      by_cases he : m = c
      · subst he
        have h' := hrow m hm
        simp [hown, hc] at h'
      · exact hdisj m hm c hm' he ((hmem m c).2 (.inr hc)) ((hmem c c).2 (.inl ⟨hown, rfl⟩))
    · exact hdisj m hm m' hm' hne.symm ((hmem m c).2 (.inr hc)) ((hmem m' c).2 (.inr hc'))
  · rintro ⟨htw, hfresh⟩
    refine ⟨fun m hm => ?_, hms.pairwise_of_forall_ne fun m hm m' hm' hne x hx hx' => ?_⟩
    · cases hc : other m with
      | none => by_cases h : own m = true <;> simp [h, htw m hm]
      | some c =>
        by_cases h : own m = true
        · simp [h, htw m hm, ((hfresh m hm c hc).1 m hm h).symm]
        · simp [h, htw m hm]
    · rcases (hmem m x).1 hx with ⟨hown, rfl⟩ | hx
      · rcases (hmem m' x).1 hx' with ⟨-, rfl⟩ | hx'
        · exact hne rfl
        · exact (hfresh m' hm' x hx').1 x hm hown rfl
      · rcases (hmem m' x).1 hx' with ⟨hown, rfl⟩ | hx'
        · exact (hfresh m hm x hx).1 x hm' hown rfl
        · exact (hfresh m hm x hx).2 m' hm' hne.symm hx'

section Run

variable {isFile : Dirent Id → Bool} [FileKind isFile] {names : ConflictNames}
  {arrange : List (Dirent Id) → List (Dirent Id)} {st : FsStore Id} {P : List (Dirent Id) → Prop}
  {t : Trees Id} {basedir : List Name} {fuel k : ℕ}

omit [ObjectId Id] [FileKind isFile] in
theorem Dents.stays_of_doubled {d : Dents Id} (h : d.doubled isFile = true) :
    d.stays isFile = true := by
  simp only [Dents.doubled, Bool.and_eq_true, Option.isNone_iff_eq_none] at h
  simp [Dents.stays, h]

theorem close_desc_iff (hsort : Fileserver.SortsDirents arrange)
    (ht : ∀ l ∈ t.lists, Desc Dirent.name l) {recurse : Trees Id → List Name → Outcome Id}
    (hok : ∀ m ∈ t.names, (rowOutcome isFile names st recurse basedir (t.row m)).ok = true) :
    Desc Dirent.name (arrange (Outcome.all (t.names.map fun m =>
      rowOutcome isFile names st recurse basedir (t.row m))).entries) ↔
      LevelFresh isFile names basedir t := by
  generalize hes : (Outcome.all (t.names.map fun m =>
    rowOutcome isFile names st recurse basedir (t.row m))).entries = es
  have hnames : (es.map Dirent.name).Perm (t.names.flatMap fun m =>
      (if (t.row m).stays isFile then [m] else []) ++
      (if (t.row m).doubled isFile then [m] else []) ++
      ((t.row m).conflictName isFile names basedir).toList) := by
    subst hes
    simp only [Outcome.all, flatMap_map, map_flatMap]
    exact List.Perm.flatMap_left _ fun m hm => rowOutcome_names rfl (hok m hm) (t.row_named m)
  rw [desc_iff, and_iff_right (hsort es).2, UniqueKeys, ((hsort es).1.map _).nodup_iff,
    hnames.nodup_iff]
  exact nodup_names (keys_nodup ht) fun _ h => Dents.stays_of_doubled h

omit [FileKind isFile] in
theorem mergeOutcome_ok_succ
    (h : (mergeOutcome isFile names arrange st (fuel + 1) t basedir).ok = true) :
    ∀ m ∈ t.names, (rowOutcome isFile names st (mergeOutcome isFile names arrange st fuel) basedir
      (t.row m)).ok = true := by
  simpa [mergeOutcome, Outcome.close, Outcome.all] using h

/-- **The merged directories are well formed** exactly if the generated names are fresh. -/
theorem dirs_desc_iff (hsort : Fileserver.SortsDirents arrange)
    (hP : ∀ es, P es → Desc Dirent.name es) (fuel : ℕ) (ht : TreesIn P st k t)
    (hok : (mergeOutcome isFile names arrange st fuel t basedir).ok = true) :
    (∀ es ∈ (mergeOutcome isFile names arrange st fuel t basedir).dirs, Desc Dirent.name es) ↔
      FreshNames isFile names st fuel t basedir := by
  induction fuel generalizing k t basedir with
  | zero => simp [mergeOutcome, Outcome.failed] at hok
  | succ fuel ih =>
    have hrows := mergeOutcome_ok_succ hok
    have hlevel := close_desc_iff hsort (ht.desc hP) hrows
    -- below a row the merge goes on, or there is nothing
    have hbelow : ∀ m ∈ t.names, (∀ es ∈ (rowOutcome isFile names st
        (mergeOutcome isFile names arrange st fuel) basedir (t.row m)).dirs, Desc Dirent.name es) ↔
        ∀ n, (t.row m).below isFile names basedir = some n →
          FreshNames isFile names st fuel ((t.row m).trees st) (basedir ++ [n]) := by
      intro m hm
      obtain ⟨f, -, ⟨hb, ho⟩ | ⟨carrier, o', -, hb, rfl, hok', ho⟩⟩ :=
        rowOutcome_cases rfl (hrows m hm)
      · simp [ho, hb]
      · simp only [ho, hb, Option.some.injEq, forall_eq']
        exact ih (ht.sub m) hok'
    simp only [mergeOutcome, mem_close_dirs, mem_all_dirs, FreshNames, ← hlevel]
    constructor
    · intro h
      exact ⟨h _ (.inr rfl), fun m hm => (hbelow m hm).1 fun es hes => h es (.inl ⟨m, hm, hes⟩)⟩
    · rintro ⟨h, h'⟩ es (⟨m, hm, hes⟩ | rfl)
      · exact (hbelow m hm).2 (h' m hm) es hes
      · exact h

/-! ## The whole tree -/

omit [FileKind isFile] in
theorem mergeOutcome_entries_mem
    (hok : (mergeOutcome isFile names arrange st fuel t basedir).ok = true) :
    (mergeOutcome isFile names arrange st fuel t basedir).entries ∈
      (mergeOutcome isFile names arrange st fuel t basedir).dirs := by
  cases fuel with
  | zero => simp [mergeOutcome, Outcome.failed] at hok
  | succ fuel => simp [mergeOutcome, Outcome.close]

omit [FileKind isFile] in
theorem mem_mergeOutcome_entries (hsort : Fileserver.SortsDirents arrange) {e : Dirent Id} :
    e ∈ (mergeOutcome isFile names arrange st (fuel + 1) t basedir).entries ↔
      ∃ m ∈ t.names, e ∈ (rowOutcome isFile names st (mergeOutcome isFile names arrange st fuel)
        basedir (t.row m)).entries := by
  simp only [mergeOutcome, Outcome.close, (hsort _).1.mem_iff]
  simp [Outcome.all]

theorem DirIn.tree {t : Option (List (Dirent Id))} (h : DirIn P st k t) {m : Name} {e : Dirent Id}
    (he : findDirent m (t.getD []) = some e) (hd : e.isDir = true) :
    Tree P st k e.id := by
  cases t with
  | none => simp [findDirent] at he
  | some l => exact (h l rfl).2.2 e (mem_of_findDirent he).1 hd

variable {st' : FsStore Id}

theorem subTrees_of_dirs (hsort : Fileserver.SortsDirents arrange)
    (hle : st ≤ st') (fuel : ℕ) (ht : TreesIn P st k t)
    (hok : (mergeOutcome isFile names arrange st fuel t basedir).ok = true)
    (hdirs : ∀ es ∈ (mergeOutcome isFile names arrange st fuel t basedir).dirs,
      st'.getSeafdir (seafDirId es) = some es ∧ P es) :
    SubTrees P st' k (mergeOutcome isFile names arrange st fuel t basedir).entries := by
  refine ⟨(hdirs _ (mergeOutcome_entries_mem hok)).2, ?_⟩
  induction fuel generalizing k t basedir with
  | zero => simp [mergeOutcome, Outcome.failed] at hok
  | succ fuel ih =>
    intro e he hdir
    obtain ⟨m, hm, he⟩ := (mem_mergeOutcome_entries hsort).1 he
    generalize ho : rowOutcome isFile names st _ basedir (t.row m) = o at he
    have hrow : o.ok = true := ho ▸ mergeOutcome_ok_succ hok m hm
    have hnotFile : ∀ {f : FilePlan Id}, filePlan isFile names basedir (t.row m) = some f →
        e ∉ f.files := fun hf he' => by
      simp [FileKind.not_isDir e (filePlan_files hf he')] at hdir
    -- a tree of head or of remote
    have hside : ∀ e', ((t.row m).head = some e' ∨ (t.row m).remote = some e') →
        e'.isDir = true → Tree P st k e'.id := by
      rintro e' (h | h) hd
      · exact ht.head.tree h hd
      · exact ht.remote.tree h hd
    obtain ⟨f, hf, ⟨-, rfl⟩ | ⟨carrier, o', hd, -, ho', hok', rfl⟩⟩ := rowOutcome_cases ho hrow
    · rcases mem_append.1 he with he | he
      · exact absurd he (hnotFile hf)
      · obtain ⟨-, e', hmem, hdir', hid⟩ := planDir_entry hf (by simpa using he)
        exact hid ▸ (hside e' hmem hdir').store_mono hle
    · rcases mem_append.1 he with he | he
      · exact absurd he (hnotFile hf)
      · obtain rfl := mem_singleton.1 he
        obtain ⟨-, e', hmem, hdir', -⟩ := planDir_entry hf (show _ = some carrier by rw [hd]; rfl)
        have htree := hside e' hmem hdir'
        subst ho'
        have hdirs' := fun es (hes : es ∈ _) => hdirs es (by
          rw [mergeOutcome, mem_close_dirs, mem_all_dirs]
          exact .inl ⟨m, hm, ho ▸ hes⟩)
        obtain ⟨k, rfl⟩ := htree.exists_succ
        have hentries := hdirs' _ (mergeOutcome_entries_mem hok')
        exact ⟨_, hentries.1, hentries.2, ih (ht.sub m) hok' hdirs'⟩

omit [FileKind isFile] in
theorem dirs_of_subTrees (hsort : Fileserver.SortsDirents arrange) (fuel : ℕ)
    (hok : (mergeOutcome isFile names arrange st fuel t basedir).ok = true)
    (hdirs : ∀ es ∈ (mergeOutcome isFile names arrange st fuel t basedir).dirs,
      st'.getSeafdir (seafDirId es) = some es)
    (hsub : SubTrees P st' k (mergeOutcome isFile names arrange st fuel t basedir).entries) :
    ∀ es ∈ (mergeOutcome isFile names arrange st fuel t basedir).dirs, P es := by
  induction fuel generalizing k t basedir with
  | zero => simp [mergeOutcome, Outcome.failed] at hok
  | succ fuel ih =>
    intro es hes
    have hes' := hes
    rw [mergeOutcome, mem_close_dirs, mem_all_dirs] at hes'
    rcases hes' with ⟨m, hm, hes'⟩ | rfl
    · generalize ho : rowOutcome isFile names st _ basedir (t.row m) = o at hes'
      have hrow : o.ok = true := ho ▸ mergeOutcome_ok_succ hok m hm
      obtain ⟨f, hf, ⟨-, rfl⟩ | ⟨carrier, o', hd, -, ho', hok', rfl⟩⟩ := rowOutcome_cases ho hrow
      · simp at hes'
      · subst ho'
        have hdirs' := fun es (hes : es ∈ _) => hdirs es (by
          rw [mergeOutcome, mem_close_dirs, mem_all_dirs]
          exact .inl ⟨m, hm, ho ▸ hes⟩)
        obtain ⟨hcdir, -⟩ := planDir_entry hf (show _ = some carrier by rw [hd]; rfl)
        have hmem : carrier.withId (seafDirId (mergeOutcome isFile names arrange st fuel
            ((t.row m).trees st) (basedir ++ [f.dents.dirname])).entries) ∈
            (mergeOutcome isFile names arrange st (fuel + 1) t basedir).entries :=
          (mem_mergeOutcome_entries hsort).2 ⟨m, hm, by rw [ho]; simp⟩
        have htree := hsub.2 _ hmem hcdir
        exact ih hok' hdirs' (htree.subTrees_of (hdirs' _ (mergeOutcome_entries_mem hok'))) es hes'
    · exact hsub.1

end Run

/-- **Well-formedness of the merge.**  A merge of sorted trees yields a tree of sorted
    directories, and stores no others, exactly if the generated names are fresh. -/
theorem merge_sorted_iff {isFile : Dirent Id → Bool} {names : ConflictNames} {st : FsStore Id}
    {writeObj : Id → Bool} {fuel k : ℕ} {base head remote : Id} {s : MergeState Id}
    (hm : MergeOf names writeObj fuel st base head remote isFile (some s))
    (hb : Tree (Desc Dirent.name) st k base) (hh : Tree (Desc Dirent.name) st k head)
    (hr : Tree (Desc Dirent.name) st k remote) :
    ((∃ n, Tree (Desc Dirent.name) s.store n s.mergedTreeRoot) ∧
        ∀ id es, s.store.obj id = some (.dir es) → st.obj id = none → Desc Dirent.name es) ↔
      FreshNames isFile names st fuel (rootTrees st base head remote) [] := by
  have hkind := hm.fileKind
  obtain ⟨arrange, hsort, hfinal⟩ := hm.final (fun _ h => h) hb hh hr
  have hin := treesIn_roots hb hh hr
  rw [← dirs_desc_iff hsort (fun _ h => h) fuel hin hfinal.ok]
  have hroot := hfinal.dirs _ (mergeOutcome_entries_mem hfinal.ok)
  constructor
  · rintro ⟨⟨n, htree⟩, -⟩
    rw [hfinal.root] at htree
    exact dirs_of_subTrees hsort fuel hfinal.ok hfinal.dirs (htree.subTrees_of hroot)
  · intro hdesc
    have hsub := subTrees_of_dirs hsort hfinal.le fuel hin hfinal.ok fun es hes =>
      ⟨hfinal.dirs es hes, hdesc es hes⟩
    have htree : Tree (Desc Dirent.name) s.store (k - 1 + 1) s.mergedTreeRoot :=
      ⟨_, hfinal.root ▸ hroot, hsub⟩
    refine ⟨⟨_, htree⟩, fun id es hobj hnew => ?_⟩
    rcases hfinal.new id _ hobj with h | ⟨es', hes', he⟩
    · rw [hnew] at h; cases h
    · cases he; exact hdesc es hes'

/-! ## A conflict name that is taken -/

def someEnv : ConflictEnv where
  fileModifierMtime _ := some (some ['a'], 0)
  creatorName := some (some ['a'])
  nickname modifier := modifier
  now := 0
  formatTime _ := ['t']

/-- Head and remote both add a file `f`; the conflict name of `f` is free or taken in head. -/
def headEntries (taken : List Name) : List (Dirent ℕ) :=
  taken.map (fun n => .new 0o100644 3 n 0 [] 1) ++ [.new 0o100644 1 ['f'] 0 [] 1]

def remoteEntries : List (Dirent ℕ) := [.new 0o100644 2 ['f'] 0 [] 1]

def conflictStore (taken : List Name) : FsStore ℕ :=
  (FsStore.empty.insert (.dir (headEntries taken)) (by simp [FsObj.Nonempty, headEntries])).insert
    (.dir remoteEntries) (by simp [FsObj.Nonempty, remoteEntries])

def takenName : Name := "f (SFConflict a t)".toList

def mergedNames (s : MergeState ℕ) : Option (List Name) :=
  (s.store.getSeafdir s.mergedTreeRoot).map (List.map Dirent.name)

theorem merge_sorted_fresh :
    let head := seafDirId (headEntries [])
    let remote := seafDirId remoteEntries
    (Tree (Desc Dirent.name) (conflictStore []) 1 emptySha1 ∧
      Tree (Desc Dirent.name) (conflictStore []) 1 head ∧
      Tree (Desc Dirent.name) (conflictStore []) 1 remote) ∧
    ∃ s, MergeOf (Server.conflictNames someEnv) (fun _ => true) 1 (conflictStore []) emptySha1 head
        remote Dirent.isReg (some s) ∧
      (((∃ n, Tree (Desc Dirent.name) s.store n s.mergedTreeRoot) ∧
        ∀ id es, s.store.obj id = some (.dir es) → (conflictStore []).obj id = none →
          Desc Dirent.name es) ↔
      FreshNames Dirent.isReg (Server.conflictNames someEnv) (conflictStore []) 1
        (rootTrees (conflictStore []) emptySha1 head remote) []) := by
  intro head remote
  have hb : Tree (Desc Dirent.name) (conflictStore []) 1 emptySha1 := by decide
  have hh : Tree (Desc Dirent.name) (conflictStore []) 1 head := by decide
  have hr : Tree (Desc Dirent.name) (conflictStore []) 1 remote := by decide
  have hsome : (Server.seafMergeTrees (Server.conflictNames someEnv) (fun _ => true) 1
      (conflictStore []) emptySha1 head remote).isSome = true := by decide +kernel
  obtain ⟨s, hs⟩ := Option.isSome_iff_exists.1 hsome
  have hm : MergeOf (Server.conflictNames someEnv) (fun _ => true) 1 (conflictStore []) emptySha1
      head remote Dirent.isReg (some s) := hs ▸ .server
  exact ⟨⟨hb, hh, hr⟩, s, hm, merge_sorted_iff hm hb hh hr⟩

/-- **Both servers repeat a name** when the conflict name is taken. -/
theorem merge_repeats_name :
    let st := conflictStore [takenName]
    let head := seafDirId (headEntries [takenName])
    let remote := seafDirId remoteEntries
    (Tree (Desc Dirent.name) st 1 emptySha1 ∧ Tree (Desc Dirent.name) st 1 head ∧
      Tree (Desc Dirent.name) st 1 remote) ∧
    (Server.seafMergeTrees (Server.conflictNames someEnv) (fun _ => true) 1 st emptySha1 head
      remote).map mergedNames = some (some [takenName, takenName, ['f']]) ∧
    (Fileserver.mergeTrees (Fileserver.conflictNames someEnv) (fun _ => true) Server.sortDirents 1
      st emptySha1 head remote).map mergedNames = some (some [takenName, takenName, ['f']]) := by
  decide +kernel

end CloudFile
