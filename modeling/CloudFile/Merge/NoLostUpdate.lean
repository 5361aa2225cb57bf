/-
  The merge loses no update: a file that head has changed or added is in the merged tree at its
  path, and one of remote's at its path or at the path of a conflict (`ConflictPath`). At each
  directory on the way the row keeps the side's directory, goes on below it, or base has the same
  one.
-/
import CloudFile.Merge.WellFormed

namespace CloudFile

open SortedWalk List Option

variable {Id : Type} [ObjectId Id] [DecidableEq Id]

/-! ## Rows -/

section Rows

variable {isFile : Dirent Id → Bool} {names : ConflictNames} {m : Name} {basedir : List Name}
  {d : Dents Id} {f : FilePlan Id} {h r carrier : Dirent Id}

omit [ObjectId Id] [DecidableEq Id] in
theorem not_isFile [FileKind isFile] {e : Dirent Id} (h : e.isDir = true) : isFile e = false := by
  by_contra hf
  simp [FileKind.not_isDir e (by simpa using hf)] at h

section

omit [ObjectId Id]

theorem mem_files_of_head (hf : filePlan isFile names basedir d = some f) (hh : d.head = some h)
    (hfile : isFile h = true) (hnew : hasId (d.base.filter isFile) h.id = false) : h ∈ f.files := by
  rcases filePlan_cases hf with ⟨-, rfl⟩ | ⟨h', r, n, hc, -, rfl⟩
  · have hkept : d.file isFile = some h := by
      rw [Dents.file, hh, filter_some, if_pos hfile]
      cases d.remote.filter isFile <;> simp [keptFile, hnew]
    simp [hkept]
  · obtain rfl := mem_unique (Dents.clash_eq_some.1 hc).1 hh
    simp [hfile]

theorem mem_files_of_remote [FileKind isFile] (hm : d.Named m)
    (hf : filePlan isFile names basedir d = some f) (hr : d.remote = some r)
    (hfile : isFile r = true) (hnew : hasId (d.base.filter isFile) r.id = false) :
    ∃ e ∈ f.files, e.id = r.id ∧ (e.name = m ∨ names.fileName basedir m = some e.name) := by
  rcases filePlan_cases hf with ⟨hc, rfl⟩ | ⟨h, r', n, hc, hn, rfl⟩
  · have hkept : ∃ e, d.file isFile = some e ∧ e.id = r.id := by
      rw [Dents.file, hr, filter_some, if_pos hfile]
      cases hh : d.head.filter isFile with
      | none => exact ⟨r, by simp [keptFile, hnew], rfl⟩
      | some h =>
        obtain ⟨hh, hhf⟩ := filter_eq_some_iff.1 hh
        have hno : clashes isFile d.base h r = false := by
          by_contra hcl
          rw [Dents.clash_eq_some.2 ⟨hh, hr, by simpa using hcl⟩] at hc
          cases hc
        by_cases hid : h.id = r.id
        · exact ⟨h, by simp [keptFile, hid], hid⟩
        · have hbase : hasId (d.base.filter isFile) h.id = true := by
            simpa [clashes, hhf, hfile, hid, hnew] using hno
          exact ⟨r, by simp [keptFile, hid, hbase], rfl⟩
    obtain ⟨e, he, hid⟩ := hkept
    exact ⟨e, by simp [he], hid, .inl ((Dents.file_some he).2.elim (hm.2.1 e) (hm.2.2 e))⟩
  · obtain ⟨hh, hr', -⟩ := Dents.clash_eq_some.1 hc
    obtain rfl := mem_unique hr' hr
    have hname : isFile (r'.withName n) = true := (FileKind.withName r' n).trans hfile
    refine ⟨r'.withName n, by simp [hname], rfl, .inr ?_⟩
    have hmh : h.name = m := hm.2.1 h hh
    have hmr : r'.name = m := hm.2.2 r' hr'
    simpa [conflictNameOf, hfile, hmh, hmr] using hn

theorem hasId_of_filter {o : Option (Dirent Id)} {p : Dirent Id → Bool} {b : Dirent Id} {id : Id}
    (h : o.filter p = some b) (hid : b.id = id) : hasId o id = true := by
  rw [(filter_eq_some_iff.1 h).1]
  simpa using hid

theorem dirPlan_head (hh : d.head = some h) (hdir : h.isDir = true) :
    dirPlan d = .keep h ∨ dirPlan d = .below h ∨ hasId d.base h.id = true := by
  unfold dirPlan
  rw [hh, filter_some, if_pos hdir]
  cases hb : d.base.filter Dirent.isDir <;> cases d.remote.filter Dirent.isDir <;> dsimp only
  case none.none => exact .inl rfl
  case some.none b =>
    by_cases hid : b.id = h.id
    · exact .inr (.inr (hasId_of_filter hb hid))
    · exact .inr (.inl (if_neg hid))
  all_goals split_ifs <;> simp_all

theorem dirPlan_remote (hr : d.remote = some r) (hdir : r.isDir = true) :
    (∃ e, dirPlan d = .keep e ∧ e.id = r.id ∧ (e = r ∨ d.head = some e)) ∨
      (∃ carrier, dirPlan d = .below carrier ∧ (carrier = r ∨ d.head = some carrier)) ∨
      hasId d.base r.id = true := by
  unfold dirPlan
  rw [hr, filter_some, if_pos hdir]
  cases hb : d.base.filter Dirent.isDir <;> cases hh : d.head.filter Dirent.isDir <;> dsimp only
  case none.none => exact .inl ⟨r, rfl, rfl, .inl rfl⟩
  case some.none b =>
    by_cases hid : b.id = r.id
    · exact .inr (.inr (hasId_of_filter hb hid))
    · exact .inr (.inl ⟨r, if_neg hid, .inl rfl⟩)
  all_goals
    split_ifs <;> simp_all

theorem planDir_remote [FileKind isFile] (hm : d.Named m)
    (hf : filePlan isFile names basedir d = some f) (hr : d.remote = some r)
    (hdir : r.isDir = true) :
    ∃ r', f.dents.remote = some r' ∧ r'.isDir = true ∧ r'.id = r.id ∧
      (r'.name = m ∨ names.dirName basedir m = some r'.name) := by
  rcases filePlan_cases hf with ⟨hc, rfl⟩ | ⟨h, r', n, hc, hn, rfl⟩
  · exact ⟨r, hr, hdir, rfl, .inl (hm.2.2 r hr)⟩
  · obtain rfl := mem_unique (Dents.clash_eq_some.1 hc).2.1 hr
    have hfile : isFile r' = false := not_isFile hdir
    exact ⟨_, rfl, hdir, rfl, .inr (by simpa [conflictNameOf, hfile, hm.2.2 r' hr] using hn)⟩

theorem filePlan_head (hf : filePlan isFile names basedir d = some f) :
    f.dents.head = d.head ∧ f.dents.base = d.base := by
  rcases filePlan_cases hf with ⟨-, rfl⟩ | ⟨h, r, n, -, -, rfl⟩ <;> exact ⟨rfl, rfl⟩

theorem dirPlan_dirname (hd : dirPlan d = .below carrier) :
    d.dirname = carrier.name ∨ ∃ r, d.head = some carrier ∧ carrier.isDir = true ∧
      d.remote = some r ∧ r.isDir = true ∧ d.dirname = r.name := by
  unfold dirPlan at hd
  unfold Dents.dirname
  cases hb : d.base.filter Dirent.isDir <;> cases hh : d.head.filter Dirent.isDir <;>
    cases hr : d.remote.filter Dirent.isDir <;> simp only [hb, hh, hr, reduceCtorEq] at hd ⊢
  case some.none.some | some.some.none =>
    split_ifs at hd
    cases hd
    exact .inl rfl
  all_goals
    split_ifs at hd
    cases hd
    obtain ⟨hh, hhd⟩ := filter_eq_some_iff.1 hh
    obtain ⟨hr, hrd⟩ := filter_eq_some_iff.1 hr
    exact .inr ⟨_, hh, hhd, hr, hrd, rfl⟩

theorem below_dirname [FileKind isFile] (hm : d.Named m)
    (hf : filePlan isFile names basedir d = some f) (hd : dirPlan f.dents = .below carrier) :
    f.dents.dirname = carrier.name := by
  rcases dirPlan_dirname hd with h | ⟨r, hh, hhd, hr, hrd, hname⟩
  · exact h
  · rcases filePlan_cases hf with ⟨-, rfl⟩ | ⟨h', r', n, hc, -, rfl⟩
    · rw [hname, hm.2.2 r hr, hm.2.1 carrier hh]
    · -- in a conflict one of the two is a file
      obtain ⟨hh', hr', hc⟩ := Dents.clash_eq_some.1 hc
      obtain rfl := mem_unique hh' hh
      obtain rfl : r'.withName n = r := Option.some.inj hr
      have hhf : isFile h' = false := not_isFile hhd
      have hrf : isFile r' = false := not_isFile hrd
      simp [clashes, hhf, hrf] at hc

end

end Rows

/-! ## One directory of the merged tree -/

section Level

variable {P : List (Dirent Id) → Prop} {isFile : Dirent Id → Bool} {names : ConflictNames}
  {arrange : List (Dirent Id) → List (Dirent Id)} {st st' : FsStore Id} {fuel k : ℕ} {t : Trees Id}
  {basedir : List Name} {m : Name}

/-- The directories `t` at `basedir` are merged with fresh names, and `st'` has the result. -/
structure Merges (P : List (Dirent Id) → Prop) (isFile : Dirent Id → Bool)
    (names : ConflictNames) (arrange : List (Dirent Id) → List (Dirent Id)) (st st' : FsStore Id)
    (fuel k : ℕ) (t : Trees Id) (basedir : List Name) : Prop where
  treesIn : TreesIn P st k t
  fresh : FreshNames isFile names st fuel t basedir
  ok : (mergeOutcome isFile names arrange st fuel t basedir).ok = true
  dirs : ∀ es ∈ (mergeOutcome isFile names arrange st fuel t basedir).dirs,
    st'.getSeafdir (seafDirId es) = some es

variable [FileKind isFile] (hsort : Fileserver.SortsDirents arrange)
  (hP : ∀ es, P es → Desc Dirent.name es)
include hsort hP

section

variable (h : Merges P isFile names arrange st st' (fuel + 1) k t basedir)
include h

theorem Merges.find_of_mem (hm : m ∈ t.names) {e : Dirent Id}
    (he : e ∈ (rowOutcome isFile names st (mergeOutcome isFile names arrange st fuel) basedir
      (t.row m)).entries) :
    findDirent e.name (mergeOutcome isFile names arrange st (fuel + 1) t basedir).entries =
      some e := by
  have hdesc : Desc Dirent.name
      (mergeOutcome isFile names arrange st (fuel + 1) t basedir).entries :=
    (dirs_desc_iff hsort hP _ h.treesIn h.ok).2 h.fresh _ (mergeOutcome_entries_mem h.ok)
  exact (findDirent_some hdesc.uniqueKeys).2
    ⟨(mem_mergeOutcome_entries hsort).2 ⟨m, hm, he⟩, rfl⟩

theorem Merges.row (hm : m ∈ t.names) :
    ∃ f, filePlan isFile names basedir (t.row m) = some f ∧
      (∀ e ∈ f.files, findDirent e.name
        (mergeOutcome isFile names arrange st (fuel + 1) t basedir).entries = some e) ∧
      (∀ e, dirPlan f.dents = .keep e → findDirent e.name
        (mergeOutcome isFile names arrange st (fuel + 1) t basedir).entries = some e) ∧
      ∀ carrier, dirPlan f.dents = .below carrier → ∃ e, findDirent carrier.name
          (mergeOutcome isFile names arrange st (fuel + 1) t basedir).entries = some e ∧
        e.isDir = true ∧
        subEntries st' (some e) = (mergeOutcome isFile names arrange st fuel
          ((t.row m).trees st) (basedir ++ [carrier.name])).entries ∧
        Merges P isFile names arrange st st' fuel (k - 1) ((t.row m).trees st)
          (basedir ++ [carrier.name]) := by
  have hfind := fun {e} => h.find_of_mem hsort hP hm (e := e)
  generalize ho : rowOutcome isFile names st _ basedir (t.row m) = o at hfind
  have hrow : o.ok = true := ho ▸ mergeOutcome_ok_succ h.ok m hm
  obtain ⟨f, hf, hcases⟩ := rowOutcome_cases ho hrow
  refine ⟨f, hf, fun e he => ?_, fun e he => ?_, fun carrier hd => ?_⟩
  · rcases hcases with ⟨-, rfl⟩ | ⟨carrier, o', -, -, -, -, rfl⟩
    · exact hfind (mem_append_left _ he)
    · exact hfind (mem_append_left _ he)
  · rcases hcases with ⟨-, rfl⟩ | ⟨carrier, o', hd, -⟩
    · exact hfind (mem_append_right _ (by simp [he, DirPlan.entry]))
    · rw [he] at hd; cases hd
  · rcases hcases with ⟨hb, -⟩ | ⟨carrier', o', hd', hb, ho', hok', rfl⟩
    · simp [Dents.below, hf, hd] at hb
    · obtain rfl : carrier = carrier' := by rw [hd] at hd'; cases hd'; rfl
      have hname := below_dirname (t.row_named m) hf hd
      rw [hname] at hb ho'
      subst ho'
      have hdirs := fun es (hes : es ∈ _) => h.dirs es (by
        rw [mergeOutcome, mem_close_dirs, mem_all_dirs]
        exact .inl ⟨m, hm, ho ▸ hes⟩)
      have hcdir := (planDir_entry hf (show _ = some carrier by rw [hd]; rfl)).1
      have hfound := @hfind (carrier.withId (seafDirId _))
        (mem_append_right _ (mem_singleton.2 rfl))
      refine ⟨_, hfound, hcdir, ?_, h.treesIn.sub m, h.fresh.2 m hm _ hb, hok',
        hdirs⟩
      simp [subEntries, hcdir, hdirs _ (mergeOutcome_entries_mem hok')]

end

end Level

/-! ## Down a path -/

/-- A sorted listing in which only directories have the id of a directory with entries. -/
def TypedListing (st : FsStore Id) (es : List (Dirent Id)) : Prop :=
  Desc Dirent.name es ∧ ∀ e ∈ es, e.isDir = false → (st.getSeafdir e.id).getD [] = []

instance (st : FsStore Id) : DecidablePred (TypedListing st) := fun es =>
  inferInstanceAs (Decidable (Desc Dirent.name es ∧
    ∀ e ∈ es, e.isDir = false → (st.getSeafdir e.id).getD [] = []))

/-- A path with some of its names replaced by the conflict names generated for them. -/
inductive ConflictPath (names : ConflictNames) : List Name → List Name → List Name → Prop
  | file {basedir : List Name} {m : Name} : ConflictPath names basedir [m] [m]
  | renamedFile {basedir : List Name} {m c : Name} :
      names.fileName basedir m = some c → ConflictPath names basedir [m] [c]
  | dir {basedir : List Name} {m : Name} {p q : List Name} :
      ConflictPath names (basedir ++ [m]) p q → ConflictPath names basedir (m :: p) (m :: q)
  | renamedDir {basedir : List Name} {m c : Name} {p q : List Name} :
      names.dirName basedir m = some c → ConflictPath names (basedir ++ [c]) p q →
      ConflictPath names basedir (m :: p) (c :: q)

variable {p : List Name} {st st' : FsStore Id}

theorem ConflictPath.refl {names : ConflictNames} (hp : p ≠ []) (basedir : List Name) :
    ConflictPath names basedir p p := by
  induction p generalizing basedir with
  | nil => exact absurd rfl hp
  | cons m p ih =>
    cases p with
    | nil => exact .file
    | cons m' p => exact .dir (ih (by simp) _)

theorem subEntries_mono (hle : st ≤ st') (o : Option (Dirent Id)) :
    subEntries st' o = subEntries st o ∨ subEntries st o = [] := by
  cases o with
  | none => exact .inl rfl
  | some d =>
    by_cases hd : d.isDir = true
    · cases hes : st.getSeafdir d.id with
      | none => exact .inr (by simp [subEntries, hes])
      | some es => exact .inl (by simp [subEntries, hes, FsStore.getSeafdir_mono hle hes])
    · exact .inl (by simp [subEntries, hd])

theorem entryIn_sub_mono (hle : st ≤ st') {o : Option (Dirent Id)} {e : Dirent Id}
    (h : entryIn st (subEntries st o) p = some e) : entryIn st' (subEntries st' o) p = some e := by
  induction p generalizing o with
  | nil => exact h
  | cons m p ih =>
    rcases subEntries_mono hle o with hsub | hsub
    · by_cases hp : p = []
      · subst hp; rw [hsub]; exact h
      · rw [entryIn_cons _ _ hp] at h ⊢
        rw [hsub]
        exact ih h
    · rw [hsub, entryIn_nil] at h; cases h

section Paths

variable {isFile : Dirent Id → Bool} {names : ConflictNames}
  {arrange : List (Dirent Id) → List (Dirent Id)} {basedir : List Name} {t : Trees Id} {m : Name}

/-- The entry at a path is one that the merge must not lose: a file that base does not have. -/
def NewFile (isFile : Dirent Id → Bool) (st : FsStore Id) (base side : List (Dirent Id))
    (p : List Name) (e : Dirent Id) : Prop :=
  entryIn st side p = some e ∧ isFile e = true ∧
    ∀ b, entryIn st base p = some b → isFile b = true → b.id ≠ e.id

variable {p : List Name} {e : Dirent Id} {base side : List (Dirent Id)} {k fuel : ℕ}

theorem NewFile.dir (h : NewFile isFile st base side (m :: p) e) (hp : p ≠ []) :
    ∃ s, findDirent m side = some s ∧ s.isDir = true ∧
      NewFile isFile st (subEntries st (findDirent m base)) (subEntries st (some s)) p e := by
  obtain ⟨he, hfile, hnew⟩ := h
  rw [entryIn_cons _ _ hp] at he
  cases hs : findDirent m side with
  | none => rw [hs] at he; simp [subEntries] at he
  | some s =>
    rw [hs] at he
    refine ⟨s, rfl, ?_, he, hfile, fun b hb => hnew b (by rw [entryIn_cons _ _ hp]; exact hb)⟩
    by_contra hdir
    simp [subEntries, hdir] at he

theorem NewFile.not_hasId {base : Option (List (Dirent Id))}
    (hbase : DirIn (TypedListing st) st k base) {side : Dirent Id} (hdir : side.isDir = true)
    (h : NewFile isFile st (subEntries st (findDirent m (base.getD []))) (subEntries st (some
      side)) p e) :
    hasId (findDirent m (base.getD [])) side.id = false := by
  by_contra hid
  obtain ⟨he, hfile, hnew⟩ := h
  cases hb : findDirent m (base.getD []) with
  | none => simp [hb] at hid
  | some b =>
    simp only [hb, hasId_some, Bool.not_eq_false, decide_eq_true_eq] at hid
    rw [hb] at hnew
    by_cases hbd : b.isDir = true
    · -- the same directory
      have hsame : subEntries st (some b) = subEntries st (some side) := by
        simp [subEntries, hbd, hdir, hid]
      exact hnew e (hsame ▸ he) hfile rfl
    · obtain ⟨es, hes, hmem⟩ := hbase.row hb
      have hempty : subEntries st (some side) = [] := by
        simpa [subEntries, hdir, ← hid] using hes.2 b hmem (by simpa using hbd)
      rw [hempty, entryIn_nil] at he
      cases he

theorem NewFile.not_hasId_file (h : NewFile isFile st base side [m] e) :
    hasId ((findDirent m base).filter isFile) e.id = false := by
  cases hb : (findDirent m base).filter isFile with
  | none => rfl
  | some b =>
    obtain ⟨hb, hfile⟩ := filter_eq_some_iff.1 hb
    simpa using h.2.2 b hb hfile

omit [ObjectId Id] [DecidableEq Id] in
theorem Trees.mem_names {l : List (Dirent Id)} (hl : l ∈ t.lists) (h : findDirent m l = some e) :
    m ∈ t.names :=
  mem_keys.2 ⟨l, hl, e, mem_of_findDirent h⟩

variable [FileKind isFile] (hsort : Fileserver.SortsDirents arrange) (hle : st ≤ st')
include hsort hle

section

variable (h : Merges (TypedListing st) isFile names arrange st st' fuel k t basedir)
include h

/-- **No file of head is lost.** -/
theorem Merges.head_kept (hnew : NewFile isFile st (t.base.getD []) (t.head.getD []) p e) :
    ∃ e', entryIn st' (mergeOutcome isFile names arrange st fuel t basedir).entries p =
      some e' ∧ isFile e' = true ∧ e'.id = e.id := by
  induction fuel generalizing k t basedir p with
  | zero => simpa [mergeOutcome, Outcome.failed] using h.ok
  | succ fuel ih =>
    have hP : ∀ es, TypedListing st es → Desc Dirent.name es := fun _ h => h.1
    have hlist : t.head.getD [] ∈ t.lists := by simp [Trees.lists]
    rcases p with _ | ⟨m, _ | ⟨m', p⟩⟩
    · cases hnew.1
    · -- a file of this directory
      obtain ⟨f, hf, hfiles, -⟩ := h.row hsort hP (Trees.mem_names hlist hnew.1)
      have hmem := mem_files_of_head hf hnew.1 hnew.2.1 hnew.not_hasId_file
      have hname : e.name = m := (mem_of_findDirent hnew.1).2
      exact ⟨e, hname ▸ hfiles e hmem, hnew.2.1, rfl⟩
    · -- a file further down
      obtain ⟨s, hs, hdir, hsub⟩ := hnew.dir (by simp)
      have hname : s.name = m := (mem_of_findDirent hs).2
      obtain ⟨f, hf, -, hkeep, hbelow⟩ := h.row hsort hP (Trees.mem_names hlist hs)
      obtain ⟨hfh, hfb⟩ := filePlan_head hf
      rw [entryIn_cons _ _ (by simp)]
      rcases dirPlan_head (hfh.trans hs) hdir with hd | hd | hid
      · have hfound := hkeep s hd
        rw [hname] at hfound
        rw [hfound]
        exact ⟨e, entryIn_sub_mono hle hsub.1, hsub.2.1, rfl⟩
      · obtain ⟨e', hfound, -, hentries, hmerges⟩ := hbelow s hd
        rw [hname] at hfound hentries hmerges
        rw [hfound, hentries]
        refine ih hmerges ?_
        simpa only [Dents.trees, subDir_getD, Trees.row, hs] using hsub
      · rw [hfb] at hid
        exact absurd (hid.symm.trans (NewFile.not_hasId h.treesIn.base hdir hsub)) (by simp)

/-- **No file of remote is lost**, up to conflict names on its path. -/
theorem Merges.remote_kept (hnew : NewFile isFile st (t.base.getD []) (t.remote.getD []) p e) :
    ∃ q e', ConflictPath names basedir p q ∧
      entryIn st' (mergeOutcome isFile names arrange st fuel t basedir).entries q = some e' ∧
      isFile e' = true ∧ e'.id = e.id := by
  induction fuel generalizing k t basedir p with
  | zero => simpa [mergeOutcome, Outcome.failed] using h.ok
  | succ fuel ih =>
    have hP : ∀ es, TypedListing st es → Desc Dirent.name es := fun _ h => h.1
    have hlist : t.remote.getD [] ∈ t.lists := by simp [Trees.lists]
    rcases p with _ | ⟨m, _ | ⟨m', p⟩⟩
    · cases hnew.1
    · -- a file of this directory
      obtain ⟨f, hf, hfiles, -⟩ := h.row hsort hP (Trees.mem_names hlist hnew.1)
      obtain ⟨e', hmem, hid, hname⟩ := mem_files_of_remote (t.row_named m) hf hnew.1 hnew.2.1
        hnew.not_hasId_file
      refine ⟨[e'.name], e', ?_, hfiles e' hmem, filePlan_files hf hmem, hid⟩
      rcases hname with hname | hname
      · rw [hname]; exact .file
      · exact .renamedFile hname
    · -- a file further down
      obtain ⟨s, hs, hdir, hsub⟩ := hnew.dir (by simp)
      obtain ⟨f, hf, -, hkeep, hbelow⟩ := h.row hsort hP (Trees.mem_names hlist hs)
      obtain ⟨hfh, hfb⟩ := filePlan_head hf
      obtain ⟨r, hr, hrdir, hrid, hrname⟩ := planDir_remote (t.row_named m) hf hs hdir
      -- the directory stands in the merged directory under its own or its conflict name
      have hplace : ∀ {x : Dirent Id} {q : List Name}, (x = r ∨ f.dents.head = some x) →
          ConflictPath names (basedir ++ [x.name]) (m' :: p) q →
          ConflictPath names basedir (m :: m' :: p) (x.name :: q) := by
        intro x q hx hpath
        have hname : x.name = m ∨ names.dirName basedir m = some x.name := by
          rcases hx with rfl | hx
          · exact hrname
          · exact .inl ((t.row_named m).2.1 x (hfh ▸ hx))
        rcases hname with hname | hname
        · rw [hname] at hpath ⊢; exact .dir hpath
        · exact .renamedDir hname hpath
      rcases dirPlan_remote hr hrdir with ⟨x, hd, hxid, hx⟩ | ⟨x, hd, hx⟩ | hid
      · have hxdir := (dirPlan_entry (show _ = some x by rw [hd]; rfl)).1
        have hsame : subEntries st (some x) = subEntries st (some s) := by
          simp [subEntries, hdir, hxdir, hxid, hrid]
        refine ⟨x.name :: m' :: p, e, hplace hx (.refl (by simp) _), ?_, hsub.2.1, rfl⟩
        rw [entryIn_cons _ _ (by simp), hkeep x hd]
        exact entryIn_sub_mono hle (hsame ▸ hsub.1)
      · obtain ⟨e', hfound, -, hentries, hmerges⟩ := hbelow x hd
        have hsub' : NewFile isFile st (((t.row m).trees st).base.getD [])
            (((t.row m).trees st).remote.getD []) (m' :: p) e := by
          simpa only [Dents.trees, subDir_getD, Trees.row, hs] using hsub
        obtain ⟨q, e'', hpath, hfound', hfile, hid⟩ := ih hmerges hsub'
        have hq : q ≠ [] := by rintro rfl; cases hfound'
        refine ⟨x.name :: q, e'', hplace hx hpath, ?_, hfile, hid⟩
        rw [entryIn_cons _ _ hq, hfound, hentries]
        exact hfound'
      · rw [hfb, hrid] at hid
        exact absurd (hid.symm.trans (NewFile.not_hasId h.treesIn.base hdir hsub)) (by simp)

end

end Paths

/-- **No update is lost.** If the generated names are fresh, the merged tree has every file that
    only head has, and every file that only remote has up to conflict names. -/
theorem merge_keeps_updates {names : ConflictNames} {writeObj : Id → Bool} {fuel k : ℕ}
    {base head remote : Id} {isFile : Dirent Id → Bool} {s : MergeState Id}
    (hm : MergeOf names writeObj fuel st base head remote isFile (some s))
    (hb : Tree (TypedListing st) st k base) (hh : Tree (TypedListing st) st k head)
    (hr : Tree (TypedListing st) st k remote)
    (hfresh : FreshNames isFile names st fuel (rootTrees st base head remote) []) :
    (∀ p e, entryAt st head p = some e → isFile e = true →
      (∀ b, entryAt st base p = some b → isFile b = true → b.id ≠ e.id) →
      ∃ e', entryAt s.store s.mergedTreeRoot p = some e' ∧ isFile e' = true ∧ e'.id = e.id) ∧
    ∀ p e, entryAt st remote p = some e → isFile e = true →
      (∀ b, entryAt st base p = some b → isFile b = true → b.id ≠ e.id) →
      ∃ q e', ConflictPath names [] p q ∧ entryAt s.store s.mergedTreeRoot q = some e' ∧
        isFile e' = true ∧ e'.id = e.id := by
  have hkind := hm.fileKind
  obtain ⟨arrange, hsort, hfinal⟩ := hm.final (fun _ h => h.1) hb hh hr
  have hmerges : Merges (TypedListing st) isFile names arrange st s.store fuel (k - 1)
      (rootTrees st base head remote) [] :=
    ⟨treesIn_roots hb hh hr, hfresh, hfinal.ok, hfinal.dirs⟩
  have hmerged := hfinal.dirs _ (mergeOutcome_entries_mem hfinal.ok)
  obtain ⟨b, hb, -⟩ := hb.readable
  obtain ⟨h, hh, -⟩ := hh.readable
  obtain ⟨r, hr, -⟩ := hr.readable
  rw [hfinal.root]
  refine ⟨fun p e he hfile hnew => ?_, fun p e he hfile hnew => ?_⟩
  · simp only [entryAt_eq hb, entryAt_eq hh, entryAt_eq hmerged] at he hnew ⊢
    refine hmerges.head_kept hsort hfinal.le ⟨?_, hfile, ?_⟩ <;> simpa [rootTrees, hb, hh]
  · simp only [entryAt_eq hb, entryAt_eq hr, entryAt_eq hmerged] at he hnew ⊢
    refine hmerges.remote_kept hsort hfinal.le ⟨?_, hfile, ?_⟩ <;> simpa [rootTrees, hb, hr]

theorem merge_keeps_updates_conflict :
    let st := conflictStore []
    let head := seafDirId (headEntries [])
    let remote := seafDirId remoteEntries
    (Tree (TypedListing st) st 1 emptySha1 ∧ Tree (TypedListing st) st 1 head ∧
      Tree (TypedListing st) st 1 remote ∧
      FreshNames Dirent.isReg (Server.conflictNames someEnv) st 1
        (rootTrees st emptySha1 head remote) []) ∧
    ∃ s, Server.seafMergeTrees (Server.conflictNames someEnv) (fun _ => true) 1 st emptySha1 head
        remote = some s ∧
      (∃ e', entryAt s.store s.mergedTreeRoot [['f']] = some e' ∧ e'.id = 1) ∧
      ∃ q e', ConflictPath (Server.conflictNames someEnv) [] [['f']] q ∧
        entryAt s.store s.mergedTreeRoot q = some e' ∧ e'.id = 2 := by
  intro st head remote
  have hb : Tree (TypedListing st) st 1 emptySha1 := by decide
  have hh : Tree (TypedListing st) st 1 head := by decide
  have hr : Tree (TypedListing st) st 1 remote := by decide
  have hfresh : FreshNames Dirent.isReg (Server.conflictNames someEnv) st 1
      (rootTrees st emptySha1 head remote) [] := by decide +kernel
  have hsome : (Server.seafMergeTrees (Server.conflictNames someEnv) (fun _ => true) 1 st
      emptySha1 head remote).isSome = true := by decide +kernel
  obtain ⟨s, hs⟩ := isSome_iff_exists.1 hsome
  have hm : MergeOf (Server.conflictNames someEnv) (fun _ => true) 1 st emptySha1 head remote
      Dirent.isReg (some s) := hs ▸ .server
  obtain ⟨hhead, hremote⟩ := merge_keeps_updates hm hb hh hr hfresh
  have hbase : entryAt st emptySha1 [['f']] = none := by decide
  refine ⟨⟨hb, hh, hr, hfresh⟩, s, hs, ?_, ?_⟩
  · obtain ⟨e', he', -, hid⟩ := hhead [['f']] (.new 0o100644 1 ['f'] 0 [] 1) (by decide) (by decide)
      (by simp [hbase])
    exact ⟨e', he', hid⟩
  · obtain ⟨q, e', hq, he', -, hid⟩ := hremote [['f']] (.new 0o100644 2 ['f'] 0 [] 1) (by decide)
      (by decide) (by simp [hbase])
    exact ⟨q, e', hq, he', hid⟩

/-! ## A symbolic link that becomes a regular file -/

/-- A root with an entry `f` of this mode and content. -/
def oneEntry (mode : UInt32) (id : ℕ) : List (Dirent ℕ) := [.new mode id ['f'] 0 [] 0]

/-- `f` is a symbolic link in base, and a regular file in head, of the same content, and in
    remote. -/
def linkStore : FsStore ℕ :=
  ((FsStore.empty.insert (.dir (oneEntry 0o120777 1)) (by simp [FsObj.Nonempty, oneEntry])).insert
    (.dir (oneEntry 0o100644 1)) (by simp [FsObj.Nonempty, oneEntry])).insert
    (.dir (oneEntry 0o100644 2)) (by simp [FsObj.Nonempty, oneEntry])

/-- **The Go merge takes the file of remote** although base has no regular file there. -/
theorem mergeTrees_drops_file :
    let base := seafDirId (oneEntry 0o120777 1)
    let head := seafDirId (oneEntry 0o100644 1)
    let remote := seafDirId (oneEntry 0o100644 2)
    (Tree (TypedListing linkStore) linkStore 1 base ∧
      Tree (TypedListing linkStore) linkStore 1 head ∧
      Tree (TypedListing linkStore) linkStore 1 remote) ∧
    (entryAt linkStore head [['f']]).map (fun e => (e.isReg, e.id)) = some (true, 1) ∧
    (entryAt linkStore base [['f']]).map Dirent.isReg = some false ∧
    (Fileserver.mergeTrees (Fileserver.conflictNames someEnv) (fun _ => true) Server.sortDirents 1
      linkStore base head remote).map (fun s =>
        (s.conflict, (entryAt s.store s.mergedTreeRoot [['f']]).map Dirent.id)) =
      some (false, some 2) := by
  decide +kernel

end CloudFile
