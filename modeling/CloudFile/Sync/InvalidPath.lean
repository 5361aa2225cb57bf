/-
  The check of the names of an uploaded tree (`server/http-server.c`, `fileserver/sync_api.go`).
  An update is refused if a path of the folded diff with the base has a `..` part. Nothing below
  an added directory is looked at, the file server cleans the paths first, and a diff that fails
  passes the check.
-/
import CloudFile.Diff.Folded
import CloudFile.Gc.TraverseCommits

namespace CloudFile

open SortedWalk GoPath List Option

variable {Id : Type} [ObjectId Id] [DecidableEq Id]

/-! ## The model -/

namespace Server

def shouldIgnore (filename : Name) : Bool := (filename.splitOn '/').contains ['.', '.']

/-- The name that is looked at: `new_name` is only set in a renamed entry. -/
def checkedName (ch : Change Id) : Name :=
  if ch.status = .renamed ∨ ch.status = .dirRenamed then ch.newName else ch.name

def includeInvalidPath (st : FsStore Id) (fuel : ℕ) (base new : Commit Id) : Bool :=
  (diffCommits st fuel base.rootId new.rootId true).any fun changes =>
    changes.any fun ch => shouldIgnore (checkedName ch)

/-- The check in `put_update_branch_cb`; `found` is whether `diff_commits` finds the library. -/
def passesPathCheck (found : Bool) (st : FsStore Id) (fuel : ℕ) (base new : Commit Id) : Bool :=
  !(found && includeInvalidPath st fuel base new)

end Server

namespace Fileserver

def shouldIgnore (fileName : Name) : Bool := (fileName.splitOn '/').contains ['.', '.']

/-- The name that is looked at: `NewName` unless it is the empty string. -/
def checkedName (entry : Change Id) : Name :=
  if entry.newName ≠ [] then entry.newName else entry.name

def includeInvalidPath (order : List (DiffEntry Id) → List (DiffEntry Id)) (st : FsStore Id)
    (fuel : ℕ) (baseCommit newCommit : Commit Id) : Bool :=
  (diffCommits order st fuel baseCommit.rootId newCommit.rootId true).any fun results =>
    results.any fun entry => shouldIgnore (checkedName entry)

/-- The check in `putUpdateBranchCB`; `found` is whether `DiffCommits` finds the library. -/
def passesPathCheck (order : List (DiffEntry Id) → List (DiffEntry Id)) (found : Bool)
    (st : FsStore Id) (fuel : ℕ) (base newCommit : Commit Id) : Bool :=
  !(found && includeInvalidPath order st fuel base newCommit)

end Fileserver

/-! ## What the check is for -/

/-- An entry of the directory, or of a directory below it. -/
inductive StandsBelow (st : FsStore Id) : List (Dirent Id) → Dirent Id → Prop
  | here {es : List (Dirent Id)} {d : Dirent Id} : d ∈ es → StandsBelow st es d
  | down {es sub : List (Dirent Id)} {e d : Dirent Id} : e ∈ es → e.isDir = true →
      st.getSeafdir e.id = some sub → StandsBelow st sub d → StandsBelow st es d

/-- A part of the name between slashes is `..`. -/
def IsDotDot (d : Dirent Id) : Prop := Server.shouldIgnore d.name = true

def NoDotDot (st : FsStore Id) (es : List (Dirent Id)) : Prop :=
  ∀ d, StandsBelow st es d → ¬ IsDotDot d

/-- The two trees can be diffed, and for their roots `P` holds. -/
def Diffable (found : Bool) (st : FsStore Id) (base new : Commit Id)
    (P : List (Dirent Id) → List (Dirent Id) → Prop) : Prop :=
  found = true ∧ ∃ o n, st.getSeafdir base.rootId = some o ∧ st.getSeafdir new.rootId = some n ∧
    Reads st o n ∧ P o n

/-- A check keeps its promise: trees that cannot be diffed do not pass, nor does a tree with a `..`
    entry. -/
def KeepsOut (found : Bool) (st : FsStore Id) (base new : Commit Id) (passes : Bool) : Prop :=
  passes = true → Diffable found st base new fun _ n => NoDotDot st n

/-- A file or directory that the diff comes to, with the path of its directory. -/
def Shown (st : FsStore Id) (o n : List (Dirent Id)) (path : List Name) (d : Dirent Id) : Prop :=
  ∃ o' n', WalksTo st o n path o' n' ∧ d ∈ n' ∧ (d.isReg = true ∨ d.isDir = true)

/-! ## Parts of paths -/

theorem shouldIgnore_iff {p : Name} : Server.shouldIgnore p = true ↔ dotdot ∈ fields p := by
  rw [Server.shouldIgnore, contains_iff_mem, mem_fields (by decide)]
  rfl

theorem fields_basedirOf (path : List Name) (name : Name) :
    fields (basedirOf path ++ name) = path.flatMap fields ++ fields name := by
  induction path with
  | nil => rfl
  | cons m path ih =>
    have hcons : basedirOf (m :: path) ++ name = m ++ '/' :: (basedirOf path ++ name) := by
      simp [basedirOf]
    rw [hcons, fields_append_slash, ih, flatMap_cons, append_assoc]

/-- A `..` part of the path of an entry is one of a directory's name or of its own. -/
structure Results.Splits (w : Results Id) : Prop where
  parts : ∀ path name, Server.shouldIgnore (w.path (basedirOf path) name) = true →
    (∃ m ∈ path, Server.shouldIgnore m = true) ∨ Server.shouldIgnore name = true

section

omit [ObjectId Id] [DecidableEq Id]

theorem Server.splits_results : (Server.results : Results Id).Splits where
  parts path name h := by
    rw [shouldIgnore_iff, results, fields_basedirOf, mem_append, mem_flatMap] at h
    simpa only [shouldIgnore_iff] using h

theorem Fileserver.splits_results : (Fileserver.results : Results Id).Splits where
  parts path name h := by
    have hdir : dotdot ∈ fields (basedirOf path) → ∃ m ∈ path, dotdot ∈ fields m := by
      intro hpath
      have := fields_basedirOf path []
      rw [append_nil, fields_nil, append_nil] at this
      rwa [this, mem_flatMap] at hpath
    rw [shouldIgnore_iff] at h
    simpa only [shouldIgnore_iff] using (dotdot_mem_of_join h).imp_left hdir

end

/-! ## What the diff shows -/

section

variable {st : FsStore Id} {o n o' n' : List (Dirent Id)} {path : List Name} {w : Results Id}
  {a b : Option (Dirent Id)} {item : DiffItem Id} {d : Dirent Id}

theorem WalksTo.noDotDot (h : WalksTo st o n path o' n') (ho : NoDotDot st o) :
    NoDotDot st o' ∧ ∀ m ∈ path, ¬ Server.shouldIgnore m = true := by
  induction h with
  | here o n => exact ⟨ho, by simp⟩
  | @down o n sub sub' o' n' d d' path hrow hsame hdir hdir' hsub hsub' hwalk ih =>
    obtain ⟨hmem, -, hname⟩ := Server.mem_treeWalk hrow
    obtain ⟨hclean, hpath⟩ := ih fun e he => ho e (.down (hmem d rfl) hdir hsub he)
    refine ⟨hclean, forall_mem_cons.mpr ⟨?_, hpath⟩⟩
    rw [← hname d d' rfl rfl]
    exact ho d (.here (hmem d rfl))

omit [ObjectId Id] in
theorem mem_fileItems (h : item ∈ fileItems a b path) :
    item.parent = path ∧ Fileserver.IsTwoWay item.status ∧
      (a = some item.dent ∨ ¬ IsDeleted item.status ∧ b = some item.dent) := by
  cases a with
  | none =>
    cases b with
    | none => cases h
    | some d' =>
      cases mem_singleton.mp h
      simp [Fileserver.IsTwoWay, IsDeleted]
  | some d =>
    cases b with
    | none =>
      cases mem_singleton.mp h
      simp [Fileserver.IsTwoWay]
    | some d' =>
      simp only [fileItems] at h
      split at h
      · cases h
      · cases mem_singleton.mp h
        simp [Fileserver.IsTwoWay, IsDeleted]

theorem mem_dirItems (h : item ∈ (dirItems true a b path).1) : item.parent = path ∧
      Fileserver.IsTwoWay item.status ∧
      (a = some item.dent ∨ ¬ IsDeleted item.status ∧ b = some item.dent) := by
  cases a with
  | none =>
    cases b with
    | none => cases h
    | some d' =>
      obtain rfl : item = ⟨.dirAdded, d', path, 0⟩ := by simpa [dirItems] using h
      simp [Fileserver.IsTwoWay, IsDeleted]
  | some d =>
    cases b with
    | none =>
      cases mem_singleton.mp h
      simp [Fileserver.IsTwoWay]
    | some d' => cases h

theorem mem_foldedItems (h : item ∈ foldedItems a b path) :
    item.parent = path ∧ Fileserver.IsTwoWay item.status ∧
      (a = some item.dent ∨ ¬ IsDeleted item.status ∧ b = some item.dent ∧
        (item.dent.isReg = true ∨ item.dent.isDir = true)) := by
  rcases mem_append.mp h with h | h
  · obtain ⟨hparent, htwo, hdent⟩ := mem_fileItems h
    simp only [filter_eq_some_iff] at hdent
    exact ⟨hparent, htwo, hdent.imp And.left fun ⟨hdel, hb, hreg⟩ => ⟨hdel, hb, .inl hreg⟩⟩
  · obtain ⟨hparent, htwo, hdent⟩ := mem_dirItems h
    simp only [filter_eq_some_iff] at hdent
    exact ⟨hparent, htwo, hdent.imp And.left fun ⟨hdel, hb, hdir⟩ => ⟨hdel, hb, .inr hdir⟩⟩

theorem exists_foldedItem (hkind : d.isReg = true ∨ d.isDir = true)
    (path : List Name) : ∃ item ∈ foldedItems none (some d) path, item.dent = d := by
  rcases hkind with hreg | hdir
  · exact ⟨⟨.added, d, path, 0⟩, by simp [foldedItems, filter_isReg_some hreg, fileItems], rfl⟩
  · exact ⟨⟨.dirAdded, d, path, 0⟩, by simp [foldedItems, filter_isDir_some hdir, dirItems], rfl⟩

theorem toEntry_name (h : item ∈ foldedItems a b ([] ++ path)) :
    (item.toEntry w).name = w.path (basedirOf path) item.dent.name := by
  rw [← nil_append path, ← (mem_foldedItems h).1]
  rfl

theorem base_not_flagged (hw : w.Splits) (ho : NoDotDot st o) (hwalk : WalksTo st o n path o' n')
    (hd : d ∈ o') :
    ¬ Server.shouldIgnore (w.path (basedirOf path) d.name) = true := by
  intro hflag
  obtain ⟨hclean, hpath⟩ := hwalk.noDotDot ho
  rcases hw.parts path d.name hflag with ⟨m, hm, hmflag⟩ | hname
  · exact hpath m hm hmflag
  · exact hclean d (.here hd) hname

/-- **What is flagged**: the flagged paths of the diff are those of the entries it shows. -/
theorem foldedItem_flagged_iff (hw : w.Splits) (ho : NoDotDot st o) :
    (∃ item, FoldedItem st o n [] item ∧ Server.shouldIgnore (item.toEntry w).name = true) ↔
      ∃ path d, Shown st o n path d ∧
        Server.shouldIgnore (w.path (basedirOf path) d.name) = true := by
  constructor
  · rintro ⟨item, ⟨path, o', n', a, b, hwalk, hrow, -, hitem⟩, hflag⟩
    rw [toEntry_name hitem] at hflag
    rcases (mem_foldedItems hitem).2.2 with ha | ⟨-, hb, hkind⟩
    · exact absurd hflag (base_not_flagged hw ho hwalk ((Server.mem_treeWalk hrow).1 _ ha))
    · exact ⟨path, item.dent, ⟨o', n', hwalk, (Server.mem_treeWalk hrow).2.1 _ hb, hkind⟩, hflag⟩
  · rintro ⟨path, d, ⟨o', n', hwalk, hd, hkind⟩, hflag⟩
    obtain ⟨hclean, hpath⟩ := hwalk.noDotDot ho
    have hdotdot : IsDotDot d := (hw.parts path d.name hflag).resolve_left
      fun ⟨m, hm, hmflag⟩ => hpath m hm hmflag
    obtain ⟨a, hrow⟩ := Server.exists_mem_treeWalk (o := o') hd
    obtain ⟨hmem, -, hname⟩ := Server.mem_treeWalk hrow
    obtain rfl : a = none := by
      refine eq_none_iff_forall_ne_some.mpr fun e he => hclean e (.here (hmem e he)) ?_
      rw [IsDotDot, hname e d he rfl]
      exact hdotdot
    obtain ⟨item, hitem, rfl⟩ := exists_foldedItem hkind path
    exact ⟨item, ⟨path, o', n', none, _, hwalk, hrow, rfl, hitem⟩, by rwa [toEntry_name hitem]⟩

/-! ## The entries after the renames are resolved -/

/-- A server looks at the name of an entry, and at the new name of a renamed one. -/
structure LooksAt (entries : List (DiffEntry Id)) (flag : Change Id → Bool) : Prop where
  entry : ∀ de ∈ entries, flag de.toChange = Server.shouldIgnore de.name
  rename : ∀ del ∈ entries, ∀ add ∈ entries, IsDeleted del.status →
    flag (renameOf del add) = Server.shouldIgnore add.name

variable {entries : List (DiffEntry Id)} {flag : Change Id → Bool}

section

omit [ObjectId Id] [DecidableEq Id]

theorem LooksAt.mono {m : List (DiffEntry Id)} (h : LooksAt entries flag)
    (hm : ∀ de ∈ m, de ∈ entries) : LooksAt m flag :=
  ⟨fun de hde => h.entry de (hm de hde), fun _ hdel _ hadd => h.rename _ (hm _ hdel) _ (hm _ hadd)⟩

theorem any_flag_iff {changes : List (Change Id)}
    (h : Resolved entries changes) (hflag : LooksAt entries flag)
    (hdel : ∀ de ∈ entries, IsDeleted de.status → ¬ Server.shouldIgnore de.name = true) :
    changes.any flag = true ↔ ∃ de ∈ entries, Server.shouldIgnore de.name = true := by
  induction h with
  | nil => simp
  | entry de h ih =>
    have hih := ih (hflag.mono fun _ => .tail _) fun d hd => hdel d (.tail _ hd)
    rw [any_cons, Bool.or_eq_true, hflag.entry de (.head _), hih]
    simp
  | @rename m c deDel deAdd hpair h ih =>
    have hdeleted : IsDeleted deDel.status := hpair.1.imp And.left And.left
    have hih := ih (hflag.mono fun _ hd => .tail _ (.tail _ hd)) fun d hd =>
      hdel d (.tail _ (.tail _ hd))
    rw [any_cons, Bool.or_eq_true, hih,
      hflag.rename deDel (.head _) deAdd (.tail _ (.head _)) hdeleted]
    simp [hdel deDel (.head _) hdeleted]
  | perm hm hc h ih =>
    rw [← hc.any_eq, ih (hflag.mono fun _ => hm.mem_iff.1) fun d hd => hdel d (hm.mem_iff.1 hd)]
    simp [hm.mem_iff]

theorem Server.looksAt (htwo : ∀ de ∈ entries, Fileserver.IsTwoWay de.status) :
    LooksAt entries fun ch => Server.shouldIgnore (Server.checkedName ch) where
  entry de hde := by
    obtain ⟨hren, -, hdirren⟩ := htwo de hde
    simp [checkedName, DiffEntry.toChange, hren, hdirren]
  rename del _ add _ _ := by
    have hstatus : (renameOf del add).status = .renamed ∨
        (renameOf del add).status = .dirRenamed := by
      simp only [renameOf]
      split
      · exact .inr rfl
      · exact .inl rfl
    simp only [checkedName, if_pos hstatus]
    rfl

theorem Fileserver.looksAt
    (hdel : ∀ de ∈ entries, IsDeleted de.status → ¬ Server.shouldIgnore de.name = true) :
    LooksAt entries fun ch => Fileserver.shouldIgnore (Fileserver.checkedName ch) where
  entry de _ := rfl
  rename del hdelm add _ hstatus := by
    by_cases hname : add.name = []
    · have hdelname : Server.shouldIgnore del.name = false := by
        simpa using hdel del hdelm hstatus
      have hcheck : checkedName (renameOf del add) = del.name := by
        simp [checkedName, renameOf, hname]
      rw [hcheck, hname]
      exact hdelname
    · have hcheck : checkedName (renameOf del add) = add.name := by
        simp [checkedName, renameOf, hname]
      rw [hcheck]
      rfl

end

/-! ## When the check does what it is for -/

variable {fuel : ℕ} {base new : Commit Id}

def ShowsFlagged (w : Results Id) (st : FsStore Id) (o n : List (Dirent Id)) : Prop :=
  ∃ path d, Shown st o n path d ∧ Server.shouldIgnore (w.path (basedirOf path) d.name) = true

theorem diffTrees_flagged (hput : w.Puts) (hsplit : w.Splits) (hclean : NoDotDot st o)
    (hdepth : DepthLe st fuel n) :
    ((∃ rs, diffTreesRecursive Server.treeWalk st (twoway w true) fuel [o, n] [] [] = some rs) ↔
      Reads st o n) ∧
    ∀ rs, diffTreesRecursive Server.treeWalk st (twoway w true) fuel [o, n] [] [] = some rs →
      (∀ de ∈ rs, Fileserver.IsTwoWay de.status ∧
        (IsDeleted de.status → ¬ Server.shouldIgnore de.name = true)) ∧
      ((∃ de ∈ rs, Server.shouldIgnore de.name = true) ↔ ShowsFlagged w st o n) := by
  have hrun : Gathers
      (diffTreesRecursive Server.treeWalk st (twoway w true) fuel [o, n] (basedirOf []))
      (Reads st o n) fun x => ∃ item, FoldedItem st o n [] item ∧ x = item.toEntry w :=
    twoway_gathers hput hdepth
  refine ⟨hrun.ends [], fun rs hrs => ?_⟩
  have hmem : ∀ de, de ∈ rs ↔ ∃ item, FoldedItem st o n [] item ∧ de = item.toEntry w := by
    intro de
    rw [hrun.mem [] rs hrs]
    simp
  constructor
  · intro de hde
    obtain ⟨item, ⟨path, o', n', a, b, hwalk, hrow, -, hitem⟩, rfl⟩ := (hmem de).mp hde
    obtain ⟨-, htwo, hdent⟩ := mem_foldedItems hitem
    refine ⟨htwo, fun hdel => ?_⟩
    have ha : a = some item.dent := hdent.resolve_right fun h => h.1 hdel
    rw [toEntry_name hitem]
    exact base_not_flagged hsplit hclean hwalk ((Server.mem_treeWalk hrow).1 _ ha)
  · rw [ShowsFlagged, ← foldedItem_flagged_iff hsplit hclean]
    constructor
    · rintro ⟨de, hde, hflag⟩
      obtain ⟨item, hitem, rfl⟩ := (hmem de).mp hde
      exact ⟨item, hitem, hflag⟩
    · rintro ⟨item, hitem, hflag⟩
      exact ⟨_, (hmem _).mpr ⟨item, hitem, rfl⟩, hflag⟩

section Refuses

variable (hclean : ∀ o, st.getSeafdir base.rootId = some o → NoDotDot st o)
  (hdepth : ∀ n, st.getSeafdir new.rootId = some n → DepthLe st fuel n)
include hclean hdepth

theorem refuses_iff (hput : w.Puts) (hsplit : w.Splits) {refuses : List (DiffEntry Id) → Bool}
    (hrefuses : ∀ rs, (∀ de ∈ rs, Fileserver.IsTwoWay de.status ∧
        (IsDeleted de.status → ¬ Server.shouldIgnore de.name = true)) →
      (refuses rs = true ↔ ∃ de ∈ rs, Server.shouldIgnore de.name = true)) :
    (diffTrees Server.treeWalk st (twoway w true) fuel [base.rootId, new.rootId] []).any refuses =
      true ↔ ∃ o n, st.getSeafdir base.rootId = some o ∧ st.getSeafdir new.rootId = some n ∧
        Reads st o n ∧ ShowsFlagged w st o n := by
  rw [Option.any_eq_true]
  constructor
  · rintro ⟨rs, hrs, href⟩
    obtain ⟨trees, htrees, hrun⟩ := bind_eq_some_iff.mp hrs
    cases ho : st.getSeafdir base.rootId with
    | none => simp [ho] at htrees
    | some o =>
      cases hn : st.getSeafdir new.rootId with
      | none => simp [hn] at htrees
      | some n =>
        obtain rfl : trees = [o, n] := by simpa [ho, hn, eq_comm] using htrees
        obtain ⟨hends, hall⟩ := diffTrees_flagged hput hsplit (hclean o ho) (hdepth n hn)
        obtain ⟨hkinds, hflagged⟩ := hall rs hrun
        exact ⟨o, n, rfl, rfl, hends.mp ⟨rs, hrun⟩, hflagged.mp ((hrefuses rs hkinds).mp href)⟩
  · rintro ⟨o, n, ho, hn, hreads, hshown⟩
    obtain ⟨hends, hall⟩ := diffTrees_flagged hput hsplit (hclean o ho) (hdepth n hn)
    obtain ⟨rs, hrun⟩ := hends.mpr hreads
    obtain ⟨hkinds, hflagged⟩ := hall rs hrun
    refine ⟨rs, ?_, (hrefuses rs hkinds).mpr (hflagged.mpr hshown)⟩
    simp only [diffTrees, mapM_cons, mapM_nil, ho, hn, bind_eq_bind,
      bind_some, Option.pure_def, hrun]

theorem Server.includeInvalidPath_iff :
    Server.includeInvalidPath st fuel base new = true ↔
      ∃ o n, st.getSeafdir base.rootId = some o ∧ st.getSeafdir new.rootId = some n ∧
        Reads st o n ∧ ShowsFlagged Server.results st o n := by
  have hany : ∀ rs : List (DiffEntry Id), (∀ de ∈ rs, Fileserver.IsTwoWay de.status ∧
      (IsDeleted de.status → ¬ shouldIgnore de.name = true)) →
      (((diffResolveRenames rs).any fun ch => shouldIgnore (checkedName ch)) =
        true ↔ ∃ de ∈ rs, shouldIgnore de.name = true) := fun rs hrs =>
    any_flag_iff (diffResolveRenames_resolved rs)
      (looksAt fun de hde => (hrs de hde).1) fun de hde => (hrs de hde).2
  rw [← refuses_iff hclean hdepth puts_results splits_results hany]
  simp only [includeInvalidPath, diffCommits, diffCommitRoots, Option.any_map]

theorem Fileserver.includeInvalidPath_iff {order : List (DiffEntry Id) → List (DiffEntry Id)}
    (horder : ∀ l, (order l).Perm l) :
    Fileserver.includeInvalidPath order st fuel base new = true ↔
      ∃ o n, st.getSeafdir base.rootId = some o ∧ st.getSeafdir new.rootId = some n ∧
        Reads st o n ∧ ShowsFlagged Fileserver.results st o n := by
  have hany : ∀ rs : List (DiffEntry Id), (∀ de ∈ rs, IsTwoWay de.status ∧
      (IsDeleted de.status → ¬ Server.shouldIgnore de.name = true)) →
      (((diffResolveRenames order rs).any fun ch =>
        shouldIgnore (checkedName ch)) = true ↔
        ∃ de ∈ rs, Server.shouldIgnore de.name = true) := fun rs hrs =>
    any_flag_iff (resolved_of_twoWay horder fun de hde => (hrs de hde).1)
      (looksAt fun de hde => (hrs de hde).2) fun de hde => (hrs de hde).2
  have hwalk : (treeWalk : List (List (Dirent Id)) → List (Row Id)) = Server.treeWalk :=
    funext treeWalk_eq
  rw [← refuses_iff hclean hdepth puts_results splits_results hany]
  simp only [includeInvalidPath, diffCommits, diffCommitRoots,
    hwalk, Option.any_map]

end Refuses

theorem keepsOut_iff {found invalid : Bool}
    (h : invalid = true ↔ ∃ o n, st.getSeafdir base.rootId = some o ∧
      st.getSeafdir new.rootId = some n ∧ Reads st o n ∧ ShowsFlagged w st o n) :
    KeepsOut found st base new (!(found && invalid)) ↔
      Diffable found st base new fun o n =>
        ∀ d, StandsBelow st n d → IsDotDot d → ShowsFlagged w st o n := by
  constructor
  · intro hkeeps
    cases hpass : !(found && invalid) with
    | true =>
      obtain ⟨hfound, o, n, ho, hn, hreads, hno⟩ := hkeeps hpass
      exact ⟨hfound, o, n, ho, hn, hreads, fun d hd hdot => absurd hdot (hno d hd)⟩
    | false =>
      obtain ⟨hfound, hinvalid⟩ : found = true ∧ invalid = true := by simpa using hpass
      obtain ⟨o, n, ho, hn, hreads, hshown⟩ := h.mp hinvalid
      exact ⟨hfound, o, n, ho, hn, hreads, fun _ _ _ => hshown⟩
  · rintro ⟨hfound, o, n, ho, hn, hreads, hall⟩ hpass
    refine ⟨hfound, o, n, ho, hn, hreads, fun d hd hdot => ?_⟩
    have hinvalid : invalid = true := h.mpr ⟨o, n, ho, hn, hreads, hall d hd hdot⟩
    rw [hfound, hinvalid] at hpass
    cases hpass

theorem Server.showsFlagged_iff (hclean : NoDotDot st o) :
    ShowsFlagged Server.results st o n ↔ ∃ path d, Shown st o n path d ∧ IsDotDot d := by
  refine exists_congr fun path => exists_congr fun d => and_congr_right ?_
  rintro ⟨o', n', hwalk, -, -⟩
  constructor
  · intro hflag
    exact (splits_results.parts path d.name hflag).resolve_left fun ⟨m, hm, hmflag⟩ =>
      (hwalk.noDotDot hclean).2 m hm hmflag
  · intro hdot
    rw [results, shouldIgnore_iff, fields_basedirOf]
    exact mem_append_right _ (shouldIgnore_iff.mp hdot)

/-- **When the check keeps `..` entries out**: the diff can read what it visits, and a tree with
    such an entry has one in a directory that the diff visits, for the file server one whose cleaned
    path still has a `..` part. -/
theorem invalidPath_sound_iff (found : Bool) {order : List (DiffEntry Id) → List (DiffEntry Id)}
    (horder : ∀ l, (order l).Perm l)
    (hclean : ∀ o, st.getSeafdir base.rootId = some o → NoDotDot st o)
    (hdepth : ∀ n, st.getSeafdir new.rootId = some n → DepthLe st fuel n) :
    (KeepsOut found st base new (Server.passesPathCheck found st fuel base new) ↔
      Diffable found st base new fun o n => ∀ d, StandsBelow st n d → IsDotDot d →
        ∃ path e, Shown st o n path e ∧ IsDotDot e) ∧
    (KeepsOut found st base new (Fileserver.passesPathCheck order found st fuel base new) ↔
      Diffable found st base new fun o n => ∀ d, StandsBelow st n d → IsDotDot d →
        ∃ path e, Shown st o n path e ∧
          Fileserver.shouldIgnore (join [basedirOf path, e.name]) = true) := by
  constructor
  · rw [Server.passesPathCheck, keepsOut_iff (Server.includeInvalidPath_iff hclean hdepth)]
    refine and_congr_right fun _ => exists_congr fun o => exists_congr fun n =>
      and_congr_right fun ho => ?_
    simp only [Server.showsFlagged_iff (hclean o ho)]
  · exact keepsOut_iff (Fileserver.includeInvalidPath_iff hclean hdepth horder)

end

/-! A base without entries, and an upload with a `..` entry in a new directory. -/

def dotdotFile : Dirent ℕ := .new 0o100644 emptySha1 ['.', '.'] 0 ['u'] 0

def dotdotDir : Dirent ℕ := .new 0o040000 (sha1 (.dir [dotdotFile])) ['d'] 0 [] 0

theorem nonempty_dotdotFile : (FsObj.dir [dotdotFile]).Nonempty := cons_ne_nil _ _

theorem nonempty_dotdotDir : (FsObj.dir [dotdotDir]).Nonempty := cons_ne_nil _ _

def dotdotStore : FsStore ℕ :=
  (FsStore.empty.insert (.dir [dotdotFile]) nonempty_dotdotFile).insert (.dir [dotdotDir])
    nonempty_dotdotDir

def emptyCommit : Commit ℕ := ⟨1, emptySha1, 0, none, none⟩

def dotdotCommit : Commit ℕ := ⟨2, sha1 (.dir [dotdotDir]), 0, some 1, none⟩

/-- The `..` entry passes both checks, and so does a tree that cannot be read. -/
theorem dotdot_passes :
    (Server.passesPathCheck true dotdotStore 3 emptyCommit dotdotCommit = true ∧
      Fileserver.passesPathCheck id true dotdotStore 3 emptyCommit dotdotCommit = true ∧
      ∃ n, dotdotStore.getSeafdir dotdotCommit.rootId = some n ∧
        StandsBelow dotdotStore n dotdotFile ∧ dotdotFile.name = ['.', '.']) ∧
    dotdotStore.getSeafdir emptyCommit.rootId = some [] ∧
    (Server.passesPathCheck true FsStore.empty 3 emptyCommit dotdotCommit = true ∧
      Fileserver.passesPathCheck id true FsStore.empty 3 emptyCommit dotdotCommit = true ∧
      (FsStore.empty : FsStore ℕ).getSeafdir dotdotCommit.rootId = none) := by
  have hroot : dotdotStore.getSeafdir dotdotCommit.rootId = some [dotdotDir] := by decide +kernel
  have hdir : dotdotStore.getSeafdir dotdotDir.id = some [dotdotFile] := by decide +kernel
  refine ⟨⟨by decide +kernel, by decide +kernel, [dotdotDir], hroot, ?_, rfl⟩, rfl,
    by decide +kernel, by decide +kernel, by decide +kernel⟩
  exact .down (mem_singleton_self _) (by decide) hdir (.here (mem_singleton_self _))

def rootDotdotCommit : Commit ℕ := ⟨3, sha1 (.dir [dotdotFile]), 0, some 1, none⟩

theorem root_dotdot_kept_out :
    KeepsOut true dotdotStore emptyCommit rootDotdotCommit
      (Server.passesPathCheck true dotdotStore 3 emptyCommit rootDotdotCommit) ∧
    KeepsOut true dotdotStore emptyCommit rootDotdotCommit
      (Fileserver.passesPathCheck id true dotdotStore 3 emptyCommit rootDotdotCommit) := by
  have hbase : dotdotStore.getSeafdir emptyCommit.rootId = some [] := rfl
  have hroot : dotdotStore.getSeafdir rootDotdotCommit.rootId = some [dotdotFile] := by
    decide +kernel
  have hclean : ∀ o, dotdotStore.getSeafdir emptyCommit.rootId = some o →
      NoDotDot dotdotStore o := by
    intro o ho d hd
    cases hbase.symm.trans ho
    cases hd with
    | here hmem => cases hmem
    | down hmem => cases hmem
  have hdepth : ∀ n, dotdotStore.getSeafdir rootDotdotCommit.rootId = some n →
      DepthLe dotdotStore 3 n := by
    intro n hn d hd hdir
    cases hroot.symm.trans hn
    cases mem_singleton.mp hd
    exact absurd hdir (by decide)
  have hreads : Reads dotdotStore [] [dotdotFile] := reads_iff.mpr fun d d' hload =>
    absurd ((Server.mem_treeWalk hload.1).1 d rfl) not_mem_nil
  have hshown : Shown dotdotStore [] [dotdotFile] [] dotdotFile :=
    ⟨_, _, .here _ _, mem_singleton_self _, .inl (by decide)⟩
  have hsound := invalidPath_sound_iff true (fun l : List (DiffEntry ℕ) => Perm.refl (id l))
    hclean hdepth
  exact ⟨hsound.1.mpr ⟨rfl, [], [dotdotFile], hbase, hroot, hreads, fun _ _ _ =>
      ⟨[], dotdotFile, hshown, by unfold IsDotDot; decide⟩⟩,
    hsound.2.mpr ⟨rfl, [], [dotdotFile], hbase, hroot, hreads, fun _ _ _ =>
      ⟨[], dotdotFile, hshown, by decide +kernel⟩⟩⟩

end CloudFile
