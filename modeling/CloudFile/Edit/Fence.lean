/-
  The fence around checked-out files (`common/cf-v2-edit-fence.c`,
  `fileserver/cf_v2_edit_fence.go`). A publication computes its changes before the transaction and
  is refused under the lock if one is a checked-out path or a directory above it. `Fences`: what
  the changes have to say for that to be enough.
-/
import CloudFile.Edit.Fenced
import CloudFile.Diff.Renames
import CloudFile.Publish.UpdateBranch

namespace CloudFile

open SortedWalk GoPath List

variable {Id D : Type} [ObjectId Id] [CommitId Id] [DecidableEq Id] [DecidableEq D]

/-! ## The model -/

/-- Whether the checkout of a library is enabled, where an invalid configuration says neither, and
    whether the guard table was there at the start. -/
structure CheckoutSetup where
  policy : Option Bool
  available : Bool

/-- The rows `guard_id IS NOT NULL AND lease_expires_at > UTC_TIMESTAMP(6)`. -/
def activePaths (db : EditDb Id D) (utc : ℤ) : List Name :=
  (db.guards.entries.filter fun row => row.2.guard.any fun g => utc < g.expires).map Sigma.fst

/-- The paths of these rows, unless one is invalid or there are too many. -/
def readGuardPaths (valid : Name → Bool) (db : EditDb Id D) (utc : ℤ) : Option (List Name) :=
  if (activePaths db utc).all valid && (activePaths db utc).length ≤ 8192 then
    some (activePaths db utc)
  else none

/-- `path_touches`, and the loop of `cfV2EditTouchesPath`: the guarded path or one above it. -/
def pathTouches (changed guarded : Name) : Bool :=
  changed ≠ [] && ('/' :: stripSlash changed = guarded ||
    ('/' :: stripSlash changed ++ ['/']).isPrefixOf guarded)

/-- The change is at, above or below the path. -/
def Change.touches (ch : Change Id) (guarded : Name) : Bool :=
  pathTouches ch.name guarded || pathTouches ch.newName guarded

/-- No change touches one of the paths. -/
def untouched (changes : List (Change Id)) (paths : List Name) : Bool :=
  changes.all fun ch => paths.all fun path => !ch.touches path

/-- The changes of a publication, and the commits they are between. -/
structure Prepared (Id : Type) where
  old : Id
  new : Id
  changes : List (Change Id)

namespace Server

/-- The changes of a commit, before the transaction. -/
def cfV2EditPrepareUnscopedBranch (setup : CheckoutSetup) (o : Objects Id) (fuel : ℕ)
    (oldCommitId newCommitId : Id) : Option (Prepared Id) :=
  match setup.policy with
  | none => none
  | some false => some ⟨oldCommitId, newCommitId, []⟩
  | some true =>
    if oldCommitId = newCommitId then some ⟨oldCommitId, newCommitId, []⟩
    else if !setup.available then none
    else o.commits oldCommitId >>= fun c => o.commits newCommitId >>= fun c' =>
      (diffCommits o.fs fuel c.rootId c'.rootId false).map fun changes =>
        ⟨oldCommitId, newCommitId, changes⟩

/-- `read_guard_path` -/
def guardPathOk (path : Name) : Bool :=
  path.head? = some '/' && (String.ofList path).utf8ByteSize ≤ 4096

/-- `cf_v2_edit_check_unscoped_branch`; `readRows` is whether the rows can be read. -/
def cfV2EditCheckUnscopedBranch (setup : CheckoutSetup) (readRows : Bool) (db : EditDb Id D)
    (utc : ℤ) (oldCommitId newCommitId : Id) (prepared : Prepared Id) : Bool :=
  prepared.old = oldCommitId && prepared.new = newCommitId && match setup.policy with
    | none => false
    | some false => true
    | some true => setup.available && readRows &&
        (readGuardPaths guardPathOk db utc).any (untouched prepared.changes)

end Server

namespace Fileserver

/-- The changes of a commit, before the transaction. -/
def cfV2EditPrepareUnscopedBranch (setup : CheckoutSetup)
    (order : List (DiffEntry Id) → List (DiffEntry Id)) (o : Objects Id) (fuel : ℕ)
    (oldCommitID newCommitID : Id) : Option (Prepared Id) :=
  if setup.policy ≠ some true then some ⟨oldCommitID, newCommitID, []⟩
  else if !setup.available then none
  else if oldCommitID = newCommitID then some ⟨oldCommitID, newCommitID, []⟩
  else o.commits oldCommitID >>= fun c => o.commits newCommitID >>= fun c' =>
    (diffCommits order o.fs fuel c.rootId c'.rootId false).map fun changes =>
      ⟨oldCommitID, newCommitID, changes⟩

/-- What `cfV2EditCheckPreparedBranch` asks of the path in a row. -/
def guardPathOk (path : Name) : Bool := path.head? = some '/'

/-- The check of the guards, in the transaction. -/
def cfV2EditCheckPreparedBranch (setup : CheckoutSetup) (readRows : Bool) (db : EditDb Id D)
    (utc : ℤ) (prepared : Prepared Id) : Bool :=
  if setup.policy ≠ some true then true
  else setup.available && readRows &&
    (readGuardPaths guardPathOk db utc).any (untouched prepared.changes)

end Fileserver

/-! ## Which paths are read, and which are touched -/

variable {db : EditDb Id D} {g : Guard Id D} {utc : ℤ} {path : Name} {changes : List (Change Id)}

section

omit [ObjectId Id] [CommitId Id] [DecidableEq Id] [DecidableEq D]

theorem mem_activePaths (hg : (db.row path).guard = some g) (hexp : utc < g.expires) :
    path ∈ activePaths db utc := by
  obtain ⟨row, hrow, hg⟩ := lookup_of_guard hg
  have hmem : (⟨path, row⟩ : Sigma fun _ : Name => GuardRow Id D) ∈ db.guards.entries :=
    AList.mem_lookup_iff.1 hrow
  refine mem_map.2 ⟨_, mem_filter.2 ⟨hmem, ?_⟩, rfl⟩
  simp [hg, hexp]

theorem untouched_spec {valid : Name → Bool} {ch : Change Id}
    (h : (readGuardPaths valid db utc).any (untouched changes) = true)
    (hg : (db.row path).guard = some g) (hexp : utc < g.expires) (hch : ch ∈ changes) :
    ch.touches path = false := by
  unfold readGuardPaths at h
  split_ifs at h with hread
  · simp only [Option.any_some, untouched, all_eq_true, Bool.not_eq_true'] at h
    exact h ch hch path (mem_activePaths hg hexp)
  · simp at h

end

variable {path : List Name}

theorem stripSlash_joinFields (hne : path ≠ []) (h : ∀ n ∈ path, ValidName n) :
    stripSlash (joinFields path) = joinFields path := by
  obtain ⟨n, rest, rfl⟩ := exists_cons_of_ne_nil hne
  obtain ⟨c, cs, rfl⟩ := exists_cons_of_ne_nil (h n mem_cons_self).1.1
  have hc : c ≠ '/' := fun he => (h _ mem_cons_self).1.2 (by simp [he])
  cases rest <;> simp [joinFields, stripSlash, hc]

theorem pathTouches_self (hne : path ≠ []) (h : ∀ n ∈ path, ValidName n) :
    pathTouches (joinFields path) ('/' :: joinFields path) = true := by
  simp [pathTouches, joinFields_ne_nil hne h, stripSlash_joinFields hne h]

omit [ObjectId Id] [CommitId Id] [DecidableEq Id] in
theorem touches_of_reported {s : DiffStatus} (h : Reported changes s (joinFields path))
    (hne : path ≠ []) (hv : ∀ n ∈ path, ValidName n) :
    ∃ ch ∈ changes, ch.touches ('/' :: joinFields path) = true := by
  obtain ⟨ch, hch, de, hcov, -, hname⟩ := h
  have hself := pathTouches_self hne hv
  refine ⟨ch, hch, ?_⟩
  rw [Change.touches, Bool.or_eq_true]
  rcases hcov with rfl | ⟨-, hn | hn⟩
  · left
    show pathTouches de.name _ = true
    rwa [hname]
  · exact .inl (by rwa [hn, hname])
  · exact .inr (by rwa [hn, hname])

/-! ## Changes that fence -/

/-- The entry has not changed. -/
def SameFile (d : Dirent Id) (e : Option (Dirent Id)) : Prop :=
  ∃ d', e = some d' ∧ d'.id = d.id ∧ d'.mode = d.mode ∧ d'.mtime = d.mtime

variable {d : Dirent Id} {e : Option (Dirent Id)} {k : ℕ} {o o' : Objects Id} {p : Prepared Id}
  {c c' : Commit Id}

omit [ObjectId Id] [CommitId Id] [DecidableEq Id] in
theorem SameFile.of_eq (h : e = some d) : SameFile d e :=
  ⟨d, h, rfl, rfl, rfl⟩

omit [CommitId Id] in
theorem differs_of_not_same (st : FsStore Id) (hreg : d.isReg = true) (h : ¬ SameFile d e) :
    ∃ s, Differs st s (some d) e := by
  by_cases hr : RegAt e
  · obtain ⟨d', rfl, hreg'⟩ := hr
    refine ⟨_, .modified hreg hreg' ?_⟩
    by_contra hsame
    simp only [ne_eq, not_or, not_not] at hsame
    exact h ⟨d', by simp, hsame.1.symm, hsame.2.1.symm, hsame.2.2.symm⟩
  · exact ⟨_, .deleted ⟨d, by simp, hreg⟩ hr⟩

/-- All commits have readable trees with sorted unique names, of a bounded depth. -/
def SortedTrees (k : ℕ) (o : Objects Id) : Prop :=
  ∀ id c, o.commits id = some c → Tree (Desc Dirent.name) o.fs k c.rootId

/-- Both commits are there, and a regular file of the old one that is not the same in the new
    one is touched by a change. -/
structure Fences (k : ℕ) (o : Objects Id) (p : Prepared Id) (c c' : Commit Id) : Prop where
  old : o.commits p.old = some c
  new : o.commits p.new = some c'
  oldTree : Tree (Desc Dirent.name) o.fs k c.rootId
  newTree : Tree (Desc Dirent.name) o.fs k c'.rootId
  touches : ∀ path d, (∀ n ∈ path, ValidName n) → entryAt o.fs c.rootId path = some d →
    d.isReg = true → ¬ SameFile d (entryAt o.fs c'.rootId path) →
    ∃ ch ∈ p.changes, ch.touches ('/' :: joinFields path) = true

/-- Nothing stored is lost. -/
structure Objects.Grows (o o' : Objects Id) : Prop where
  fs : o.fs ≤ o'.fs
  commits : ∀ id c, o.commits id = some c → o'.commits id = some c

omit [DecidableEq Id] in
theorem Objects.Grows.refl (o : Objects Id) : o.Grows o := ⟨le_rfl, fun _ _ h => h⟩

theorem Fences.mono (h : Fences k o p c c') (hg : o.Grows o') : Fences k o' p c c' where
  old := hg.commits _ _ h.old
  new := hg.commits _ _ h.new
  oldTree := h.oldTree.store_mono hg.fs
  newTree := h.newTree.store_mono hg.fs
  touches path d hv hd hreg hk := by
    rw [h.oldTree.entryAt_mono hg.fs] at hd
    rw [h.newTree.entryAt_mono hg.fs] at hk
    exact h.touches path d hv hd hreg hk

theorem fences_of_reported (hs : SortedTrees k o) (hold : o.commits p.old = some c)
    (hnew : o.commits p.new = some c') (hrep : ∀ path s, (∀ n ∈ path, ValidName n) →
      Differs o.fs s (entryAt o.fs c.rootId path) (entryAt o.fs c'.rootId path) →
      Reported p.changes s (joinFields path)) : Fences k o p c c' where
  old := hold
  new := hnew
  oldTree := hs _ _ hold
  newTree := hs _ _ hnew
  touches path d hv hd hreg hk := by
    obtain ⟨s, hdiff⟩ := differs_of_not_same o.fs hreg hk
    rw [← hd] at hdiff
    refine touches_of_reported (hrep path s hv hdiff) ?_ hv
    rintro rfl
    simp [entryAt] at hd

section Enabled

variable {setup : CheckoutSetup} (henabled : setup.policy = some true) {old new : Id}
include henabled

theorem Server.prepare_fences (hs : SortedTrees k o)
    (h : Server.cfV2EditPrepareUnscopedBranch setup o k old new = some p) :
    p.old = old ∧ p.new = new ∧ (old = new ∨ ∃ c c', Fences k o p c c') := by
  simp only [cfV2EditPrepareUnscopedBranch, henabled] at h
  split_ifs at h with hsame
  · cases h
    exact ⟨rfl, rfl, .inl hsame⟩
  · simp only [Option.bind_eq_bind, Option.bind_eq_some_iff, Option.map_eq_some_iff] at h
    obtain ⟨c, hc, c', hc', changes, hdiff, rfl⟩ := h
    refine ⟨rfl, rfl, .inr ⟨c, c', fences_of_reported hs hc hc' fun path s hv hd => ?_⟩⟩
    exact (diffCommits_reported (hs _ _ hc) (hs _ _ hc') hv hd).1 changes hdiff

theorem Fileserver.prepare_fences {order : List (DiffEntry Id) → List (DiffEntry Id)}
    (horder : ∀ l, (order l).Perm l) (hs : SortedTrees k o)
    (h : Fileserver.cfV2EditPrepareUnscopedBranch setup order o k old new = some p) :
    p.old = old ∧ p.new = new ∧ (old = new ∨ ∃ c c', Fences k o p c c') := by
  simp only [cfV2EditPrepareUnscopedBranch, henabled, ne_eq, not_true_eq_false,
    if_false] at h
  split_ifs at h with hav hsame
  · cases h
    exact ⟨rfl, rfl, .inl hsame⟩
  · simp only [Option.bind_eq_bind, Option.bind_eq_some_iff, Option.map_eq_some_iff] at h
    obtain ⟨c, hc, c', hc', changes, hdiff, rfl⟩ := h
    refine ⟨rfl, rfl, .inr ⟨c, c', fences_of_reported hs hc hc' fun path s hv hd => ?_⟩⟩
    exact (diffCommits_reported (hs _ _ hc) (hs _ _ hc') hv hd).2 order changes horder hdiff

variable {readRows : Bool} {db : EditDb Id D} {utc : ℤ} {path : Name} {g : Guard Id D}
  {ch : Change Id} (hg : (db.row path).guard = some g) (hexp : utc < g.expires)
  (hch : ch ∈ p.changes)
include hg hexp hch

omit [ObjectId Id] [CommitId Id] [DecidableEq D] in
theorem Server.check_untouched
    (h : Server.cfV2EditCheckUnscopedBranch setup readRows db utc old new p = true) :
    ch.touches path = false := by
  simp only [cfV2EditCheckUnscopedBranch, henabled, Bool.and_eq_true] at h
  exact untouched_spec h.2.2 hg hexp hch

omit [ObjectId Id] [CommitId Id] [DecidableEq Id] [DecidableEq D] in
theorem Fileserver.check_untouched
    (h : Fileserver.cfV2EditCheckPreparedBranch setup readRows db utc p = true) :
    ch.touches path = false := by
  simp only [cfV2EditCheckPreparedBranch, henabled, ne_eq, not_true_eq_false, if_false,
    Bool.and_eq_true] at h
  exact untouched_spec h.2 hg hexp hch

end Enabled

end CloudFile
