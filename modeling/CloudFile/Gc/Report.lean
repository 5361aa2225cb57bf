/-
  What `gc_v1_repo` returns (`server/gc/gc-core.c`, `server/gc/repo-mgr.c`). A negative value is a
  failed run. A transaction that cannot be begun or committed, a failed removal of objects and
  failed queries are not reported so; and where the run stops before `data` is set, `gc_data_free`
  gets a wild pointer.
-/
import Mathlib.Data.Int.Order.Basic

namespace CloudFile

variable {Id : Type}

/-- What the queries of `seaf_repo_manager_get_repo_truncate_time` give: `none` if one fails. -/
structure TruncateQueries where
  /-- whether the info of a virtual library can be read; if not, it is taken for none -/
  virtualInfo : Bool
  limit : Option (Option ℤ)
  validSince : Option (Option ℤ)
  /-- the configured limit -/
  keepDays : ℤ
  now : ℤ

namespace TruncateQueries

variable (q : TruncateQueries)

/-- `seaf_repo_manager_get_repo_history_limit` -/
def historyLimit : ℤ :=
  let perRepoDays := match q.limit with
    | none => -1
    | some none => q.keepDays
    | some (some days) => days
  if perRepoDays < 0 then -1 else perRepoDays

/-- `seaf_repo_manager_get_repo_valid_since` -/
def getValidSince : ℤ := q.validSince.join.getD (-1)

/-- `seaf_repo_manager_get_repo_truncate_time` -/
def truncateTime : ℤ :=
  if 0 < q.historyLimit then max (q.now - q.historyLimit * 24 * 3600) q.getValidSince
  else if q.historyLimit < 0 then q.getValidSince
  else 0

/-- No query has failed. -/
def passed : Bool := q.virtualInfo && q.limit.isSome && q.validSince.isSome

end TruncateQueries

/-- A virtual library in `populate_gc_index_for_virtual_repos`. -/
structure GcVirtual where
  getRepo : Bool
  /-- the queries of `gc_data_new` -/
  dataNew : Bool
  populated : Option ℕ
  newCommits : Option ℕ

/-- A virtual library in `populate_gc_index_for_base_commit`: whether its info can be queried, and
    how the traversal of the base commit ends, if there is one. -/
structure GcBase where
  info : Bool
  traversed : Option Bool

/-- What the steps of a call do.  One that fails gives `none` or `false`; to populate an index
    gives the number of blocks that were traversed. -/
structure GcOutcomes (Id : Type) where
  limits : TruncateQueries
  existBlocks : Option (List Id)
  existFs : Option (List Id)
  blocksIndex : Bool
  fsIndex : Bool
  /-- the queries of `gc_data_new` -/
  dataNew : Bool
  forRepo : Option ℕ
  virtuals : Option (List GcVirtual)
  bases : Option (List GcBase)
  baseBlocks : ℕ
  beginTransaction : Bool
  /-- the query for the GC id -/
  gcIdExists : Bool
  forNewCommits : Option ℕ
  /-- the queries that keep the transaction alive -/
  keepAlive : Bool
  blockTest : Id → Bool
  removeBlock : Id → Bool
  fsTest : Id → Bool
  deleteObject : Id → Bool
  commit : Bool

/-- What a call returns, `none` if it frees a pointer that was never set.  Whether a step has
    failed is noted for the proofs only. -/
structure GcReport where
  ret : Option ℤ
  failed : Bool

/-- `check_existing_blocks`, `check_existing_fs` -/
def checkExisting (exist : List Id) (test remove : Id → Bool) (dryRun : Bool) : ℤ :=
  let dead := exist.filter fun id => !test id
  if dead.all fun id => dryRun || remove id then dead.length else -1

namespace GcOutcomes

variable (o : GcOutcomes Id) (dryRun online rmFs : Bool)

/-- `populate_gc_index_for_virtual_repos`: a list that cannot be read is taken for empty. -/
def forVirtualRepos : Option ℕ :=
  (o.virtuals.getD []).foldlM
    (fun ret v => if v.getRepo then v.populated.map (ret + ·) else none) 0

/-- `populate_gc_index_for_base_commit` -/
def forBaseCommit : Option ℕ :=
  if (o.bases.getD []).all fun v => !v.info || v.traversed.getD true then some o.baseBlocks
  else none

/-- `populate_gc_index_for_virtual_repos_for_new_commits` -/
def forNewVirtuals : Option ℕ :=
  (o.virtuals.getD []).reverse.foldlM (fun ret v => v.newCommits.map (ret + ·)) 0

/-- The traversals before the transaction. -/
def populate : Option ℕ := do
  let _ ← o.forRepo
  let ret ← o.forVirtualRepos
  if rmFs then o.forBaseCommit else return ret

/-- The traversals in the transaction. -/
def populateNew : Option ℕ := do
  let _ ← o.forNewCommits
  o.forNewVirtuals

/-- No query has failed whose failure is not looked at. -/
def quiet : Bool :=
  o.limits.passed && o.dataNew && o.virtuals.any (fun vs => vs.all GcVirtual.dataNew) &&
    (!rmFs || o.bases.any (fun vs => vs.all GcBase.info)) &&
    (!online || o.gcIdExists && o.keepAlive)

/-- The fs objects of the store, where they are to be collected. -/
def listFs : Option (List Id) := if rmFs then o.existFs else some []

/-- `gc_v1_repo`, once `data` is set. -/
def scan (blocks fs : List Id) : GcReport :=
  match o.populate rmFs with
  | none => ⟨some (-1), true⟩
  | some ret =>
    if online && !o.beginTransaction then ⟨some ret, true⟩
    else match o.populateNew with
      | none => ⟨some (-1), true⟩
      | some _ =>
        let ret := checkExisting blocks o.blockTest o.removeBlock dryRun
        if ret < 0 then ⟨some ret, true⟩
        -- `removed_fs` is looked at, but `ret` is returned
        else if checkExisting fs o.fsTest o.deleteObject dryRun < 0 then ⟨some ret, true⟩
        else ⟨some ret, !o.quiet online rmFs || online && !o.commit⟩

/-- `gc_v1_repo` -/
def gcV1Repo : GcReport :=
  if o.limits.truncateTime < 0 then ⟨some 0, !o.limits.passed⟩
  else match o.existBlocks with
    | none => ⟨some (-1), true⟩
    | some [] => ⟨some 0, !o.limits.passed⟩
    | some (b :: bs) => match o.listFs rmFs with
      | none => ⟨none, true⟩
      | some fs =>
        if !o.blocksIndex || !fs.isEmpty && !o.fsIndex then ⟨none, true⟩
        else o.scan dryRun online rmFs (b :: bs) fs

/-- Every object without a live reference is removed. -/
def Removes (exist : List Id) (test remove : Id → Bool) : Prop :=
  ∀ id ∈ exist, test id = true ∨ dryRun = true ∨ remove id = true

theorem removes_iff (exist : List Id) (test remove : Id → Bool) :
    Removes dryRun exist test remove ↔ ¬ checkExisting exist test remove dryRun < 0 := by
  have hall : Removes dryRun exist test remove ↔
      ((exist.filter fun id => !test id).all fun id => dryRun || remove id) = true := by
    simp only [Removes, List.all_eq_true, List.mem_filter, Bool.or_eq_true, and_imp]
    refine forall₂_congr fun id _ => ?_
    cases test id <;> simp
  rw [hall]
  simp only [checkExisting]
  split_ifs with h <;> simp [h]

/-- In the scan, the steps that fail without a report do not fail, if the run comes to them. -/
def ScanPasses (blocks fs : List Id) : Prop :=
  (o.populate rmFs).isSome → (online = true → o.beginTransaction = true) ∧
    (o.populateNew.isSome → Removes dryRun blocks o.blockTest o.removeBlock →
      Removes dryRun fs o.fsTest o.deleteObject ∧ o.quiet online rmFs = true ∧
      (online = true → o.commit = true))

/-- No step fails without a report. -/
def Passes : Prop :=
  (o.limits.truncateTime < 0 ∨ o.existBlocks = some [] → o.limits.passed = true) ∧
  (0 ≤ o.limits.truncateTime → ∀ b bs, o.existBlocks = some (b :: bs) →
    ∃ fs, o.listFs rmFs = some fs ∧ o.blocksIndex = true ∧ (fs ≠ [] → o.fsIndex = true) ∧
      o.ScanPasses dryRun online rmFs (b :: bs) fs)

end GcOutcomes

/-- The value that is returned is negative exactly if a step has failed. -/
def GcReport.Faithful (r : GcReport) : Prop :=
  ∃ ret, r.ret = some ret ∧ (ret < 0 ↔ r.failed = true)

theorem GcOutcomes.scan_faithful_iff (o : GcOutcomes Id) (dryRun online rmFs : Bool)
    (blocks fs : List Id) : (o.scan dryRun online rmFs blocks fs).Faithful ↔
      o.ScanPasses dryRun online rmFs blocks fs := by
  unfold scan ScanPasses
  cases o.populate rmFs with
  | none => simp [GcReport.Faithful]
  | some ret =>
    cases o.populateNew with
    | none => cases online <;> cases o.beginTransaction <;> simp [GcReport.Faithful]
    | some n =>
      simp only [removes_iff]
      generalize checkExisting blocks o.blockTest o.removeBlock dryRun = removed
      generalize checkExisting fs o.fsTest o.deleteObject dryRun = removedFs
      generalize o.quiet online rmFs = quiet
      by_cases hblocks : removed < 0 <;> by_cases hfs : removedFs < 0 <;>
        cases online <;> cases o.beginTransaction <;> cases quiet <;>
        simp [GcReport.Faithful, hblocks, hfs] <;> omega

/-- A library with one dead block; `commit` is whether the database commits, `virtuals` what the
    query for the virtual libraries gives. -/
def oneDead (commit : Bool) (virtuals : Option (List GcVirtual)) : GcOutcomes ℕ where
  limits := ⟨true, some (some 0), some none, -1, 0⟩
  existBlocks := some [7]
  existFs := some []
  blocksIndex := true
  fsIndex := true
  dataNew := true
  forRepo := some 0
  virtuals := virtuals
  bases := some []
  baseBlocks := 0
  beginTransaction := true
  gcIdExists := true
  forNewCommits := some 0
  keepAlive := true
  blockTest _ := false
  removeBlock _ := true
  fsTest _ := false
  deleteObject _ := true
  commit := commit

theorem not_faithful_of_ret {r : GcReport} {ret : ℤ} (hret : r.ret = some ret) (hpos : 0 ≤ ret)
    (hfailed : r.failed = true) : ¬ r.Faithful := by
  rintro ⟨ret', hret', hneg⟩
  obtain rfl := Option.some.inj (hret.symm.trans hret')
  exact absurd (hneg.2 hfailed) (not_lt.2 hpos)

end CloudFile
