/-
  What one step of the garbage collector can do.

  `GcMove` lists the outcomes of `gcStep`, each with what it needs and the
  state it leads to (`gcStep_move`); the invariants of the garbage collector
  are proved from it case by case.
-/
import CloudFile.Gc.Machine

namespace CloudFile

variable {Id : Type} [ObjectId Id] [DecidableEq Id]

/-- The outcomes of a step of the garbage collector. -/
inductive GcMove (env : GcEnv Id) (s : Sys Id) : GcEvent Id → Sys Id → Prop
  | load {online dryRun rmFs : Bool} {repo : Repo Id} : s.gc = .idle →
      getRepo s env.library false = some repo →
      GcMove env s (.load online dryRun rmFs) { s with gc := .loaded repo online dryRun rmFs }
  /-- the library keeps all its history, has no blocks, or there is no memory -/
  | skip {repo : Repo Id} {online dryRun rmFs : Bool} : s.gc = .loaded repo online dryRun rmFs →
      GcMove env s .collect s.out
  | collect {repo : Repo Id} {online dryRun rmFs : Bool} {index : GCIndex} {existFs : Finset Id} :
      s.gc = .loaded repo online dryRun rmFs →
      GcMove env s .collect (s.goOn ⟨online, dryRun, rmFs, .main, s.store.blocks, existFs, index,
        gcDataNew repo (env.truncateTime repo.id), [], none, false, false⟩)
  /-- a traversal fails, or the transaction cannot be begun -/
  | fail {run : GcRun Id} {e : GcEvent Id} : s.gc = .running run →
      (e = .populate ∧ run.stage = .main ∨
        (e = .populateVirtual ∧ ∃ v todo, run.stage = .virtuals (v :: todo)) ∨
        (run.stage = .base ∧ ∃ dbOk infoOk, e = .baseCommits dbOk infoOk) ∨
        e = .begin none ∧ run.stage = .begin ∨ e = .newCommits ∧ run.stage = .newCommits ∨
        (e = .newCommitsVirtual ∧ ∃ data todo, run.stage = .newVirtuals (data :: todo))) →
      GcMove env s e s.out
  | populate {run : GcRun Id} {index : GCIndex} {data : GCData Id} : s.gc = .running run →
      run.stage = .main →
      populateGcIndexForRepo env s run.index run.data = some (index, data) →
      GcMove env s .populate
        (s.goOn { run with index := index, data := data, stage := .listVirtual })
  | listVirtual {run : GcRun Id} {dbOk : Bool} : s.gc = .running run →
      run.stage = .listVirtual → GcMove env s (.listVirtual dbOk)
        (s.goOn { run with stage := .virtuals ((virtualRows s dbOk).map VirtRepo.repoId) })
  | virtualsDone {run : GcRun Id} : s.gc = .running run → run.stage = .virtuals [] →
      GcMove env s .populateVirtual
        (s.goOn { run with stage := if run.rmFs then .base else .begin })
  | populateVirtual {run : GcRun Id} {v : RepoId} {todo : List RepoId} {vrepo : Repo Id}
      {index : GCIndex} {data : GCData Id} : s.gc = .running run →
      run.stage = .virtuals (v :: todo) → getRepo s v true = some vrepo →
      populateGcIndexForRepo env s run.index (gcDataNew vrepo (env.truncateTime v)) =
        some (index, data) →
      GcMove env s .populateVirtual (s.goOn { run with
        index := index, virtualRepos := data :: run.virtualRepos, stage := .virtuals todo })
  | baseCommits {run : GcRun Id} {dbOk : Bool} {infoOk : RepoId → Bool} {index : GCIndex}
      {data : GCData Id} : s.gc = .running run → run.stage = .base →
      populateGcIndexForBaseCommit env s (virtualRows s dbOk) infoOk run.index run.data =
        some (index, data) →
      GcMove env s (.baseCommits dbOk infoOk)
        (s.goOn { run with index := index, data := data, stage := .begin })
  | beginOffline {run : GcRun Id} {gcId : Option GcId} : s.gc = .running run →
      run.stage = .begin → run.online = false →
      GcMove env s (.begin gcId) (s.goOn { run with stage := .newCommits })
  | begin {run : GcRun Id} {gcId : GcId} : s.gc = .running run → run.stage = .begin →
      gcId ∉ s.issued → GcMove env s (.begin (some gcId))
        ({ s with issued := gcId :: s.issued }.goOn
          { run with trans := some gcId, stage := .newCommits })
  | newCommits {run : GcRun Id} {index : GCIndex} {data : GCData Id} : s.gc = .running run →
      run.stage = .newCommits →
      populateGcIndexForRepoForNewCommits env s run.index run.data = some (index, data) →
      GcMove env s .newCommits (s.goOn { run with
        index := index, data := data, stage := .newVirtuals run.virtualRepos })
  | newVirtualsDone {run : GcRun Id} : s.gc = .running run → run.stage = .newVirtuals [] →
      GcMove env s .newCommitsVirtual (s.goOn { run with stage := .blocks })
  | newCommitsVirtual {run : GcRun Id} {data : GCData Id} {todo : List (GCData Id)}
      {index : GCIndex} {data' : GCData Id} : s.gc = .running run →
      run.stage = .newVirtuals (data :: todo) →
      populateGcIndexForRepoForNewCommits env s run.index data = some (index, data') →
      GcMove env s .newCommitsVirtual
        (s.goOn { run with index := index, stage := .newVirtuals todo })
  /-- an object is in the index, or its removal fails, or is not asked for -/
  | keepBlock {run : GcRun Id} {b : Id} {ok failed : Bool} : s.gc = .running run →
      run.stage = .blocks → GcMove env s (.checkBlock b ok)
        (s.goOn { run with existBlocks := run.existBlocks.erase b, failed := failed })
  | removeBlock {run : GcRun Id} {b : Id} : s.gc = .running run → run.stage = .blocks →
      run.index.hasBlock env.sha256 b = false → GcMove env s (.checkBlock b true)
        ({ s with store := s.store.removeBlock b }.goOn
          { run with existBlocks := run.existBlocks.erase b, removed := true })
  | blocksFailed {run : GcRun Id} : s.gc = .running run → run.stage = .blocks →
      run.failed = true → GcMove env s .blocksDone s.out
  | blocksDone {run : GcRun Id} {stage : Stage Id} : s.gc = .running run → run.stage = .blocks →
      (stage = .fs ∨ stage = .finish) →
      GcMove env s .blocksDone (s.goOn { run with stage := stage })
  | keepFs {run : GcRun Id} {id : Id} {ok failed : Bool} : s.gc = .running run →
      run.stage = .fs → GcMove env s (.checkFs id ok)
        (s.goOn { run with existFs := run.existFs.erase id, failed := failed })
  | removeFs {run : GcRun Id} {id : Id} : s.gc = .running run → run.stage = .fs →
      run.index.hasFs env.sha256 id = false → GcMove env s (.checkFs id true)
        ({ s with store := s.store.removeFs id }.goOn
          { run with existFs := run.existFs.erase id, removed := true })
  | fsFailed {run : GcRun Id} : s.gc = .running run → run.stage = .fs → run.failed = true →
      GcMove env s .fsDone s.out
  | fsDone {run : GcRun Id} : s.gc = .running run → run.stage = .fs →
      GcMove env s .fsDone (s.goOn { run with stage := .finish })
  | commit {run : GcRun Id} {gcId : GcId} : s.gc = .running run → run.stage = .finish →
      run.trans = some gcId → GcMove env s (.commit true) { s with gcId := some gcId }.out
  /-- the commit fails, or there is no transaction -/
  | rollback {run : GcRun Id} {ok : Bool} : s.gc = .running run → run.stage = .finish →
      (ok = false ∨ run.trans = none) → GcMove env s (.commit ok) s.out

variable {env : GcEnv Id} {s s' : Sys Id} {e : GcEvent Id}

theorem collectExist_move {repo : Repo Id} {online dryRun rmFs : Bool}
    (hgc : s.gc = .loaded repo online dryRun rmFs) :
    GcMove env s .collect (collectExist env s repo online dryRun rmFs) := by
  unfold collectExist
  extract_lets existBlocks existFs index
  split_ifs
  · exact .skip hgc
  · cases index with
    | none => exact .skip hgc
    | some index => exact .collect hgc

theorem runStep_move {run : GcRun Id} (hgc : s.gc = .running run)
    (h : runStep env s run e = some s') : GcMove env s e s' := by
  cases e <;> dsimp only [runStep] at h
  case load | collect => cases h
  case populate =>
    split at h <;> cases h
    next hstage =>
    split
    · exact .fail hgc (.inl ⟨rfl, hstage⟩)
    · next hp => exact .populate hgc hstage hp
  case listVirtual dbOk =>
    split at h <;> cases h
    next hstage => exact .listVirtual hgc hstage
  case populateVirtual =>
    split at h <;> cases h
    · next hstage => exact .virtualsDone hgc hstage
    · next v todo hstage =>
      split
      · exact .fail hgc (.inr (.inl ⟨rfl, v, todo, hstage⟩))
      · next hrepo =>
        split
        · exact .fail hgc (.inr (.inl ⟨rfl, v, todo, hstage⟩))
        · next hp => exact .populateVirtual hgc hstage hrepo hp
  case baseCommits dbOk infoOk =>
    split at h <;> cases h
    next hstage =>
    split
    · exact .fail hgc (.inr (.inr (.inl ⟨hstage, dbOk, infoOk, rfl⟩)))
    · next hp => exact .baseCommits hgc hstage hp
  case begin gcId =>
    split at h
    · next hstage =>
      split_ifs at h with honline
      · cases h
        exact .beginOffline hgc hstage (by simpa using honline)
      · split at h
        · cases h
          exact .fail hgc (.inr (.inr (.inr (.inl ⟨rfl, hstage⟩))))
        · split_ifs at h with hissued
          cases h
          exact .begin hgc hstage hissued
    · cases h
  case newCommits =>
    split at h <;> cases h
    next hstage =>
    split
    · exact .fail hgc (.inr (.inr (.inr (.inr (.inl ⟨rfl, hstage⟩)))))
    · next hp => exact .newCommits hgc hstage hp
  case newCommitsVirtual =>
    split at h <;> cases h
    · next hstage => exact .newVirtualsDone hgc hstage
    · next data todo hstage =>
      split
      · exact .fail hgc (.inr (.inr (.inr (.inr (.inr ⟨rfl, data, todo, hstage⟩)))))
      · next hp => exact .newCommitsVirtual hgc hstage hp
  case checkBlock b ok =>
    split at h
    · next hstage =>
      split_ifs at h with hmem hkeep hok <;> cases h
      · exact .keepBlock hgc hstage
      · simp only [Bool.or_eq_true, not_or, Bool.not_eq_true] at hkeep
        exact hok ▸ .removeBlock hgc hstage hkeep.1
      · exact .keepBlock hgc hstage
    · cases h
  case blocksDone =>
    split at h
    · next hstage =>
      split_ifs at h with hempty hfailed <;> cases h
      · exact .blocksFailed hgc hstage hfailed
      · exact .blocksDone hgc hstage (.inl rfl)
      · exact .blocksDone hgc hstage (.inr rfl)
    · cases h
  case checkFs id ok =>
    split at h
    · next hstage =>
      split_ifs at h with hmem hkeep hok <;> cases h
      · exact .keepFs hgc hstage
      · simp only [Bool.or_eq_true, not_or, Bool.not_eq_true] at hkeep
        exact hok ▸ .removeFs hgc hstage hkeep.1
      · exact .keepFs hgc hstage
    · cases h
  case fsDone =>
    split at h
    · next hstage =>
      split_ifs at h with hempty hfailed <;> cases h
      · exact .fsFailed hgc hstage hfailed
      · exact .fsDone hgc hstage
    · cases h
  case commit ok =>
    split at h <;> cases h
    next hstage =>
    split
    · next htrans =>
      split_ifs with hok
      · exact hok ▸ .commit hgc hstage htrans
      · exact .rollback hgc hstage (.inl (by simpa using hok))
    · next htrans => exact .rollback hgc hstage (.inr htrans)

/-- **A step of the garbage collector** has one of the listed outcomes. -/
theorem gcStep_move (h : gcStep env s e = some s') : GcMove env s e s' := by
  unfold gcStep at h
  split at h
  · next hgc =>
    obtain ⟨repo, hrepo, rfl⟩ := Option.map_eq_some_iff.1 h
    exact .load hgc hrepo
  · next hgc =>
    cases h
    exact collectExist_move hgc
  · next hgc => exact runStep_move hgc h
  · cases h

theorem GcMove.frame (h : GcMove env s e s') :
    s'.commits = s.commits ∧ s'.branch = s.branch ∧ s'.virtualRepos = s.virtualRepos ∧
      s'.writers = s.writers ∧ s'.creators = s.creators := by
  cases h <;> exact ⟨rfl, rfl, rfl, rfl, rfl⟩

theorem GcMove.store (h : GcMove env s e s') :
    s'.store = s.store ∨ ∃ run x, s.gc = .running run ∧
      (run.stage = .blocks ∧ run.index.hasBlock env.sha256 x = false ∧
          s'.store = s.store.removeBlock x ∨
        run.stage = .fs ∧ run.index.hasFs env.sha256 x = false ∧
          s'.store = s.store.removeFs x) := by
  cases h with
  | removeBlock hgc hstage hx => exact .inr ⟨_, _, hgc, .inl ⟨hstage, hx, rfl⟩⟩
  | removeFs hgc hstage hx => exact .inr ⟨_, _, hgc, .inr ⟨hstage, hx, rfl⟩⟩
  | _ => exact .inl rfl

end CloudFile
