/-
  The merge of a row as a table: the files that are put and the row after renaming (`filePlan`),
  and what becomes of its directories (`dirPlan`).
-/
import CloudFile.Merge.Model

namespace CloudFile

open SortedWalk List Option

variable {Id : Type} [ObjectId Id] [DecidableEq Id]

/-- The files of a row after the merge, and the row with its remote entry renamed. -/
structure FilePlan (Id : Type) where
  dents : Dents Id
  files : List (Dirent Id)
  conflict : Bool

inductive DirPlan (Id : Type) where
  | drop
  | keep (d : Dirent Id)
  | below (carrier : Dirent Id)

/-- `r` gets another name: two files with three different contents, or a file that is new next to
    something else that is new. -/
def clashes (isFile : Dirent Id → Bool) (base : Option (Dirent Id)) (h r : Dirent Id) : Bool :=
  match isFile h, isFile r, base.filter isFile with
  | true, true, b => h.id ≠ r.id && !hasId b h.id && !hasId b r.id
  | true, false, some b => b.id ≠ h.id
  | true, false, none => !hasId base r.id
  | false, true, some b => b.id ≠ r.id
  | false, true, none => !hasId base h.id
  | false, false, _ => false

def Dents.clash (isFile : Dirent Id → Bool) (dents : Dents Id) : Option (Dirent Id × Dirent Id) :=
  match dents.head, dents.remote with
  | some h, some r => if clashes isFile dents.base h r then some (h, r) else none
  | _, _ => none

/-- The file a row keeps under its own name when there is no conflict. -/
def keptFile (base head remote : Option (Dirent Id)) : Option (Dirent Id) :=
  match head, remote with
  | some h, some r => if h.id ≠ r.id ∧ hasId base h.id then some r else some h
  | some h, none => if hasId base h.id then none else some h
  | none, some r => if hasId base r.id then none else some r
  | none, none => none

/-- The name a conflicting entry of remote gets: files and directories have their own
    generators. -/
def conflictNameOf (isFile : Dirent Id → Bool) (names : ConflictNames) (basedir : List Name)
    (h r : Dirent Id) : Option Name :=
  if isFile r then names.fileName basedir (if isFile h then h.name else r.name)
  else names.dirName basedir r.name

def Dents.file (isFile : Dirent Id → Bool) (dents : Dents Id) : Option (Dirent Id) :=
  keptFile (dents.base.filter isFile) (dents.head.filter isFile) (dents.remote.filter isFile)

def filePlan (isFile : Dirent Id → Bool) (names : ConflictNames) (basedir : List Name)
    (dents : Dents Id) : Option (FilePlan Id) :=
  match dents.clash isFile with
  | some (h, r) => (conflictNameOf isFile names basedir h r).map fun n =>
      ⟨{ dents with remote := some (r.withName n) }, [h, r.withName n].filter isFile, true⟩
  | none => some ⟨dents, (dents.file isFile).toList, false⟩

def dirPlan (dents : Dents Id) : DirPlan Id :=
  match dents.base.filter Dirent.isDir, dents.head.filter Dirent.isDir,
      dents.remote.filter Dirent.isDir with
  | _, none, none => .drop
  | none, some head, none => .keep head
  | some base, some head, none => if base.id = head.id then .drop else .below head
  | none, none, some remote => .keep remote
  | some base, none, some remote => if base.id = remote.id then .drop else .below remote
  | _, some head, some remote =>
    if head.id = remote.id then .keep head
    else if hasId dents.base head.id then .keep remote
    else if hasId dents.base remote.id then .keep head
    else .below head

/-- What an entry of the plan does: the merge below a directory yields its new id. -/
def DirPlan.run (recurse : Trees Id → List Name → MergeState Id → Option (MergeState Id))
    (basedir : List Name) (dents : Dents Id) (s : MergeState Id) :
    DirPlan Id → Option (List (Dirent Id) × MergeState Id)
  | .drop => some ([], s)
  | .keep d => some ([d], s)
  | .below carrier => loadTrees s.store dents >>= fun subDirs =>
      recurse subDirs (basedir ++ [dents.dirname]) s >>= fun s =>
        some ([carrier.withId s.mergedTreeRoot], s)

/-! ## The merge runs the table -/

variable {names : ConflictNames} {isFile : Dirent Id → Bool}
  {d dents : Dents Id} {basedir : List Name} {f : FilePlan Id}
  {recurse : Trees Id → List Name → MergeState Id → Option (MergeState Id)}

/-- What counts as a file depends on the type alone, and a directory does not. -/
class FileKind (isFile : Dirent Id → Bool) : Prop where
  kind : ∀ d e, d.isDir = e.isDir → d.isReg = e.isReg → isFile d = isFile e
  not_isDir : ∀ d, isFile d = true → d.isDir = false

section

omit [ObjectId Id] [DecidableEq Id]

theorem FileKind.withName {isFile : Dirent Id → Bool} [FileKind isFile] (d : Dirent Id) (n : Name) :
    isFile (d.withName n) = isFile d := kind _ _ rfl rfl

instance : FileKind (Dirent.isReg : Dirent Id → Bool) :=
  ⟨fun _ _ _ h => h, fun _ h => Dirent.isDir_of_isReg h⟩

instance : FileKind (Fileserver.isFile : Dirent Id → Bool) :=
  ⟨fun _ _ h _ => congrArg Bool.not h, fun _ h => by simpa [Fileserver.isFile] using h⟩

end

section

omit [ObjectId Id]

theorem Dents.clash_eq_some {h r : Dirent Id} :
    d.clash isFile = some (h, r) ↔
      d.head = some h ∧ d.remote = some r ∧ clashes isFile d.base h r = true := by
  obtain ⟨b, _ | h', _ | r'⟩ := d
  case some.some =>
    by_cases hc : clashes isFile b h' r' = true
    · simp only [clash, hc, if_true, Option.some.injEq, Prod.mk.injEq]
      constructor
      · rintro ⟨rfl, rfl⟩; exact ⟨rfl, rfl, hc⟩
      · rintro ⟨rfl, rfl, -⟩; exact ⟨rfl, rfl⟩
    · simp only [clash, hc, Bool.false_eq_true, if_false, Option.some.injEq, false_iff,
      reduceCtorEq]
      rintro ⟨rfl, rfl, h⟩
      exact hc h
  all_goals simp [clash]

theorem filePlan_cases (hf : filePlan isFile names basedir d = some f) :
    (d.clash isFile = none ∧ f = ⟨d, (d.file isFile).toList, false⟩) ∨
    ∃ h r n, d.clash isFile = some (h, r) ∧ conflictNameOf isFile names basedir h r = some n ∧
      f = ⟨{ d with remote := some (r.withName n) }, [h, r.withName n].filter isFile, true⟩ := by
  unfold filePlan at hf
  split at hf
  · next h r hc =>
    obtain ⟨n, hn, rfl⟩ := map_eq_some_iff.1 hf
    exact .inr ⟨h, r, n, hc, hn, rfl⟩
  · next hc => exact .inl ⟨hc, (Option.some.inj hf).symm⟩

theorem filePlan_none (hb : dents.base.filter isFile = none) (hh : dents.head.filter isFile = none)
    (hr : dents.remote.filter isFile = none) :
    filePlan isFile names basedir dents = some ⟨dents, [], false⟩ := by
  have hfile : dents.file isFile = none := by
    rw [Dents.file, hh, hr]; rfl
  have hclash : dents.clash isFile = none := by
    obtain ⟨b, _ | h, _ | r⟩ := dents <;> simp_all [Dents.clash, clashes]
  rw [filePlan, hclash, hfile]
  rfl

end

theorem mergeEntries_eq [FileKind isFile] (basedir : List Name) (dents : Dents Id)
    (s : MergeState Id) :
    mergeEntries isFile names basedir dents s =
      (filePlan isFile names basedir dents).map fun f =>
        (f.dents, f.files, { s with conflict := s.conflict || f.conflict }) := by
  obtain ⟨b, h, r⟩ := dents
  obtain ⟨st, c, root⟩ := s
  unfold mergeEntries filePlan
  -- by which entries are there and which of them are files
  rcases h with _ | h <;> rcases r with _ | r
  case none.none => cases b.filter isFile <;> simp [Dents.clash, Dents.file, keptFile]
  case none.some =>
    cases hb : b.filter isFile <;> cases hr : isFile r <;>
      simp [Dents.clash, Dents.file, keptFile, filter_some, hr, hb]
    split_ifs <;> simp
  case some.none =>
    cases hb : b.filter isFile <;> cases hh : isFile h <;>
      simp [Dents.clash, Dents.file, keptFile, filter_some, hh, hb]
    split_ifs <;> simp
  case some.some =>
    cases hb : b.filter isFile <;> cases hh : isFile h <;>
      cases hr : isFile r <;>
      simp [Dents.clash, Dents.file, clashes, conflictNameOf, keptFile, filter_some, hh, hr,
        hb] <;>
      split_ifs <;> simp_all [Function.comp_def, FileKind.withName]

def Dents.AnyDir (dents : Dents Id) : Prop :=
  dents.base.filter Dirent.isDir ≠ none ∨ dents.head.filter Dirent.isDir ≠ none ∨
    dents.remote.filter Dirent.isDir ≠ none

omit [ObjectId Id] in
theorem dirPlan_of_not_anyDir (h : ¬ dents.AnyDir) : dirPlan dents = .drop := by
  simp only [Dents.AnyDir, not_or, not_not] at h
  simp only [dirPlan, h.2.1, h.2.2]

theorem mergeDirectories_eq (basedir : List Name) (hd : dents.AnyDir) (s : MergeState Id) :
    mergeDirectories recurse basedir dents s =
      (dirPlan dents).run recurse basedir dents s := by
  unfold mergeDirectories dirPlan
  cases hb : dents.base.filter Dirent.isDir <;> cases hh : dents.head.filter Dirent.isDir <;>
    cases hr : dents.remote.filter Dirent.isDir <;> dsimp only
  case none.none.none => simp [Dents.AnyDir, hb, hh, hr] at hd
  all_goals (try split_ifs) <;> rfl

omit [ObjectId Id] in
theorem filePlan_anyDir (hf : filePlan isFile names basedir d = some f) :
    f.dents.AnyDir ↔ d.AnyDir := by
  rcases filePlan_cases hf with ⟨-, rfl⟩ | ⟨h, r, n, hc, -, rfl⟩
  · exact Iff.rfl
  · simp [Dents.AnyDir, (Dents.clash_eq_some.1 hc).2.1]

def Dents.row (d : Dents Id) : Row Id := [d.base, d.head, d.remote]

omit [ObjectId Id] [DecidableEq Id] in
theorem Dents.countP_pos (d : Dents Id) (p : Dirent Id → Bool) :
    d.row.countP (fun e => (e.filter p).isSome) > 0 ↔
      d.base.filter p ≠ none ∨ d.head.filter p ≠ none ∨ d.remote.filter p ≠ none := by
  simp only [gt_iff_lt, countP_pos_iff, row, mem_cons, not_mem_nil, or_false,
    exists_eq_or_imp, exists_eq_left, isSome_iff_ne_none]

omit [ObjectId Id] in
theorem filePlan_of_countP (h : ¬ d.row.countP (fun e => (e.filter isFile).isSome) > 0) :
    filePlan isFile names basedir d = some ⟨d, [], false⟩ := by
  rw [d.countP_pos] at h
  simp only [ne_eq, not_or, not_not] at h
  exact filePlan_none h.1 h.2.1 h.2.2

/-- **A row of the merge runs the table**: its files first, then its directories. -/
theorem mergeRow_eq [FileKind isFile] (basedir : List Name) (out : List (Dirent Id))
    (s : MergeState Id) (d : Dents Id) :
    mergeRow isFile names recurse basedir (out, s) d.row =
      filePlan isFile names basedir d >>= fun f =>
        ((dirPlan f.dents).run recurse basedir f.dents
          { s with conflict := s.conflict || f.conflict }).map fun r =>
            (out ++ f.files ++ r.1, r.2) := by
  have hofRow : Dents.ofRow d.row = some d := rfl
  have hfiles : (if d.row.countP (fun e => (e.filter isFile).isSome) > 0
      then mergeEntries isFile names basedir d s else some (d, [], s)) =
      (filePlan isFile names basedir d).map fun f => (f.dents, f.files,
        { s with conflict := s.conflict || f.conflict }) := by
    split_ifs with h
    · exact mergeEntries_eq basedir d s
    · simp [filePlan_of_countP h]
  simp only [mergeRow, hofRow, bind_eq_bind, bind_some, hfiles]
  cases hf : filePlan isFile names basedir d with
  | none => rfl
  | some f =>
    simp only [map_some, bind_some]
    split_ifs with h
    · rw [mergeDirectories_eq basedir ((filePlan_anyDir hf).2 (d.countP_pos _ |>.1 h)),
        Option.map_eq_bind]
      rfl
    · rw [dirPlan_of_not_anyDir fun h' => h (d.countP_pos _ |>.2 ((filePlan_anyDir hf).1 h'))]
      rfl

end CloudFile
