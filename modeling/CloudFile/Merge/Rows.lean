/-
  What a row of the merge puts into the merged directory: at most one entry under its own name,
  except where an entry of base that is neither a file nor a directory has the id of a directory
  (`Dents.doubled`), and the remote entry of a conflict under a generated name (`planNames_perm`).
-/
import CloudFile.Merge.Outcome

namespace CloudFile

open SortedWalk Option

variable {Id : Type} [ObjectId Id] [DecidableEq Id]

/-- The merge puts entries of these kinds only. -/
def known (isFile : Dirent Id → Bool) (e : Dirent Id) : Bool := isFile e || e.isDir

/-- The directory entry a row puts, as it is or with a new id. -/
def DirPlan.entry : DirPlan Id → Option (Dirent Id)
  | .drop => none
  | .keep e => some e
  | .below carrier => some carrier

/-- An entry of the row stays under the name of the row: in a conflict the one of head. -/
def Dents.stays (isFile : Dirent Id → Bool) (d : Dents Id) : Bool :=
  match d.clash isFile with
  | some (h, _) => known isFile h
  | none => (d.file isFile).isSome || (dirPlan d).entry.isSome

/-- Both a file and a directory stay under the name of the row. -/
def Dents.doubled (isFile : Dirent Id → Bool) (d : Dents Id) : Bool :=
  (d.clash isFile).isNone && (d.file isFile).isSome && (dirPlan d).entry.isSome

/-- The generated name under which an entry of the row is put. -/
def Dents.conflictName (isFile : Dirent Id → Bool) (names : ConflictNames) (basedir : List Name)
    (d : Dents Id) : Option Name :=
  match d.clash isFile with
  | some (h, r) => if known isFile r then conflictNameOf isFile names basedir h r else none
  | none => none

def Dents.Named (m : Name) (d : Dents Id) : Prop :=
  (∀ e, d.base = some e → e.name = m) ∧ (∀ e, d.head = some e → e.name = m) ∧
    ∀ e, d.remote = some e → e.name = m

omit [ObjectId Id] [DecidableEq Id] in
theorem Trees.row_named (t : Trees Id) (m : Name) : (t.row m).Named m :=
  ⟨fun _ h => (mem_of_findDirent h).2, fun _ h => (mem_of_findDirent h).2,
    fun _ h => (mem_of_findDirent h).2⟩

variable {isFile : Dirent Id → Bool} {names : ConflictNames} {m : Name} {basedir : List Name}
  {d : Dents Id} {f : FilePlan Id} {e : Dirent Id}

section

omit [ObjectId Id]

theorem keptFile_some {b h r : Option (Dirent Id)} (hk : keptFile b h r = some e) :
    h = some e ∨ r = some e := by
  unfold keptFile at hk
  split at hk <;> (try split_ifs at hk) <;> simp_all

theorem Dents.file_some (h : d.file isFile = some e) :
    isFile e = true ∧ (d.head = some e ∨ d.remote = some e) := by
  rcases keptFile_some h with h | h <;> obtain ⟨h, he⟩ := filter_eq_some_iff.1 h
  · exact ⟨he, .inl h⟩
  · exact ⟨he, .inr h⟩

theorem dirPlan_entry (h : (dirPlan d).entry = some e) :
    e.isDir = true ∧ (d.head = some e ∨ d.remote = some e) := by
  have hentry : d.head.filter Dirent.isDir = some e ∨ d.remote.filter Dirent.isDir = some e := by
    unfold dirPlan at h
    split at h <;> (try split_ifs at h) <;> simp_all [DirPlan.entry]
  rcases hentry with h | h <;> obtain ⟨h, he⟩ := filter_eq_some_iff.1 h
  · exact ⟨he, .inl h⟩
  · exact ⟨he, .inr h⟩

end

omit [ObjectId Id] [DecidableEq Id] in
theorem kind_cases (isFile : Dirent Id → Bool) [FileKind isFile] (e : Dirent Id) :
    isFile e = true ∧ e.isDir = false ∨ isFile e = false ∧ e.isDir = true ∨
      isFile e = false ∧ e.isDir = false := by
  cases he : isFile e with
  | true => simp [FileKind.not_isDir e he]
  | false => cases e.isDir <;> simp

section Kinds

variable [FileKind isFile]

omit [ObjectId Id] in
theorem clash_entry {h r : Dirent Id} (hc : d.clash isFile = some (h, r)) (n : Name) :
    (dirPlan { d with remote := some (r.withName n) }).entry =
      if h.isDir then some h else if r.isDir then some (r.withName n) else none := by
  obtain ⟨b, h', r'⟩ := d
  obtain ⟨rfl, rfl, hc⟩ := Dents.clash_eq_some.1 hc
  rcases kind_cases isFile h with ⟨h1, h2⟩ | ⟨h1, h2⟩ | ⟨h1, h2⟩ <;>
    rcases kind_cases isFile r with ⟨r1, r2⟩ | ⟨r1, r2⟩ | ⟨r1, r2⟩ <;> rcases b with _ | b
  case inr.inl.inl.some | inl.inr.inl.some =>
    -- a directory that is new next to a file that is new
    rcases kind_cases isFile b with ⟨b1, b2⟩ | ⟨b1, b2⟩ | ⟨b1, b2⟩ <;>
      simp_all [clashes, dirPlan, DirPlan.entry, filter_some]
  all_goals simp_all [clashes, dirPlan, DirPlan.entry, filter_some]

omit [ObjectId Id] in
/-- **The names a row puts**: its own name if an entry stays, and a generated one. -/
theorem planNames_perm (hm : d.Named m) (hf : filePlan isFile names basedir d = some f) :
    (f.files ++ (dirPlan f.dents).entry.toList |>.map Dirent.name).Perm
      ((if d.stays isFile then [m] else []) ++ (if d.doubled isFile then [m] else []) ++
        (d.conflictName isFile names basedir).toList) := by
  rcases filePlan_cases hf with ⟨hc, rfl⟩ | ⟨h, r, n, hc, hn, rfl⟩
  · have hfile : ∀ e, d.file isFile = some e → e.name = m := fun e he =>
      (Dents.file_some he).2.elim (hm.2.1 e) (hm.2.2 e)
    have hdir : ∀ e, (dirPlan d).entry = some e → e.name = m := fun e he =>
      (dirPlan_entry he).2.elim (hm.2.1 e) (hm.2.2 e)
    cases hF : d.file isFile <;> cases hD : (dirPlan d).entry <;>
      simp_all [Dents.stays, Dents.doubled, Dents.conflictName]
  · obtain ⟨hh, hr, hcl⟩ := Dents.clash_eq_some.1 hc
    have hname : isFile (r.withName n) = isFile r := FileKind.withName r n
    have hmh : h.name = m := hm.2.1 h hh
    rw [clash_entry hc n]
    rcases kind_cases isFile h with ⟨h1, h2⟩ | ⟨h1, h2⟩ | ⟨h1, h2⟩ <;>
      rcases kind_cases isFile r with ⟨r1, r2⟩ | ⟨r1, r2⟩ | ⟨r1, r2⟩ <;>
      simp_all [Dents.stays, Dents.doubled, Dents.conflictName, known, clashes, List.Perm.swap]

end Kinds

omit [ObjectId Id] in
theorem filePlan_files [FileKind isFile] (hf : filePlan isFile names basedir d = some f)
    (he : e ∈ f.files) : isFile e = true := by
  rcases filePlan_cases hf with ⟨-, rfl⟩ | ⟨h, r, n, -, -, rfl⟩
  · exact (Dents.file_some (by simpa using he)).1
  · exact (List.mem_filter.1 he).2

omit [ObjectId Id] in
theorem planDir_entry (hf : filePlan isFile names basedir d = some f)
    (he : (dirPlan f.dents).entry = some e) :
    e.isDir = true ∧
      ∃ e', (d.head = some e' ∨ d.remote = some e') ∧ e'.isDir = true ∧ e'.id = e.id := by
  obtain ⟨hdir, hmem⟩ := dirPlan_entry he
  refine ⟨hdir, ?_⟩
  rcases filePlan_cases hf with ⟨-, rfl⟩ | ⟨h, r, n, hc, -, rfl⟩
  · exact ⟨e, hmem, hdir, rfl⟩
  · rcases hmem with hmem | hmem
    · exact ⟨e, .inl hmem, hdir, rfl⟩
    · obtain rfl : r.withName n = e := Option.some.inj hmem
      exact ⟨r, .inr (Dents.clash_eq_some.1 hc).2.1, hdir, rfl⟩

/-! ## Rows that are merged -/

/-- The name under which the directories of the row are merged, if they are. -/
def Dents.below (isFile : Dirent Id → Bool) (names : ConflictNames) (basedir : List Name)
    (d : Dents Id) : Option Name :=
  filePlan isFile names basedir d >>= fun f => match dirPlan f.dents with
    | .below _ => some f.dents.dirname
    | _ => none

variable {st : FsStore Id} {recurse : Trees Id → List Name → Outcome Id} {o : Outcome Id}

section

variable (ho : rowOutcome isFile names st recurse basedir d = o)
include ho

theorem rowOutcome_cases (hok : o.ok = true) :
    ∃ f, filePlan isFile names basedir d = some f ∧
      ((d.below isFile names basedir = none ∧
          o = ⟨true, f.files ++ (dirPlan f.dents).entry.toList, f.conflict, [], []⟩) ∨
        ∃ carrier o', dirPlan f.dents = .below carrier ∧
          d.below isFile names basedir = some f.dents.dirname ∧
          recurse (d.trees st) (basedir ++ [f.dents.dirname]) = o' ∧ o'.ok = true ∧
          o = { o' with
            entries := f.files ++ [carrier.withId (seafDirId o'.entries)]
            conflict := f.conflict || o'.conflict }) := by
  subst ho
  unfold rowOutcome at hok ⊢
  cases hf : filePlan isFile names basedir d with
  | none => simp [hf, Outcome.failed] at hok
  | some f =>
    refine ⟨f, rfl, ?_⟩
    cases hd : dirPlan f.dents with
    | drop => exact .inl ⟨by simp [Dents.below, hf, hd], by simp [hd, DirPlan.entry]⟩
    | keep e => exact .inl ⟨by simp [Dents.below, hf, hd], by simp [hd, DirPlan.entry]⟩
    | below carrier =>
      simp only [hf, hd] at hok
      exact .inr ⟨carrier, _, rfl, by simp [Dents.below, hf, hd], rfl, hok, by simp [hd]⟩

theorem rowOutcome_names [FileKind isFile] (hok : o.ok = true) (hm : d.Named m) :
    (o.entries.map Dirent.name).Perm
      ((if d.stays isFile then [m] else []) ++ (if d.doubled isFile then [m] else []) ++
        (d.conflictName isFile names basedir).toList) := by
  obtain ⟨f, hf, ⟨-, rfl⟩ | ⟨carrier, o', hd, -, -, -, rfl⟩⟩ := rowOutcome_cases ho hok
  · exact planNames_perm hm hf
  · simpa [hd, DirPlan.entry] using planNames_perm hm hf

end

end CloudFile
