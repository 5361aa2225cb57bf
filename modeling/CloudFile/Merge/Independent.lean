/-
  The merge of independent changes: where head has changed something remote has what base has, and
  the other way round. The merged tree shows at each path what head has there if head has changed
  it, and what remote has otherwise, except where the type of an entry gets lost (`Dents.Drops`,
  `Dents.Mistakes`).
-/
import CloudFile.Merge.Agree
import CloudFile.Merge.NoLostUpdate

namespace CloudFile

open SortedWalk List Option

variable {Id : Type}

/-- What stands at a path: nothing, a directory, or a file or link with its content. -/
def look (o : Option (Dirent Id)) : Option (Option (Bool × Id)) :=
  o.map fun e => if e.isDir then none else some (e.isReg, e.id)

/-- The type and the id of what stands at a path. -/
def kindId (o : Option (Dirent Id)) : Option ((Bool × Bool) × Id) :=
  o.map fun e => ((e.isDir, e.isReg), e.id)

section Views

variable {o o' : Option (Dirent Id)}

theorem look_of_kindId (h : kindId o = kindId o') : look o = look o' := by
  cases o <;> cases o' <;> simp_all [kindId, look]

theorem kindId_eq_some {e : Dirent Id} (h : kindId o = kindId (some e)) :
    ∃ e', o = some e' ∧ e'.isDir = e.isDir ∧ e'.isReg = e.isReg ∧ e'.id = e.id := by
  rcases o with _ | e' <;> simp [kindId] at h
  exact ⟨e', rfl, h.1.1, h.1.2, h.2⟩

theorem kindId_of_look (h : look o = look o') : kindId o = kindId o' ∨
    ∃ e e', (o = some e ∧ e.isDir = true) ∧ o' = some e' ∧ e'.isDir = true := by
  rcases o with _ | e <;> rcases o' with _ | e' <;> simp [look] at h
  · exact .inl rfl
  · cases hd : e.isDir <;> cases hd' : e'.isDir <;> simp [hd, hd'] at h
    · exact .inl (by simp [kindId, *])
    · exact .inr ⟨e, e', ⟨rfl, hd⟩, rfl, hd'⟩

theorem kindId_dirs {e e' : Dirent Id} (h : o = some e ∧ e.isDir = true)
    (h' : o' = some e' ∧ e'.isDir = true) (hid : e.id = e'.id) : kindId o = kindId o' := by
  have hreg : ∀ e : Dirent Id, e.isDir = true → e.isReg = false := fun _ => not_isFile
  simp [kindId, h, h', hreg, hid]

theorem kindId_eq_none (h : kindId o = none) : o = none := by
  simpa [kindId] using h

theorem kindId_filter {f : Dirent Id → Bool}
    (hf : ∀ d e, d.isDir = e.isDir → d.isReg = e.isReg → f d = f e) (h : kindId o = kindId o') :
    kindId (o.filter f) = kindId (o'.filter f) := by
  rcases o' with _ | e
  · obtain rfl := kindId_eq_none h
    rfl
  · obtain ⟨e', rfl, hdir, hreg, hid⟩ := kindId_eq_some h
    rw [filter_some, filter_some, hf e' e hdir hreg]
    cases f e <;> simp [kindId, hdir, hreg, hid]

/-- A view between the two: it shows what `look` shows, and no more than `kindId`. -/
structure IsView {α : Type} (view : Option (Dirent Id) → α) : Prop where
  of_kindId : ∀ {o o'}, kindId o = kindId o' → view o = view o'
  look : ∀ {o o'}, view o = view o' → look o = look o'

theorem isView_look : IsView (look : Option (Dirent Id) → _) := ⟨look_of_kindId, id⟩

theorem isView_kindId : IsView (kindId : Option (Dirent Id) → _) := ⟨id, look_of_kindId⟩

end Views

/-- The directory that a row keeps, if any. -/
def DirPlan.of : Option (Dirent Id) → DirPlan Id
  | none => .drop
  | some e => .keep e

@[simp] theorem DirPlan.entry_of (o : Option (Dirent Id)) : (DirPlan.of o).entry = o := by
  cases o <;> rfl

/-- The row has nothing to decide: one side has what base has, or both have the same. -/
inductive Dents.Takes (d : Dents Id) : Option (Dirent Id) → Prop
  | head : kindId d.remote = kindId d.base → Takes d d.head
  | remote : kindId d.head = kindId d.base → Takes d d.remote
  | same : kindId d.head = kindId d.remote → Takes d d.head

/-- Three directories that differ, to be merged below that of head. -/
structure Dents.ThreeDirs (d : Dents Id) (b h r : Dirent Id) : Prop where
  base : d.base = some b ∧ b.isDir = true
  head : d.head = some h ∧ h.isDir = true
  remote : d.remote = some r ∧ r.isDir = true
  differ : b.id ≠ h.id ∧ b.id ≠ r.id ∧ h.id ≠ r.id

/-- The row takes a side or is merged below. -/
def Dents.Quiet (d : Dents Id) : Prop :=
  (∃ side, d.Takes side) ∨ ∃ b h r, d.ThreeDirs b h r

variable [DecidableEq Id]

/-- The entry that both changes leave at a row. -/
def Dents.due (d : Dents Id) : Option (Dirent Id) :=
  if kindId d.head = kindId d.base then d.remote else d.head

/-- What is due is neither a file to the merge nor a directory. -/
def Dents.Drops (isFile : Dirent Id → Bool) (d : Dents Id) : Prop :=
  ∃ e, d.due = some e ∧ isFile e = false ∧ e.isDir = false

/-- Remote alone has made a file a link, or a link a file, of the same content. -/
def Dents.Mistakes (isFile : Dirent Id → Bool) (d : Dents Id) : Prop :=
  kindId d.head = kindId d.base ∧ ∃ h r, d.head = some h ∧ d.remote = some r ∧
    isFile h = true ∧ isFile r = true ∧ h.id = r.id ∧ h.isReg ≠ r.isReg

/-- The type of what is due is kept. -/
def Dents.KeepsType (isFile : Dirent Id → Bool) (d : Dents Id) : Prop :=
  ¬ d.Drops isFile ∧ ¬ d.Mistakes isFile

/-- What a row without a conflict puts. -/
def Dents.put (isFile : Dirent Id → Bool) (d : Dents Id) : Option (Dirent Id) :=
  (d.file isFile).or (dirPlan d).entry

/-! ## Quiet rows -/

section Kept

variable {b h r : Option (Dirent Id)}

theorem keptFile_head (hr : kindId r = kindId b) : keptFile b h r = h := by
  rcases b with _ | b <;> rcases h with _ | h <;> rcases r with _ | r <;>
    simp_all [kindId, keptFile, hasId, eq_comm]

theorem keptFile_same (hr : kindId h = kindId r) : keptFile b h r = h := by
  rcases h with _ | h <;> rcases r with _ | r <;> simp_all [kindId, keptFile]

/-- Where the ids agree, the file of head is kept although that of remote is due. -/
theorem keptFile_remote (hh : kindId h = kindId b) :
    keptFile b h r = r ∨ ∃ x y, h = some x ∧ r = some y ∧ x.id = y.id ∧ keptFile b h r = h := by
  rcases b with _ | b <;> rcases h with _ | h <;> rcases r with _ | r <;>
    simp_all [kindId, keptFile, hasId]
  by_cases hid : h.id = r.id <;> simp_all

end Kept

section Rows

variable {isFile : Dirent Id → Bool} {d : Dents Id} {side : Option (Dirent Id)} {b h r : Dirent Id}

/-- The row keeps the directory of the side, or the equal one of the other. -/
theorem dirPlan_takes (h : d.Takes side) :
    ∃ e, dirPlan d = .of e ∧ kindId e = kindId (side.filter Dirent.isDir) := by
  obtain ⟨b, h', r⟩ := d
  simp only [dirPlan]
  cases h with
  | head hr =>
    refine ⟨h'.filter Dirent.isDir, ?_, rfl⟩
    generalize h'.filter Dirent.isDir = H
    rcases b with _ | b <;> rcases r with _ | r <;> simp [kindId] at hr
    · cases H <;> rfl
    · cases hb : b.isDir <;> cases H <;> simp [filter_some, hr, hb, DirPlan.of, hasId, eq_comm]
      exact fun hne heq => absurd heq hne
  | remote hh =>
    rcases b with _ | b <;> rcases h' with _ | h <;> simp [kindId] at hh
    · generalize r.filter Dirent.isDir = R
      exact ⟨R, by cases R <;> rfl, rfl⟩
    · cases hb : b.isDir <;> cases hR : r.filter Dirent.isDir with
      | none => exact ⟨none, by simp [filter_some, hh, hb, DirPlan.of], rfl⟩
      | some r =>
        obtain ⟨-, hdir⟩ := filter_eq_some_iff.1 hR
        by_cases hid : h.isDir = true ∧ h.id = r.id
        · exact ⟨some h, by simp [filter_some, hh, hid.1 ▸ hh.1.1, ← hid.2, DirPlan.of],
            kindId_dirs ⟨rfl, hid.1⟩ ⟨rfl, hdir⟩ hid.2⟩
        · exact ⟨some r, by simp_all [filter_some, DirPlan.of, hasId], rfl⟩
  | same hh =>
    refine ⟨h'.filter Dirent.isDir, ?_, rfl⟩
    rcases h' with _ | h <;> rcases r with _ | r <;> simp [kindId] at hh
    · rfl
    · cases hb : h.isDir <;> simp [filter_some, ← hh, hb, DirPlan.of]

theorem Dents.Takes.due (h : d.Takes side) : kindId d.due = kindId side := by
  unfold Dents.due
  cases h with
  | head hr =>
    split_ifs with hh
    · exact hr.trans hh.symm
    · rfl
  | remote hh => rw [if_pos hh]
  | same hh =>
    split_ifs
    · exact hh.symm
    · rfl

theorem file_mistakes (h : d.Mistakes isFile) : d.file isFile = d.head := by
  obtain ⟨-, x, y, hx, hy, hxf, hyf, hid, -⟩ := h
  simp [Dents.file, keptFile, hx, hy, filter_some, hxf, hyf, hid]

theorem filePlan_quiet {names : ConflictNames} {basedir : List Name} (h : d.clash isFile = none) :
    filePlan isFile names basedir d = some ⟨d, (d.file isFile).toList, false⟩ := by
  rw [filePlan, h]

section Kinds

variable [FileKind isFile]

theorem Dents.Takes.clash_none (h : d.Takes side) : d.clash isFile = none := by
  have hkind := @FileKind.kind Id isFile _
  obtain ⟨b, _ | h', _ | r⟩ := d
  case some.some =>
    refine if_neg ?_
    cases h with
    | head hr =>
      rcases b with _ | b <;> simp [kindId] at hr
      have hfile := hkind _ _ hr.1.1 hr.1.2
      cases hh : isFile h' <;> cases hb : isFile b <;>
        simp_all [clashes, filter_some, hasId]
    | remote hh =>
      rcases b with _ | b <;> simp [kindId] at hh
      have hfile := hkind _ _ hh.1.1 hh.1.2
      cases hh : isFile r <;> cases hb : isFile b <;>
        simp_all [clashes, filter_some, hasId]
    | same hh =>
      simp [kindId] at hh
      have hfile := hkind _ _ hh.1.1 hh.1.2
      cases hr : isFile r <;> simp_all [clashes]
  all_goals rfl

theorem file_takes (h : d.Takes side) (hm : ¬ d.Mistakes isFile) :
    kindId (d.file isFile) = kindId (side.filter isFile) := by
  have hfiles {o o' : Option (Dirent Id)} (h : kindId o = kindId o') :
      kindId (o.filter isFile) = kindId (o'.filter isFile) := kindId_filter FileKind.kind h
  unfold Dents.file
  cases h with
  | head hr => rw [keptFile_head (hfiles hr)]
  | same hh => rw [keptFile_same (hfiles hh)]
  | remote hh =>
    rcases keptFile_remote (hfiles hh) with hkept | ⟨x, y, hx, hy, hid, hkept⟩
    · rw [hkept]
    · obtain ⟨hx', hxf⟩ := filter_eq_some_iff.1 hx
      obtain ⟨hy', hyf⟩ := filter_eq_some_iff.1 hy
      have hreg : x.isReg = y.isReg := by
        by_contra hreg
        exact hm ⟨hh, x, y, hx', hy', hxf, hyf, hid, hreg⟩
      rw [hkept, hx, hy]
      simp [kindId, FileKind.not_isDir _ hxf, FileKind.not_isDir _ hyf, hreg, hid]

theorem Dents.Takes.isFile_of_file (h : d.Takes side) {e : Dirent Id}
    (he : d.file isFile = some e) : ∃ e', side = some e' ∧ isFile e' = true := by
  by_cases hm : d.Mistakes isFile
  · obtain ⟨hh, x, y, hx, hy, -, hyf, -⟩ := hm
    have hdue := h.due
    rw [Dents.due, if_pos hh, hy] at hdue
    obtain ⟨e', he', hdir, hreg, -⟩ := kindId_eq_some hdue.symm
    exact ⟨e', he', (FileKind.kind _ _ hdir hreg).trans hyf⟩
  · have hfile := file_takes h hm
    rw [he] at hfile
    obtain ⟨e', he', -⟩ := kindId_eq_some hfile.symm
    exact ⟨e', filter_eq_some_iff.1 he'⟩

theorem Dents.Takes.not_doubled (h : d.Takes side) : d.doubled isFile = false := by
  obtain ⟨e, hplan, hentry⟩ := dirPlan_takes h
  cases hf : d.file isFile with
  | none => simp [Dents.doubled, hf]
  | some x =>
    obtain ⟨e', rfl, hfile⟩ := h.isFile_of_file hf
    rw [filter_some, if_neg (by simp [FileKind.not_isDir _ hfile])] at hentry
    obtain rfl := kindId_eq_none hentry
    simp [Dents.doubled, hplan]

theorem put_toList (h : d.Takes side) :
    (d.file isFile).toList ++ (dirPlan d).entry.toList = (d.put isFile).toList := by
  have hone : d.doubled isFile = false := h.not_doubled
  have hclash : d.clash isFile = none := h.clash_none
  cases hf : d.file isFile <;> cases hd : (dirPlan d).entry <;>
    simp_all [Dents.put, Dents.doubled]

theorem below_takes {names : ConflictNames} {basedir : List Name} (h : d.Takes side) :
    d.below isFile names basedir = none := by
  obtain ⟨e, hplan, -⟩ := dirPlan_takes h
  unfold Dents.below
  rw [filePlan_quiet h.clash_none]
  cases e <;> simp [hplan, DirPlan.of]

theorem kindId_put (h : d.Takes side) (hm : ¬ d.Mistakes isFile) :
    kindId (d.put isFile) = kindId ((side.filter isFile).or (side.filter Dirent.isDir)) := by
  have hor : ∀ o o' : Option (Dirent Id), kindId (o.or o') = (kindId o).or (kindId o') := by
    intro o o'
    cases o <;> rfl
  obtain ⟨e, hplan, hentry⟩ := dirPlan_takes h
  rw [Dents.put, hor, hor, file_takes h hm, hplan, DirPlan.entry_of, hentry]

/-- What the row drops is what the side has. -/
theorem Dents.Takes.drops_iff (h : d.Takes side) :
    d.Drops isFile ↔ ∃ e, side = some e ∧ isFile e = false ∧ e.isDir = false := by
  constructor
  · rintro ⟨e, he, hfile, hdir⟩
    obtain ⟨e', he', hd, hr, -⟩ := kindId_eq_some (he ▸ h.due.symm)
    exact ⟨e', he', (FileKind.kind _ _ hd hr).trans hfile, hd.trans hdir⟩
  · rintro ⟨e, rfl, hfile, hdir⟩
    obtain ⟨e', he', hd, hr, -⟩ := kindId_eq_some h.due
    exact ⟨e', he', (FileKind.kind _ _ hd hr).trans hfile, hd.trans hdir⟩

theorem keepsType_of_look (h : d.Takes side) (hlook : look (d.put isFile) = look side) :
    d.KeepsType isFile := by
  have hm : ¬ d.Mistakes isFile := by
    intro hm
    have hhead : d.put isFile = d.head := by
      have hfile := file_mistakes hm
      obtain ⟨-, x, y, hx, -⟩ := hm
      rw [Dents.put, hfile, hx, some_or]
    obtain ⟨hh, x, y, hx, hy, hxf, hyf, hid, hreg⟩ := hm
    have hdue := look_of_kindId h.due
    rw [Dents.due, if_pos hh, hy, ← hlook, hhead, hx] at hdue
    simp [look, FileKind.not_isDir _ hxf, FileKind.not_isDir _ hyf] at hdue
    exact hreg hdue.1.symm
  refine ⟨fun hd => ?_, hm⟩
  obtain ⟨e, rfl, hfile, hdir⟩ := h.drops_iff.1 hd
  have hput := look_of_kindId (kindId_put h hm)
  rw [hlook] at hput
  simp [look, filter_some, hfile, hdir] at hput

theorem kindId_of_keepsType (h : d.Takes side) (hk : d.KeepsType isFile) :
    kindId (d.put isFile) = kindId side := by
  rw [kindId_put h hk.2]
  cases hs : side with
  | none => rfl
  | some e =>
    have hd := hk.1
    rw [h.drops_iff] at hd
    cases hf : isFile e <;> cases hdir : e.isDir <;> simp_all [filter_some]

/-- **A row that takes a side puts what the side shows** where the type is kept. -/
theorem put_takes_iff {α : Type} {view : Option (Dirent Id) → α} (hview : IsView view)
    (h : d.Takes side) : view (d.put isFile) = view side ↔ d.KeepsType isFile :=
  ⟨fun heq => keepsType_of_look h (hview.look heq),
    fun hk => hview.of_kindId (kindId_of_keepsType h hk)⟩

end Kinds

theorem Dents.ThreeDirs.below (hd : d.ThreeDirs b h r) : dirPlan d = .below h := by
  obtain ⟨⟨hb, hbd⟩, ⟨hh, hhd⟩, ⟨hr, hrd⟩, hbh, hbr, hhr⟩ := hd
  simp [dirPlan, filter_some, hasId, *]

omit [DecidableEq Id] in
theorem Dents.ThreeDirs.not_takes (hd : d.ThreeDirs b h r) : ¬ d.Takes side := by
  obtain ⟨⟨hb, -⟩, ⟨hh, -⟩, ⟨hr, -⟩, hbh, hbr, hhr⟩ := hd
  rintro (heq | heq | heq) <;> simp [kindId, *] at heq
  · exact hbr heq.2.symm
  · exact hbh heq.2.symm

variable [FileKind isFile]

theorem Dents.ThreeDirs.clash_none (hd : d.ThreeDirs b h r) :
    d.clash isFile = none ∧ d.file isFile = none := by
  obtain ⟨-, ⟨hh, hhd⟩, ⟨hr, hrd⟩, -⟩ := hd
  have hhf : isFile h = false := not_isFile hhd
  have hrf : isFile r = false := not_isFile hrd
  exact ⟨by simp [Dents.clash, clashes, hh, hr, hhf, hrf],
    by simp [Dents.file, keptFile, hh, hr, filter_some, hhf, hrf]⟩

theorem Dents.ThreeDirs.keepsType (hd : d.ThreeDirs b h r) : d.KeepsType isFile := by
  obtain ⟨-, ⟨hh, hhd⟩, ⟨hr, hrd⟩, -⟩ := hd
  constructor
  · rintro ⟨e, he, -, hdir⟩
    unfold Dents.due at he
    split_ifs at he <;> simp_all
  · rintro ⟨-, x, y, hx, -, hxf, -⟩
    obtain rfl : h = x := by simpa [hh] using hx
    simp [not_isFile hhd] at hxf

theorem Dents.Quiet.clash_none (hq : d.Quiet) : d.clash isFile = none := by
  rcases hq with ⟨side, h⟩ | ⟨b, h, r, hd⟩
  · exact h.clash_none
  · exact hd.clash_none.1

theorem Dents.Quiet.not_doubled (hq : d.Quiet) : d.doubled isFile = false := by
  rcases hq with ⟨side, h⟩ | ⟨b, h, r, hd⟩
  · exact h.not_doubled
  · simp [Dents.doubled, hd.clash_none.2]

section

omit [DecidableEq Id] [FileKind isFile]

theorem quiet_of_independent
    (h1 : look d.head ≠ look d.base → kindId d.remote = kindId d.base)
    (h2 : look d.remote ≠ look d.base → kindId d.head = kindId d.base) : d.Quiet := by
  by_cases hh : look d.head = look d.base
  · by_cases hr : look d.remote = look d.base
    · rcases kindId_of_look hh with hh | ⟨x, b, hx, hb⟩
      · exact .inl ⟨_, .remote hh⟩
      rcases kindId_of_look hr with hr | ⟨y, b', hy, hb'⟩
      · exact .inl ⟨_, .head hr⟩
      obtain rfl : b = b' := Option.some.inj (hb.1.symm.trans hb'.1)
      by_cases hbx : b.id = x.id
      · exact .inl ⟨_, .remote (kindId_dirs hx hb hbx.symm)⟩
      by_cases hby : b.id = y.id
      · exact .inl ⟨_, .head (kindId_dirs hy hb hby.symm)⟩
      by_cases hxy : x.id = y.id
      · exact .inl ⟨_, .same (kindId_dirs hx hy hxy)⟩
      exact .inr ⟨b, x, y, hb, hx, hy, hbx, hby, hxy⟩
    · exact .inl ⟨_, .remote (h2 hr)⟩
  · exact .inl ⟨_, .head (h1 hh)⟩

theorem takes_of_independent {t : Trees Id} {m : Name}
    (h : kindId (findDirent m (t.head.getD [])) ≠ kindId (findDirent m (t.base.getD [])) →
      kindId (findDirent m (t.remote.getD [])) = kindId (findDirent m (t.base.getD []))) :
    ∃ side, (t.row m).Takes side := by
  by_cases hc : kindId (t.row m).head = kindId (t.row m).base
  · exact ⟨_, .remote hc⟩
  · exact ⟨_, .head (h hc)⟩

end

end Rows

variable [ObjectId Id]

/-- Where one side has changed what is seen of base, the other has the entry of base. -/
def Independent {α : Type} (view : Option (Dirent Id) → α) (st : FsStore Id)
    (base head remote : Id) : Prop :=
  ∀ p, (view (entryAt st head p) ≠ view (entryAt st base p) →
      kindId (entryAt st remote p) = kindId (entryAt st base p)) ∧
    (view (entryAt st remote p) ≠ view (entryAt st base p) →
      kindId (entryAt st head p) = kindId (entryAt st base p))

/-- Both changes applied to base: head where head has changed the path, and remote elsewhere. -/
def bothChanges {α : Type} [DecidableEq α] (view : Option (Dirent Id) → α)
    (base head remote : Option (Dirent Id)) : α :=
  if view head ≠ view base then view head else view remote

/-- The directories that a merge goes into. -/
inductive Trees.Enters (st : FsStore Id) : Trees Id → Trees Id → Prop
  | here (t : Trees Id) : Enters st t t
  | sub {t t' : Trees Id} {m : Name} {b h r : Dirent Id} : (t.row m).ThreeDirs b h r →
      Enters st ((t.row m).trees st) t' → Enters st t t'

/-- In each directory that the merge goes into, the types are kept. -/
def Trees.KeepsTypes (isFile : Dirent Id → Bool) (st : FsStore Id) (t : Trees Id) : Prop :=
  ∀ t', t.Enters st t' → ∀ m, (t'.row m).KeepsType isFile

/-! ## Quiet merges -/

section Run

variable {isFile : Dirent Id → Bool} {names : ConflictNames}
  {arrange : List (Dirent Id) → List (Dirent Id)} {st st' : FsStore Id} {fuel k : ℕ}
  {t : Trees Id} {m : Name} {basedir : List Name}
  {recurse : Trees Id → List Name → Outcome Id} {d : Dents Id}
  {side o o' : Option (Dirent Id)}

theorem keepsTypes_iff : t.KeepsTypes isFile st ↔ ∀ m, (t.row m).KeepsType isFile ∧
    ∀ b h r, (t.row m).ThreeDirs b h r → ((t.row m).trees st).KeepsTypes isFile st := by
  constructor
  · exact fun h m => ⟨h t (.here t) m, fun b x r hd t' ht' => h t' (.sub hd ht')⟩
  · intro h t' ht' m
    cases ht' with
    | here => exact (h m).1
    | sub hd hsub => exact (h _).2 _ _ _ hd _ hsub m

section Kinds

variable [FileKind isFile]

theorem rowOutcome_takes (h : d.Takes side) : rowOutcome isFile names st recurse basedir d =
    ⟨true, (d.put isFile).toList, false, [], []⟩ := by
  obtain ⟨e, hplan, -⟩ := dirPlan_takes h
  rw [← put_toList h]
  unfold rowOutcome
  rw [filePlan_quiet h.clash_none]
  cases e <;> simp [hplan, DirPlan.of, DirPlan.entry]

theorem rowOutcome_threeDirs {b h r : Dirent Id} (hd : d.ThreeDirs b h r) :
    rowOutcome isFile names st recurse basedir d =
      { recurse (d.trees st) (basedir ++ [d.dirname]) with
        entries := [h.withId
          (seafDirId (recurse (d.trees st) (basedir ++ [d.dirname])).entries)] } := by
  obtain ⟨hclash, hfile⟩ : d.clash isFile = none ∧ d.file isFile = none := hd.clash_none
  unfold rowOutcome
  rw [filePlan_quiet hclash, hfile]
  simp [hd.below]

end Kinds

/-- Every row on the way of the merge is quiet. -/
def QuietTrees (st : FsStore Id) : ℕ → Trees Id → Prop
  | 0, _ => False
  | n + 1, t => ∀ m ∈ t.names, (∃ side, (t.row m).Takes side) ∨
      (∃ b h r, (t.row m).ThreeDirs b h r) ∧ QuietTrees st n ((t.row m).trees st)

/-- **A quiet merge** goes through, without a conflict and without generated names. -/
theorem QuietTrees.outcome (isFile : Dirent Id → Bool) [FileKind isFile] (names : ConflictNames)
    (arrange : List (Dirent Id) → List (Dirent Id)) (hq : QuietTrees st fuel t)
    (basedir : List Name) :
    (mergeOutcome isFile names arrange st fuel t basedir).ok = true ∧
      (mergeOutcome isFile names arrange st fuel t basedir).conflict = false ∧
      FreshNames isFile names st fuel t basedir := by
  induction fuel generalizing t basedir with
  | zero => exact hq.elim
  | succ fuel ih =>
    have hrow : ∀ m ∈ t.names, (rowOutcome isFile names st
          (mergeOutcome isFile names arrange st fuel) basedir (t.row m)).ok = true ∧
        (rowOutcome isFile names st
          (mergeOutcome isFile names arrange st fuel) basedir (t.row m)).conflict = false ∧
        ∀ n, (t.row m).below isFile names basedir = some n →
          FreshNames isFile names st fuel ((t.row m).trees st) (basedir ++ [n]) := by
      intro m hm
      rcases hq m hm with ⟨side, hside⟩ | ⟨⟨b, h, r, hd⟩, hsub⟩
      · rw [rowOutcome_takes hside, below_takes hside]
        exact ⟨rfl, rfl, by simp⟩
      · rw [rowOutcome_threeDirs hd]
        exact ⟨(ih hsub _).1, (ih hsub _).2.1, fun n _ => (ih hsub _).2.2⟩
    have hquiet : ∀ m ∈ t.names, (t.row m).Quiet := fun m hm => (hq m hm).imp_right And.left
    refine ⟨?_, ?_, ⟨fun m hm => (hquiet m hm).not_doubled, fun m hm c hc => ?_⟩,
      fun m hm => (hrow m hm).2.2⟩
    · simpa [mergeOutcome, Outcome.close, Outcome.all] using fun m hm => (hrow m hm).1
    · simpa [mergeOutcome, Outcome.close, Outcome.all] using fun m hm => (hrow m hm).2.1
    · simp [Dents.conflictName, (hquiet m hm).clash_none] at hc

/-! ## Lookup in a quiet merge -/

/-- The entry at a path that starts at an entry. -/
def entryFrom (st : FsStore Id) (o : Option (Dirent Id)) : List Name → Option (Dirent Id)
  | [] => o
  | n :: p => entryIn st (subEntries st o) (n :: p)

@[simp] theorem entryFrom_none (p : List Name) : entryFrom st none p = none := by
  cases p <;> simp [entryFrom, subEntries]

theorem entryIn_eq_entryFrom (es : List (Dirent Id)) (m : Name) (p : List Name) :
    entryIn st es (m :: p) = entryFrom st (findDirent m es) p := by
  cases p <;> rfl

theorem kindId_entryFrom (h : kindId o = kindId o') (p : List Name) :
    kindId (entryFrom st o p) = kindId (entryFrom st o' p) := by
  cases p with
  | nil => exact h
  | cons n p =>
    have hsub : subEntries st o = subEntries st o' := by
      cases o <;> cases o' <;> simp_all [kindId, subEntries]
    rw [entryFrom, entryFrom, hsub]

theorem entryFrom_store (hle : st ≤ st') {P : List (Dirent Id) → Prop}
    (h : ∀ e, o = some e → e.isDir = true → Tree P st k e.id) (p : List Name) :
    entryFrom st' o p = entryFrom st o p := by
  induction p generalizing o k with
  | nil => rfl
  | cons n p ih =>
    cases o with
    | none => simp [entryFrom, subEntries]
    | some e =>
      by_cases hd : e.isDir = true
      · cases k with
        | zero => exact (h e rfl hd).elim
        | succ k =>
          obtain ⟨es, hes, hsub⟩ := (h e rfl hd).subTrees
          have hs : subEntries st (some e) = es := by simp [subEntries, hd, hes]
          have hs' : subEntries st' (some e) = es := by
            simp [subEntries, hd, FsStore.getSeafdir_mono hle hes]
          rw [entryFrom, entryFrom, hs, hs', entryIn_eq_entryFrom, entryIn_eq_entryFrom]
          exact ih fun e' he' hd' => hsub.2 e' (mem_of_findDirent he').1 hd'
      · simp [entryFrom, subEntries, hd]

theorem bothChanges_takes {α : Type} [DecidableEq α] {view : Option (Dirent Id) → α}
    (hview : IsView view) (hside : d.Takes side) (p : List Name) :
    bothChanges view (entryFrom st d.base p) (entryFrom st d.head p) (entryFrom st d.remote p) =
      view (entryFrom st side p) := by
  unfold bothChanges
  cases hside with
  | head h =>
    split_ifs with hc
    · rfl
    · rw [hview.of_kindId (kindId_entryFrom h p), not_not.1 hc]
  | remote h => rw [if_neg (not_not.2 (hview.of_kindId (kindId_entryFrom h p)))]
  | same h =>
    split_ifs
    · rfl
    · exact (hview.of_kindId (kindId_entryFrom h p)).symm

omit [DecidableEq Id] [ObjectId Id] in
theorem row_eq_none (hm : m ∉ t.names) : t.row m = ⟨none, none, none⟩ := by
  have hnone : ∀ es ∈ t.lists, findDirent m es = none := by
    intro es hes
    cases h : findDirent m es with
    | none => rfl
    | some e => exact absurd (Trees.mem_names hes h) hm
  simp [Trees.row, hnone _ (show t.base.getD [] ∈ t.lists by simp [Trees.lists]),
    hnone _ (show t.head.getD [] ∈ t.lists by simp [Trees.lists]),
    hnone _ (show t.remote.getD [] ∈ t.lists by simp [Trees.lists])]

section Level

variable [FileKind isFile] (hsort : Fileserver.SortsDirents arrange)
  (hmerge : Merges (Desc Dirent.name) isFile names arrange st st' (fuel + 1) k t basedir)
  (hq : ∀ m, (t.row m).Quiet)

include hsort hmerge hq

theorem Merges.find_quiet {e : Dirent Id} :
    findDirent m (mergeOutcome isFile names arrange st (fuel + 1) t basedir).entries = some e ↔
      m ∈ t.names ∧ e ∈ (rowOutcome isFile names st
        (mergeOutcome isFile names arrange st fuel) basedir (t.row m)).entries := by
  -- a row puts nothing but its own name
  have hname : ∀ m' ∈ t.names, ∀ e' ∈ (rowOutcome isFile names st
      (mergeOutcome isFile names arrange st fuel) basedir (t.row m')).entries,
      e'.name = m' := by
    intro m' hm' e' he'
    have hperm := rowOutcome_names rfl (mergeOutcome_ok_succ hmerge.ok m' hm') (t.row_named m')
    have hmem := hperm.mem_iff.1 (mem_map_of_mem he')
    simp only [Dents.conflictName, (hq m').clash_none, toList_none, append_nil,
      mem_append] at hmem
    rcases hmem with hmem | hmem <;> split_ifs at hmem <;> simp_all
  constructor
  · intro hfind
    obtain ⟨hmem, hm⟩ := mem_of_findDirent hfind
    obtain ⟨m', hm', he⟩ := (mem_mergeOutcome_entries hsort).1 hmem
    obtain rfl : m = m' := hm.symm.trans (hname m' hm' e he)
    exact ⟨hm', he⟩
  · rintro ⟨hm, he⟩
    exact hname m hm e he ▸ hmerge.find_of_mem hsort (fun _ h => h) hm he

theorem Merges.find_takes (hside : (t.row m).Takes side) :
    findDirent m (mergeOutcome isFile names arrange st (fuel + 1) t basedir).entries =
      (t.row m).put isFile := by
  ext e
  rw [hmerge.find_quiet hsort hq, rowOutcome_takes hside]
  by_cases hm : m ∈ t.names
  · simp [hm]
  · rw [row_eq_none hm]
    simp [hm, Dents.put, Dents.file, keptFile, dirPlan, DirPlan.entry]

/-- A row that takes a side shows what the side shows, at its name and below, where the type is
    kept. -/
theorem Merges.view_takes_iff {α : Type} {view : Option (Dirent Id) → α} (hview : IsView view)
    (hle : st ≤ st') (hside : (t.row m).Takes side) :
    (∀ p, view (entryIn st' (mergeOutcome isFile names arrange st (fuel + 1) t basedir).entries
      (m :: p)) = view (entryFrom st side p)) ↔ (t.row m).KeepsType isFile := by
  simp only [entryIn_eq_entryFrom, hmerge.find_takes hsort hq hside]
  rw [← put_takes_iff hview hside]
  refine ⟨fun hall => hall [], fun hput p => ?_⟩
  have hkeep := kindId_of_keepsType hside ((put_takes_iff hview hside).1 hput)
  have htree : ∀ e, side = some e → e.isDir = true → Tree (Desc Dirent.name) st k e.id := by
    intro e he hd
    cases hside with
    | head => exact hmerge.treesIn.head.tree he hd
    | remote => exact hmerge.treesIn.remote.tree he hd
    | same => exact hmerge.treesIn.head.tree he hd
  rw [hview.of_kindId (kindId_entryFrom hkeep p), entryFrom_store hle htree]

end Level

/-- Where one side has changed what is seen of base, the other has the entry of base. -/
def IndependentIn (st : FsStore Id) (t : Trees Id) : Prop :=
  ∀ p, (look (entryIn st (t.head.getD []) p) ≠ look (entryIn st (t.base.getD []) p) →
      kindId (entryIn st (t.remote.getD []) p) = kindId (entryIn st (t.base.getD []) p)) ∧
    (look (entryIn st (t.remote.getD []) p) ≠ look (entryIn st (t.base.getD []) p) →
      kindId (entryIn st (t.head.getD []) p) = kindId (entryIn st (t.base.getD []) p))

theorem IndependentIn.sub (h : IndependentIn st t) (m : Name) :
    IndependentIn st ((t.row m).trees st) := by
  intro p
  cases p with
  | nil => exact ⟨fun h => absurd rfl h, fun h => absurd rfl h⟩
  | cons n p =>
    simpa only [Dents.trees, subDir_getD, Trees.row, entryIn_cons _ m (cons_ne_nil n p)]
      using h (m :: n :: p)

theorem IndependentIn.quiet (h : IndependentIn st t) (m : Name) : (t.row m).Quiet :=
  quiet_of_independent (h [m]).1 (h [m]).2

theorem IndependentIn.quietTrees {P : List (Dirent Id) → Prop} (ht : TreesIn P st k t)
    (h : IndependentIn st t) (hfuel : k < fuel) : QuietTrees st fuel t := by
  induction fuel generalizing k t with
  | zero => omega
  | succ fuel ih =>
    intro m _
    rcases h.quiet m with hside | ⟨b, x, r, hd⟩
    · exact .inl hside
    · obtain ⟨-, -, -, hk⟩ := ht.head.getSeafdir hd.head.1 hd.head.2
      exact .inr ⟨⟨b, x, r, hd⟩, ih (ht.sub m) (h.sub m) (by omega)⟩

/-- The entries show at a path what both changes leave there. -/
def ShowsBoth (st st' : FsStore Id) (t : Trees Id) (es : List (Dirent Id)) (p : List Name) :
    Prop :=
  look (entryIn st' es p) = bothChanges look (entryIn st (t.base.getD []) p)
    (entryIn st (t.head.getD []) p) (entryIn st (t.remote.getD []) p)

section Exact

variable [FileKind isFile] (hsort : Fileserver.SortsDirents arrange) (hle : st ≤ st')

include hsort

/-- Three directories show what the merge below them shows. -/
theorem Merges.shows_threeDirs {b x r : Dirent Id}
    (hmerge : Merges (Desc Dirent.name) isFile names arrange st st' (fuel + 1) k t basedir)
    (hm : m ∈ t.names) (hd : (t.row m).ThreeDirs b x r) :
    Merges (Desc Dirent.name) isFile names arrange st st' fuel (k - 1) ((t.row m).trees st)
        (basedir ++ [m]) ∧
      ((∀ p, ShowsBoth st st' t
          (mergeOutcome isFile names arrange st (fuel + 1) t basedir).entries (m :: p)) ↔
        ∀ p, ShowsBoth st st' ((t.row m).trees st) (mergeOutcome isFile names arrange st fuel
          ((t.row m).trees st) (basedir ++ [m])).entries p) := by
  obtain ⟨f, hf, -, -, hbelow⟩ := hmerge.row hsort (fun _ h => h) hm
  rw [filePlan_quiet hd.clash_none.1] at hf
  cases hf
  obtain ⟨e, hfind, hdir, hsub, hmerges⟩ := hbelow x hd.below
  have hname : x.name = m := (t.row_named m).2.1 x hd.head.1
  rw [hname] at hfind hsub hmerges
  have hcons : ∀ n p, ShowsBoth st st' t
        (mergeOutcome isFile names arrange st (fuel + 1) t basedir).entries (m :: n :: p) ↔
      ShowsBoth st st' ((t.row m).trees st) (mergeOutcome isFile names arrange st fuel
        ((t.row m).trees st) (basedir ++ [m])).entries (n :: p) := by
    intro n p
    unfold ShowsBoth
    rw [entryIn_cons _ m (cons_ne_nil n p), hfind, hsub]
    simp only [Dents.trees, subDir_getD, Trees.row, entryIn_cons _ m (cons_ne_nil n p)]
  refine ⟨hmerges, fun h p => ?_, fun h p => ?_⟩ <;> cases p with
  | nil =>
    have hb : findDirent m (t.base.getD []) = some b := hd.base.1
    have hh : findDirent m (t.head.getD []) = some x := hd.head.1
    have hr : findDirent m (t.remote.getD []) = some r := hd.remote.1
    simp [ShowsBoth, entryIn, hfind, hb, hh, hr, bothChanges, look, hdir, hd.base.2, hd.head.2,
      hd.remote.2]
  | cons n p => simpa only [hcons] using h (n :: p)

include hle

/-- **The merge of independent changes is exact** where the types are kept. -/
theorem Merges.shows_iff
    (hmerge : Merges (Desc Dirent.name) isFile names arrange st st' fuel k t basedir)
    (hind : IndependentIn st t) :
    (∀ p, ShowsBoth st st' t (mergeOutcome isFile names arrange st fuel t basedir).entries p) ↔
      t.KeepsTypes isFile st := by
  induction fuel generalizing k t basedir with
  | zero => simpa [mergeOutcome, Outcome.failed] using hmerge.ok
  | succ fuel ih =>
    -- by the first name of the path
    have hrow : ∀ m, (∀ p, ShowsBoth st st' t
        (mergeOutcome isFile names arrange st (fuel + 1) t basedir).entries (m :: p)) ↔
        (t.row m).KeepsType isFile ∧ ∀ b h r, (t.row m).ThreeDirs b h r →
          ((t.row m).trees st).KeepsTypes isFile st := by
      intro m
      rcases hind.quiet m with ⟨side, hside⟩ | ⟨b, x, r, hd⟩
      · rw [← hmerge.view_takes_iff hsort hind.quiet isView_look hle hside]
        simp only [ShowsBoth, ← bothChanges_takes isView_look hside]
        simp only [entryIn_eq_entryFrom, Trees.row]
        exact (and_iff_left fun b x r hd => absurd hside hd.not_takes).symm
      · have hm : m ∈ t.names := Trees.mem_names (by simp [Trees.lists]) hd.head.1
        obtain ⟨hsub, hshows⟩ := hmerge.shows_threeDirs hsort hm hd
        rw [hshows, ih hsub (hind.sub m)]
        exact ⟨fun h => ⟨hd.keepsType, fun _ _ _ _ => h⟩, fun h => h.2 b x r hd⟩
    rw [keepsTypes_iff]
    constructor
    · exact fun h m => (hrow m).1 fun p => h (m :: p)
    · intro h p
      cases p with
      | nil => simp [ShowsBoth, entryIn, bothChanges, look]
      | cons m p => exact (hrow m).2 (h m) p

theorem Merges.kindId_iff
    (hmerge : Merges (Desc Dirent.name) isFile names arrange st st' fuel k t basedir)
    {side : Name → Option (Dirent Id)} (hside : ∀ m, (t.row m).Takes (side m)) :
    (∀ m p, kindId (entryIn st' (mergeOutcome isFile names arrange st fuel t basedir).entries
      (m :: p)) = kindId (entryFrom st (side m) p)) ↔ t.KeepsTypes isFile st := by
  cases fuel with
  | zero => simpa [mergeOutcome, Outcome.failed] using hmerge.ok
  | succ fuel =>
    rw [keepsTypes_iff]
    refine forall_congr' fun m => ?_
    rw [hmerge.view_takes_iff hsort (fun m => .inl ⟨_, hside m⟩) isView_kindId hle (hside m)]
    exact (and_iff_left fun b x r hd => absurd (hside m) hd.not_takes).symm

end Exact

end Run

/-! ## The merge of either server -/

variable {names : ConflictNames} {writeObj : Id → Bool} {st : FsStore Id} {fuel k : ℕ}
  {base head remote : Id} {isFile : Dirent Id → Bool} {res : Option (MergeState Id)}

/-- The merge ends without a conflict, and its tree shows this at each path. -/
def Shows {α : Type} (view : Option (Dirent Id) → α) (res : Option (MergeState Id))
    (want : List Name → α) : Prop :=
  ∃ s, res = some s ∧ s.conflict = false ∧
    ∀ p, view (entryAt s.store s.mergedTreeRoot p) = want p

section Quiet

variable (hm : MergeOf names writeObj fuel st base head remote isFile res)
  (hw : ∀ id, writeObj id = true) (hb : Tree (Desc Dirent.name) st k base)
  (hh : Tree (Desc Dirent.name) st k head) (hr : Tree (Desc Dirent.name) st k remote)

include hm hw hb hh hr

theorem MergeOf.quiet (hq : QuietTrees st fuel (rootTrees st base head remote)) :
    ∃ s arrange, res = some s ∧ s.conflict = false ∧ st ≤ s.store ∧
      Fileserver.SortsDirents arrange ∧
      s.store.getSeafdir s.mergedTreeRoot = some (mergeOutcome isFile names arrange st fuel
        (rootTrees st base head remote) []).entries ∧
      Merges (Desc Dirent.name) isFile names arrange st s.store fuel (k - 1)
        (rootTrees st base head remote) [] := by
  have hkind := hm.fileKind
  have hin := treesIn_roots hb hh hr
  obtain ⟨arrange, hsort, hres⟩ := hm.outcome (fun _ h => h) hb hh hr
  obtain ⟨hok, hconflict, hfresh⟩ := hq.outcome isFile names arrange []
  obtain ⟨store, hstore⟩ := saveAll_isSome hw
    (mergeOutcome isFile names arrange st fuel (rootTrees st base head remote) []).saves st
  have hsome : ∃ s, res = some s := by
    rw [hres, Outcome.run, if_pos hok, hstore]
    exact ⟨_, rfl⟩
  obtain ⟨s, rfl⟩ := hsome
  have hfinal := Outcome.final_of_run
    (fun es hes => mergeOutcome_dirs fuel hin [] hes) (mergeOutcome_saves fuel _ []) hres.symm
  exact ⟨s, arrange, rfl, hfinal.conflict.trans hconflict, hfinal.le, hsort,
    hfinal.root ▸ hfinal.dirs _ (mergeOutcome_entries_mem hok), hin, hfresh, hok, hfinal.dirs⟩

/-- Where every row of the roots takes a side, the merged tree shows the sides. -/
theorem MergeOf.shows_iff (hfuel : k ≤ fuel) {side : Name → Option (Dirent Id)}
    (hside : ∀ m, ((rootTrees st base head remote).row m).Takes (side m))
    {want : List Name → Option ((Bool × Bool) × Id)} (hnil : want [] = none)
    (hwant : ∀ m p, want (m :: p) = kindId (entryFrom st (side m) p)) :
    Shows kindId res want ↔ (rootTrees st base head remote).KeepsTypes isFile st := by
  have hkind := hm.fileKind
  have hq : QuietTrees st fuel (rootTrees st base head remote) := by
    cases fuel with
    | zero =>
      obtain rfl : k = 0 := by omega
      exact hb.elim
    | succ fuel => exact fun m _ => .inl ⟨_, hside m⟩
  obtain ⟨s, arrange, rfl, hconflict, hle, hsort, hroot, hmerges⟩ := hm.quiet hw hb hh hr hq
  rw [← hmerges.kindId_iff hsort hle hside]
  constructor
  · rintro ⟨s', hs, -, h⟩ m p
    obtain rfl := Option.some.inj hs
    rw [← entryAt_eq hroot, h, hwant]
  · refine fun h => ⟨s, rfl, hconflict, fun p => ?_⟩
    cases p with
    | nil => simp [entryAt, hnil, kindId]
    | cons m p => rw [entryAt_eq hroot, h, hwant]

/-- Where every row of the roots takes the entry of one tree, the merged tree shows this tree. -/
theorem MergeOf.shows_tree_iff (hfuel : k ≤ fuel) {tree : Id}
    (htree : Tree (Desc Dirent.name) st k tree)
    (hside : ∀ m, ((rootTrees st base head remote).row m).Takes
      (findDirent m ((st.getSeafdir tree).getD []))) :
    Shows kindId res (fun p => kindId (entryAt st tree p)) ↔
      (rootTrees st base head remote).KeepsTypes isFile st := by
  obtain ⟨es, hes, -⟩ := htree.readable
  refine hm.shows_iff hw hb hh hr hfuel hside (by simp [entryAt, kindId]) fun m p => ?_
  rw [entryAt_eq hes, entryIn_eq_entryFrom, hes, getD_some]

end Quiet

/-- **The merge of independent changes is exact** where the types are kept, and so is the merge
    where a side has what base has, or what the other side has. -/
theorem merge_independent_exact_iff
    (hm : MergeOf names writeObj fuel st base head remote isFile res)
    (hw : ∀ id, writeObj id = true) (hb : Tree (Desc Dirent.name) st k base)
    (hh : Tree (Desc Dirent.name) st k head) (hr : Tree (Desc Dirent.name) st k remote)
    (hfuel : k ≤ fuel) :
    (Independent look st base head remote →
      (Shows look res (fun p =>
        bothChanges look (entryAt st base p) (entryAt st head p) (entryAt st remote p)) ↔
      (rootTrees st base head remote).KeepsTypes isFile st)) ∧
    (Independent kindId st base head remote →
      (Shows kindId res (fun p =>
        bothChanges kindId (entryAt st base p) (entryAt st head p) (entryAt st remote p)) ↔
      (rootTrees st base head remote).KeepsTypes isFile st)) ∧
    (remote = base → (Shows kindId res (fun p => kindId (entryAt st head p)) ↔
      (rootTrees st base head remote).KeepsTypes isFile st)) ∧
    (head = base → (Shows kindId res (fun p => kindId (entryAt st remote p)) ↔
      (rootTrees st base head remote).KeepsTypes isFile st)) ∧
    (remote = head → (Shows kindId res (fun p => kindId (entryAt st head p)) ↔
      (rootTrees st base head remote).KeepsTypes isFile st)) := by
  have hkind := hm.fileKind
  obtain ⟨eb, heb, -⟩ := hb.readable
  obtain ⟨eh, heh, -⟩ := hh.readable
  obtain ⟨er, her, -⟩ := hr.readable
  have hroots : rootTrees st base head remote = ⟨some eb, some eh, some er⟩ := by
    rw [rootTrees, heb, heh, her]
  refine ⟨fun hind => ?_, fun hind => ?_, ?_, ?_, ?_⟩
  · have hindIn : IndependentIn st (rootTrees st base head remote) := by
      intro p
      simpa only [hroots, getD_some, ← entryAt_eq heb, ← entryAt_eq heh, ← entryAt_eq her]
        using hind p
    obtain ⟨n, rfl⟩ := hb.exists_succ
    have hk : n + 1 - 1 < fuel := by omega
    obtain ⟨s, arrange, rfl, hconflict, hle, hsort, hroot, hmerges⟩ :=
      hm.quiet hw hb hh hr (hindIn.quietTrees (treesIn_roots hb hh hr) hk)
    rw [← hmerges.shows_iff hsort hle hindIn]
    simp only [Shows, Option.some.injEq, exists_eq_left', hconflict, true_and, ShowsBoth, hroots,
      getD_some, entryAt_eq heb, entryAt_eq heh, entryAt_eq her, entryAt_eq hroot]
  · have hside : ∀ m, ∃ side, ((rootTrees st base head remote).row m).Takes side := by
      refine fun m => takes_of_independent ?_
      simpa only [hroots, getD_some, entryAt_eq heb, entryAt_eq heh, entryAt_eq her,
        entryIn_eq_entryFrom, entryFrom] using (hind [m]).1
    choose side hside using hside
    refine hm.shows_iff hw hb hh hr hfuel hside (by simp [entryAt, bothChanges, kindId])
      fun m p => ?_
    rw [← bothChanges_takes isView_kindId (hside m), entryAt_eq heb, entryAt_eq heh,
      entryAt_eq her]
    simp only [hroots, Trees.row, getD_some, entryIn_eq_entryFrom]
  · rintro rfl
    exact hm.shows_tree_iff hw hb hh hr hfuel hh fun m => .head rfl
  · rintro rfl
    exact hm.shows_tree_iff hw hb hh hr hfuel hr fun m => .remote rfl
  · rintro rfl
    exact hm.shows_tree_iff hw hb hh hr hfuel hh fun m => .same rfl

/-- Head has added the link `f`, and remote the file `g`. -/
def addedStore : FsStore ℕ :=
  (FsStore.empty.insert (.dir (oneEntry 0o120777 1)) (List.cons_ne_nil _ _)).insert
    (.dir [.new 0o100644 2 ['g'] 0 [] 0]) (List.cons_ne_nil _ _)

theorem merge_independent_added :
    let head := seafDirId (oneEntry 0o120777 1)
    let remote := seafDirId [Dirent.new 0o100644 2 ['g'] 0 [] 0]
    (Tree (Desc Dirent.name) addedStore 1 emptySha1 ∧ Tree (Desc Dirent.name) addedStore 1 head ∧
      Tree (Desc Dirent.name) addedStore 1 remote ∧
      Independent look addedStore emptySha1 head remote) ∧
    ∃ s, Fileserver.mergeTrees (Server.conflictNames someEnv) (fun _ => true) Server.sortDirents 1
        addedStore emptySha1 head remote = some s ∧ s.conflict = false ∧
      look (entryAt s.store s.mergedTreeRoot [['f']]) = some (some (false, 1)) ∧
      look (entryAt s.store s.mergedTreeRoot [['g']]) = some (some (true, 2)) := by
  intro head remote
  have hb : Tree (Desc Dirent.name) addedStore 1 emptySha1 := by decide
  have hh : Tree (Desc Dirent.name) addedStore 1 head := by decide
  have hr : Tree (Desc Dirent.name) addedStore 1 remote := by decide
  have hbase : ∀ p, entryAt addedStore emptySha1 p = none := fun p => by
    rw [entryAt_eq (show addedStore.getSeafdir emptySha1 = some [] from rfl), entryIn_nil]
  have hfind : ∀ m, ['f'] ≠ m → findDirent m (oneEntry 0o120777 1) = none := by
    intro m hm
    refine find?_eq_none.2 fun e he => ?_
    obtain rfl := mem_singleton.1 he
    exact decide_eq_true_iff.not.2 hm
  -- a path of one name leads to one entry at most, and a longer one to nothing
  have hpath : ∀ p, entryAt addedStore head p = none ∨ entryAt addedStore remote p = none := by
    intro p
    have hhead : entryAt addedStore head p = entryIn addedStore (oneEntry 0o120777 1) p :=
      entryAt_eq rfl p
    match p with
    | [] => exact .inl rfl
    | [m] =>
      by_cases hm : ['f'] = m
      · exact .inr (hm ▸ rfl)
      · exact .inl (by rw [hhead, entryIn, hfind m hm])
    | m :: n :: p =>
      have hsub : subEntries addedStore (findDirent m (oneEntry 0o120777 1)) = [] := by
        by_cases hm : ['f'] = m
        · exact hm ▸ rfl
        · rw [hfind m hm, subEntries]
      exact .inl (by rw [hhead, entryIn_cons _ m (cons_ne_nil n p), hsub, entryIn_nil])
  have hind : Independent look addedStore emptySha1 head remote := by
    intro p
    rcases hpath p with h | h <;> simp [hbase, h, look, kindId]
  have hkeeps : (rootTrees addedStore emptySha1 head remote).KeepsTypes Fileserver.isFile
      addedStore := by
    refine keepsTypes_iff.2 fun m => ⟨⟨?_, ?_⟩, ?_⟩
    · rintro ⟨e, -, hfile, hdir⟩
      simp [Fileserver.isFile, hdir] at hfile
    · rintro ⟨hhead, x, y, hx, -⟩
      rw [hx] at hhead
      cases hhead
    · rintro b x r ⟨⟨hb, -⟩, -⟩
      cases hb
  obtain ⟨s, hs, hconflict, hlook⟩ :=
    ((merge_independent_exact_iff (.fileserver _ Server.sortDirents_sorts) (fun _ => rfl) hb hh hr
      le_rfl).1 hind).2 hkeeps
  exact ⟨⟨hb, hh, hr, hind⟩, s, hs, hconflict, hlook [['f']], hlook [['g']]⟩

/-- **The C merge drops a symbolic link** that all three trees have. -/
theorem seafMergeTrees_drops_link :
    let tree := seafDirId (oneEntry 0o120777 1)
    Tree (TypedListing linkStore) linkStore 1 tree ∧
    (entryAt linkStore tree [['f']]).map Dirent.id = some 1 ∧
    (Server.seafMergeTrees (Server.conflictNames someEnv) (fun _ => true) 1 linkStore tree tree
      tree).map (fun s => (s.conflict, (entryAt s.store s.mergedTreeRoot [['f']]).map Dirent.id)) =
      some (false, none) := by
  decide +kernel

end CloudFile
