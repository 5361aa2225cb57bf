/-
  The unfolded two-way diff is sound and complete: its entries are the differences of the two
  trees, path by path (`Differs`), each once. By recursion on the depth: the items of a row at its
  own name are the differences there, and below it the walker goes on or the directories are the
  same.
-/
import CloudFile.Diff.Walk

namespace CloudFile

open SortedWalk GoPath List
open Option hiding join map_map mem_map

variable {Id : Type} [ObjectId Id] [DecidableEq Id]

def RegAt (d : Option (Dirent Id)) : Prop := ∃ e, d = some e ∧ e.isReg = true

def DirAt (d : Option (Dirent Id)) : Prop := ∃ e, d = some e ∧ e.isDir = true

/-- The differences of what stands at one path in the old and in the new tree. -/
inductive Differs (st : FsStore Id) : DiffStatus → Option (Dirent Id) → Option (Dirent Id) → Prop
  | added {o n : Option (Dirent Id)} : RegAt n → ¬ RegAt o → Differs st .added o n
  | deleted {o n : Option (Dirent Id)} : RegAt o → ¬ RegAt n → Differs st .deleted o n
  | modified {a b : Dirent Id} : a.isReg = true → b.isReg = true →
      (a.id ≠ b.id ∨ a.mode ≠ b.mode ∨ a.mtime ≠ b.mtime) →
      Differs st .modified (some a) (some b)
  | dirDeleted {o n : Option (Dirent Id)} : DirAt o → ¬ DirAt n → Differs st .dirDeleted o n
  | dirAdded {o : Option (Dirent Id)} {b : Dirent Id} : b.isDir = true →
      st.getSeafdir b.id = some [] → ¬ DirAt o → Differs st .dirAdded o (some b)

variable {st : FsStore Id} {d : Option (Dirent Id)}

theorem not_differs_self (s : DiffStatus) (d : Option (Dirent Id)) : ¬ Differs st s d d := by
  intro h
  cases h with
  | added h h' => exact h' h
  | deleted h h' => exact h' h
  | modified _ _ h => rcases h with h | h | h <;> exact h rfl
  | dirDeleted h h' => exact h' h
  | dirAdded h _ h' => exact h' ⟨_, rfl, h⟩

omit [ObjectId Id] in
theorem direntSame_iff {a b : Dirent Id} :
    direntSame a b = true ↔ a.id = b.id ∧ a.mode = b.mode ∧ a.mtime = b.mtime := by
  simp [direntSame, and_assoc]

section

omit [ObjectId Id] [DecidableEq Id]

theorem filter_isReg_none :
    d.filter Dirent.isReg = none ↔ ¬ RegAt d := by
  simp [RegAt]

theorem filter_isDir_none :
    d.filter Dirent.isDir = none ↔ ¬ DirAt d := by
  simp [DirAt]

end

/-! ## What is reported -/

/-- The two-way diff as an emitter. -/
def reporter (foldDirDiff : Bool) : Emitter Id (DiffItem Id) where
  file parent o n := fileItems o n parent
  dir parent o n := dirItems foldDirDiff o n parent
  file_none _ := rfl
  dir_none _ := rfl

/-- The differences of two lists of entries at one path and below. -/
def report (st : FsStore Id) (k : ℕ) (o n : List (Dirent Id)) (parent : List Name) :
    List (DiffItem Id) :=
  (reporter false).walk st k parent o n

omit [ObjectId Id] [DecidableEq Id] in
theorem foldlM_put (w : Results Id) (rs : List (DiffEntry Id)) (items : List (DiffItem Id)) :
    items.foldlM (fun rs x => some (w.push rs (x.toEntry w))) rs = some (putAll w rs items) :=
  foldlM_pure

theorem twoway_emits (w : Results Id) (foldDirDiff : Bool) :
    (twoway w foldDirDiff).Emits (reporter foldDirDiff)
      fun rs x => some (w.push rs (x.toEntry w)) where
  fileCb parent o n rs h := by
    rw [foldlM_put]
    exact twowayDiffFiles_eq h parent rs
  dirCb parent o n rs h := by
    rw [foldlM_put]
    exact twowayDiffDirs_eq h parent rs

/-! ## One row, at its own name -/

/-- Where the difference is. -/
def DiffItem.path (x : DiffItem Id) : List Name := x.parent ++ [x.dent.name]

/-- The items of two entries. -/
def rowItems (o n : Option (Dirent Id)) (parent : List Name) : List (DiffItem Id) :=
  fileItems (o.filter Dirent.isReg) (n.filter Dirent.isReg) parent ++
    (dirItems false (o.filter Dirent.isDir) (n.filter Dirent.isDir) parent).1

variable (o n : Option (Dirent Id))

omit [ObjectId Id] in
theorem fileItems_cases (parent : List Name) :
    fileItems o n parent = [] ∨ ∃ s d z, fileItems o n parent = [⟨s, d, parent, z⟩] ∧
      (s = .added ∨ s = .deleted ∨ s = .modified) ∧ (o = some d ∨ n = some d) := by
  cases o with
  | none =>
    cases n with
    | none => exact .inl rfl
    | some b => exact .inr ⟨.added, b, 0, rfl, by simp, .inr rfl⟩
  | some a =>
    cases n with
    | none => exact .inr ⟨.deleted, a, 0, rfl, by simp, .inl rfl⟩
    | some b =>
      by_cases hs : direntSame a b = true
      · exact .inl (by simp [fileItems, hs])
      · exact .inr ⟨.modified, b, a.size, by simp [fileItems, hs], by simp, .inr rfl⟩

theorem dirItems_cases (parent : List Name) :
    (dirItems false o n parent).1 = [] ∨
    ∃ s d, (dirItems false o n parent).1 = [⟨s, d, parent, 0⟩] ∧
      (s = .dirAdded ∨ s = .dirDeleted) ∧ (o = some d ∨ n = some d) := by
  cases o with
  | none =>
    cases n with
    | none => exact .inl rfl
    | some b =>
      by_cases hs : b.id = emptySha1
      · exact .inr ⟨.dirAdded, b, by simp [dirItems, hs], by simp, .inr rfl⟩
      · exact .inl (by simp [dirItems, hs])
  | some a =>
    cases n with
    | none => exact .inr ⟨.dirDeleted, a, rfl, by simp, .inl rfl⟩
    | some b => exact .inl rfl

theorem rowItems_nodup (parent : List Name) :
    ((rowItems o n parent).map fun x => (x.status, x.path)).Nodup := by
  unfold rowItems
  rcases fileItems_cases (o.filter Dirent.isReg) (n.filter Dirent.isReg) parent with
    h | ⟨s, d, z, h, hs, -⟩ <;>
  rcases dirItems_cases (o.filter Dirent.isDir) (n.filter Dirent.isDir) parent with
    h' | ⟨s', d', h', hs', -⟩ <;> rw [h, h']
  · simp
  · simp
  · simp
  · rcases hs with rfl | rfl | rfl <;> rcases hs' with rfl | rfl <;> simp

variable {m : Name} {o n : Option (Dirent Id)} {parent : List Name} {x : DiffItem Id}
  {s : DiffStatus}

theorem path_of_mem_rowItems (ho : ∀ d, o = some d → d.name = m)
    (hn : ∀ d, n = some d → d.name = m) (hx : x ∈ rowItems o n parent) :
    x.path = parent ++ [m] := by
  have hname : ∀ (p : Dirent Id → Bool) d, o.filter p = some d ∨ n.filter p = some d →
      d.name = m := by
    rintro p d (h | h)
    · exact ho d (filter_eq_some_iff.1 h).1
    · exact hn d (filter_eq_some_iff.1 h).1
  rcases mem_append.1 hx with hx | hx
  · rcases fileItems_cases (o.filter Dirent.isReg) (n.filter Dirent.isReg) parent with
      h | ⟨s, d, z, h, -, hd⟩
    · rw [h] at hx; simp at hx
    · rw [h, mem_singleton] at hx
      subst hx
      rw [DiffItem.path, hname _ d hd]
  · rcases dirItems_cases (o.filter Dirent.isDir) (n.filter Dirent.isDir) parent with
      h | ⟨s, d, h, -, hd⟩
    · rw [h] at hx; simp at hx
    · rw [h, mem_singleton] at hx
      subst hx
      rw [DiffItem.path, hname _ d hd]

theorem differs_of_mem_rowItems (hx : x ∈ rowItems o n parent) : Differs st x.status o n := by
  rcases mem_append.1 hx with hx | hx
  · cases ha : o.filter Dirent.isReg with
    | none =>
      cases hb : n.filter Dirent.isReg with
      | none => simp [ha, hb, fileItems] at hx
      | some b =>
        obtain rfl : x = ⟨.added, b, parent, 0⟩ := by simpa [ha, hb, fileItems] using hx
        exact .added ⟨b, filter_eq_some_iff.1 hb⟩ (filter_isReg_none.1 ha)
    | some a =>
      obtain ⟨rfl, hreg⟩ := filter_eq_some_iff.1 ha
      cases hb : n.filter Dirent.isReg with
      | none =>
        obtain rfl : x = ⟨.deleted, a, parent, 0⟩ := by simpa [ha, hb, fileItems] using hx
        exact .deleted ⟨a, rfl, hreg⟩ (filter_isReg_none.1 hb)
      | some b =>
        obtain ⟨rfl, hreg'⟩ := filter_eq_some_iff.1 hb
        by_cases hs : direntSame a b = true
        · simp [ha, hb, fileItems, hs] at hx
        · obtain rfl : x = ⟨.modified, b, parent, a.size⟩ := by
            simpa [ha, hb, fileItems, hs] using hx
          rw [direntSame_iff] at hs
          exact .modified hreg hreg' (by tauto)
  · cases ha : o.filter Dirent.isDir with
    | none =>
      cases hb : n.filter Dirent.isDir with
      | none => simp [ha, hb, dirItems] at hx
      | some b =>
        obtain ⟨rfl, hdir⟩ := filter_eq_some_iff.1 hb
        by_cases hs : b.id = emptySha1
        · obtain rfl : x = ⟨.dirAdded, b, parent, 0⟩ := by simpa [ha, hb, dirItems, hs] using hx
          exact .dirAdded hdir (FsStore.getSeafdir_nil.2 hs) (filter_isDir_none.1 ha)
        · simp [ha, hb, dirItems, hs] at hx
    | some a =>
      cases hb : n.filter Dirent.isDir with
      | none =>
        obtain rfl : x = ⟨.dirDeleted, a, parent, 0⟩ := by simpa [ha, hb, dirItems] using hx
        exact .dirDeleted ⟨a, filter_eq_some_iff.1 ha⟩ (filter_isDir_none.1 hb)
      | some b => simp [ha, hb, dirItems] at hx

theorem mem_rowItems_of_differs (h : Differs st s o n) (parent : List Name) :
    ∃ x ∈ rowItems o n parent, x.status = s := by
  unfold rowItems
  cases h with
  | added hn ho =>
    obtain ⟨b, rfl, hreg⟩ := hn
    rw [filter_isReg_none.2 ho, filter_some_pos hreg]
    exact ⟨⟨.added, b, parent, 0⟩, mem_append_left _ (by simp [fileItems]), rfl⟩
  | deleted ho hn =>
    obtain ⟨a, rfl, hreg⟩ := ho
    rw [filter_isReg_none.2 hn, filter_some_pos hreg]
    exact ⟨⟨.deleted, a, parent, 0⟩, mem_append_left _ (by simp [fileItems]), rfl⟩
  | @modified a b hreg hreg' hne =>
    have hs : direntSame a b = false := by
      rw [Bool.eq_false_iff, ne_eq, direntSame_iff]
      tauto
    rw [filter_some_pos hreg, filter_some_pos hreg']
    exact ⟨⟨.modified, b, parent, a.size⟩, mem_append_left _ (by simp [fileItems, hs]), rfl⟩
  | dirDeleted ho hn =>
    obtain ⟨a, rfl, hdir⟩ := ho
    rw [filter_isDir_none.2 hn, filter_some_pos hdir]
    exact ⟨⟨.dirDeleted, a, parent, 0⟩, mem_append_right _ (by simp [dirItems]), rfl⟩
  | @dirAdded _ b hdir hempty ho =>
    rw [filter_isDir_none.2 ho, filter_some_pos hdir]
    exact ⟨⟨.dirAdded, b, parent, 0⟩, mem_append_right _
      (by simp [dirItems, FsStore.getSeafdir_nil.1 hempty]), rfl⟩

/-! ## Where the walk does not go on -/

section

variable (h : rowSame [o, n] = true)
include h

theorem subEntries_of_rowSame :
    subEntries st o = subEntries st n := by
  obtain ⟨a, b, rfl, rfl, hid, hmode, -⟩ := rowSame_iff.1 h
  have hdir : a.isDir = b.isDir := by rw [Dirent.isDir, hmode]; rfl
  simp only [subEntries, hdir, hid]

theorem not_differs_of_rowSame : ¬ Differs st s o n := by
  obtain ⟨a, b, rfl, rfl, hid, hmode, htime⟩ := rowSame_iff.1 h
  have hreg : RegAt (some a) ↔ RegAt (some b) := by simp [RegAt, Dirent.isReg, hmode]
  have hdir : DirAt (some a) ↔ DirAt (some b) := by simp [DirAt, Dirent.isDir, hmode]
  intro hd
  cases hd with
  | added h h' => exact h' (hreg.2 h)
  | deleted h h' => exact h' (hreg.1 h)
  | modified _ _ h => tauto
  | dirDeleted h h' => exact h' (hdir.1 h)
  | dirAdded h _ h' => exact h' (hdir.2 ⟨_, rfl, h⟩)

end

theorem subEntries_of_not_recurse
    (h : (dirItems false (o.filter Dirent.isDir) (n.filter Dirent.isDir) parent).2 = false) :
    subEntries st o = [] ∧ subEntries st n = [] := by
  have hnone : ∀ d : Option (Dirent Id), d.filter Dirent.isDir = none → subEntries st d = [] := by
    intro d hd
    cases d with
    | none => rfl
    | some e =>
      have : ¬ e.isDir = true := fun he => filter_isDir_none.1 hd ⟨e, rfl, he⟩
      simp [subEntries, this]
  cases ha : o.filter Dirent.isDir with
  | none =>
    refine ⟨hnone o ha, ?_⟩
    cases hb : n.filter Dirent.isDir with
    | none => exact hnone n hb
    | some b =>
      obtain ⟨rfl, hdir⟩ := filter_eq_some_iff.1 hb
      by_cases hs : b.id = emptySha1
      · simp [subEntries, hs]
      · simp [ha, hb, dirItems, hs] at h
  | some a => cases hb : n.filter Dirent.isDir <;> simp [ha, hb, dirItems] at h

/-! ## The whole report -/

theorem not_differs_of_stops {o n : List (Dirent Id)} {path : List Name}
    (h : (reporter false).Stops st o n path) :
    ¬ Differs st s (entryIn st o path) (entryIn st n path) := by
  obtain ⟨above, below, rfl, hne, hsame | ⟨hbelow, parent, hgo⟩⟩ := h
  · by_cases hbelow : below = []
    · rw [hbelow, append_nil]
      exact not_differs_of_rowSame hsame
    · rw [entryIn_append hne hbelow, entryIn_append hne hbelow, subEntries_of_rowSame hsame]
      exact not_differs_self s _
  · obtain ⟨ho, hn⟩ := subEntries_of_not_recurse hgo
    rw [entryIn_append hne hbelow, entryIn_append hne hbelow, ho, hn]
    exact not_differs_self s _

theorem some_of_differs (h : Differs st s o n) :
    (∃ d, o = some d) ∨ ∃ d, n = some d := by
  cases h with
  | added h _ => obtain ⟨e, he, -⟩ := h; exact .inr ⟨e, he⟩
  | deleted h _ => obtain ⟨e, he, -⟩ := h; exact .inl ⟨e, he⟩
  | modified => exact .inl ⟨_, rfl⟩
  | dirDeleted h _ => obtain ⟨e, he, -⟩ := h; exact .inl ⟨e, he⟩
  | dirAdded => exact .inr ⟨_, rfl⟩

variable {k : ℕ} {es : List (Dirent Id)}

theorem path_of_mem_report {o n : List (Dirent Id)} (hx : x ∈ report st k o n parent) :
    ∃ pre m, x.path = parent ++ (pre ++ [m]) ∧
      Differs st x.status (entryIn st o (pre ++ [m])) (entryIn st n (pre ++ [m])) := by
  obtain ⟨pre, m, hx⟩ := Emitter.mem_items_of_mem_walk hx
  refine ⟨pre, m, ?_, differs_of_mem_rowItems hx⟩
  rw [path_of_mem_rowItems (fun _ => name_of_entryIn) (fun _ => name_of_entryIn) hx, append_assoc]

/-- **The report is sound and complete.** -/
theorem mem_report {o n : List (Dirent Id)} (ho : SubTrees (Desc Dirent.name) st k o)
    (hn : SubTrees (Desc Dirent.name) st k n) (p : List Name) (s : DiffStatus) :
    (∃ x ∈ report st (k + 1) o n [], x.status = s ∧ x.path = p) ↔
      Differs st s (entryIn st o p) (entryIn st n p) := by
  constructor
  · rintro ⟨x, hx, rfl, rfl⟩
    obtain ⟨pre, m, hpath, hd⟩ := path_of_mem_report hx
    rwa [hpath]
  · intro hd
    obtain ⟨pre, m, rfl⟩ : ∃ pre m, p = pre ++ [m] := by
      rcases some_of_differs hd with ⟨d, hd⟩ | ⟨d, hd⟩ <;> exact exists_concat_of_entryIn hd
    obtain ⟨x, hx, rfl⟩ := mem_rowItems_of_differs hd pre
    rcases (reporter false).items_subset_or_stops ho hn .nil [] pre m with hsub | hstop
    · refine ⟨x, hsub hx, rfl, ?_⟩
      exact path_of_mem_rowItems (fun _ => name_of_entryIn) (fun _ => name_of_entryIn) hx
    · exact absurd hd (not_differs_of_stops hstop)

theorem path_of_mem_row {o n : List (Dirent Id)} (hx : x ∈ (reporter false).row parent
      (findDirent m o) (findDirent m n) (report st k (subEntries st (findDirent m o))
        (subEntries st (findDirent m n)) (parent ++ [m]))) :
    ∃ q, x.path = parent ++ m :: q := by
  unfold Emitter.row at hx
  split_ifs at hx with hsame hgo
  · cases hx
  · rcases mem_append.1 hx with hx | hx
    · exact ⟨[], path_of_mem_rowItems (fun _ hd => (mem_of_findDirent hd).2)
        (fun _ hd => (mem_of_findDirent hd).2) hx⟩
    · obtain ⟨pre, m', hpath, -⟩ := path_of_mem_report hx
      exact ⟨pre ++ [m'], by simpa using hpath⟩
  · rw [append_nil] at hx
    exact ⟨[], path_of_mem_rowItems (fun _ hd => (mem_of_findDirent hd).2)
      (fun _ hd => (mem_of_findDirent hd).2) hx⟩

/-- **Each difference is reported once.** -/
theorem report_nodup {k : ℕ} {o n : List (Dirent Id)} (ho : SubTrees (Desc Dirent.name) st k o)
    (hn : SubTrees (Desc Dirent.name) st k n) (parent : List Name) :
    ((report st (k + 1) o n parent).map fun x => (x.status, x.path)).Nodup := by
  have hd : ∀ l ∈ [o, n], Desc Dirent.name l := by simp [ho.1, hn.1]
  rw [report, Emitter.walk, map_flatMap, nodup_flatMap]
  refine ⟨fun m _ => ?_, (keys_nodup hd).imp fun {m m'} hne => disjoint_left.2 ?_⟩
  · unfold Emitter.row
    split_ifs with hsame hgo
    · exact List.nodup_nil
    · rw [map_append, nodup_append]
      refine ⟨rowItems_nodup _ _ _, ?_, ?_⟩
      · cases k with
        | zero => exact List.nodup_nil
        | succ k => exact report_nodup (ho.sub .nil m) (hn.sub .nil m) _
      · rintro _ hy _ hz rfl
        obtain ⟨x, hx, rfl⟩ := mem_map.1 hy
        obtain ⟨x', hx', he⟩ := mem_map.1 hz
        rw [Prod.mk.injEq] at he
        obtain ⟨pre, m', hpath, -⟩ := path_of_mem_report hx'
        have hp := path_of_mem_rowItems (fun _ hd => (mem_of_findDirent hd).2)
          (fun _ hd => (mem_of_findDirent hd).2) hx
        rw [← he.2, hpath, append_right_eq_self] at hp
        simp at hp
    · rw [append_nil]
      exact rowItems_nodup _ _ _
  · intro y hy hy'
    obtain ⟨x, hx, rfl⟩ := mem_map.1 hy
    obtain ⟨x', hx', he⟩ := mem_map.1 hy'
    obtain ⟨q, hq⟩ := path_of_mem_row hx
    obtain ⟨q', hq'⟩ := path_of_mem_row hx'
    rw [Prod.mk.injEq, hq, hq', append_cancel_left_eq, List.cons.injEq] at he
    exact hne he.2.1.symm
termination_by k

/-! ## Paths as the servers write them -/

/-- A name that can stand in a path: not empty, without a slash, not `.` or `..`. -/
def ValidName (n : Name) : Prop := Part n ∧ Plain n

instance : DecidablePred ValidName := fun n => inferInstanceAs (Decidable (Part n ∧ Plain n))

theorem SubTrees.desc (h : SubTrees (SortedNames ValidName) st k es) :
    SubTrees (Desc Dirent.name) st k es :=
  ⟨h.1.1, fun e he hdir => (h.2 e he hdir).imp fun _ hes => hes.1⟩

variable {path : List Name} {d : Dirent Id}

theorem validName_of_entryIn (h : SubTrees (SortedNames ValidName) st k es)
    (hd : entryIn st es path = some d) :
    ∀ n ∈ path, ValidName n := by
  induction path generalizing k es with
  | nil => simp
  | cons m path ih =>
    have hm : ∀ e, findDirent m es = some e → ValidName m := by
      intro e he
      obtain ⟨hmem, rfl⟩ := mem_of_findDirent he
      exact h.1.2 e hmem
    by_cases hpath : path = []
    · subst hpath
      simpa using hm d hd
    · rw [entryIn_cons es m hpath] at hd
      cases he : findDirent m es with
      | none => rw [he] at hd; simp [subEntries] at hd
      | some e =>
        have hsub : SubTrees (SortedNames ValidName) st k (subEntries st (some e)) ∨ k = 0 := by
          cases k with
          | zero => exact .inr rfl
          | succ k =>
            have := h.sub sortedNames_nil m
            rw [he] at this
            exact .inl ⟨this.1, fun e he hdir => (this.2 e he hdir).succ⟩
        rcases hsub with hsub | rfl
        · rw [he] at hd
          intro n hn
          rcases mem_cons.1 hn with rfl | hn
          exacts [hm e he, ih hsub hd n hn]
        · have hdir : ¬ e.isDir = true := fun hdir => h.2 e (mem_of_findDirent he).1 hdir
          rw [he] at hd
          simp [subEntries, hdir] at hd

theorem basedirOf_append (parent : List Name) (n : Name) :
    basedirOf parent ++ n = joinFields (parent ++ [n]) := by
  induction parent with
  | nil => rfl
  | cons m parent ih =>
    obtain ⟨m', path, hpath⟩ := exists_cons_of_ne_nil (show parent ++ [n] ≠ [] by simp)
    rw [cons_append, hpath, joinFields, ← hpath, ← ih]
    simp [basedirOf]

theorem join_basedirOf {n : Name} (h : ∀ m ∈ parent ++ [n], ValidName m) :
    join [basedirOf parent, n] = joinFields (parent ++ [n]) := by
  have hn := h n (by simp)
  have hclean : ∀ p : Name, isRooted p = false → fields p = parent ++ [n] →
      clean p = joinFields (parent ++ [n]) := by
    intro p hroot hp
    rw [← hp]
    exact clean_of_plain hroot (by simp [hp]) fun s hs => (h s (hp ▸ hs)).2
  have hhead : ∀ m : Name, ValidName m → ∀ q, isRooted (m ++ q) = false := by
    intro m hm q
    obtain ⟨c, cs, rfl⟩ := exists_cons_of_ne_nil hm.1.1
    have hc : c ≠ '/' := fun he => hm.1.2 (by simp [he])
    simp [isRooted, hc]
  cases parent with
  | nil =>
    have hj : join [basedirOf [], n] = clean n := by
      simp [join, basedirOf, hn.1.1, intercalate]
    rw [hj]
    exact hclean n (by simpa using hhead n hn []) (fields_part hn.1)
  | cons m parent =>
    have hj : join [basedirOf (m :: parent), n] = clean (basedirOf (m :: parent) ++ '/' :: n) := by
      have hne : basedirOf (m :: parent) ≠ [] := by simp [basedirOf]
      simp [join, hne, intercalate]
    rw [hj]
    refine hclean _ ?_ ?_
    · have hm := h m (by simp)
      rw [show basedirOf (m :: parent) = m ++ ('/' :: basedirOf parent) by simp [basedirOf],
        append_assoc]
      exact hhead m hm _
    · have hf : ∀ ps : List Name, (∀ s ∈ ps, ValidName s) → fields (basedirOf ps) = ps := by
        intro ps hps
        induction ps with
        | nil => rfl
        | cons p ps ih =>
          rw [show basedirOf (p :: ps) = p ++ '/' :: basedirOf ps by simp [basedirOf],
            fields_append_slash, fields_part (hps p (by simp)).1,
            ih fun s hs => hps s (mem_cons_of_mem _ hs)]
          rfl
      rw [fields_append_slash, fields_part hn.1, hf _ fun s hs => h s (by simp at hs ⊢; tauto)]

/-! ## The results of the two servers -/

variable (rs : List (DiffEntry Id))

section

omit [ObjectId Id] [DecidableEq Id]

theorem putAll_server (items : List (DiffItem Id)) :
    putAll Server.results rs items =
      (items.map (DiffItem.toEntry Server.results)).reverse ++ rs := by
  induction items generalizing rs with
  | nil => rfl
  | cons x items ih =>
    rw [putAll, foldl_cons, ← putAll, ih]
    simp [Server.results]

theorem putAll_fileserver (items : List (DiffItem Id)) :
    putAll Fileserver.results rs items = rs ++ items.map (DiffItem.toEntry Fileserver.results) := by
  induction items generalizing rs with
  | nil => simp [putAll]
  | cons x items ih =>
    rw [putAll, foldl_cons, ← putAll, ih]
    simp [Fileserver.results]

end

/-- The results are the differences of the trees, path by path, each once. -/
def DiffExact (st : FsStore Id) (root1 root2 : Id) (results : List (DiffEntry Id)) : Prop :=
  (results.map fun de => (de.status, de.name)).Nodup ∧
  ∀ s p, (s, p) ∈ (results.map fun de => (de.status, de.name)) ↔
    ∃ path, p = joinFields path ∧ Differs st s (entryAt st root1 path) (entryAt st root2 path)

section Exact

variable {k : ℕ} {root1 root2 : Id} {o n : List (Dirent Id)}
  (ho : SubTrees (SortedNames ValidName) st k o) (hn : SubTrees (SortedNames ValidName) st k n)
include ho hn

theorem validName_of_mem_report {x : DiffItem Id}
    (hx : x ∈ report st (k + 1) o n []) : ∀ m ∈ x.path, ValidName m := by
  rcases some_of_differs ((mem_report ho.desc hn.desc _ _).1 ⟨x, hx, rfl, rfl⟩) with
    ⟨d, hd⟩ | ⟨d, hd⟩
  exacts [validName_of_entryIn ho hd, validName_of_entryIn hn hd]

theorem diffExact_of_report (h1 : st.getSeafdir root1 = some o) (h2 : st.getSeafdir root2 = some n)
    {results : List (DiffEntry Id)}
    (hperm : (results.map fun de => (de.status, de.name)).Perm
      ((report st (k + 1) o n []).map fun x => (x.status, joinFields x.path))) :
    DiffExact st root1 root2 results := by
  constructor
  · rw [hperm.nodup_iff]
    have hnodup := report_nodup ho.desc hn.desc []
    have hmap : ((report st (k + 1) o n []).map fun x => (x.status, joinFields x.path)) =
        ((report st (k + 1) o n []).map fun x => (x.status, x.path)).map
          fun y => (y.1, joinFields y.2) := by
      rw [map_map]; rfl
    rw [hmap]
    refine hnodup.map_on fun y hy z hz he => ?_
    obtain ⟨x, hx, rfl⟩ := mem_map.1 hy
    obtain ⟨x', hx', rfl⟩ := mem_map.1 hz
    rw [Prod.mk.injEq] at he ⊢
    refine ⟨he.1, ?_⟩
    rw [← fields_joinFields fun s hs => (validName_of_mem_report ho hn hx s hs).1, he.2,
      fields_joinFields fun s hs => (validName_of_mem_report ho hn hx' s hs).1]
  · intro s p
    rw [hperm.mem_iff, mem_map]
    constructor
    · rintro ⟨x, hx, he⟩
      obtain ⟨rfl, rfl⟩ := Prod.mk.injEq _ _ _ _ ▸ he
      refine ⟨x.path, rfl, ?_⟩
      rw [entryAt_eq h1, entryAt_eq h2]
      exact (mem_report ho.desc hn.desc _ _).1 ⟨x, hx, rfl, rfl⟩
    · rintro ⟨path, rfl, hd⟩
      rw [entryAt_eq h1, entryAt_eq h2] at hd
      obtain ⟨x, hx, rfl, rfl⟩ := (mem_report ho.desc hn.desc path s).2 hd
      exact ⟨x, hx, rfl⟩

omit ho hn in
theorem server_names :
    (((report st (k + 1) o n []).map (DiffItem.toEntry Server.results)).map
      fun de => (de.status, de.name)) =
    (report st (k + 1) o n []).map fun x => (x.status, joinFields x.path) := by
  rw [map_map]
  refine map_congr_left fun x _ => ?_
  exact congrArg (Prod.mk x.status) (basedirOf_append x.parent x.dent.name)

theorem fileserver_names :
    (((report st (k + 1) o n []).map (DiffItem.toEntry Fileserver.results)).map
      fun de => (de.status, de.name)) =
    (report st (k + 1) o n []).map fun x => (x.status, joinFields x.path) := by
  rw [map_map]
  refine map_congr_left fun x hx => ?_
  exact congrArg (Prod.mk x.status) (join_basedirOf (validName_of_mem_report ho hn hx))

end Exact

variable {root1 root2 : Id}

theorem diffCommitRoots_report {o n : List (Dirent Id)} (h1 : st.getSeafdir root1 = some o)
    (h2 : st.getSeafdir root2 = some n) (ho : SubTrees (Desc Dirent.name) st k o)
    (hn : SubTrees (Desc Dirent.name) st k n) :
    Server.diffCommitRoots st (k + 1) root1 root2 false =
      some (putAll Server.results [] (report st (k + 1) o n [])) ∧
    Fileserver.diffCommitRoots st (k + 1) root1 root2 false =
      some (putAll Fileserver.results [] (report st (k + 1) o n [])) := by
  constructor
  · exact (diffTrees_emits (twoway_emits _ _) (fun _ => rfl) h1 h2 ho hn []).trans
      (foldlM_put _ _ _)
  · exact (diffTrees_emits (twoway_emits _ _) Fileserver.treeWalk_eq h1 h2 ho hn []).trans
      (foldlM_put _ _ _)

theorem diffCommitRoots_reports (h1 : Tree (Desc Dirent.name) st k root1)
    (h2 : Tree (Desc Dirent.name) st k root2) (hpath : ∀ n ∈ path, ValidName n)
    (hd : Differs st s (entryAt st root1 path) (entryAt st root2 path)) :
    (∃ results, Server.diffCommitRoots st k root1 root2 false = some results ∧
      ∃ de ∈ results, de.status = s ∧ de.name = joinFields path) ∧
    (∃ results, Fileserver.diffCommitRoots st k root1 root2 false = some results ∧
      ∃ de ∈ results, de.status = s ∧ de.name = joinFields path) := by
  obtain ⟨k, rfl⟩ := h1.exists_succ
  obtain ⟨o, hes1, ho⟩ := h1.subTrees
  obtain ⟨n, hes2, hn⟩ := h2.subTrees
  obtain ⟨hserver, hfileserver⟩ := diffCommitRoots_report hes1 hes2 ho hn
  rw [entryAt_eq hes1, entryAt_eq hes2] at hd
  obtain ⟨x, hx, rfl, rfl⟩ := (mem_report ho hn path s).2 hd
  constructor
  · refine ⟨_, hserver, x.toEntry Server.results, ?_, rfl, basedirOf_append _ _⟩
    rw [putAll_server, append_nil, mem_reverse]
    exact mem_map_of_mem hx
  · refine ⟨_, hfileserver, x.toEntry Fileserver.results, ?_, rfl, join_basedirOf hpath⟩
    rw [putAll_fileserver]
    exact mem_map_of_mem hx

theorem validName_of_entryAt {root : Id} (h : Tree (SortedNames ValidName) st k root)
    (hd : entryAt st root path = some d) : ∀ n ∈ path, ValidName n := by
  obtain ⟨es, hes, -⟩ := h.readable
  rw [entryAt_eq hes] at hd
  exact validName_of_entryIn (h.subTrees_of hes) hd

theorem joinFields_ne_nil (hne : path ≠ []) (h : ∀ n ∈ path, ValidName n) :
    joinFields path ≠ [] := by
  obtain ⟨n, rest, rfl⟩ := exists_cons_of_ne_nil hne
  have hn : n ≠ [] := (h n mem_cons_self).1.1
  cases rest <;> simp [joinFields, hn]

theorem validName_of_differs (h1 : Tree (SortedNames ValidName) st k root1)
    (h2 : Tree (SortedNames ValidName) st k root2)
    (hd : Differs st s (entryAt st root1 path) (entryAt st root2 path)) :
    path ≠ [] ∧ ∀ n ∈ path, ValidName n := by
  constructor
  · rintro rfl
    exact not_differs_self s none hd
  · rcases some_of_differs hd with ⟨d, hd⟩ | ⟨d, hd⟩
    exacts [validName_of_entryAt h1 hd, validName_of_entryAt h2 hd]

/-! ## A directory that becomes a file -/

def oldEntries : List (Dirent ℕ) :=
  [.new 0o040000 (seafDirId [.new 0o100644 7 ['f'] 0 ['u'] 1]) ['d'] 0 [] 0]

def newEntries : List (Dirent ℕ) := [.new 0o100644 8 ['d'] 1 ['u'] 2]

def diffStore : FsStore ℕ :=
  ((FsStore.empty.insert (.dir [.new 0o100644 7 ['f'] 0 ['u'] 1]) (by simp [FsObj.Nonempty])).insert
    (.dir oldEntries) (by simp [FsObj.Nonempty, oldEntries])).insert
    (.dir newEntries) (by simp [FsObj.Nonempty, newEntries])

example : (Server.diffCommitRoots diffStore 3 (seafDirId oldEntries) (seafDirId newEntries)
    false).map (List.map fun de => (de.status, de.name)) =
    some [(.deleted, "d/f".toList), (.dirDeleted, ['d']), (.added, ['d'])] := by decide

end CloudFile
