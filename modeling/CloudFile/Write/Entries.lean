/-
  New entries in a directory (`fileserver/fileop.go`, `server/repo-op.c`). An entry that replaces
  one of the same name keeps its name, any other gets the first name that is free. The file server
  appends the new entry and sorts at the end, the C server inserts it at its place (`addEntry`).
-/
import CloudFile.Merge.Model

namespace CloudFile

open SortedWalk List

variable {Id : Type}

/-! ## Unique names -/

/-- `duplicateNamesCount`, `DUPLICATE_NAMES_COUNT`. -/
def duplicateNamesCount : ℕ := 1000

/-- `nameExists`, `filename_exists`. -/
def nameExists (entries : List (Dirent Id)) (fileName : Name) : Bool :=
  entries.any fun entry => entry.name = fileName

/-- The number goes before the extension after the last dot. -/
def numberedName (fileName : Name) (i : ℕ) : Name :=
  let number := " (".toList ++ (Nat.repr i).toList ++ ")".toList
  if '.' ∈ fileName then
    (fileName.rdropWhile (· ≠ '.')).dropLast ++ number ++ '.' :: fileName.rtakeWhile (· ≠ '.')
  else fileName ++ number

/-- The loop of `genUniqueName` with `left` rounds to go: the last name is not looked at. -/
def uniqueNameFrom (entries : List (Dirent Id)) (fileName : Name) : ℕ → ℕ → Name → Option Name
  | 0, _, _ => none
  | left + 1, i, uniqueName =>
    if nameExists entries uniqueName then
      uniqueNameFrom entries fileName left (i + 1) (numberedName fileName i)
    else some uniqueName

/-- `genUniqueName`, `generate_unique_filename`. -/
def genUniqueName (fileName : Name) (entries : List (Dirent Id)) : Option Name :=
  uniqueNameFrom entries fileName duplicateNamesCount 1 fileName

variable {entries : List (Dirent Id)} {n fileName : Name}

theorem nameExists_eq_false :
    nameExists entries n = false ↔ ∀ e ∈ entries, e.name ≠ n := by
  simp [nameExists]

theorem uniqueNameFrom_free {m : Name} {left i : ℕ}
    (h : uniqueNameFrom entries fileName left i m = some n) : nameExists entries n = false := by
  induction left generalizing i m with
  | zero => simp [uniqueNameFrom] at h
  | succ left ih =>
    simp only [uniqueNameFrom] at h
    split_ifs at h with hm
    · exact ih h
    · cases h; simpa using hm

theorem genUniqueName_free (h : genUniqueName fileName entries = some n) :
    nameExists entries n = false :=
  uniqueNameFrom_free h

theorem genUniqueName_self (h : nameExists entries fileName = false) :
    genUniqueName fileName entries = some fileName := by
  rw [genUniqueName, duplicateNamesCount, uniqueNameFrom, h]
  simp

/-! ## Adding entries -/

/-- One new entry, made by `new`; `place` says where it goes and `nameOk` which names are
    refused. -/
def addEntry (new : UInt32 → Id → Name → ℤ → Name → ℤ → Dirent Id)
    (place : Dirent Id → List (Dirent Id) → List (Dirent Id)) (nameOk : Name → Bool) (user : Name)
    (replaceExisted : Bool) (acc : List (Dirent Id) × List Name)
    (dent : Dirent Id) : Option (List (Dirent Id) × List Name) :=
  let replace := replaceExisted && nameExists acc.1 dent.name
  let oldDents := if replace then acc.1.eraseP fun entry => entry.name = dent.name else acc.1
  let uniqueName := if replace then some dent.name else genUniqueName dent.name oldDents
  (uniqueName.filter nameOk).map fun n =>
    (place (new dent.mode dent.id n dent.mtime user dent.size) oldDents, acc.2 ++ [n])

/-- The new entry in the place of those of its name: the edit of `putFileRecursive`. -/
def replaceEntry (newDent : Dirent Id) (entries : List (Dirent Id)) : List (Dirent Id) :=
  entries.map fun dent => if dent.name = newDent.name then newDent else dent

namespace Fileserver

/-- `addNewEntries`; `names` are the names reported so far. -/
def addNewEntries (sortDents : List (Dirent Id) → List (Dirent Id)) (user : Name)
    (newDents : List (Dirent Id)) (replaceExisted : Bool) (names : List Name)
    (oldDents : List (Dirent Id)) : Option (List (Dirent Id) × List Name) :=
  (newDents.foldlM (addEntry .new (fun d es => es ++ [d]) (· ≠ []) user replaceExisted)
    (oldDents, names)).map fun r => (sortDents r.1, r.2)

end Fileserver

namespace Server

/-- `g_list_insert_sorted` with `compare_dirents`. -/
def insertSorted (d : Dirent Id) (entries : List (Dirent Id)) : List (Dirent Id) :=
  entries.orderedInsert (fun a b => b.name ≤ a.name) d

/-- `add_new_entries` -/
def addNewEntries (user : Name) (dents : List (Dirent Id)) (replaceExisted : Bool)
    (nameList : List Name) (entries : List (Dirent Id)) : Option (List (Dirent Id) × List Name) :=
  dents.foldlM (addEntry seafDirentNew insertSorted (fun _ => true) user replaceExisted)
    (entries, nameList)

/-- The entries `post_file_recursive` writes in the target directory. -/
def postEntry (replaceExisted : Bool) (newdent : Dirent Id) (entries : List (Dirent Id)) :
    Option (List (Dirent Id)) :=
  if replaceExisted && nameExists entries newdent.name then
    some (replaceEntry newdent entries)
  else (genUniqueName newdent.name entries).map fun n =>
    insertSorted (seafDirentNew newdent.mode newdent.id n newdent.mtime newdent.modifier
      newdent.size) entries

end Server

/-! ## What is added -/

/-- The entry an added one becomes under its unique name. -/
def Dirent.named (user : Name) (dent : Dirent Id) (n : Name) : Dirent Id :=
  Dirent.new dent.mode dent.id n dent.mtime user dent.size

variable (m : UInt32)

@[simp] theorem Dirent.new_name (i : Id) (n : Name) (t : ℤ) (w : Name) (s : ℤ) :
    (Dirent.new m i n t w s).name = n := by
  unfold Dirent.new; split <;> rfl

@[simp] theorem Dirent.new_id (i : Id) (n : Name) (t : ℤ) (w : Name) (s : ℤ) :
    (Dirent.new m i n t w s).id = i := by
  unfold Dirent.new; split <;> rfl

@[simp] theorem Dirent.new_mode (i : Id) (n : Name) (t : ℤ) (w : Name) (s : ℤ) :
    (Dirent.new m i n t w s).mode = m := by
  unfold Dirent.new; split <;> rfl

variable (user : Name)

@[simp] theorem Dirent.named_name (dent : Dirent Id) (n : Name) :
    (dent.named user n).name = n := Dirent.new_name ..

@[simp] theorem Dirent.named_id (dent : Dirent Id) (n : Name) :
    (dent.named user n).id = dent.id := Dirent.new_id ..

@[simp] theorem Dirent.named_isDir (dent : Dirent Id) (n : Name) :
    (dent.named user n).isDir = dent.isDir := by simp [Dirent.named, Dirent.isDir]

@[simp] theorem Dirent.named_isReg (dent : Dirent Id) (n : Name) :
    (dent.named user n).isReg = dent.isReg := by simp [Dirent.named, Dirent.isReg]

/-- `Adds user replace old dents ns es`: adding `dents` to `old` gives `es`, up to the order, and
    `ns` are the names of the added ones. -/
inductive Adds (user : Name) (replace : Bool) :
    List (Dirent Id) → List (Dirent Id) → List Name → List (Dirent Id) → Prop
  | nil {old es : List (Dirent Id)} : es.Perm old → Adds user replace old [] [] es
  | cons {old mid es dents : List (Dirent Id)} {dent : Dirent Id} {n : Name} {ns : List Name} :
      (replace = true → n = dent.name) → (replace = false → nameExists old n = false) →
      mid.Perm (dent.named user n :: old.filter fun e => e.name ≠ n) →
      Adds user replace mid dents ns es → Adds user replace old (dent :: dents) (n :: ns) es

variable {user : Name} {replace : Bool} {old es dents : List (Dirent Id)} {ns names : List Name}
  {place : Dirent Id → List (Dirent Id) → List (Dirent Id)} {nameOk : Name → Bool}
  {r : List (Dirent Id) × List Name} {dent : Dirent Id}

theorem filter_ne_of_free (h : nameExists old n = false) :
    old.filter (fun e => e.name ≠ n) = old :=
  filter_eq_self.2 fun e he => by simpa using nameExists_eq_false.1 h e he

theorem eraseP_eq_filter (hu : UniqueKeys Dirent.name old) (n : Name) :
    old.eraseP (fun e => e.name = n) = old.filter fun e => e.name ≠ n := by
  induction old with
  | nil => rfl
  | cons e old ih =>
    obtain ⟨hne, hu⟩ := nodup_cons.1 hu
    by_cases he : e.name = n
    · subst he
      have hfree : nameExists old e.name = false :=
        nameExists_eq_false.2 fun e' he' heq => hne (heq ▸ mem_map_of_mem he')
      simpa using (filter_ne_of_free hfree).symm
    · simpa [he] using ih hu

theorem uniqueKeys_of_perm (hu : UniqueKeys Dirent.name old) {d : Dirent Id} (hd : d.name = n)
    (hp : es.Perm (d :: old.filter fun e => e.name ≠ n)) :
    UniqueKeys Dirent.name es := by
  refine (hp.map _).nodup_iff.2 (nodup_cons.2 ⟨fun hmem => ?_, ?_⟩)
  · obtain ⟨e, he, hn⟩ := mem_map.1 hmem
    simp [hn, hd] at he
  · exact hu.sublist (filter_sublist.map _)

theorem addEntry_spec (hplace : ∀ d es, (place d es).Perm (d :: es))
    (hu : UniqueKeys Dirent.name old)
    (h : addEntry .new place nameOk user replace (old, names) dent = some r) :
    ∃ n, r.2 = names ++ [n] ∧ (replace = true → n = dent.name) ∧
      (replace = false → nameExists old n = false) ∧
      r.1.Perm (dent.named user n :: old.filter fun e => e.name ≠ n) := by
  simp only [addEntry, Option.map_eq_some_iff, Option.filter_eq_some_iff] at h
  obtain ⟨n, ⟨hn, -⟩, rfl⟩ := h
  refine ⟨n, rfl, ?_⟩
  by_cases hrep : (replace && nameExists old dent.name) = true
  · obtain ⟨rfl, hex⟩ := Bool.and_eq_true_iff.1 hrep
    obtain rfl : dent.name = n := by simpa [hrep] using hn
    refine ⟨fun _ => rfl, fun h => (nomatch h), (hplace _ _).trans ?_⟩
    rw [if_pos hrep, eraseP_eq_filter hu]
    rfl
  · simp only [hrep, Bool.false_eq_true, if_false] at hn ⊢
    have hfree := genUniqueName_free hn
    refine ⟨fun htrue => ?_, fun _ => hfree, (hplace _ _).trans ?_⟩
    · have hself : nameExists old dent.name = false := by simpa [htrue] using hrep
      exact (Option.mem_unique (genUniqueName_self hself) hn).symm
    · rw [filter_ne_of_free hfree]
      rfl

theorem adds_of_foldlM (hplace : ∀ d es, (place d es).Perm (d :: es))
    (hu : UniqueKeys Dirent.name old)
    (h : dents.foldlM (addEntry .new place nameOk user replace) (old, names) = some r) :
    ∃ ns, r.2 = names ++ ns ∧ Adds user replace old dents ns r.1 := by
  induction dents generalizing old names with
  | nil =>
    obtain rfl : (old, names) = r := by simpa using h
    exact ⟨[], by simp, .nil (.refl _)⟩
  | cons dent dents ih =>
    rw [foldlM_cons] at h
    obtain ⟨⟨mid, names'⟩, hstep, hrest⟩ := Option.bind_eq_some_iff.1 h
    obtain ⟨n, rfl, hrep, hfree, hperm⟩ := addEntry_spec hplace hu hstep
    have hmid := uniqueKeys_of_perm hu (Dirent.named_name user dent n) hperm
    obtain ⟨ns, hns, hadds⟩ := ih hmid hrest
    exact ⟨n :: ns, by simpa using hns, .cons hrep hfree hperm hadds⟩

namespace Adds

section

variable {e : Dirent Id} (h : Adds user replace old dents ns es)
include h

theorem length : ns.length = dents.length := by
  induction h with
  | nil => rfl
  | cons _ _ _ _ ih => simp [ih]

theorem perm {es' : List (Dirent Id)} (hp : es'.Perm es) :
    Adds user replace old dents ns es' := by
  induction h with
  | nil hp' => exact .nil (hp.trans hp')
  | cons hrep hfree hmid _ ih => exact .cons hrep hfree hmid (ih hp)

theorem unique (hu : UniqueKeys Dirent.name old) :
    UniqueKeys Dirent.name es := by
  induction h with
  | nil hp => exact (hp.map _).nodup_iff.2 hu
  | cons _ _ hp _ ih => exact ih (uniqueKeys_of_perm hu (Dirent.named_name ..) hp)

theorem mem (he : e ∈ es) :
    e ∈ old ∨ ∃ dent ∈ dents, ∃ n, e = dent.named user n := by
  induction h with
  | nil hp => exact .inl (hp.mem_iff.1 he)
  | @cons old mid es dents dent n ns _ _ hp _ ih =>
    rcases ih he with hmid | ⟨dent', hdent', m, hm⟩
    · rcases mem_cons.1 (hp.mem_iff.1 hmid) with rfl | hold
      · exact .inr ⟨dent, mem_cons_self, n, rfl⟩
      · exact .inl (mem_filter.1 hold).1
    · exact .inr ⟨dent', mem_cons_of_mem _ hdent', m, hm⟩

theorem keeps (he : e ∈ old) (hn : e.name ∉ ns) :
    e ∈ es := by
  induction h with
  | nil hp => exact hp.mem_iff.2 he
  | @cons old mid es dents dent n ns _ _ hp _ ih =>
    simp only [mem_cons, not_or] at hn
    have hmid : e ∈ mid := hp.mem_iff.2 (mem_cons_of_mem _ (by simp [he, hn.1]))
    exact ih hmid hn.2

theorem added {i : ℕ}
    (hdent : dents[i]? = some dent) (hn : ns[i]? = some n) (hlast : n ∉ ns.drop (i + 1)) :
    dent.named user n ∈ es := by
  induction h generalizing i with
  | nil => simp at hdent
  | @cons old mid es dents dent' n' ns _ _ hp hadds ih =>
    cases i with
    | zero =>
      obtain rfl : dent' = dent := by simpa using hdent
      obtain rfl : n' = n := by simpa using hn
      have hmid : dent'.named user n' ∈ mid := hp.mem_iff.2 mem_cons_self
      exact hadds.keeps hmid (by simpa using hlast)
    | succ i => exact ih (by simpa using hdent) (by simpa using hn) (by simpa using hlast)

theorem ne_nil (hne : old ≠ [] ∨ dents ≠ []) : es ≠ [] := by
  induction h with
  | nil hp =>
    rintro rfl
    exact hne.elim (fun h => h hp.nil_eq.symm) fun h => h rfl
  | cons _ _ hp _ ih =>
    refine ih (.inl ?_)
    rintro rfl
    exact absurd hp.nil_eq (cons_ne_nil _ _).symm

end

theorem names_of_replace (h : Adds user true old dents ns es) : ns = dents.map Dirent.name := by
  induction h with
  | nil => rfl
  | cons hrep _ _ _ ih => rw [map_cons, ih, hrep rfl]

theorem free_of_unique (h : Adds user false old dents ns es) :
    ∀ n ∈ ns, nameExists old n = false := by
  induction h with
  | nil => simp
  | @cons old mid es dents dent n ns _ hfree hp _ ih =>
    intro m hm
    rcases mem_cons.1 hm with rfl | hm
    · exact hfree rfl
    · refine nameExists_eq_false.2 fun e he heq => ?_
      have hmid := nameExists_eq_false.1 (ih m hm)
      rw [filter_ne_of_free (hfree rfl)] at hp
      exact hmid e (hp.mem_iff.2 (mem_cons_of_mem _ he)) heq

theorem nodup_of_unique (h : Adds user false old dents ns es) : ns.Nodup := by
  induction h with
  | nil => exact List.nodup_nil
  | @cons old mid es dents dent n ns _ _ hp hadds ih =>
    refine nodup_cons.2 ⟨fun hmem => ?_, ih⟩
    have hfree := nameExists_eq_false.1 (hadds.free_of_unique n hmem)
    exact hfree _ (hp.mem_iff.2 mem_cons_self) (Dirent.named_name ..)

end Adds

/-! ## The lists both servers write -/

section Sorted

theorem mem_replaceEntry {newDent e : Dirent Id} (h : e ∈ replaceEntry newDent old) :
    e ∈ old ∨ e = newDent := by
  obtain ⟨d, hd, rfl⟩ := mem_map.1 h
  split_ifs
  exacts [.inr rfl, .inl hd]

theorem map_name_replaceEntry (newDent : Dirent Id) :
    (replaceEntry newDent old).map Dirent.name = old.map Dirent.name := by
  rw [replaceEntry, map_map]
  refine map_congr_left fun d _ => ?_
  simp only [Function.comp_apply]
  split_ifs with h
  exacts [h.symm, rfl]

theorem desc_iff_names : Desc Dirent.name es ↔ (es.map Dirent.name).Pairwise (· > ·) := by
  rw [pairwise_map]
  rfl

theorem insertSorted_perm (d : Dirent Id) (es : List (Dirent Id)) :
    (Server.insertSorted d es).Perm (d :: es) := perm_orderedInsert _ _ _

theorem insertSorted_sorted {d : Dirent Id} (h : es.Pairwise fun a b => b.name ≤ a.name) :
    (Server.insertSorted d es).Pairwise fun a b => b.name ≤ a.name := by
  have : Std.Total fun a b : Dirent Id => b.name ≤ a.name := ⟨fun a b => le_total b.name a.name⟩
  have : IsTrans (Dirent Id) fun a b => b.name ≤ a.name := ⟨fun _ _ _ h h' => h'.trans h⟩
  exact h.orderedInsert _ _

variable {r : List (Dirent Id) × List Name} {sortDents : List (Dirent Id) → List (Dirent Id)}

/-- **`addNewEntries`**: the reported names are appended, and the entries stay sorted. -/
theorem Fileserver.addNewEntries_spec (hsort : Fileserver.SortsDirents sortDents)
    (hu : UniqueKeys Dirent.name old)
    (h : Fileserver.addNewEntries sortDents user dents replace names old = some r) :
    Desc Dirent.name r.1 ∧ ∃ ns, r.2 = names ++ ns ∧ Adds user replace old dents ns r.1 := by
  obtain ⟨r', hr', rfl⟩ := Option.map_eq_some_iff.1 h
  obtain ⟨ns, hns, hadds⟩ := adds_of_foldlM (fun d es => perm_append_singleton d es) hu hr'
  obtain ⟨hperm, hsorted⟩ := hsort r'.1
  have hadds' := hadds.perm hperm
  exact ⟨desc_iff.2 ⟨hsorted, hadds'.unique hu⟩, ns, hns, hadds'⟩

variable {dent : Dirent Id} {a : List Name}

theorem Server.addNewEntries_sorted (hs : old.Pairwise fun a b => b.name ≤ a.name)
    (h : Server.addNewEntries user dents replace names old = some r) :
    r.1.Pairwise fun a b => b.name ≤ a.name := by
  unfold addNewEntries at h
  induction dents generalizing old names with
  | nil =>
    obtain rfl : (old, names) = r := by simpa using h
    exact hs
  | cons dent dents ih =>
    rw [foldlM_cons] at h
    obtain ⟨mid, hstep, hrest⟩ := Option.bind_eq_some_iff.1 h
    obtain ⟨n, -, rfl⟩ := Option.map_eq_some_iff.1 hstep
    refine ih (insertSorted_sorted ?_) hrest
    split_ifs
    exacts [hs.sublist eraseP_sublist, hs]

theorem Server.addNewEntries_eq :
    Server.addNewEntries user dents replace names old =
      (dents.map Dirent.withFileMode).foldlM
        (addEntry .new insertSorted (fun _ => true) user replace) (old, names) := by
  simp only [addNewEntries, List.foldlM_map]
  rfl

section

variable (hd : Desc Dirent.name old)
include hd

/-- **`add_new_entries`** keeps the entries sorted without sorting them again, and sets the mode
    bits of files. -/
theorem Server.addNewEntries_spec (h : Server.addNewEntries user dents replace names old = some r) :
    Desc Dirent.name r.1 ∧
      ∃ ns, r.2 = names ++ ns ∧ Adds user replace old (dents.map Dirent.withFileMode) ns r.1 := by
  obtain ⟨hs, hu⟩ := desc_iff.1 hd
  obtain ⟨ns, hns, hadds⟩ := adds_of_foldlM insertSorted_perm hu (addNewEntries_eq.symm.trans h)
  exact ⟨desc_iff.2 ⟨addNewEntries_sorted hs h, hadds.unique hu⟩, ns, hns, hadds⟩

theorem desc_replaceEntry (newDent : Dirent Id) :
    Desc Dirent.name (replaceEntry newDent old) := by
  rw [desc_iff_names] at hd ⊢
  rwa [map_name_replaceEntry]

theorem Server.postEntry_spec {newdent : Dirent Id}
    (h : Server.postEntry replace newdent old = some es) :
    Desc Dirent.name es ∧
      ∀ e ∈ es, e ∈ old ∨
        ∃ n, e = newdent.withFileMode.named newdent.modifier n ∨ e = newdent := by
  unfold postEntry at h
  split_ifs at h with hrep
  · cases h
    refine ⟨desc_replaceEntry hd newdent, fun e he => ?_⟩
    exact (mem_replaceEntry he).imp_right fun h => ⟨[], .inr h⟩
  · obtain ⟨n, hn, rfl⟩ := Option.map_eq_some_iff.1 h
    have hperm := insertSorted_perm (newdent.withFileMode.named newdent.modifier n) old
    obtain ⟨hs, hu⟩ := desc_iff.1 hd
    have hmid := filter_ne_of_free (genUniqueName_free hn)
    refine ⟨desc_iff.2 ⟨insertSorted_sorted hs, ?_⟩, fun e he => ?_⟩
    · exact uniqueKeys_of_perm (n := n) hu (Dirent.named_name ..) (by rw [hmid]; exact hperm)
    · rcases mem_cons.1 (hperm.mem_iff.1 he) with rfl | hold
      · exact .inr ⟨n, .inl rfl⟩
      · exact .inl hold

end

theorem Adds.fills (h : Adds user replace [] dents ns es) : es ≠ [] ↔ dents ≠ [] := by
  refine ⟨?_, fun hne => h.ne_nil (.inr hne)⟩
  rintro hne rfl
  cases h with
  | nil hp => exact hne hp.eq_nil

theorem Fileserver.addNewEntries_fills (hsort : SortsDirents sortDents)
    (h : addNewEntries sortDents user dents replace names [] = some (es, a)) :
    es ≠ [] ↔ dents ≠ [] := by
  have hnil : UniqueKeys Dirent.name ([] : List (Dirent Id)) := List.nodup_nil
  obtain ⟨-, ns, -, hadds⟩ := addNewEntries_spec hsort hnil h
  exact hadds.fills

theorem Server.addNewEntries_fills (h : addNewEntries user dents replace names [] = some (es, a)) :
    es ≠ [] ↔ dents ≠ [] := by
  obtain ⟨-, ns, -, hadds⟩ := addNewEntries_spec List.Pairwise.nil h
  simpa using hadds.fills

theorem Server.postEntry_nil_ne (h : postEntry replace dent [] = some es) : es ≠ [] := by
  simp only [postEntry, nameExists, any_nil, Bool.and_false, Bool.false_eq_true, if_false,
    Option.map_eq_some_iff] at h
  obtain ⟨n, -, rfl⟩ := h
  exact cons_ne_nil _ _

end Sorted

end CloudFile
