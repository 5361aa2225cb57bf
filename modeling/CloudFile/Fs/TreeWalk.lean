/-
  The walk over the directories of several trees at one path, and lookup of paths in them. The
  diffs and merges walk the entry lists by name, in descending order; `Row` holds the entries of
  one name. The C loops start from `NULL` and the Go loops from the empty string, and both visit
  the same rows.
-/
import CloudFile.Fs.Object

namespace CloudFile

open SortedWalk List

variable {Id : Type}

/-- The entries of one name, one place for each tree. -/
abbrev Row (Id : Type) := List (Option (Dirent Id))

/-- The directory prefix of a path, as the walkers carry it along. -/
def basedirOf (parent : List Name) : Name := (parent.map (· ++ ['/'])).flatten

namespace Server

/-- The loop of the C walkers. -/
def treeWalk (trees : List (List (Dirent Id))) : List (Row Id) := rows Dirent.name trees

end Server

namespace Fileserver

/-- The largest name under the positions; the empty string is no name yet. -/
def firstName (ptrs : List (List (Dirent Id))) : Name :=
  ptrs.foldl (fun firstName ptr => match ptr.head? with
    | none => firstName
    | some dent =>
      if firstName = [] then dent.name
      else if firstName < dent.name then dent.name
      else firstName) []

def walkFrom : ℕ → List (List (Dirent Id)) → List (Row Id)
  | 0, _ => []
  | n + 1, ptrs =>
    if ptrs.all List.isEmpty then []
    else ptrs.map (pick Dirent.name (firstName ptrs)) ::
      walkFrom n (ptrs.map (advance Dirent.name (firstName ptrs)))

/-- The loop of the Go walkers. -/
def treeWalk (trees : List (List (Dirent Id))) : List (Row Id) :=
  walkFrom (trees.map List.length).sum trees

theorem firstName_eq (ptrs : List (List (Dirent Id))) :
    firstName ptrs = (firstKey Dirent.name ptrs).getD [] := by
  have hstep : ∀ best : Option Name, ptrs.foldl (fun firstName ptr => match ptr.head? with
      | none => firstName
      | some dent =>
        if firstName = [] then dent.name
        else if firstName < dent.name then dent.name
        else firstName) (best.getD []) = (ptrs.foldl (first Dirent.name) best).getD [] := by
    induction ptrs with
    | nil => intro best; rfl
    | cons l ls ih =>
      intro best
      rw [foldl_cons, foldl_cons, ← ih]
      congr 1
      cases hl : l.head? with
      | none => simp [first, hl]
      | some d =>
        cases best with
        | none => simp [first, hl]
        | some n =>
          -- the empty string is below every other name
          by_cases hn : n = []
          · subst hn
            by_cases hd : d.name = []
            · simp [first, hl, hd]
            · have hlt : ([] : Name) < d.name := by
                obtain ⟨c, cs, hc⟩ := exists_cons_of_ne_nil hd
                rw [hc]; exact nil_lt_cons c cs
              simp [first, hl, hlt]
          · by_cases hlt : n < d.name <;> simp [first, hl, hn, hlt]
  exact hstep none

theorem walkFrom_eq (n : ℕ) (ptrs : List (List (Dirent Id))) :
    walkFrom n ptrs = walk Dirent.name n ptrs := by
  induction n generalizing ptrs with
  | zero => rfl
  | succ n ih =>
    simp only [walkFrom, walk]
    cases hk : firstKey Dirent.name ptrs with
    | none =>
      have hall : ptrs.all isEmpty = true := by
        rw [all_eq_true]
        intro l hl
        rw [firstKey_none hk l hl]; rfl
      rw [if_pos hall]
    | some k =>
      have hall : ¬ ptrs.all isEmpty = true := by
        intro h
        obtain ⟨l, hl, a, ha, -⟩ := firstKey_mem hk
        rw [all_eq_true] at h
        rw [List.isEmpty_iff.1 (h l hl)] at ha
        cases ha
      rw [if_neg hall, firstName_eq, hk, ih]
      rfl

/-- **The two loops visit the same rows.** -/
theorem treeWalk_eq (trees : List (List (Dirent Id))) :
    treeWalk trees = Server.treeWalk trees :=
  walkFrom_eq _ _

end Fileserver

/-! ## Lookup below a list of entries -/

section Lookup

variable [ObjectId Id] [DecidableEq Id] {st : FsStore Id} {id : Id} {es : List (Dirent Id)}
  {P : List (Dirent Id) → Prop} {n : ℕ}

/-- The entries of the directory an entry stands for; none for anything else. -/
def subEntries (st : FsStore Id) : Option (Dirent Id) → List (Dirent Id)
  | some d => if d.isDir then (st.getSeafdir d.id).getD [] else []
  | none => []

def entryIn (st : FsStore Id) (es : List (Dirent Id)) : List Name → Option (Dirent Id)
  | [] => none
  | [name] => findDirent name es
  | name :: name' :: path => entryIn st (subEntries st (findDirent name es)) (name' :: path)

theorem entryIn_cons (es : List (Dirent Id)) (n : Name) {path : List Name} (h : path ≠ []) :
    entryIn st es (n :: path) = entryIn st (subEntries st (findDirent n es)) path := by
  obtain ⟨m, path, rfl⟩ := exists_cons_of_ne_nil h
  rfl

@[simp] theorem entryIn_nil (path : List Name) : entryIn st [] path = none := by
  induction path with
  | nil => rfl
  | cons n path ih =>
    cases path with
    | nil => rfl
    | cons m path => exact ih

theorem entryAt_eq (h : st.getSeafdir id = some es) (path : List Name) :
    entryAt st id path = entryIn st es path := by
  induction path generalizing id es with
  | nil => rfl
  | cons n path ih =>
    cases path with
    | nil => simp [entryAt, entryIn, h]
    | cons m path =>
      simp only [entryAt, entryIn, h, Option.bind_eq_bind, Option.bind_some]
      cases hd : findDirent n es with
      | none => simp [subEntries]
      | some d =>
        by_cases hdir : d.isDir = true
        · simp only [Option.bind_some, hdir, if_true, subEntries]
          cases hes : st.getSeafdir d.id with
          | none =>
            rw [Option.getD_none, entryIn_nil]
            cases path <;> simp [entryAt, hes]
          | some es' => rw [Option.getD_some]; exact ih hes
        · simp [hdir, subEntries]

def SubTrees (P : List (Dirent Id) → Prop) (st : FsStore Id) (n : ℕ) (es : List (Dirent Id)) :
    Prop := P es ∧ ∀ e ∈ es, e.isDir = true → Tree P st n e.id

theorem Tree.subTrees (h : Tree P st (n + 1) id) :
    ∃ es, st.getSeafdir id = some es ∧ SubTrees P st n es := h

theorem Tree.subTrees_of (h : Tree P st n id) (hes : st.getSeafdir id = some es) :
    SubTrees P st n es := by
  obtain ⟨m, rfl⟩ := h.exists_succ
  obtain ⟨es', hes', hP, hsub⟩ := h
  obtain rfl := Option.mem_unique hes hes'
  exact ⟨hP, fun d hd hdir => (hsub d hd hdir).succ⟩

theorem SubTrees.sub (hnil : P []) (h : SubTrees P st (n + 1) es) (name : Name) :
    SubTrees P st n (subEntries st (findDirent name es)) := by
  cases hd : findDirent name es with
  | none => exact ⟨hnil, by simp [subEntries]⟩
  | some d =>
    by_cases hdir : d.isDir = true
    · obtain ⟨es', hes', hsub⟩ := (h.2 d (mem_of_findDirent hd).1 hdir).subTrees
      simpa [subEntries, hdir, hes'] using hsub
    · simpa [subEntries, hdir] using ⟨hnil, by simp⟩

end Lookup

end CloudFile
