/-
  A tree in which one entry is replaced, path by path. Where the names above the entry are
  directories, a rewrite is local (`EditedTree`): the directories above have a new id and time,
  and every other path leads to what it led to before.
-/
import CloudFile.Write.Paths

namespace CloudFile

open SortedWalk GoPath Option

variable {Id : Type} [ObjectId Id] [DecidableEq Id]

/-- Below `root'` stands the tree below `root`, with `dent` at `path`. -/
structure EditedTree (st : FsStore Id) (root : Id) (st' : FsStore Id) (root' : Id)
    (path : List Name) (dent : Dirent Id) : Prop where
  entry : entryAt st' root' path = some dent
  above : ∀ q, q ≠ [] → q <+: path → q ≠ path → ∃ d i t, entryAt st root q = some d ∧
    d.isDir = true ∧ entryAt st' root' q = some (d.touch i t)
  rest : ∀ q, ¬ q <+: path → entryAt st' root' q = entryAt st root q

def editedRoot (now : ℕ → ℤ) (dent : Dirent Id) (st : FsStore Id) : Id → List Name → Option Id
  | id, [] => (st.getSeafdir id).map fun entries => seafDirId (replaceEntry dent entries)
  | id, n :: parent => st.getSeafdir id >>= fun entries => findDirent n entries >>= fun d =>
      (editedRoot now dent st d.id parent).map fun i =>
        seafDirId (updateDirent n (fun d => d.touch i (now parent.length)) entries)

variable {st st' : FsStore Id} {writeObj : Id → Bool} {now : ℕ → ℤ} {dent : Dirent Id} {id id' : Id}
  {parent : List Name} {a : Unit}

omit [ObjectId Id] [DecidableEq Id] in
theorem findDirent_replaceEntry (entries : List (Dirent Id)) (m : Name) :
    findDirent m (replaceEntry dent entries) =
      (findDirent m entries).map fun d => if m = dent.name then dent else d := by
  induction entries with
  | nil => rfl
  | cons d entries ih =>
    unfold findDirent replaceEntry at ih ⊢
    by_cases hm : d.name = m
    · subst hm
      by_cases hn : d.name = dent.name
      · simp [hn]
      · simp [hn]
    · by_cases hn : d.name = dent.name
      · have hne : dent.name ≠ m := fun h => hm (hn.trans h)
        simpa [hm, hn, hne] using ih
      · simpa [hm, hn] using ih

theorem Rewritten.editedRoot_eq
    (h : Rewritten (fun es => some (replaceEntry dent es, ())) now st st' id parent id' a) :
    editedRoot now dent st id parent = some id' := by
  induction h with
  | here hes hedit hes' =>
    cases hedit
    rw [editedRoot, hes, map_some, FsStore.getSeafdir_id hes']
  | down hes hd _ hes' ih =>
    simp only [editedRoot, hes, hd, ih, bind_eq_bind, bind_some, map_some,
      FsStore.getSeafdir_id hes']

section Tree

variable {P : List (Dirent Id) → Prop} {k : ℕ}
  (h : Rewritten (fun es => some (replaceEntry dent es, ())) now st st' id parent id' a)
  (hle : st ≤ st') (hT : Tree P st k id)

include h hle hT

theorem Rewritten.entryAt_rest {q : List Name} (hq : ¬ q <+: parent ++ [dent.name])
    (hq' : ¬ parent ++ [dent.name] <+: q) : entryAt st' id' q = entryAt st id q := by
  have hwithin := h.within hle le_rfl
  obtain ⟨es, es', hes, hedit, hes', -⟩ := hwithin.entryAt_edited
  cases hedit
  rw [← hT.entryAt_mono hle]
  have hfind : ∀ m rest, q = parent ++ m :: rest →
      findDirent m (replaceEntry dent es) = findDirent m es := by
    intro m rest hm
    have hne : m ≠ dent.name := by
      rintro rfl
      exact hq' ⟨rest, by simp [hm]⟩
    simp [findDirent_replaceEntry, hne]
  rcases hwithin.entryAt_keep hes hes' hfind with hsame | ⟨hon, -⟩
  · exact hsame
  · exact absurd (hon.trans (List.prefix_append ..)) hq

/-- **A rewrite is local** where the names above the entry are directories. -/
theorem Rewritten.editedTree {d : Dirent Id} (hd : entryAt st id (parent ++ [dent.name]) = some d)
    (hreg : d.isDir = false) (hdent : dent.isDir = false) :
    EditedTree st id st' id' (parent ++ [dent.name]) dent := by
  have hmono := hT.entryAt_mono hle
  have hwithin := h.within hle le_rfl
  rw [← hmono] at hd
  obtain ⟨i, es, hi, -, hes, hfind⟩ := leadsTo_of_entryAt hd
  have hres : Resolvable st' id parent := by
    rw [Resolvable, hi]
    rfl
  obtain ⟨es₀, es', hes₀, hedit, -, hentry⟩ := hwithin.entryAt_edited
  obtain rfl := mem_unique hes hes₀
  cases hedit
  have hnew : entryAt st' id' (parent ++ [dent.name]) = some dent := by
    rw [hentry, if_pos hres, findDirent_replaceEntry, hfind]
    simp
  refine ⟨hnew, fun q hne hq hneq => ?_, fun q hq => ?_⟩
  · have hon := (List.prefix_concat_iff.1 hq).resolve_left hneq
    obtain ⟨e, he, hdir⟩ := exists_of_resolvable hres hon hne
    obtain ⟨i, t, htouch⟩ := hwithin.entryAt_on hon
    exact ⟨e, i, t, (hmono q).symm.trans he, hdir, by rw [htouch, he]; rfl⟩
  · by_cases hbelow : parent ++ [dent.name] <+: q
    · -- below the entry there is nothing, before and after
      obtain ⟨rest, rfl⟩ := hbelow
      have hrest : rest ≠ [] := by
        rintro rfl
        exact hq (by simp)
      have hnone : ∀ {r e}, entryAt st' r (parent ++ [dent.name]) = some e → e.isDir = false →
          entryAt st' r (parent ++ [dent.name] ++ rest) = none := by
        intro r e he hdir
        refine eq_none_iff_forall_ne_some.2 fun x hx => ?_
        obtain ⟨e', he', hdir'⟩ := isDir_of_below hrest hx
        obtain rfl := mem_unique he he'
        rw [hdir] at hdir'
        cases hdir'
      rw [← hmono, hnone hd hreg, hnone hnew hdent]
    · exact h.entryAt_rest hle hT hq hbelow

end Tree

end CloudFile
