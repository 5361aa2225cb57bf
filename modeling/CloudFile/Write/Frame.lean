/-
  What an upload leaves in place.

  An upload rewrites one directory.  Without replacing, the new names are free, and every path
  leads to what it led to.  With replacing, `addNewEntries` and `add_new_entries` take out the entry
  of a name whatever it is, so a directory that has the name of an uploaded file goes with all that
  is below it.
-/
import CloudFile.Merge.Outcome
import CloudFile.Revert.Kept

namespace CloudFile

open SortedWalk List Option

variable {Id : Type} [ObjectId Id] [DecidableEq Id]

/-- Nothing is lost but the files that are replaced: what the paths lead to before and after. -/
structure Spares (before after : List Name → Option (Dirent Id)) (target : List Name)
    (dents : List (Dirent Id)) (replace : Bool) : Prop where
  kept : ∀ q d, before q = some d →
    (∃ d', after q = some d' ∧ d'.isDir = d.isDir ∧ d'.isReg = d.isReg ∧
      (d.isDir = false → d'.id = d.id)) ∨
    replace = true ∧ d.isReg = true ∧ ∃ dent ∈ dents, q = target ++ [dent.name]
  /-- outside of the directory, all but the ids and times of the directories on its path -/
  outside : ∀ q, (target <+: q → q = target) → AsBefore (q <+: target) (before q) (after q)

/-- What has the name of an uploaded file is a file, if it is replaced. -/
def OnlyFiles (before : List Name → Option (Dirent Id)) (target : List Name)
    (dents : List (Dirent Id)) (replace : Bool) : Prop :=
  replace = true → ∀ dent ∈ dents, ∀ d, before (target ++ [dent.name]) = some d → d.isReg = true

section Upload

variable {X : FsStore Id} {root root' : Id} {target ns a : List Name} {replace : Bool}
  {dents old new : List (Dirent Id)} {user : Name} {now : ℕ → ℤ}
  {edit : List (Dirent Id) → Option (List (Dirent Id) × List Name)}
  (hadds : Adds user replace old dents ns new)

include hadds

theorem upload_replaced {n : Name} {d : Dirent Id} (hold : leadsTo X root target = some old)
    (hn : n ∈ ns) (hd : entryAt X root (target ++ [n]) = some d) :
    replace = true ∧ ∃ dent ∈ dents, dent.name = n := by
  obtain ⟨-, es, -, -, hes, hfind⟩ := leadsTo_of_entryAt hd
  obtain rfl := mem_unique hold hes
  obtain ⟨hmem, hname⟩ := mem_of_findDirent hfind
  cases replace with
  | false => exact absurd hname (nameExists_eq_false.1 (hadds.free_of_unique n hn) d hmem)
  | true =>
    rw [hadds.names_of_replace] at hn
    exact ⟨rfl, mem_map.1 hn⟩

variable (hu : UniqueKeys Dirent.name old) (hnew : leadsTo X root' target = some new)
  (h : Rewritten edit now X X root target root' a)

include hu hnew h

theorem upload_keeps {q : List Name} (hold : leadsTo X root target = some old)
    (hq : ∀ n ∈ ns, ¬ target ++ [n] <+: q) :
    AsBefore (q <+: target) (entryAt X root q) (entryAt X root' q) := by
  refine h.entryAt_keep hold hnew fun m rest hm => hadds.find_other hu fun hmem => hq m hmem ?_
  rw [hm]
  exact ⟨rest, by simp⟩

variable (hres : Resolvable X root target)

include hres

theorem upload_adds {n : Name} (hn : n ∈ ns) :
    ∃ dent ∈ dents, entryAt X root' (target ++ [n]) = some (dent.named user n) := by
  obtain ⟨dent, hdent, hmem⟩ := hadds.exists_added hn
  obtain ⟨-, es, -, -, hes, hentry⟩ := h.entryAt_edited
  obtain rfl := mem_unique hnew hes
  refine ⟨dent, (of_mem_zip hdent).1, ?_⟩
  rw [hentry, if_pos hres]
  exact (findDirent_some (hadds.unique hu)).2 ⟨hmem, Dirent.named_name ..⟩

theorem onlyFiles_of_spares (hfiles : ∀ dent ∈ dents, dent.isReg = true)
    (hspares : Spares (entryAt X root) (entryAt X root') target dents replace) :
    OnlyFiles (entryAt X root) target dents replace := by
  rintro rfl dent hdent d hd
  have hn : dent.name ∈ ns := hadds.names_of_replace ▸ mem_map_of_mem hdent
  obtain ⟨dent', hdent', hadded⟩ := upload_adds hadds hu hnew h hres hn
  rcases hspares.kept _ d hd with ⟨d', hd', -, hkind, -⟩ | ⟨-, hreg, -⟩
  · obtain rfl := mem_unique hadded hd'
    rw [← hkind, Dirent.named_isReg, hfiles dent' hdent']
  · exact hreg

theorem spares_of_onlyFiles (hold : leadsTo X root target = some old)
    (honly : OnlyFiles (entryAt X root) target dents replace) :
    Spares (entryAt X root) (entryAt X root') target dents replace := by
  refine ⟨fun q d hq => ?_, fun q hout => ?_⟩
  · by_cases hpre : ∃ n ∈ ns, target ++ [n] <+: q
    · obtain ⟨n, hn, rest, rfl⟩ := hpre
      -- the entry of the name is a file, so nothing is below it
      obtain rfl : rest = [] := by
        by_contra hne
        obtain ⟨e, he, hdir⟩ := isDir_of_below hne hq
        obtain ⟨hrep, dent, hdent, rfl⟩ := upload_replaced hadds hold hn he
        rw [Dirent.isDir_of_isReg (honly hrep dent hdent e he)] at hdir
        cases hdir
      rw [append_nil] at hq ⊢
      obtain ⟨hrep, dent, hdent, rfl⟩ := upload_replaced hadds hold hn hq
      exact .inr ⟨hrep, honly hrep dent hdent d hq, dent, hdent, rfl⟩
    · left
      rcases upload_keeps hadds hu hnew h hold fun n hn hq => hpre ⟨n, hn, hq⟩ with
        hsame | ⟨hon, i, t, htouch⟩
      · exact ⟨d, hsame.trans hq, rfl, rfl, fun _ => rfl⟩
      · refine ⟨d.touch i t, by rw [htouch, hq]; rfl, rfl, rfl, fun hfile => ?_⟩
        rw [isDir_of_resolvable hres hon hq] at hfile
        cases hfile
  · refine upload_keeps hadds hu hnew h hold fun n _ hpre => ?_
    have heq := hout ((prefix_append target [n]).trans hpre)
    rw [heq] at hpre
    simpa using hpre.length_le

end Upload

section Modes

variable {before after : List Name → Option (Dirent Id)} {target : List Name}
  {dents : List (Dirent Id)} {replace : Bool}

section

omit [ObjectId Id] [DecidableEq Id]

theorem spares_map_withFileMode :
    Spares before after target (dents.map Dirent.withFileMode) replace ↔
      Spares before after target dents replace := by
  constructor <;> rintro ⟨hkept, hout⟩ <;> exact ⟨by simpa using hkept, hout⟩

theorem onlyFiles_map_withFileMode :
    OnlyFiles before target (dents.map Dirent.withFileMode) replace ↔
      OnlyFiles before target dents replace := by
  simp [OnlyFiles]

end

end Modes

variable {env : WriteEnv Id} {st : FsStore Id} {root : Id} {parentDir user : Name}
  {dents : List (Dirent Id)} {replace : Bool} {names : List Name} {k : ℕ}
  {w : Written Id (List Name)}

theorem spares_iff_of_rewritten {target : List Name} {now : ℕ → ℤ}
    {edit : List (Dirent Id) → Option (List (Dirent Id) × List Name)}
    (htree : Tree (Desc Dirent.name) st k root) (hres : Resolvable st root target)
    (hfiles : ∀ dent ∈ dents, dent.isReg = true) (hle : st ≤ w.store)
    (hrew : Rewritten edit now st w.store root target w.dirID w.out)
    (hspec : ∀ old r, Desc Dirent.name old → edit old = some r →
      ∃ ns, Adds user replace old dents ns r.1) :
    Spares (entryAt st root) (entryAt w.store w.dirID) target dents replace ↔
      OnlyFiles (entryAt st root) target dents replace := by
  obtain ⟨i, hi⟩ := isSome_iff_exists.1 hres
  obtain ⟨k', -, hdir⟩ := htree.resolve hi
  obtain ⟨old, hes, hdesc⟩ := hdir.readable
  have hwithin := hrew.within hle le_rfl
  have hold := (leadsTo_of_resolve (resolve_mono hle hi)).trans (FsStore.getSeafdir_mono hle hes)
  have hres' : Resolvable w.store root target := by
    rw [Resolvable, resolve_mono hle hi]
    rfl
  obtain ⟨es, new, hleads, hedit, hnew, -⟩ := hwithin.entryAt_edited
  obtain rfl := mem_unique hold hleads
  obtain ⟨ns, hadds⟩ := hspec _ _ hdesc hedit
  rw [← funext (htree.entryAt_mono hle)]
  have hu := (desc_iff.1 hdesc).2
  exact ⟨onlyFiles_of_spares hadds hu hnew hwithin hres' hfiles,
    spares_of_onlyFiles hadds hu hnew hwithin hres' hold⟩

/-- **An upload removes nothing but the files it replaces** exactly if no directory or link of the
    target directory has the name of an uploaded file. -/
theorem doPostMultiFiles_spares_iff (hsort : Fileserver.SortsDirents env.sortDents)
    (htree : Tree (Desc Dirent.name) st k root)
    (hres : Resolvable st root (toPathNames (stripSlash parentDir)))
    (hfiles : ∀ dent ∈ dents, dent.isReg = true) {w : Written Id (List Name)}
    (h : Fileserver.doPostMultiFiles env.writeObj env.now env.sortDents st root parentDir dents
        user replace names = some w ∨
      Server.doPostMultiFiles env.writeObj env.now st root parentDir dents user replace names =
        some w) :
    Spares (entryAt st root) (entryAt w.store w.dirID) (toPathNames (stripSlash parentDir)) dents
        replace ↔
      OnlyFiles (entryAt st root) (toPathNames (stripSlash parentDir)) dents replace := by
  rcases h with h | h
  · unfold Fileserver.doPostMultiFiles at h
    split_ifs at h
    obtain ⟨hle, hrew⟩ := rewriteRecursive_spec h
    exact spares_iff_of_rewritten htree hres hfiles hle hrew fun old r hdesc hr =>
      (Fileserver.addNewEntries_spec hsort (desc_iff.1 hdesc).2 hr).2.imp fun _ => And.right
  · obtain ⟨hle, hrew⟩ := rewriteRecursive_spec h
    rw [← spares_map_withFileMode, ← onlyFiles_map_withFileMode]
    exact spares_iff_of_rewritten htree hres (by simpa using hfiles) hle hrew
      fun old r hdesc hr => (Server.addNewEntries_spec hdesc hr).2.imp fun _ => And.right

def boxEnv : WriteEnv ℕ := ⟨fun _ => true, Server.sortDirents, fun _ => 9, fun _ => 9, 9⟩

def boxUpload (n : Char) : Option (Written ℕ (List Name)) :=
  Server.doPostMultiFiles boxEnv.writeObj boxEnv.now boxStore (seafDirId [boxDir]) ['/']
    [.new 0o100644 7 [n] 0 [] 5] ['u'] true []

theorem boxStore_sorted : Tree (Desc Dirent.name) boxStore 3 (seafDirId [boxDir]) :=
  boxStore_tree.imp fun _ h => h.1.1

theorem upload_beside_directory : ∃ w, boxUpload 'g' = some w ∧
    Spares (entryAt boxStore (seafDirId [boxDir])) (entryAt w.store w.dirID) []
      [.new 0o100644 7 ['g'] 0 [] 5] true := by
  obtain ⟨w, hw⟩ := isSome_iff_exists.1
    (show (boxUpload 'g').isSome = true by decide +kernel)
  have hsort : Fileserver.SortsDirents boxEnv.sortDents := Server.sortDirents_sorts
  have hres : Resolvable boxStore (seafDirId [boxDir]) (toPathNames (stripSlash ['/'])) := rfl
  refine ⟨w, hw, (doPostMultiFiles_spares_iff hsort boxStore_sorted hres (by decide)
    (.inr hw)).2 fun _ dent hdent d hd => ?_⟩
  obtain rfl := mem_singleton.1 hdent
  have hnone : entryAt boxStore (seafDirId [boxDir]) [['g']] = none := by decide +kernel
  cases hnone.symm.trans hd

/-- **A directory is lost**: the new file has its name, and `f` was in it. -/
theorem upload_replaces_directory : ∃ w, boxUpload 'd' = some w ∧
    Tree (Desc Dirent.name) boxStore 3 (seafDirId [boxDir]) ∧
    ¬ Spares (entryAt boxStore (seafDirId [boxDir])) (entryAt w.store w.dirID) []
      [.new 0o100644 7 ['d'] 0 [] 5] true := by
  have hlost : (boxUpload 'd').map (fun w => (entryAt w.store w.dirID [['d'], ['f']]).isSome) =
    some false := by decide +kernel
  obtain ⟨w, hw, hnone⟩ := map_eq_some_iff.1 hlost
  refine ⟨w, hw, boxStore_sorted, fun hspares => ?_⟩
  obtain ⟨d, hd⟩ := isSome_iff_exists.1 (show (entryAt boxStore (seafDirId [boxDir])
    [['d'], ['f']]).isSome = true by decide +kernel)
  rcases hspares.kept _ d hd with ⟨d', hd', -⟩ | ⟨-, -, dent, -, hpath⟩
  · rw [hd'] at hnone
    cases hnone
  · exact absurd (congrArg List.length hpath) (by simp)

end CloudFile
