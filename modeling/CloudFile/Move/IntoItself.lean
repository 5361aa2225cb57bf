/-
  Moving a directory into itself: the deletion from the source would take away what was added.
  `check_move` compares the text of the destination with the texts of the moved entries, each with
  a slash after it, while the move makes the paths canonical. The directory itself is never found,
  nor another spelling of it.
-/
import CloudFile.Move.Model

namespace CloudFile

open SortedWalk GoPath GLibPath List

variable {Id : Type} [ObjectId Id] [DecidableEq Id]

/-! ## Requests -/

/-- The names on the path from the origin: those of the folder of a virtual library, and those of
    the canonical path. -/
def MoveRepo.names (repo : MoveRepo) (dir : Name) : List Name :=
  fields ((repo.virtualInfo.map Prod.snd).getD []) ++
    fields (Server.getCanonicalPath (Server.formatDirPath dir))

/-- The destination is a moved entry or lies below one. -/
def Move.IntoItself (m : Move Id) : Prop :=
  ∃ n ∈ m.srcNames, m.srcRepo.names m.srcDir ++ [n] <+: m.dstRepo.names m.dstDir

/-- The destination is written as a moved entry, a slash, and possibly more. -/
def Move.SpelledBelow (m : Move Id) : Prop :=
  ∃ n ∈ m.srcNames, m.srcRepo.entryText (Server.formatDirPath m.srcDir) n <+:
    m.dstRepo.text (Server.formatDirPath m.dstDir)

namespace Move

def dstPath (m : Move Id) : Name :=
  if m.otherRepo = none then Server.getCanonicalPath (Server.formatDirPath m.dstDir)
  else Server.formatDirPath m.dstDir

def dstParts (m : Move Id) : List Name := toPathNames (stripSlash m.dstPath)

/-- There is a destination directory, and names for the entries in it. -/
def Fits (st : FsStore Id) (m : Move Id) (dents : List (Dirent Id)) : Prop :=
  ∃ es, leadsTo st m.dstRoot m.dstParts = some es ∧
    (Server.addNewEntries m.user dents m.replace [] es).isSome

/-- Nothing but the test for subdirectories speaks against the request. -/
structure InOrder (e : MoveEnv Id) (st : FsStore Id) (m : Move Id) : Prop where
  repos : e.repos = true
  dstHead : e.dstHead = true
  prepare : e.prepare = .ok ()
  commit : e.commit = .ok ()
  srcNames : m.srcNames ≠ []
  length : m.dstNames.length = m.srcNames.length
  dst : ∃ dents, Server.moveDents st m = .ok dents ∧ m.Fits st dents
  /-- no slashes next to each other in the source path of a single library -/
  src : m.otherRepo = none → [] ∉ Server.srcParts (Server.formatDirPath m.srcDir)

end Move

/-! ## When the rewrites go through -/

section Rewrites

variable {α : Type} {writeObj : Id → Bool} {now : ℕ → ℤ} {st st' : FsStore Id} {id id' : Id}
  {edit : List (Dirent Id) → Option (List (Dirent Id) × α)} {path : List Name}

theorem FsStore.saveSeafdir_some (hwrite : ∀ id, writeObj id = true) (st : FsStore Id)
    (es : List (Dirent Id)) : ∃ st', st.saveSeafdir writeObj es = some st' := by
  unfold FsStore.saveSeafdir
  split_ifs with hes hex hw
  · exact ⟨st, rfl⟩
  · exact ⟨st, rfl⟩
  · exact ⟨_, rfl⟩
  · exact absurd (hwrite _) hw

theorem rewriteRecursive_isSome (hwrite : ∀ id, writeObj id = true) :
    (rewriteRecursive writeObj now edit st id path).isSome ↔
      ∃ es, leadsTo st id path = some es ∧ (edit es).isSome := by
  have hnew : ∀ (st : FsStore Id) es (a : α), (newSeafdir writeObj st es a).isSome = true := by
    intro st es a
    obtain ⟨st', hst'⟩ := FsStore.saveSeafdir_some hwrite st es
    rw [newSeafdir, hst']
    rfl
  induction path generalizing id with
  | nil =>
    simp only [rewriteRecursive, leadsTo]
    cases st.getSeafdir id with
    | none => simp
    | some es =>
      cases hedit : edit es with
      | none => simp [hedit]
      | some r => simp [hedit, hnew]
  | cons n path ih =>
    simp only [rewriteRecursive, leadsTo]
    cases st.getSeafdir id with
    | none => simp
    | some es =>
      cases hd : findDirent n es with
      | none => simp [hd]
      | some d =>
        have hd' := @ih d.id
        cases hw : rewriteRecursive writeObj now edit st d.id path with
        | none => simpa [hd, hw] using hd'
        | some w => simpa [hd, hw, hnew] using hd'

/-- Every directory of the store has its names once, and each can stand in a path. -/
def FsStore.WellNamed (st : FsStore Id) : Prop :=
  ∀ id es, st.getSeafdir id = some es → UniqueNames Part es

omit [ObjectId Id] [DecidableEq Id] in
theorem uniqueKeys_touch {es : List (Dirent Id)} (hu : UniqueKeys Dirent.name es) (n : Name)
    (i : Id) (t : ℤ) : UniqueKeys Dirent.name (updateDirent n (fun d => d.touch i t) es) := by
  unfold UniqueKeys at hu ⊢
  rwa [map_name_updateDirent (f := fun d => d.touch i t) fun _ => rfl]

theorem delFileRecursive_rewritten {a : α} {e : DeleteEnv Id} {filenames parts dst : List Name}
    {n : Name} (hst : st.WellNamed) (hwrite : ∀ id, e.writeObj id = true)
    (hrew : Rewritten edit now st st' id dst id' a) (hn : n ∈ filenames)
    (hparts : ∀ p ∈ parts, '/' ∉ p) (hle : parts.flatMap fields ++ [n] <+: dst) :
    if [] ∈ parts then Server.delFileRecursive e filenames parts st' id' = none
    else ∃ r, Server.delFileRecursive e filenames parts st' id' = some r ∧ r.2.2 ≠ 0 := by
  -- the directories on the way have the names they had
  have hsorted : ∀ {es : List (Dirent Id)} {m : Name} {i : Id} {t : ℤ} {id : Id},
      st.getSeafdir id = some es → ∀ m',
      findDirent m' (Server.sortDirents (updateDirent m (fun d => d.touch i t) es)) =
        findDirent m' (updateDirent m (fun d => d.touch i t) es) :=
    fun hes => findDirent_sortDirents (uniqueKeys_touch (hst _ _ hes).1 _ _ _)
  induction parts generalizing id id' dst with
  | nil =>
    rw [if_neg not_mem_nil]
    cases hrew with
    | here => simp at hle
    | @down _ _ i es d m path' _ hes hd hrec hes' =>
      obtain ⟨rfl, -⟩ := cons_prefix_cons.1 hle
      have hfind := (hsorted hes n).trans (findDirent_touch (i := i) (t := now path'.length) hd)
      simp only [Server.delFileRecursive, Server.getSeafdirSorted, hes', Option.map_some,
        Option.bind_eq_bind, Option.bind_some, if_neg (ne_nil_of_mem hn)]
      generalize Server.sortDirents (updateDirent n _ es) = es₁ at hfind ⊢
      obtain ⟨hmem, hname⟩ := mem_of_findDirent hfind
      have hcount : es₁.countP (fun old => filenames.contains old.name) ≠ 0 :=
        (countP_pos_iff.2 ⟨_, hmem, by rw [hname]; simpa using hn⟩).ne'
      obtain ⟨st'', hsave⟩ := FsStore.saveSeafdir_some hwrite st'
        (es₁.filter fun old => !filenames.contains old.name)
      rw [if_neg hcount, hsave]
      exact ⟨_, rfl, hcount⟩
  | cons p parts ih =>
    cases hrew with
    | here => simp at hle
    | @down _ _ i es d m path' _ hes hd hrec hes' =>
      have hfind := hsorted (m := m) (i := i) (t := now path'.length) hes
      simp only [Server.delFileRecursive, Server.getSeafdirSorted, hes', Option.map_some,
        Option.bind_eq_bind, Option.bind_some]
      generalize Server.sortDirents (updateDirent m _ es) = es₁ at hfind ⊢
      by_cases hp : p = []
      · subst hp
        have hnone : findDirent [] es = none := by
          cases hfind : findDirent [] es with
          | none => rfl
          | some d' =>
            obtain ⟨hmem, hname⟩ := mem_of_findDirent hfind
            exact absurd hname ((hst _ _ hes).2 d' hmem).1
        have hm : m ≠ [] := by
          rintro rfl
          rw [hnone] at hd
          cases hd
        rw [if_pos mem_cons_self, hfind, findDirent_touch_ne hm.symm, hnone]
        rfl
      · have hfields : fields p = [p] := fields_part ⟨hp, hparts p mem_cons_self⟩
        rw [flatMap_cons, hfields, append_assoc, singleton_append] at hle
        obtain ⟨rfl, hrest⟩ := cons_prefix_cons.1 hle
        have hih := ih hrec (fun q hq => hparts q (mem_cons_of_mem _ hq)) hrest
        have hmem : [] ∈ p :: parts ↔ [] ∈ parts := by simp [Ne.symm hp]
        rw [hfind, findDirent_touch hd, Option.bind_some]
        by_cases hempty : [] ∈ parts
        · rw [if_pos hempty] at hih
          rw [if_pos (hmem.2 hempty), Dirent.touch_id, hih]
          rfl
        · rw [if_neg hempty] at hih
          obtain ⟨r, hr, hcount⟩ := hih
          obtain ⟨st'', hsave⟩ := FsStore.saveSeafdir_some hwrite r.1
            (Server.replaceDir e.now p r.2.1 es₁)
          rw [if_neg (mt hmem.1 hempty), Dirent.touch_id, hr, Option.bind_some, if_neg hcount,
            hsave]
          exact ⟨_, rfl, hcount⟩

end Rewrites

/-! ## When a move is refused -/

section Refused

variable {e : MoveEnv Id} {st : FsStore Id} {m : Move Id} {dents : List (Dirent Id)}

theorem flatMap_toPathNames (p : Name) : (toPathNames p).flatMap fields = fields p := by
  induction hk : p.length using Nat.strong_induction_on generalizing p with
  | _ k ih =>
    by_cases hslash : '/' ∈ p
    · obtain ⟨a, b, rfl, ha⟩ := eq_append_cons_of_mem hslash
      have hlt : b.length < k := by
        rw [← hk, length_append, length_cons]
        omega
      rw [toPathNames_append_slash ha, flatMap_cons, ih b.length hlt b rfl,
        fields_append_slash]
    · by_cases hne : p = []
      · rw [hne]
        rfl
      · rw [toPathNames_of_notMem hne hslash, flatMap_singleton]

theorem fields_stripSlash (p : Name) : fields (stripSlash p) = fields p := by
  unfold stripSlash
  split_ifs with hp
  · obtain ⟨rest, rfl⟩ : ∃ rest, p = '/' :: rest := by
      cases p with
      | nil => cases hp
      | cons c p => exact ⟨p, by rw [Option.some.inj hp]⟩
    exact (fields_slash _).symm
  · rfl

theorem part_of_leadsTo (hst : st.WellNamed) {id : Id} {path : List Name}
    {es : List (Dirent Id)} (h : leadsTo st id path = some es) : ∀ n ∈ path, Part n := by
  induction path generalizing id with
  | nil => simp
  | cons n path ih =>
    simp only [leadsTo, Option.bind_eq_bind, Option.bind_eq_some_iff] at h
    obtain ⟨d, ⟨es', hes', hd⟩, hrest⟩ := h
    obtain ⟨hmem, rfl⟩ := mem_of_findDirent hd
    exact forall_mem_cons.2 ⟨(hst _ _ hes').2 d hmem, ih hrest⟩

omit [ObjectId Id] [DecidableEq Id] in
theorem Move.IntoItself.parts (h : m.IntoItself) (hsame : m.otherRepo = none)
    (hpart : ∀ n ∈ m.dstParts, Part n) :
    ∃ n ∈ m.srcNames, (Server.srcParts (Server.formatDirPath m.srcDir)).flatMap fields ++ [n] <+:
      m.dstParts := by
  obtain ⟨n, hn, hle⟩ := h
  refine ⟨n, hn, ?_⟩
  have hdst : m.dstParts = fields (Server.getCanonicalPath (Server.formatDirPath m.dstDir)) := by
    rw [← flatMap_fields_parts hpart, Move.dstParts, flatMap_toPathNames, fields_stripSlash,
      Move.dstPath, if_pos hsame]
  rw [Move.dstRepo, hsame, Option.getD_none] at hle
  unfold MoveRepo.names at hle
  rw [append_assoc, prefix_append_right_inj] at hle
  rwa [Server.srcParts, Server.flatMap_gStrsplit, Server.fields_skipSlash, hdst]

theorem movePublish_refused_iff (hst : st.WellNamed) (hwrite : ∀ id, e.writeObj id = true)
    (hinto : m.IntoItself) :
    (∃ err, Server.movePublish e st m dents = .refused err) ↔
      ¬ (m.Fits st dents ∧ e.commit = .ok () ∧
        (m.otherRepo = none → [] ∉ Server.srcParts (Server.formatDirPath m.srcDir))) := by
  have hpost : (Server.doPostMultiFiles e.writeObj e.putTime st m.dstRoot m.dstPath dents m.user
      m.replace []).isSome ↔ m.Fits st dents := rewriteRecursive_isSome hwrite
  unfold Server.movePublish
  by_cases hsame : m.otherRepo = none
  · rw [Move.dstPath, if_pos hsame] at hpost
    simp only [hsame, if_true, Server.moveFileSameRepo]
    cases hw : Server.doPostMultiFiles e.writeObj e.putTime st m.dstRoot
        (Server.getCanonicalPath (Server.formatDirPath m.dstDir)) dents m.user m.replace [] with
    | none =>
      rw [hw] at hpost
      have hno : ¬ m.Fits st dents := by simpa using hpost
      simp [hno]
    | some w =>
      have hfits : m.Fits st dents := hpost.1 (by rw [hw]; rfl)
      obtain ⟨-, hrew⟩ := rewriteRecursive_spec hw
      obtain ⟨es, hes, -⟩ := id hfits
      obtain ⟨n, hn, hle⟩ := hinto.parts hsame (part_of_leadsTo hst hes)
      rw [Move.dstParts, Move.dstPath, if_pos hsame] at hle
      have hslash : ∀ p ∈ Server.srcParts (Server.formatDirPath m.srcDir), '/' ∉ p :=
        Server.slash_notMem_gStrsplit _
      have hdel := delFileRecursive_rewritten (e := ⟨e.writeObj, e.delTime⟩) hst hwrite hrew hn
        hslash hle
      by_cases hempty : [] ∈ Server.srcParts (Server.formatDirPath m.srcDir)
      · rw [if_pos hempty] at hdel
        simp [hdel, hempty]
      · rw [if_neg hempty] at hdel
        obtain ⟨r, hr, -⟩ := hdel
        cases hcommit : e.commit with
        | error err => simp [hr]
        | ok u => simp [hr, hfits, hempty]
  · rw [Move.dstPath, if_neg hsame] at hpost
    simp only [hsame, if_false]
    cases hw : Server.doPostMultiFiles e.writeObj e.putTime st m.dstRoot
        (Server.formatDirPath m.dstDir) dents m.user m.replace [] with
    | none =>
      rw [hw] at hpost
      have hno : ¬ m.Fits st dents := by simpa using hpost
      simp [hno]
    | some w =>
      have hfits : m.Fits st dents := hpost.1 (by rw [hw]; rfl)
      cases hcommit : e.commit with
      | error err => simp
      | ok u => simp [hfits]

omit [ObjectId Id] [DecidableEq Id] in
theorem checkMove_iff : Server.checkMove m.srcRepo m.dstRepo (Server.formatDirPath m.srcDir)
    (Server.formatDirPath m.dstDir) m.srcNames = true ↔ ¬ m.SpelledBelow := by
  simp only [Server.checkMove, Move.SpelledBelow, all_eq_true, Bool.not_eq_true',
    ← Bool.not_eq_true, isPrefixOf_iff_prefix, not_exists, not_and]

/-- **When a move into itself is refused**: if the request is in order, exactly where the
    destination is written as a moved entry with a slash after it. -/
theorem move_into_itself_refused_iff (hst : st.WellNamed) (hwrite : ∀ id, e.writeObj id = true)
    (hrepos : m.otherRepo = none ∨ Server.isVirtualRepoAndOrigin m.srcRepo m.dstRepo = true)
    (hinto : m.IntoItself) :
    (∃ err, Server.moveMultipleFiles e st m = .refused err) ↔
      (m.InOrder e st → m.SpelledBelow) := by
  unfold Server.moveMultipleFiles
  -- a check that fails refuses the request, and shows that it is not in order
  split
  next hrepo =>
    exact ⟨fun _ h => absurd h.repos (by simpa using hrepo), fun _ => ⟨_, rfl⟩⟩
  next hrepo =>
  split
  next hhead =>
    exact ⟨fun _ h => absurd h.dstHead (by simpa using hhead), fun _ => ⟨_, rfl⟩⟩
  next hhead =>
  split
  next hnames =>
    refine ⟨fun _ h => absurd hnames ?_, fun _ => ⟨_, rfl⟩⟩
    rw [not_or]
    refine ⟨h.srcNames, fun hdst => h.srcNames (eq_nil_of_length_eq_zero ?_)⟩
    rw [← h.length, hdst]
    rfl
  next hnames =>
  split
  next hlength => exact ⟨fun _ h => absurd h.length hlength, fun _ => ⟨_, rfl⟩⟩
  next hlength =>
  cases hprepare : e.prepare with
  | error err => exact ⟨fun _ h => absurd h.prepare (by simp [hprepare]), fun _ => ⟨_, rfl⟩⟩
  | ok u =>
    simp only
    by_cases hspelled : m.SpelledBelow
    · have hcheck := mt checkMove_iff.1 (not_not.2 hspelled)
      rw [Bool.not_eq_true] at hcheck
      exact ⟨fun _ _ => hspelled, fun _ => ⟨_, by rw [hcheck]; rfl⟩⟩
    · rw [checkMove_iff.2 hspelled]
      cases hdents : Server.moveDents st m with
      | error err =>
        refine ⟨fun _ h => ?_, fun _ => ⟨_, rfl⟩⟩
        obtain ⟨dents, hok, -⟩ := h.dst
        rw [hdents] at hok
        cases hok
      | ok dents =>
        simp only [Bool.not_true, Bool.false_eq_true, if_false, hspelled, imp_false]
        rw [movePublish_refused_iff hst hwrite hinto, not_iff_not]
        constructor
        · rintro ⟨hfits, hcommit, hsrc⟩
          exact ⟨by simpa using hrepo, by simpa using hhead, hprepare, hcommit,
            (not_or.1 hnames).1, not_not.1 hlength, ⟨dents, hdents, hfits⟩, hsrc⟩
        · intro h
          obtain ⟨dents', hok, hfits⟩ := h.dst
          obtain rfl : dents' = dents := Except.ok.inj (hok.symm.trans hdents)
          exact ⟨hfits, h.commit, h.src⟩

end Refused

/-! ## A directory moved into itself -/

theorem FsStore.wellNamed_empty : (FsStore.empty : FsStore Id).WellNamed := by
  intro id es h
  rcases FsStore.getSeafdir_obj h with ⟨-, rfl⟩ | hobj
  · exact ⟨List.nodup_nil, by simp⟩
  · cases hobj

theorem FsStore.WellNamed.insert {st : FsStore Id} (hst : st.WellNamed) {es : List (Dirent Id)}
    (hes : UniqueKeys Dirent.name es ∧ ∀ d ∈ es, Part d.name) (hne : (FsObj.dir es).Nonempty) :
    (st.insert (.dir es) hne).WellNamed := by
  intro id es' h
  rcases FsStore.getSeafdir_obj h with ⟨-, rfl⟩ | hobj
  · exact ⟨List.nodup_nil, by simp⟩
  · simp only [FsStore.insert] at hobj
    split_ifs at hobj
    · cases hobj
      exact hes
    · exact hst id es' (FsStore.getSeafdir_of_obj hobj)

def keptEntries : List (Dirent ℕ) :=
  [.new 0o040000 emptySha1 ['x'] 0 [] 0, .new 0o100644 7 ['f'] 0 ['u'] 1]

def keptDir : Dirent ℕ := .new 0o040000 (seafDirId keptEntries) ['d'] 0 [] 0

def keptStore : FsStore ℕ :=
  (FsStore.empty.insert (.dir keptEntries) (by simp [FsObj.Nonempty, keptEntries])).insert
    (.dir [keptDir]) (by simp [FsObj.Nonempty])

def willingEnv : MoveEnv ℕ := ⟨true, true, .ok (), .ok (), fun _ => true, fun _ => 0, 0⟩

def moveD (dstDir : Name) : Move ℕ where
  srcRepo := ⟨['r'], none⟩
  srcDir := ['/']
  srcNames := [['d']]
  otherRepo := none
  dstDir := dstDir
  dstNames := [['d']]
  replace := false
  user := ['u']
  srcRoot := seafDirId [keptDir]
  dstRoot := seafDirId [keptDir]
  delRoot := seafDirId [keptDir]

theorem move_below_refused :
    ∃ err, Server.moveMultipleFiles willingEnv keptStore (moveD "/d/x".toList) = .refused err := by
  have hst : keptStore.WellNamed := (FsStore.wellNamed_empty.insert (by decide) _).insert
    (by decide) _
  refine (move_into_itself_refused_iff hst (fun _ => rfl) (.inl rfl) ?_).2 fun _ => ?_
  · exact ⟨['d'], by simp [moveD], by decide +kernel⟩
  · exact ⟨['d'], by simp [moveD], by decide +kernel⟩

/-- The directory itself is not, nor a path below it with a backslash: the directory is lost. -/
theorem move_into_itself_published :
    (moveD "/d".toList).IntoItself ∧
    (Server.moveMultipleFiles willingEnv keptStore (moveD "/d".toList)).publishedRoot =
      some emptySha1 ∧
    (Server.moveMultipleFiles willingEnv keptStore (moveD "/d\\x".toList)).publishedRoot =
      some emptySha1 :=
  ⟨⟨['d'], by simp [moveD], by decide +kernel⟩, by decide +kernel, by decide +kernel⟩

end CloudFile
