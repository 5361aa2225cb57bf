/-
  What a move within a library does to the tree.  The entries are added to the destination first,
  and the names are then deleted from the source directory, which with replacing can take away what
  was just added.  A file entry gets the mode bits 0644 on its way, and where the text of the source
  directory has a backslash, the names are deleted from another directory.
-/
import CloudFile.Move.Rewrites

namespace CloudFile

open SortedWalk GoPath List Option

variable {Id : Type} [ObjectId Id] [DecidableEq Id]

/-! ## Content -/

namespace Move

/-- The directory that the entries are read from. -/
def source (m : Move Id) : List Name := fields (Server.formatDirPath m.srcDir)

/-- The directory that the names are deleted from. -/
def deleted (m : Move Id) : List Name :=
  fields (Server.getCanonicalPath (Server.formatDirPath m.srcDir))

/-- The destination directory. -/
def target (m : Move Id) : List Name :=
  fields (Server.getCanonicalPath (Server.formatDirPath m.dstDir))

end Move

/-- The name of an added entry: the one that is asked for, or one with a number where nothing is
    replaced. -/
def GivenName (replace : Bool) (asked given : Name) : Prop :=
  given = asked ∨ replace = false ∧ ∃ i, given = numberedName asked i

/-- A move keeps the content of the tree; `names` are the names of the entries in the
    destination. -/
structure ContentKept (m : Move Id) (st st' : FsStore Id) (root' : Id) (names : List Name) :
    Prop where
  given : List.Forall₂ (GivenName m.replace) m.dstNames names
  /-- nothing is replaced unless that is asked for -/
  fresh : m.replace = false →
    names.Nodup ∧ ∀ n ∈ names, entryAt st m.dstRoot (m.target ++ [n]) = none
  /-- each entry is in the destination, with its id and its mode -/
  arrived : ∀ n given, (n, given) ∈ m.srcNames.zip names →
    ∃ d d', entryAt st m.dstRoot (m.source ++ [n]) = some d ∧
      entryAt st' root' (m.target ++ [given]) = some d' ∧ d'.id = d.id ∧ d'.mode = d.mode
  /-- no source entry stays that is no destination -/
  left : ∀ n ∈ m.srcNames, entryAt st' root' (m.source ++ [n]) = none ∨
    m.source = m.target ∧ n ∈ names
  /-- every other path is as it was, but for the ids and times of the directories above -/
  rest : ∀ path, (∀ n ∈ m.srcNames, ¬ m.source ++ [n] <+: path) →
    (∀ n ∈ names, ¬ m.target ++ [n] <+: path) →
    AsBefore (path <+: m.source ∨ path <+: m.target) (entryAt st m.dstRoot path)
      (entryAt st' root' path)

namespace Move

/-- Followed along `rest`, the source entry `n` leads to no directory with a source name. -/
def HoldsNone (m : Move Id) (st : FsStore Id) (n : Name) (rest : List Name) : Prop :=
  ∀ d fs, entryAt st m.dstRoot (m.source ++ [n]) = some d → leadsTo st d.id rest = some fs →
    ∀ s ∈ m.srcNames, findDirent s fs = none

/-- Nothing that is added is replaced or deleted by the same move. -/
structure Apart (m : Move Id) (st : FsStore Id) : Prop where
  /-- two entries for one name are the same -/
  names : ∀ n₁ n₂ given, (n₁, given) ∈ m.srcNames.zip m.dstNames →
    (n₂, given) ∈ m.srcNames.zip m.dstNames →
    (entryAt st m.dstRoot (m.source ++ [n₁])).map (fun d => (d.id, d.mode)) =
      (entryAt st m.dstRoot (m.source ++ [n₂])).map fun d => (d.id, d.mode)
  /-- no entry gets a name that is deleted -/
  sources : m.deleted = m.target → ∀ n ∈ m.dstNames, n ∉ m.srcNames
  /-- an entry that gets the place of the directory of the deletion, or of one above, has nothing
      of these names there -/
  below : ∀ n given rest, (n, given) ∈ m.srcNames.zip m.dstNames →
    m.deleted = m.target ++ given :: rest → m.HoldsNone st n rest

/-- The deletion finds nothing, and the sources are gone since an added entry has come into the
    place of their directory. -/
structure Elsewhere (m : Move Id) (st : FsStore Id) : Prop where
  absent : ∀ s ∈ m.srcNames, (∀ given ∈ m.dstNames, ¬ m.target ++ [given] <+: m.deleted ++ [s]) →
    entryAt st m.dstRoot (m.deleted ++ [s]) = none
  covered : ∃ given rest, given ∈ m.dstNames ∧ m.source = m.target ++ given :: rest ∧
    ∀ n, (n, given) ∈ m.srcNames.zip m.dstNames → m.HoldsNone st n rest

/-- When a move keeps the content. -/
structure KeepsContent (m : Move Id) (st : FsStore Id) : Prop where
  /-- the files have the mode bits that new entries get -/
  modes : ∀ n ∈ m.srcNames, ∀ d, entryAt st m.dstRoot (m.source ++ [n]) = some d →
    fileMode d.mode = d.mode
  apart : m.replace = true → m.Apart st
  place : m.source ≠ m.deleted → m.replace = true ∧ m.Elsewhere st

end Move

/-! ## A deletion in one store -/

/-- What a deletion of names from a directory gives. -/
def Deletes (X : FsStore Id) (names : List Name) (t : ℤ) (id : Id) (path : List Name) (id' : Id) :
    Prop :=
  ∃ fs, leadsTo X id path = some fs ∧
    (id' = id ∧ (∀ n ∈ names, findDirent n fs = none) ∨
      (∃ n ∈ names, findDirent n fs ≠ none) ∧
        Rewritten (dropNames names) (fun _ => t) X X id path id' ())

section Deletes

variable {X : FsStore Id} {names path q : List Name} {t : ℤ} {id id' : Id} {n : Name}
  {es : List (Dirent Id)} {D : Dirent Id}

omit [ObjectId Id] [DecidableEq Id] in
theorem findDirent_filter_of_mem (hn : n ∈ names) :
    findDirent n (es.filter fun old => !names.contains old.name) = none := by
  refine eq_none_iff_forall_ne_some.2 fun d hd => ?_
  obtain ⟨hmem, rfl⟩ := mem_of_findDirent hd
  simp [hn] at hmem

theorem Deletes.gone (h : Deletes X names t id path id') (hn : n ∈ names) :
    entryAt X id' (path ++ [n]) = none := by
  obtain ⟨fs, hfs, ⟨rfl, hnone⟩ | ⟨-, hrew⟩⟩ := h
  · refine eq_none_iff_forall_ne_some.2 fun d hd => ?_
    obtain ⟨-, es, -, -, hes, hfind⟩ := leadsTo_of_entryAt hd
    obtain rfl := mem_unique hfs hes
    rw [hnone n hn] at hfind
    cases hfind
  · obtain ⟨es, es', -, hdrop, -, hentry⟩ := hrew.entryAt_edited
    cases hdrop
    rw [hentry, findDirent_filter_of_mem hn, ite_self]

theorem Deletes.entryAt_keep (h : Deletes X names t id path id')
    (hq : ∀ n ∈ names, ¬ path ++ [n] <+: q) :
    AsBefore (q <+: path) (entryAt X id q) (entryAt X id' q) := by
  obtain ⟨fs, -, ⟨rfl, -⟩ | ⟨-, hrew⟩⟩ := h
  · exact .inl rfl
  · obtain ⟨es, es', hes, hdrop, hes', -⟩ := hrew.entryAt_edited
    cases hdrop
    refine hrew.entryAt_keep hes hes' fun m rest hm => ?_
    refine findDirent_filter_names fun hmem => hq m hmem ?_
    rw [hm]
    exact ⟨rest, by simp⟩

theorem Deletes.entryAt_some {d : Dirent Id} (h : Deletes X names t id path id')
    (hd : entryAt X id' q = some d) : ∃ D, entryAt X id q = some D ∧ D.mode = d.mode := by
  have hq : ∀ n ∈ names, ¬ path ++ [n] <+: q := fun n hn hpre =>
    entryAt_of_le_path (concat_ne_nil _ _) hpre (by simp [hd]) (h.gone hn)
  exact (h.entryAt_keep hq).exists_some hd

/-- The deletion passes by the entry `D` of this name in `Q`. -/
def Spared (X : FsStore Id) (names P Q : List Name) (n : Name) (D : Dirent Id) : Prop :=
  (P = Q → n ∉ names) ∧ ∀ rest fs, P = Q ++ n :: rest → leadsTo X D.id rest = some fs →
    ∀ s ∈ names, findDirent s fs = none

theorem leadsTo_through (hD : entryAt X id (path ++ [n]) = some D) (rest : List Name) :
    leadsTo X id (path ++ n :: rest) = leadsTo X D.id rest := by
  obtain ⟨-, es, -, -, hes, hfind⟩ := leadsTo_of_entryAt hD
  rw [leadsTo_append, hes]
  simp [hfind]

theorem Deletes.entryAt_spared (h : Deletes X names t id path id')
    (hinto : ∀ s ∈ names, ¬ path ++ [s] <+: q) (hD : entryAt X id (q ++ [n]) = some D)
    (hspared : Spared X names path q n D) : entryAt X id' (q ++ [n]) = some D := by
  have hkeep : ∀ s ∈ names, ¬ path ++ [s] <+: q ++ [n] := by
    intro s hs hpre
    rcases prefix_concat_iff.1 hpre with heq | hpre
    · obtain ⟨hpath, hname⟩ := append_inj' heq rfl
      exact hspared.1 hpath (singleton_inj.1 hname ▸ hs)
    · exact hinto s hs hpre
  rcases h.entryAt_keep hkeep with hsame | ⟨⟨rest, hrest⟩, -⟩
  · exact hsame.trans hD
  · rw [append_assoc, singleton_append] at hrest
    obtain ⟨fs, hfs, ⟨rfl, -⟩ | ⟨⟨s, hs, hfound⟩, -⟩⟩ := h
    · exact hD
    · rw [← hrest, leadsTo_through hD] at hfs
      exact absurd (hspared.2 rest fs hrest.symm hfs s hs) hfound

theorem Deletes.id_ne_of_not_spared {d' : Dirent Id} (h : Deletes X names t id path id')
    (hD : entryAt X id (q ++ [n]) = some D) (hspared : ¬ Spared X names path q n D)
    (hd' : entryAt X id' (q ++ [n]) = some d') : d'.id ≠ D.id := by
  rcases not_and_or.1 hspared with hplace | hbelow
  · push Not at hplace
    obtain ⟨rfl, hn⟩ := hplace
    rw [h.gone hn] at hd'
    cases hd'
  · push Not at hbelow
    obtain ⟨rest, fs, rfl, hfs, s, hs, hfound⟩ := hbelow
    obtain ⟨fs', hfs', ⟨-, hnone⟩ | ⟨-, hrew⟩⟩ := h
    · rw [leadsTo_through hD] at hfs'
      obtain rfl := mem_unique hfs hfs'
      exact absurd (hnone s hs) hfound
    · obtain ⟨j, es, hj, hes, -, hfind⟩ := leadsTo_of_entryAt hD
      obtain ⟨i, t', hrew', hentry⟩ := hrew.through hj hes hfind
      obtain rfl : D.touch i t' = d' := mem_unique hentry hd'
      refine hrew'.id_ne fun es₀ es₁ hes₀ hdrop heq => hfound ?_
      obtain rfl := mem_unique hfs hes₀
      cases hdrop
      rw [← heq]
      exact findDirent_filter_of_mem hs

end Deletes

/-! ## What is added -/

variable {β : Type}

theorem exists_mem_zip {α γ : Type} {R : α → β → Prop} {as : List α} {bs : List β} {cs : List γ}
    {a : α} {c : γ} (h : List.Forall₂ R as bs) (hmem : (a, c) ∈ as.zip cs) :
    ∃ b, R a b ∧ (b, c) ∈ bs.zip cs := by
  induction h generalizing cs with
  | nil => cases hmem
  | @cons a' b as bs hR _ ih =>
    cases cs with
    | nil => cases hmem
    | cons c' cs =>
      rcases mem_cons.1 hmem with heq | hmem
      · cases heq
        exact ⟨b, hR, mem_cons_self⟩
      · obtain ⟨b', hb', hmem⟩ := ih hmem
        exact ⟨b', hb', mem_cons_of_mem _ hmem⟩

section Added

variable {user n : Name} {replace : Bool} {old es dents : List (Dirent Id)} {ns names : List Name}

omit [ObjectId Id] [DecidableEq Id] in
theorem Adds.mem_old (h : Adds user replace old dents ns es) {e : Dirent Id} (he : e ∈ es)
    (hn : e.name ∉ ns) : e ∈ old := by
  induction h with
  | nil hp => exact hp.mem_iff.1 he
  | @cons old mid es dents dent n ns _ _ hp _ ih =>
    simp only [mem_cons, not_or] at hn
    rcases mem_cons.1 (hp.mem_iff.1 (ih he hn.2)) with rfl | hold
    · exact absurd (Dirent.named_name user dent n) hn.1
    · exact (mem_filter.1 hold).1

section

variable (h : Adds user replace old dents ns es)
include h

section

omit [ObjectId Id] [DecidableEq Id]

theorem Adds.find_other (hu : UniqueKeys Dirent.name old)
    (hn : n ∉ ns) : findDirent n es = findDirent n old := by
  ext d
  rw [findDirent_some (h.unique hu), findDirent_some hu]
  constructor
  · rintro ⟨hd, rfl⟩
    exact ⟨h.mem_old hd hn, rfl⟩
  · rintro ⟨hd, rfl⟩
    exact ⟨h.keeps hd hn, rfl⟩

theorem Adds.exists_added (hn : n ∈ ns) :
    ∃ dent, (dent, n) ∈ dents.zip ns ∧ dent.named user n ∈ es := by
  induction h with
  | nil => cases hn
  | @cons old mid es dents dent n' ns _ _ hp hadds ih =>
    by_cases hmem : n ∈ ns
    · obtain ⟨dent', hdent', hes⟩ := ih hmem
      exact ⟨dent', mem_cons_of_mem _ hdent', hes⟩
    · obtain rfl : n = n' := (mem_cons.1 hn).resolve_right hmem
      have hmid : dent.named user n ∈ mid := hp.mem_iff.2 mem_cons_self
      exact ⟨dent, mem_cons_self, hadds.keeps hmid (by rwa [Dirent.named_name])⟩

theorem Adds.added_of_nodup (hnodup : ns.Nodup)
    {dent : Dirent Id} (hmem : (dent, n) ∈ dents.zip ns) :
    dent.named user n ∈ es := by
  induction h with
  | nil => cases hmem
  | @cons old mid es dents dent' n' ns _ _ hp hadds ih =>
    obtain ⟨hn', hnodup⟩ := nodup_cons.1 hnodup
    rcases mem_cons.1 hmem with heq | hmem
    · cases heq
      exact hadds.keeps (hp.mem_iff.2 mem_cons_self) (by rwa [Dirent.named_name])
    · exact ih hnodup hmem

end

end

section

omit [ObjectId Id] [DecidableEq Id]

theorem genUniqueName_given {fileName : Name} (h : genUniqueName fileName old = some n) :
    n = fileName ∨ ∃ i, n = numberedName fileName i := by
  have hloop : ∀ left i u, (u = fileName ∨ ∃ i, u = numberedName fileName i) →
      uniqueNameFrom old fileName left i u = some n →
      n = fileName ∨ ∃ i, n = numberedName fileName i := by
    intro left
    induction left with
    | zero => intro i u _ h; cases h
    | succ left ih =>
      intro i u hu h
      rw [uniqueNameFrom] at h
      split at h
      · exact ih _ _ (.inr ⟨i, rfl⟩) h
      · cases h
        exact hu
  exact hloop _ _ _ (.inl rfl) h

theorem Server.addNewEntries_names {r : List (Dirent Id) × List Name}
    (h : Server.addNewEntries user dents replace names old = some r) :
    ∃ ns, r.2 = names ++ ns ∧ List.Forall₂
      (fun d n => n = d.name ∨ ∃ i, n = numberedName d.name i) dents ns := by
  unfold addNewEntries at h
  induction dents generalizing old names with
  | nil =>
    obtain rfl : (old, names) = r := by simpa using h
    exact ⟨[], by simp, .nil⟩
  | cons dent dents ih =>
    obtain ⟨mid, hstep, hrest⟩ := bind_eq_some_iff.1 h
    simp only [addEntry, map_eq_some_iff, filter_eq_some_iff] at hstep
    obtain ⟨n, ⟨hn, -⟩, rfl⟩ := hstep
    obtain ⟨ns, hns, hgiven⟩ := ih hrest
    refine ⟨n :: ns, by simpa using hns, .cons ?_ hgiven⟩
    split at hn
    · exact .inl (Option.some.inj hn).symm
    · exact genUniqueName_given hn

end

end Added

/-! ## The trees of a move -/

/-- What a move within a library has done: `dents` are added to the destination, which gives
    `mid`, and the names are deleted from there. -/
structure MoveRun (e : MoveEnv Id) (m : Move Id) (st X : FsStore Id) (mid root' : Id)
    (dents old new : List (Dirent Id)) (ns : List Name) : Prop where
  le : st ≤ X
  asked : m.srcNames ≠ []
  given : List.Forall₂ (GivenName m.replace) m.dstNames ns
  sources : List.Forall₂ (fun n dent => ∃ d, entryAt st m.dstRoot (m.source ++ [n]) = some d ∧
    dent.id = d.id ∧ dent.mode = fileMode d.mode) m.srcNames dents
  target : leadsTo X m.dstRoot m.target = some old
  before : ∀ n, entryAt st m.dstRoot (m.target ++ [n]) = findDirent n old
  plain : PlainDir old
  adds : Adds m.user m.replace old dents ns new
  added : ∀ n, entryAt X mid (m.target ++ [n]) = findDirent n new
  tree : ∃ k, Tree PlainDir X k mid
  rewritten : Rewritten (Server.addNewEntries m.user dents m.replace []) e.putTime X X m.dstRoot
    m.target mid ns
  deletes : Deletes X m.srcNames e.delTime mid m.deleted root'

/-- An entry has been added under a name at which the deletion leaves it. -/
def Move.Arrives (m : Move Id) (st X : FsStore Id) (mid : Id) (n given : Name) : Prop :=
  ∃ d D, entryAt st m.dstRoot (m.source ++ [n]) = some d ∧
    entryAt X mid (m.target ++ [given]) = some D ∧ D.id = d.id ∧ D.mode = fileMode d.mode ∧
    Spared X m.srcNames m.deleted m.target given D

section Run

variable {e : MoveEnv Id} {m : Move Id} {st st' X : FsStore Id} {mid root' id : Id}
  {dents old new srcDents es : List (Dirent Id)} {ns dstNames path : List Name} {k : ℕ}
  {dirents : Name → Option (Dirent Id)} {user : Name} {replace : Bool}

theorem moveMultipleFiles_sameRepo (h : Server.moveMultipleFiles e st m = .sameRepo st' root') :
    ∃ dirents srcDents w n, m.srcNames ≠ [] ∧ m.dstNames.length = m.srcNames.length ∧
      [] ∉ m.dstNames ∧
      Server.getSubDirentsHashMap st m.srcRoot (Server.formatDirPath m.srcDir) = some dirents ∧
      Server.findSrcDents dirents m.srcNames = .ok srcDents ∧
      Server.doPostMultiFiles e.writeObj e.putTime st m.dstRoot
        (Server.getCanonicalPath (Server.formatDirPath m.dstDir))
        (Server.dstDents m.user srcDents m.dstNames) m.user m.replace [] = some w ∧
      Server.delFileRecursive ⟨e.writeObj, e.delTime⟩ m.srcNames
        (Server.srcParts (Server.formatDirPath m.srcDir)) w.store w.dirID =
        some (st', root', n) := by
  unfold Server.moveMultipleFiles at h
  split at h
  · cases h
  split at h
  · cases h
  split at h
  · cases h
  next hasked =>
  split at h
  · cases h
  next hlength =>
  split at h
  · cases h
  split at h
  · split at h
    · cases h
    split at h
    · cases h
    next dents hdents =>
    unfold Server.moveDents at hdents
    split at hdents
    · cases hdents
    next dirents hdirents =>
    split at hdents
    · cases hdents
    next srcDents hsrc =>
    split at hdents
    · cases hdents
    next hempty =>
    have hne : [] ∉ m.dstNames := fun hmem => hempty (any_eq_true.2 ⟨[], hmem, rfl⟩)
    cases hdents
    unfold Server.movePublish at h
    simp only at h
    split at h
    next =>
      split at h
      · cases h
      next st₁ root₁ hmove =>
      split at h
      · cases h
      cases h
      obtain ⟨w, hw, hdel⟩ := bind_eq_some_iff.1 hmove
      obtain ⟨⟨st₂, root₂, n⟩, hr, heq⟩ := map_eq_some_iff.1 hdel
      cases heq
      exact ⟨dirents, srcDents, w, n, (not_or.1 hasked).1, not_not.1 hlength, hne, hdirents, hsrc,
        hw, hr⟩
    next =>
      split at h
      · cases h
      · split at h <;> cases h
  · cases h

omit [ObjectId Id] [DecidableEq Id] in
theorem findSrcDents_ok {names : List Name} (h : Server.findSrcDents dirents names = .ok srcDents) :
    List.Forall₂ (fun n d => dirents n = some d) names srcDents := by
  induction names generalizing srcDents with
  | nil =>
    cases h
    exact .nil
  | cons n names ih =>
    rw [Server.findSrcDents] at h
    split at h
    · cases h
    split at h
    · cases h
    next d hd =>
    cases hrest : Server.findSrcDents dirents names with
    | error err =>
      rw [hrest] at h
      cases h
    | ok ds =>
      rw [hrest] at h
      cases h
      exact .cons hd (ih hrest)

theorem numberedName_ne_nil (fileName : Name) (i : ℕ) : numberedName fileName i ≠ [] := by
  unfold numberedName
  split <;> simp

theorem slash_notMem_toPathNames (p : Name) : ∀ n ∈ toPathNames p, '/' ∉ n := by
  induction p with
  | nil => simp [toPathNames]
  | cons c p ih =>
    intro n hn
    rw [toPathNames] at hn
    split at hn
    · rcases mem_cons.1 hn with rfl | hn
      · exact not_mem_nil
      · exact ih n hn
    next hc =>
      split at hn
      · obtain rfl := mem_singleton.1 hn
        simpa using Ne.symm hc
      next name names heq =>
        rw [heq] at ih
        rcases mem_cons.1 hn with rfl | hn
        · simpa [Ne.symm hc] using ih name mem_cons_self
        · exact ih n (mem_cons_of_mem _ hn)

theorem Tree.parts_eq {parts : List Name} (hT : Tree PlainDir X k id)
    (h : leadsTo X id parts = some es) (hslash : ∀ p ∈ parts, '/' ∉ p) :
    parts.flatMap fields = parts :=
  flatMap_fields_parts fun p hp =>
    ⟨fun hnil => ne_nil_of_leadsTo hT h (hnil ▸ hp), hslash p hp⟩

theorem sources_found (htree : Tree PlainDir st k m.dstRoot) (hroot : m.srcRoot = m.dstRoot)
    (h : Server.getSubDirentsHashMap st m.srcRoot (Server.formatDirPath m.srcDir) = some dirents) :
    ∃ j es, resolve st m.dstRoot m.source = some j ∧ st.getSeafdir j = some es ∧
      ∀ n, dirents n = findDirent n es := by
  unfold Server.getSubDirentsHashMap at h
  split at h
  · cases h
  next D hD =>
  cases h
  rw [hroot] at hD
  obtain ⟨j, hj, hget⟩ := (Server.getSeafdirByPath_ok (htree.imp fun _ h => h.unique) _ _).1 hD
  obtain ⟨hes, -⟩ := seafdir_some.1 hget
  refine ⟨j, D.entries, hj, hes, fun n => ?_⟩
  have hu := (htree.plainDir ((leadsTo_of_resolve hj).trans hes)).unique
  have hu' : UniqueKeys Dirent.name D.entries.reverse :=
    (((reverse_perm _).map _).nodup_iff).2 hu
  ext d
  change findDirent n D.entries.reverse = some d ↔ _
  rw [findDirent_some hu', findDirent_some hu, mem_reverse]

omit [DecidableEq Id] in
theorem plainDir_added (hold : PlainDir old) (hnew : Desc Dirent.name new)
    (hadds : Adds user replace old dents ns new) (hns : [] ∉ ns)
    (hdents : ∀ dent ∈ dents, dent.isDir = false → ∀ fs, seafDirId fs = dent.id → fs = []) :
    PlainDir new := by
  refine ⟨⟨hnew, fun d hd hnil => ?_⟩, fun d hd hdir => ?_⟩
  · by_cases hmem : d.name ∈ ns
    · exact hns (hnil ▸ hmem)
    · exact hold.1.2 d (hadds.mem_old hd hmem) hnil
  · rcases hadds.mem hd with hmem | ⟨dent, hdent, n, rfl⟩
    · exact hold.2 d hmem hdir
    · rw [Dirent.named_isDir] at hdir
      rw [Dirent.named_id]
      exact hdents dent hdent hdir

section

omit [ObjectId Id] [DecidableEq Id]

theorem forall₂_dstDents {R : Name → Dirent Id → Prop} {srcNames : List Name} (user : Name)
    (h : List.Forall₂ R srcNames srcDents) (hlen : dstNames.length = srcNames.length) :
    List.Forall₂ (fun n dent => ∃ d, R n d ∧ dent.id = d.id ∧ dent.mode = fileMode d.mode)
        srcNames (Server.dstDents user srcDents dstNames) ∧
      (Server.dstDents user srcDents dstNames).map Dirent.name = dstNames ∧
      (Server.dstDents user srcDents dstNames).map Dirent.withFileMode =
        Server.dstDents user srcDents dstNames := by
  induction h generalizing dstNames with
  | nil =>
    obtain rfl := eq_nil_of_length_eq_zero hlen
    exact ⟨.nil, rfl, rfl⟩
  | @cons n d srcNames srcDents hR _ ih =>
    cases dstNames with
    | nil => cases hlen
    | cons given dstNames =>
      obtain ⟨hall, hnames, hmodes⟩ := ih (Nat.succ.inj hlen)
      refine ⟨.cons ⟨d, hR, Dirent.new_id .., Dirent.new_mode ..⟩ hall,
        congrArg₂ List.cons (Dirent.new_name ..) hnames, congrArg₂ List.cons ?_ hmodes⟩
      exact Dirent.withFileMode_eq_self _ (by simp [Server.seafDirentNew])

theorem given_names (hnames : dents.map Dirent.name = dstNames)
    (hedit : Server.addNewEntries user dents replace [] old = some (new, ns))
    (hadds : Adds user replace old dents ns new) :
    List.Forall₂ (GivenName replace) dstNames ns := by
  subst hnames
  cases replace with
  | true =>
    rw [hadds.names_of_replace]
    exact List.forall₂_same.2 fun n _ => .inl rfl
  | false =>
    obtain ⟨ns', hns, hgiven⟩ := Server.addNewEntries_names hedit
    obtain rfl : ns = ns' := hns
    refine List.forall₂_map_left_iff.2 (hgiven.imp fun d n hn => ?_)
    exact hn.imp_right fun hi => ⟨rfl, hi⟩

end

theorem nil_notMem_given (h : List.Forall₂ (GivenName replace) dstNames ns) (hne : [] ∉ dstNames) :
    [] ∉ ns := by
  induction h with
  | nil => exact not_mem_nil
  | @cons asked given dstNames ns hgiven _ ih =>
    simp only [mem_cons, not_or] at hne ⊢
    refine ⟨fun hnil => ?_, ih hne.2⟩
    rcases hgiven with rfl | ⟨-, i, rfl⟩
    · exact hne.1 hnil
    · exact numberedName_ne_nil _ _ hnil.symm

theorem eq_of_given {asked given : List Name} (h : List.Forall₂ (GivenName true) asked given) :
    given = asked := by
  induction h with
  | nil => rfl
  | cons hgiven _ ih =>
    rcases hgiven with rfl | ⟨hfalse, -⟩
    · rw [ih]
    · cases hfalse

/-- An entry that can be added to a tree. -/
def AddableEntry (X : FsStore Id) (k : ℕ) (d : Dirent Id) : Prop :=
  if d.isDir then Tree PlainDir X k d.id else ∀ fs, seafDirId fs = d.id → fs = []

theorem added_tree {now : ℕ → ℤ} {root : Id}
    (hrew : Rewritten (Server.addNewEntries user dents replace []) now X X root path mid ns)
    (hT : Tree PlainDir X k root) (hres : Resolvable X root path)
    (hdents : ∀ dent ∈ dents, AddableEntry X k dent) (hne : [] ∉ dents.map Dirent.name)
    (hmodes : dents.map Dirent.withFileMode = dents) :
    ∃ old new, leadsTo X root path = some old ∧ PlainDir old ∧
      Server.addNewEntries user dents replace [] old = some (new, ns) ∧
      Adds user replace old dents ns new ∧ (∃ k', Tree PlainDir X k' mid) ∧
      ∀ n, entryAt X mid (path ++ [n]) = findDirent n new := by
  obtain ⟨old, new, hold, hedit, -, hentry⟩ := hrew.entryAt_edited
  have hplain := hT.plainDir hold
  obtain ⟨hnew, ns', hns, hadds⟩ := Server.addNewEntries_spec hplain.1.1 hedit
  obtain rfl : ns = ns' := hns
  rw [hmodes] at hadds
  have hplain' : PlainDir new := by
    refine plainDir_added hplain hnew hadds ?_ fun dent hdent hdir => ?_
    · exact nil_notMem_given (given_names rfl hedit hadds) hne
    · have hentry := hdents dent hdent
      rwa [AddableEntry, hdir] at hentry
  refine ⟨old, new, hold, hplain, hedit, hadds, hrew.tree (R := True) (j := k) hT
    (fun _ => hres) (fun es n d i t h hd hdir => h.touch hd (hdir trivial) i t) ?_, fun n => ?_⟩
  · intro es₀ es₁ hes₀ _ hed
    obtain rfl := mem_unique hold hes₀
    obtain rfl : new = es₁ := congrArg Prod.fst (mem_unique hedit hed)
    refine ⟨hplain', fun d hd hdir => ?_⟩
    rcases hadds.mem hd with hmem | ⟨dent, hdent, n, rfl⟩
    · exact .inl hmem
    · have hentry := hdents dent hdent
      rw [Dirent.named_isDir] at hdir
      rw [AddableEntry, if_pos hdir] at hentry
      rw [Dirent.named_id]
      exact .inr hentry
  · rw [hentry, if_pos hres]

theorem addableEntry_source {j : Id} (htree : Tree PlainDir st k m.dstRoot) (hle : st ≤ X)
    (hj : resolve st m.dstRoot m.source = some j) (hes : st.getSeafdir j = some es)
    {d dent : Dirent Id} (hd : d ∈ es) (hid : dent.id = d.id)
    (hmode : dent.mode = fileMode d.mode) : AddableEntry X k dent := by
  have hisDir : dent.isDir = d.isDir := by rw [Dirent.isDir, Dirent.isDir, hmode, sIsDir_fileMode]
  rw [AddableEntry, hid, hisDir]
  split_ifs with hdir
  · obtain ⟨k', rfl, hTj⟩ := htree.resolve hj
    obtain ⟨-, hsub⟩ := hTj.subTrees_of hes
    exact ((hsub d hd hdir).store_mono hle).depth_mono (by omega)
  · have hplain := htree.plainDir ((leadsTo_of_resolve hj).trans hes)
    exact hplain.2 d hd (by simpa using hdir)

theorem exists_moveRun (htree : Tree PlainDir st k m.dstRoot) (hroot : m.srcRoot = m.dstRoot)
    (hdst : Resolvable st m.dstRoot m.target)
    (h : Server.moveMultipleFiles e st m = .sameRepo st' root') :
    ∃ mid dents old new ns, MoveRun e m st st' mid root' dents old new ns := by
  obtain ⟨dirents, srcDents, w, _, hasked, hlen, hne, hdirents, hsrc, hw, hdel⟩ :=
    moveMultipleFiles_sameRepo h
  obtain ⟨hle, hrew⟩ := rewriteRecursive_spec hw
  have hle' := delFileRecursive_le hdel
  obtain ⟨i, hi⟩ := isSome_iff_exists.1 hdst
  have hres : Resolvable w.store m.dstRoot m.target := by
    rw [Resolvable, resolve_mono hle hi]
    rfl
  -- the entries to add
  obtain ⟨j, es, hj, hes, hfound⟩ := sources_found htree hroot hdirents
  obtain ⟨hsources, hnames, hmodes⟩ := forall₂_dstDents m.user (findSrcDents_ok hsrc) hlen
  generalize Server.dstDents m.user srcDents m.dstNames = dents at hrew hsources hnames hmodes
  have hdents : ∀ dent ∈ dents, AddableEntry w.store k dent := by
    refine ((List.forall₂_and_left _ _).1 (Forall₂.flip (hsources.imp
      fun n dent hdent => ⟨?_, hdent⟩))).1
    obtain ⟨d, hd, hid, hmode⟩ := hdent
    rw [hfound] at hd
    exact addableEntry_source htree hle hj hes (mem_of_findDirent hd).1 hid hmode
  -- the addition, in the store it leaves
  have hTw := htree.store_mono hle
  have hpath : toPathNames (stripSlash (Server.getCanonicalPath
      (Server.formatDirPath m.dstDir))) = m.target := by
    obtain ⟨_, _, hold, -⟩ := (hrew.within hle le_rfl).entryAt_edited
    have hparts := hTw.parts_eq hold (slash_notMem_toPathNames _)
    rw [flatMap_toPathNames, fields_stripSlash] at hparts
    exact hparts.symm
  rw [hpath] at hrew
  obtain ⟨old, new, hold, hplain, hedit, hadds, ⟨k', htree'⟩, hentry⟩ :=
    added_tree (hrew.within hle le_rfl) hTw hres hdents (hnames ▸ hne) hmodes
  have hbefore : ∀ n, entryAt st m.dstRoot (m.target ++ [n]) = findDirent n old := by
    intro n
    rw [htree.leadsTo_iff hle, leadsTo_of_resolve hi] at hold
    rw [entryAt_concat, hi]
    simp [hold]
  -- the deletion
  obtain ⟨fs, hfs, hcases⟩ := delFileRecursive_spec (fun p es h => htree'.plainDir h) hdel
  have hpath' : Server.srcParts (Server.formatDirPath m.srcDir) = m.deleted := by
    have hparts := htree'.parts_eq hfs (Server.slash_notMem_gStrsplit _)
    rw [← hparts, Server.srcParts, Server.flatMap_gStrsplit, Server.fields_skipSlash]
    rfl
  rw [hpath'] at hfs hcases
  refine ⟨w.dirID, dents, old, new, w.out, hle.trans hle', hasked, given_names hnames hedit hadds,
    hsources.imp ?_, leadsTo_mono hle' hold, hbefore, hplain, hadds, fun n => ?_,
    ⟨k', htree'.store_mono hle'⟩, hrew.within (hle.trans hle') hle', fs, leadsTo_mono hle' hfs, ?_⟩
  · rintro n dent ⟨d, hd, hdent⟩
    refine ⟨d, ?_, hdent⟩
    rw [entryAt_concat, hj, ← hd, hfound]
    simp [hes]
  · rw [htree'.entryAt_mono hle', hentry]
  · rcases hcases with ⟨-, hid, hnone⟩ | ⟨-, hsome, hrew₂⟩
    · exact .inl ⟨hid, hnone⟩
    · exact .inr ⟨hsome, hrew₂.within hle' le_rfl⟩

theorem Tree.entryAt_of_leadsTo {n : Name} {fs : List (Dirent Id)} (hT : Tree PlainDir X k id)
    (h : leadsTo X id path = some fs) (hn : findDirent n fs ≠ none) :
    entryAt X id (path ++ [n]) = findDirent n fs := by
  induction path generalizing k id with
  | nil =>
    rw [nil_append, entryAt_eq h]
    rfl
  | cons p path ih =>
    simp only [leadsTo, bind_eq_bind, bind_eq_some_iff] at h
    obtain ⟨d, ⟨es, hes, hd⟩, hrest⟩ := h
    rw [cons_append, entryAt_cons_of_dir hes hd (concat_ne_nil _ _)]
    obtain ⟨es', hes', hplain⟩ := hT.readable
    obtain rfl := mem_unique hes hes'
    cases hdir : d.isDir with
    | true =>
      obtain ⟨k', -, hT'⟩ := hT.subdir (subdir_some.2 ⟨es, d, hes, hd, hdir, rfl⟩)
      rw [if_pos rfl]
      exact ih hT' hrest
    | false =>
      -- a file leads to no entry
      obtain ⟨-, rfl, -⟩ := hplain.leadsTo_of_file (mem_of_findDirent hd).1 hdir hrest
      exact absurd rfl hn

/-! ## Two readings of the source path -/

namespace Move

variable (hne : m.source ≠ m.deleted)
include hne

section

omit [ObjectId Id] [DecidableEq Id]

theorem backslash_mem_source : '\\' ∈ m.source.flatten := by
  by_contra hmem
  refine hne (Server.fields_getCanonicalPath fun htext => hmem ?_).symm
  rw [source, flatten_fields]
  exact mem_filter.2 ⟨htext, by decide⟩

theorem not_source_prefix_canonical {path rest : List Name} {text : Name}
    (hpath : path = fields (Server.getCanonicalPath text)) : ¬ m.source ++ rest <+: path := by
  rintro ⟨rest', hrest'⟩
  have hmem : '\\' ∈ path.flatten := by
    rw [← hrest', flatten_append, flatten_append]
    exact mem_append_left _ (mem_append_left _ (backslash_mem_source hne))
  rw [hpath, flatten_fields] at hmem
  exact Server.backslash_notMem_getCanonicalPath _ (mem_filter.1 hmem).1

theorem source_ne_target : m.source ≠ m.target := by
  intro heq
  have hpre : ¬ m.source ++ [] <+: m.target := not_source_prefix_canonical hne rfl
  exact hpre (by rw [heq, append_nil])

theorem not_source_prefix_deleted (n s : Name) : ¬ m.source ++ [n] <+: m.deleted ++ [s] := by
  intro hpre
  rcases prefix_concat_iff.1 hpre with heq | hpre
  · exact hne (append_inj' heq rfl).1
  · exact not_source_prefix_canonical hne rfl hpre

end

end Move

/-! ## What the addition leaves -/

namespace MoveRun

variable (run : MoveRun e m st X mid root' dents old new ns) {n given : Name} {d D : Dirent Id}
include run

theorem entryAt_new {dent : Dirent Id} (hnew : dent.named m.user given ∈ new)
    (hid : dent.id = d.id) (hmode : dent.mode = fileMode d.mode) :
    ∃ D, entryAt X mid (m.target ++ [given]) = some D ∧ D.id = d.id ∧
      D.mode = fileMode d.mode := by
  refine ⟨dent.named m.user given, ?_, (Dirent.named_id ..).trans hid,
    (Dirent.new_mode ..).trans hmode⟩
  rw [run.added, findDirent_some (run.adds.unique run.plain.unique)]
  exact ⟨hnew, Dirent.named_name ..⟩

theorem exists_added (hgiven : given ∈ ns) :
    ∃ n d D, (n, given) ∈ m.srcNames.zip ns ∧
      entryAt st m.dstRoot (m.source ++ [n]) = some d ∧
      entryAt X mid (m.target ++ [given]) = some D ∧ D.id = d.id ∧ D.mode = fileMode d.mode := by
  obtain ⟨dent, hdent, hnew⟩ := run.adds.exists_added hgiven
  obtain ⟨n, ⟨d, hd, hid, hmode⟩, hn⟩ := exists_mem_zip run.sources.flip hdent
  obtain ⟨D, hD⟩ := run.entryAt_new hnew hid hmode
  exact ⟨n, d, D, hn, hd, hD⟩

theorem source_found (hn : n ∈ m.srcNames) :
    ∃ d, entryAt st m.dstRoot (m.source ++ [n]) = some d :=
  ((List.forall₂_and_left _ _).1 (run.sources.imp fun _ _ h => ⟨h.imp fun _ hd => hd.1, h⟩)).1 n hn

theorem length_eq : m.srcNames.length = m.dstNames.length := by
  rw [run.sources.length_eq, ← run.adds.length, run.given.length_eq]

theorem fresh (hreplace : m.replace = false) :
    ns.Nodup ∧ ∀ given ∈ ns, entryAt st m.dstRoot (m.target ++ [given]) = none := by
  have hadds := run.adds
  rw [hreplace] at hadds
  refine ⟨hadds.nodup_of_unique, fun given hgiven => ?_⟩
  rw [run.before]
  refine eq_none_iff_forall_ne_some.2 fun d hd => ?_
  obtain ⟨hmem, hname⟩ := mem_of_findDirent hd
  exact nameExists_eq_false.1 (hadds.free_of_unique given hgiven) d hmem hname

theorem entryAt_mid (htree : Tree PlainDir st k m.dstRoot) {path : List Name}
    (hdst : ∀ n ∈ ns, ¬ m.target ++ [n] <+: path) :
    AsBefore (path <+: m.target) (entryAt st m.dstRoot path) (entryAt X mid path) := by
  obtain ⟨es, es', hes, hedit, hes', -⟩ := run.rewritten.entryAt_edited
  obtain rfl := mem_unique run.target hes
  obtain ⟨-, ns', hns, hadds⟩ := Server.addNewEntries_spec run.plain.1.1 hedit
  obtain rfl : ns = ns' := hns
  rw [← htree.entryAt_mono run.le]
  refine run.rewritten.entryAt_keep hes hes' fun n rest hpath => ?_
  refine hadds.find_other run.plain.unique fun hn => hdst n hn ?_
  rw [hpath]
  exact ⟨rest, by simp⟩

/-! ## Where the names are deleted from the source -/

theorem rest (hsame : m.source = m.deleted) (htree : Tree PlainDir st k m.dstRoot)
    {path : List Name} (hsrc : ∀ n ∈ m.srcNames, ¬ m.source ++ [n] <+: path)
    (hdst : ∀ n ∈ ns, ¬ m.target ++ [n] <+: path) :
    AsBefore (path <+: m.source ∨ path <+: m.target) (entryAt st m.dstRoot path)
      (entryAt X root' path) := by
  rw [hsame] at hsrc ⊢
  exact (run.entryAt_mid htree hdst).trans (run.deletes.entryAt_keep hsrc)

theorem arrives_of_unique (hsame : m.source = m.deleted) (hreplace : m.replace = false)
    (hn : (n, given) ∈ m.srcNames.zip ns) : m.Arrives st X mid n given := by
  have hadds := run.adds
  rw [hreplace] at hadds
  obtain ⟨dent, ⟨d, hd, hid, hmode⟩, hdent⟩ := exists_mem_zip run.sources hn
  obtain ⟨D, hD, hid, hmode⟩ :=
    run.entryAt_new (hadds.added_of_nodup hadds.nodup_of_unique hdent) hid hmode
  have hfree := (run.fresh hreplace).2 given (of_mem_zip hn).2
  -- the name was free, so neither a source nor the source directory can have it
  refine ⟨d, D, hd, hD, hid, hmode, fun hplace hmem => ?_, fun rest fs hpath _ => ?_⟩
  · obtain ⟨d', hd'⟩ := run.source_found hmem
    rw [hsame, hplace, hfree] at hd'
    cases hd'
  · rw [hsame, hpath] at hd
    refine absurd hfree (entryAt_of_le_path (concat_ne_nil _ _) ?_ (hd ▸ some_ne_none d))
    exact ⟨rest ++ [n], by simp⟩

theorem arrives_of_apart (htree : Tree PlainDir st k m.dstRoot) (hns : ns = m.dstNames)
    (hapart : m.Apart st) (hn : (n, given) ∈ m.srcNames.zip ns) : m.Arrives st X mid n given := by
  obtain ⟨n', d', D, hn', hd', hD, hid, hmode⟩ := run.exists_added (of_mem_zip hn).2
  obtain ⟨d, hd⟩ := run.source_found (of_mem_zip hn).1
  subst hns
  have hsame := hapart.names n n' given hn hn'
  rw [hd, hd', map_some, map_some, some_inj, Prod.mk.injEq] at hsame
  refine ⟨d, D, hd, hD, hid.trans hsame.1.symm, hmode.trans (congrArg _ hsame.2.symm),
    fun hplace => hapart.sources hplace given (of_mem_zip hn).2, fun rest fs hpath hfs => ?_⟩
  rw [hid] at hfs
  refine hapart.below n' given rest hn' hpath d' fs hd' ?_
  rw [← leadsTo_through hd', ← htree.leadsTo_iff run.le]
  rwa [leadsTo_through ((htree.entryAt_mono run.le _).trans hd')]

/-! ## What a kept content says -/

variable {names : List Name}

theorem exists_zip (hkept : ContentKept m st X root' names) :
    (∀ n ∈ m.srcNames, ∃ given, (n, given) ∈ m.srcNames.zip names) ∧
      ∀ given ∈ names, ∃ n, (n, given) ∈ m.srcNames.zip names := by
  have hlen : m.srcNames.length = names.length := run.length_eq.trans hkept.given.length_eq
  constructor
  · intro n hn
    rw [← map_fst_zip hlen.le] at hn
    obtain ⟨⟨n, given⟩, hmem, rfl⟩ := mem_map.1 hn
    exact ⟨given, hmem⟩
  · intro given hgiven
    rw [← map_snd_zip hlen.ge] at hgiven
    obtain ⟨⟨n, given⟩, hmem, rfl⟩ := mem_map.1 hgiven
    exact ⟨n, hmem⟩

theorem given_mem_of_kept (hkept : ContentKept m st X root' names) (hgiven : given ∈ names) :
    given ∈ ns := by
  cases hreplace : m.replace with
  | true =>
    have hns := run.given
    have hnames := hkept.given
    rw [hreplace] at hns hnames
    rwa [eq_of_given hns, ← eq_of_given hnames]
  | false =>
    obtain ⟨n, hn⟩ := (run.exists_zip hkept).2 given hgiven
    obtain ⟨-, d', -, hd', -⟩ := hkept.arrived n given hn
    obtain ⟨D, hD, -⟩ := run.deletes.entryAt_some hd'
    by_contra hout
    rw [run.added, run.adds.find_other run.plain.unique hout, ← run.before,
      (hkept.fresh hreplace).2 given hgiven] at hD
    cases hD

theorem modes_of_kept (hkept : ContentKept m st X root' names) (hn : n ∈ m.srcNames)
    (hd : entryAt st m.dstRoot (m.source ++ [n]) = some d) : fileMode d.mode = d.mode := by
  obtain ⟨given, hmem⟩ := (run.exists_zip hkept).1 n hn
  obtain ⟨d₁, d', hd₁, hd', -, hmode⟩ := hkept.arrived n given hmem
  obtain rfl := mem_unique hd hd₁
  obtain ⟨D, hD, hmode'⟩ := run.deletes.entryAt_some hd'
  obtain ⟨-, d₂, D', -, -, hD', -, hmode₂⟩ :=
    run.exists_added (run.given_mem_of_kept hkept (of_mem_zip hmem).2)
  obtain rfl := mem_unique hD hD'
  rw [← hmode, ← hmode', hmode₂, fileMode_fileMode]

/-- Without replacing, the entries stay in the source. -/
theorem not_kept_elsewhere (htree : Tree PlainDir st k m.dstRoot) (hne : m.source ≠ m.deleted)
    (hreplace : m.replace = false) : ¬ ContentKept m st X root' names := by
  intro hkept
  obtain ⟨n, hn⟩ := exists_mem_of_ne_nil _ run.asked
  obtain ⟨d, hd⟩ := run.source_found hn
  have hpath : entryAt st m.dstRoot (m.source ++ [n]) ≠ none := hd ▸ some_ne_none d
  -- a path to the source is through none of the new names
  have hfree : ∀ {given q}, entryAt st m.dstRoot (m.target ++ [given]) = none →
      q <+: m.source ++ [n] → ¬ m.target ++ [given] <+: q := fun hnone hq hpre =>
    entryAt_of_le_path (concat_ne_nil _ _) (hpre.trans hq) hpath hnone
  have hmid : entryAt X mid (m.source ++ [n]) ≠ none := by
    exact (run.entryAt_mid htree fun given hgiven =>
      hfree ((run.fresh hreplace).2 given hgiven) prefix_rfl).none_iff.not.2 hpath
  have hleft : entryAt X root' (m.source ++ [n]) = none :=
    (hkept.left n hn).resolve_right fun h => Move.source_ne_target hne h.1
  -- so the deletion takes away the source directory or one above, which is another path
  obtain ⟨s, hs, hpre⟩ : ∃ s ∈ m.srcNames, m.deleted ++ [s] <+: m.source ++ [n] := by
    by_contra hout
    push Not at hout
    exact hmid ((run.deletes.entryAt_keep hout).none_iff.1 hleft)
  have hrest := hkept.rest (m.deleted ++ [s])
    (fun n' _ => Move.not_source_prefix_deleted hne n' s)
    fun given hgiven => hfree ((hkept.fresh hreplace).2 given hgiven) hpre
  exact entryAt_of_le_path (concat_ne_nil _ _) hpre hpath
    (hrest.none_iff.1 (run.deletes.gone hs))

theorem spared_of_kept (hkept : ContentKept m st X root' ns) (hgiven : given ∈ ns)
    (hD : entryAt X mid (m.target ++ [given]) = some D) :
    Spared X m.srcNames m.deleted m.target given D := by
  obtain ⟨n', d', D', hn', hd', hD', hid, -⟩ := run.exists_added hgiven
  obtain rfl := mem_unique hD hD'
  obtain ⟨d₁, f, hd₁, hf, hfid, -⟩ := hkept.arrived n' given hn'
  obtain rfl := mem_unique hd' hd₁
  by_contra hspared
  exact run.deletes.id_ne_of_not_spared hD hspared hf (hfid.trans hid.symm)

theorem apart_of_kept (hns : ns = m.dstNames) (hkept : ContentKept m st X root' ns)
    (hlands : ∀ given D, given ∈ ns → entryAt X mid (m.target ++ [given]) = some D →
      entryAt X root' (m.target ++ [given]) = some D) : m.Apart st := by
  -- the entry under a name is the last one for it, so it is each of them
  have hlast : ∀ given ∈ ns, ∃ D, Spared X m.srcNames m.deleted m.target given D ∧
      ∀ n d, (n, given) ∈ m.srcNames.zip ns →
        entryAt st m.dstRoot (m.source ++ [n]) = some d → d.id = D.id ∧ d.mode = D.mode := by
    intro given hgiven
    obtain ⟨-, -, D, -, -, hD, -⟩ := run.exists_added hgiven
    refine ⟨D, run.spared_of_kept hkept hgiven hD, fun n d hn hd => ?_⟩
    obtain ⟨d₂, f', hd₂, hf', hfid', hfmode'⟩ := hkept.arrived n given hn
    obtain rfl := mem_unique hd hd₂
    obtain rfl := mem_unique (hlands given D hgiven hD) hf'
    exact ⟨hfid'.symm, hfmode'.symm⟩
  subst hns
  constructor
  case names =>
    intro n₁ n₂ given hn₁ hn₂
    obtain ⟨D, -, hD⟩ := hlast given (of_mem_zip hn₁).2
    obtain ⟨d₁, hd₁⟩ := run.source_found (of_mem_zip hn₁).1
    obtain ⟨d₂, hd₂⟩ := run.source_found (of_mem_zip hn₂).1
    obtain ⟨hid₁, hmode₁⟩ := hD n₁ d₁ hn₁ hd₁
    obtain ⟨hid₂, hmode₂⟩ := hD n₂ d₂ hn₂ hd₂
    rw [hd₁, hd₂, map_some, map_some, hid₁, hmode₁, hid₂, hmode₂]
  case sources =>
    intro hplace given hgiven
    obtain ⟨D, hspared, -⟩ := hlast given hgiven
    exact hspared.1 hplace
  case below =>
    intro n given rest hn hpath d fs hd hfs
    obtain ⟨D, hspared, hD⟩ := hlast given (of_mem_zip hn).2
    refine hspared.2 rest fs hpath ?_
    rw [← (hD n d hn hd).1]
    exact leadsTo_mono run.le hfs

/-! ## Where they are deleted from another directory -/

section Elsewhere

variable (htree : Tree PlainDir st k m.dstRoot)
  (hspared : ∀ given D, given ∈ ns → entryAt X mid (m.target ++ [given]) = some D →
    Spared X m.srcNames m.deleted m.target given D)
include htree hspared

theorem found_outside {s : Name} {fs : List (Dirent Id)}
    (hfs : leadsTo X mid m.deleted = some fs) (hs : s ∈ m.srcNames)
    (hfound : findDirent s fs ≠ none) :
    (∀ given ∈ ns, ¬ m.target ++ [given] <+: m.deleted ++ [s]) ∧
      entryAt st m.dstRoot (m.deleted ++ [s]) ≠ none := by
  have hout : ∀ given ∈ ns, ¬ m.target ++ [given] <+: m.deleted ++ [s] := by
    intro given hgiven hpre
    obtain ⟨-, -, D, -, -, hD, -⟩ := run.exists_added hgiven
    obtain ⟨hplace, hbelow⟩ := hspared given D hgiven hD
    rcases prefix_concat_iff.1 hpre with heq | ⟨rest, hrest⟩
    · obtain ⟨hpath, hname⟩ := append_inj' heq rfl
      exact hplace hpath.symm (singleton_inj.1 hname ▸ hs)
    · rw [append_assoc, singleton_append] at hrest
      rw [← hrest, leadsTo_through hD] at hfs
      exact hfound (hbelow rest fs hrest.symm hfs s hs)
  refine ⟨hout, ?_⟩
  obtain ⟨k', htree'⟩ := run.tree
  rw [Ne, ← (run.entryAt_mid htree hout).none_iff, htree'.entryAt_of_leadsTo hfs hfound]
  exact hfound

theorem root_eq_mid (habsent : ∀ s ∈ m.srcNames,
    (∀ given ∈ ns, ¬ m.target ++ [given] <+: m.deleted ++ [s]) →
    entryAt st m.dstRoot (m.deleted ++ [s]) = none) : root' = mid := by
  obtain ⟨fs, hfs, ⟨hid, -⟩ | ⟨⟨s, hs, hfound⟩, -⟩⟩ := run.deletes
  · exact hid
  · obtain ⟨hout, hsome⟩ := run.found_outside htree hspared hfs hs hfound
    exact absurd (habsent s hs hout) hsome

end Elsewhere

theorem absent_of_kept (hne : m.source ≠ m.deleted) (hkept : ContentKept m st X root' ns) :
    ∀ s ∈ m.srcNames, (∀ given ∈ ns, ¬ m.target ++ [given] <+: m.deleted ++ [s]) →
      entryAt st m.dstRoot (m.deleted ++ [s]) = none := by
  intro s hs hout
  exact (hkept.rest _ (fun n' _ => Move.not_source_prefix_deleted hne n' s) hout).none_iff.1
    (run.deletes.gone hs)

variable (htree : Tree PlainDir st k m.dstRoot)
include htree

theorem root_eq_mid_of_kept (hne : m.source ≠ m.deleted)
    (hkept : ContentKept m st X root' ns) : root' = mid :=
  run.root_eq_mid htree (fun _ _ => run.spared_of_kept hkept) (run.absent_of_kept hne hkept)

theorem elsewhere_of_kept (hns : ns = m.dstNames) (hne : m.source ≠ m.deleted)
    (hkept : ContentKept m st X root' ns) (hapart : m.Apart st) : m.Elsewhere st := by
  have hleft : ∀ n ∈ m.srcNames, entryAt X mid (m.source ++ [n]) = none := by
    intro n hn
    rw [← run.root_eq_mid_of_kept htree hne hkept]
    exact (hkept.left n hn).resolve_right fun h => Move.source_ne_target hne h.1
  have habsent := run.absent_of_kept hne hkept
  subst hns
  refine ⟨habsent, ?_⟩
  -- a source is gone, so an entry was added above it
  obtain ⟨n, hn⟩ := exists_mem_of_ne_nil _ run.asked
  obtain ⟨given, hgiven, hpre⟩ : ∃ given ∈ m.dstNames, m.target ++ [given] <+: m.source ++ [n] := by
    by_contra hout
    push Not at hout
    obtain ⟨d, hd⟩ := run.source_found hn
    rw [(run.entryAt_mid htree hout).none_iff.1 (hleft n hn)] at hd
    cases hd
  rcases prefix_concat_iff.1 hpre with heq | ⟨rest, hrest⟩
  · exact absurd (append_inj' heq rfl).1.symm (Move.source_ne_target hne)
  rw [append_assoc, singleton_append] at hrest
  refine ⟨given, rest, hgiven, hrest.symm, fun n' hn' d fs hd hfs s hs => ?_⟩
  by_contra hfound
  obtain ⟨d', D, hd', hD, hid, -⟩ := run.arrives_of_apart htree rfl hapart hn'
  obtain rfl := mem_unique hd hd'
  obtain ⟨k', htree'⟩ := run.tree
  have hleads : leadsTo X mid m.source = some fs := by
    rw [← hrest, leadsTo_through hD, hid]
    exact leadsTo_mono run.le hfs
  exact hfound ((htree'.entryAt_of_leadsTo hleads hfound).symm.trans (hleft s hs))

theorem left_of_elsewhere (hns : ns = m.dstNames) (hapart : m.Apart st) (helse : m.Elsewhere st)
    (hn : n ∈ m.srcNames) : entryAt X mid (m.source ++ [n]) = none := by
  obtain ⟨given, rest, hgiven, hpath, hnone⟩ := helse.covered
  subst hns
  obtain ⟨n', -, -, hn', -⟩ := run.exists_added hgiven
  obtain ⟨d, D, hd, hD, hid, -⟩ := run.arrives_of_apart htree rfl hapart hn'
  refine eq_none_iff_forall_ne_some.2 fun f hf => ?_
  obtain ⟨-, fs, -, -, hfs, hfind⟩ := leadsTo_of_entryAt hf
  rw [hpath, leadsTo_through hD, hid] at hfs
  have hfs' : leadsTo st d.id rest = some fs := by
    rw [← leadsTo_through hd, ← htree.leadsTo_iff run.le]
    rwa [leadsTo_through ((htree.entryAt_mono run.le _).trans hd)]
  rw [hnone n' hn' d fs hd hfs' n hn] at hfind
  cases hfind

/-! ## The condition is enough -/

omit htree in
theorem kept_of_arrives (hmodes : ∀ n ∈ m.srcNames, ∀ d,
      entryAt st m.dstRoot (m.source ++ [n]) = some d → fileMode d.mode = d.mode)
    (harrives : ∀ n given, (n, given) ∈ m.srcNames.zip ns → m.Arrives st X mid n given)
    (hlands : ∀ given D, given ∈ ns → entryAt X mid (m.target ++ [given]) = some D →
      Spared X m.srcNames m.deleted m.target given D →
      entryAt X root' (m.target ++ [given]) = some D)
    (hleft : ∀ n ∈ m.srcNames, entryAt X root' (m.source ++ [n]) = none)
    (hrest : ∀ path, (∀ n ∈ m.srcNames, ¬ m.source ++ [n] <+: path) →
      (∀ n ∈ ns, ¬ m.target ++ [n] <+: path) →
      AsBefore (path <+: m.source ∨ path <+: m.target) (entryAt st m.dstRoot path)
        (entryAt X root' path)) :
    ContentKept m st X root' ns where
  given := run.given
  fresh := run.fresh
  arrived n given hn := by
    obtain ⟨d, D, hd, hD, hid, hmode, hspared⟩ := harrives n given hn
    refine ⟨d, D, hd, hlands given D (of_mem_zip hn).2 hD hspared, hid, ?_⟩
    rw [hmode, hmodes n (of_mem_zip hn).1 d hd]
  left n hn := .inl (hleft n hn)
  rest := hrest

end MoveRun

/-- **A move within a library keeps the content** exactly where the files have the mode bits of new
    entries, the source path is read in one way, and nothing that is added is replaced or deleted by
    the move itself. -/
theorem move_content_kept_iff (htree : Tree PlainDir st k m.dstRoot)
    (hroot : m.srcRoot = m.dstRoot) (hdst : Resolvable st m.dstRoot m.target)
    (hinto : ∀ n ∈ m.srcNames, ¬ m.source ++ [n] <+: m.target)
    (hmove : Server.moveMultipleFiles e st m = .sameRepo st' root') :
    (∃ names, ContentKept m st st' root' names) ↔ m.KeepsContent st := by
  obtain ⟨mid, dents, old, new, ns, run⟩ := exists_moveRun htree hroot hdst hmove
  have hgiven : m.replace = true → ns = m.dstNames := fun hreplace =>
    eq_of_given (hreplace ▸ run.given)
  constructor
  · rintro ⟨names, hkept⟩
    have hmodes : ∀ n ∈ m.srcNames, ∀ d, entryAt st m.dstRoot (m.source ++ [n]) = some d →
        fileMode d.mode = d.mode := fun n hn d => run.modes_of_kept hkept hn
    cases hreplace : m.replace with
    | false =>
      refine ⟨hmodes, fun h => ?_, fun hne =>
        absurd hkept (run.not_kept_elsewhere htree hne hreplace)⟩
      cases hreplace.symm.trans h
    | true =>
      obtain rfl : names = ns :=
        (eq_of_given (hreplace ▸ hkept.given)).trans (hgiven hreplace).symm
      have hapart : m.Apart st := by
        refine run.apart_of_kept (hgiven hreplace) hkept fun given D hmem hD => ?_
        by_cases hsame : m.source = m.deleted
        · exact run.deletes.entryAt_spared (hsame ▸ hinto) hD (run.spared_of_kept hkept hmem hD)
        · rwa [run.root_eq_mid_of_kept htree hsame hkept]
      exact ⟨hmodes, fun _ => hapart, fun hne =>
        ⟨hreplace, run.elsewhere_of_kept htree (hgiven hreplace) hne hkept hapart⟩⟩
  · intro h
    refine ⟨ns, ?_⟩
    by_cases hsame : m.source = m.deleted
    · refine run.kept_of_arrives h.modes (fun n given hn => ?_)
        (fun given D _ => run.deletes.entryAt_spared (hsame ▸ hinto))
        (fun n hn => hsame ▸ run.deletes.gone hn) (fun path => run.rest hsame htree)
      cases hreplace : m.replace with
      | false => exact run.arrives_of_unique hsame hreplace hn
      | true => exact run.arrives_of_apart htree (hgiven hreplace) (h.apart hreplace) hn
    · obtain ⟨hreplace, helse⟩ := h.place hsame
      have hapart := h.apart hreplace
      have harrives : ∀ n given, (n, given) ∈ m.srcNames.zip ns → m.Arrives st st' mid n given :=
        fun n given => run.arrives_of_apart htree (hgiven hreplace) hapart
      obtain rfl : root' = mid := by
        refine run.root_eq_mid htree (fun given D hmem hD => ?_) (hgiven hreplace ▸ helse.absent)
        obtain ⟨n, -, -, hn, -⟩ := run.exists_added hmem
        obtain ⟨-, D', -, hD', -, -, hspared⟩ := harrives n given hn
        exact mem_unique hD hD' ▸ hspared
      refine run.kept_of_arrives h.modes harrives (fun given D _ hD _ => hD)
        (fun n => run.left_of_elsewhere htree (hgiven hreplace) hapart helse)
        fun path _ hout => (run.entryAt_mid htree hout).imp .inr

end Run

/-! ## A file that is moved onto itself -/

omit [DecidableEq Id] in
theorem eq_nil_of_seafDirId_file {bs : List Id} {z : ℤ} {fs : List (Dirent Id)}
    (h : seafDirId fs = sha1 (.file bs z)) : fs = [] := by
  cases fs with
  | nil => rfl
  | cons d fs => cases sha1_injective h

def boxEntries : List (Dirent ℕ) :=
  [.new 0o040000 emptySha1 ['x'] 0 [] 0, .new 0o100644 (sha1 (.file [1] 5)) ['f'] 0 ['u'] 5]

def boxDir : Dirent ℕ := .new 0o040000 (seafDirId boxEntries) ['d'] 0 [] 0

def boxStore : FsStore ℕ :=
  (FsStore.empty.insert (.dir boxEntries) (by simp [FsObj.Nonempty, boxEntries])).insert
    (.dir [boxDir]) (by simp [FsObj.Nonempty])

theorem boxStore_tree : Tree PlainDir boxStore 3 (seafDirId [boxDir]) := by
  have hempty : Tree PlainDir boxStore 1 (emptySha1 : ℕ) :=
    ⟨[], FsStore.getSeafdir_empty, plainDir_nil, by simp⟩
  have hbox : Tree PlainDir boxStore 2 (seafDirId boxEntries) := by
    refine ⟨boxEntries, by decide +kernel, ⟨by decide +kernel, ?_⟩, ?_⟩
    · refine forall_mem_cons.2 ⟨fun hdir => ?_, forall_mem_singleton.2 fun _ fs =>
        eq_nil_of_seafDirId_file⟩
      exact absurd hdir (by decide)
    · refine forall_mem_cons.2 ⟨fun _ => hempty, forall_mem_singleton.2 fun hdir => ?_⟩
      exact absurd hdir (by decide)
  refine ⟨[boxDir], by decide +kernel, ⟨by decide +kernel, forall_mem_singleton.2
    fun hdir => absurd hdir (by decide)⟩, forall_mem_singleton.2 fun _ => hbox⟩

/-- The move of the file `f` of `d` to a directory, with replacing. -/
def moveF (dstDir : Name) : Move ℕ where
  srcRepo := ⟨['r'], none⟩
  srcDir := "/d".toList
  srcNames := [['f']]
  otherRepo := none
  dstDir := dstDir
  dstNames := [['f']]
  replace := true
  user := ['u']
  srcRoot := seafDirId [boxDir]
  dstRoot := seafDirId [boxDir]
  delRoot := seafDirId [boxDir]

def Moved.tree : Moved Id → Option (FsStore Id × Id)
  | .sameRepo st root => some (st, root)
  | _ => none

omit [DecidableEq Id] in
theorem Moved.exists_sameRepo {r : Moved Id} {f : FsStore Id × Id → β} {b : β}
    (h : r.tree.map f = some b) : ∃ st root, r = .sameRepo st root ∧ f (st, root) = b := by
  cases r with
  | sameRepo st root => exact ⟨st, root, rfl, Option.some.inj h⟩
  | _ => cases h

theorem move_content_kept_beside :
    ∃ st' root', Server.moveMultipleFiles willingEnv boxStore (moveF "/d/x".toList) =
        .sameRepo st' root' ∧
      ∃ names, ContentKept (moveF "/d/x".toList) boxStore st' root' names := by
  obtain ⟨st', root', hmove, -⟩ := Moved.exists_sameRepo (f := fun _ => true) (b := true)
    (r := Server.moveMultipleFiles willingEnv boxStore (moveF "/d/x".toList)) (by decide +kernel)
  have hsource : (moveF "/d/x".toList).source = [['d']] := by decide +kernel
  have hdeleted : (moveF "/d/x".toList).deleted = [['d']] := by decide +kernel
  have htarget : (moveF "/d/x".toList).target = [['d'], ['x']] := by decide +kernel
  have hzip : (moveF "/d/x".toList).srcNames.zip (moveF "/d/x".toList).dstNames =
    [(['f'], ['f'])] := rfl
  refine ⟨st', root', hmove, (move_content_kept_iff boxStore_tree rfl (by decide +kernel) ?_
    hmove).2 ⟨?_, fun _ => ⟨?_, ?_, ?_⟩, fun hne => absurd (hsource.trans hdeleted.symm) hne⟩⟩
  · rw [hsource, htarget]
    exact forall_mem_singleton.2 (by decide +kernel)
  · refine forall_mem_singleton.2 fun d hd => ?_
    have hfile : (entryAt boxStore (seafDirId [boxDir]) [['d'], ['f']]).map Dirent.mode =
      some 0o100644 := by decide +kernel
    rw [hsource] at hd
    rw [show entryAt boxStore (seafDirId [boxDir]) [['d'], ['f']] = some d from hd] at hfile
    rw [Option.some.inj hfile]
    decide
  · intro n₁ n₂ given h₁ h₂
    rw [hzip, mem_singleton] at h₁ h₂
    cases h₁
    cases h₂
    rfl
  · rw [hdeleted, htarget]
    intro h
    cases h
  · rw [hdeleted, htarget]
    intro n given rest _ hpath
    cases hpath

/-- **A file that is moved onto itself with replacing is deleted.** -/
theorem move_onto_itself_lost :
    ∃ st' root', Tree PlainDir boxStore 3 (moveF "/d".toList).dstRoot ∧
      Resolvable boxStore (moveF "/d".toList).dstRoot (moveF "/d".toList).target ∧
      ¬ (moveF "/d".toList).IntoItself ∧
      Server.moveMultipleFiles willingEnv boxStore (moveF "/d".toList) = .sameRepo st' root' ∧
      ¬ ∃ names, ContentKept (moveF "/d".toList) boxStore st' root' names := by
  obtain ⟨st', root', hmove, hlost⟩ := Moved.exists_sameRepo
    (f := fun t => entryAt t.1 t.2 [['d'], ['f']]) (b := none)
    (r := Server.moveMultipleFiles willingEnv boxStore (moveF "/d".toList)) (by decide +kernel)
  refine ⟨st', root', boxStore_tree, by decide +kernel, ?_, hmove, ?_⟩
  · rintro ⟨n, hn, hpre⟩
    obtain rfl := mem_singleton.1 hn
    exact absurd hpre (by decide +kernel)
  · rintro ⟨names, hkept⟩
    obtain rfl : names = [['f']] := eq_of_given hkept.given
    obtain ⟨-, d', -, hd', -⟩ := hkept.arrived ['f'] ['f'] mem_cons_self
    have htarget : (moveF "/d".toList).target = [['d']] := by decide +kernel
    cases hlost.symm.trans hd'

end CloudFile
