/-
  What a list of paths deletes from a library (`server/repo-op.c`, `server/change-set.c`). The
  root is read from the store of the library, which for a virtual library is the one of its
  origin; directories below it are read from and written to the store of the library's own id.
-/
import CloudFile.Delete.Subjects
import CloudFile.Gc.TraverseCommits

namespace CloudFile

open SortedWalk GoPath List Option

variable {Id : Type} [ObjectId Id] [DecidableEq Id]

/-! ## The model -/

namespace Server

/-- `seaf_repo_manager_batch_del_files`: the stores, and the root that is published -/
def batchDelFilesIn (e : DeleteEnv Id) (stores : RepoId → FsStore Id) (repoId storeId : RepoId)
    (rootId : Id) (filepaths : List Name) : Option ((RepoId → FsStore Id) × Id) :=
  getSeafdirSorted (stores storeId) rootId >>= fun dir =>
  let r := doBatchDelFiles e (stores repoId) (.ofSeafDir dir) filepaths
  if r.2 = 0 then none
  else (commitTreeFromChangeset e.writeObj r.1 (stores repoId)).map fun c =>
    (fun id => if id = repoId then c.1 else stores id, c.2)

end Server

/-! ## What is listed and what is reached -/

def listedPath (name : Name) : List Name := fields (Server.getCanonicalPath name)

/-- The tree of a directory is left without exactly the listed entries. -/
structure ExactlyDeleted (st st' : FsStore Id) (root root' : Id) (filepaths : List Name) :
    Prop where
  /-- what is left can be read, and its directories are sorted -/
  tree : ∃ k, Tree (Desc Dirent.name) st' k root'
  gone : ∀ name ∈ filepaths, listedPath name ≠ [] → ∀ path, listedPath name <+: path →
    entryAt st' root' path = none
  /-- every other entry is as it was, but for the ids and times above a listed one -/
  left : ∀ path, (∀ name ∈ filepaths, listedPath name ≠ [] → ¬ listedPath name <+: path) →
    AsBefore (∃ name ∈ filepaths, entryAt st root (listedPath name) ≠ none ∧
      path <+: listedPath name) (entryAt st root path) (entryAt st' root' path)

/-- The walk passes over something that is no directory. -/
def straysFrom (own : FsStore Id) : List (List Name) → List (Dirent Id) → List Name → Bool
  | _, _, [] => false
  | _, _, [_] => false
  | R, es, m :: m' :: parts => (leftIn R es m).any fun d =>
      if d.isDir then (own.getSeafdir d.id).any fun es' =>
        straysFrom own (after m R) es' (m' :: parts)
      else true

/-- The store holds the directories on the way to an entry. -/
def heldOn (own : FsStore Id) : List (Dirent Id) → List Name → Bool
  | _, [] => true
  | _, [_] => true
  | es, m :: m' :: path => (findDirent m es).any fun d =>
      (own.getSeafdir d.id).any fun es' => heldOn own es' (m' :: path)

/-- No walk reaches an entry that is not listed, and what a walk misses another one reaches. -/
structure OnlyListed (own lib : FsStore Id) (es : List (Dirent Id)) (filepaths : List Name) :
    Prop where
  strays : ∀ pre name post t, filepaths = pre ++ name :: post →
    straysFrom own (reachedAll own es pre) es (Server.delParts name) = true →
    reachedFrom own (reachedAll own es pre) es (Server.delParts name) = some t →
    ∃ name' ∈ filepaths, listedPath name' ≠ [] ∧ listedPath name' <+: t
  missed : ∀ name ∈ filepaths, ∀ d, entryIn lib es (listedPath name) = some d →
    [] ∈ Server.delParts name ∨ (d.isDir || d.isReg) = false ∨
      heldOn own es (listedPath name) = false →
    ∃ t ∈ reachedAll own es filepaths, t <+: listedPath name

/-! ## The walks of a list of paths -/

section Walks

variable {own lib : FsStore Id} {R : List (List Name)} {es : List (Dirent Id)}
  {parts t path filepaths : List Name} {k : ℕ}

theorem reachedFrom_present (hsub : SubTrees (SortedNames (· ≠ [])) lib k es)
    (h : reachedFrom own R es parts = some t) : entryIn lib es t ≠ none ∧ [] ∉ t := by
  induction parts generalizing R es t with
  | nil => cases h
  | cons m parts ih =>
    have hname : ∀ {d}, findDirent m es = some d → m ≠ [] := by
      intro d hd
      obtain ⟨hmem, rfl⟩ := mem_of_findDirent hd
      exact hsub.1.2 d hmem
    cases parts with
    | nil =>
      obtain ⟨d, hd, h⟩ := bind_eq_some_iff.1 h
      have hfind := (leftIn_some hd).2
      split at h
      · cases h
        refine ⟨by rw [entryIn, hfind]; exact some_ne_none d, ?_⟩
        simpa using Ne.symm (hname hfind)
      · cases h
    | cons m' parts =>
      obtain ⟨d, hd, h⟩ := bind_eq_some_iff.1 h
      have hfind := (leftIn_some hd).2
      split at h
      next hdir =>
        obtain ⟨es', hes', h⟩ := bind_eq_some_iff.1 h
        obtain ⟨t', ht', rfl⟩ := map_eq_some_iff.1 h
        obtain ⟨hlib, hsub'⟩ := hsub.load hfind hdir hes'
        obtain ⟨hentry, hnil⟩ := ih hsub' ht'
        have hne : t' ≠ [] := fun h => reachedFrom_ne_nil (h ▸ ht')
        rw [entryIn_cons es m hne, hfind, subEntries, if_pos hdir, hlib]
        refine ⟨hentry, fun hmem => ?_⟩
        rcases mem_cons.1 hmem with heq | hmem
        · exact hname hfind heq.symm
        · exact hnil hmem
      next => exact ih hsub h

theorem reachedFrom_straight (hstray : straysFrom own R es parts = false)
    (h : reachedFrom own R es parts = some t) : t = parts := by
  induction parts generalizing R es t with
  | nil => cases h
  | cons m parts ih =>
    cases parts with
    | nil =>
      obtain ⟨d, -, h⟩ := bind_eq_some_iff.1 h
      split at h
      · exact (Option.some.inj h).symm
      · cases h
    | cons m' parts =>
      obtain ⟨d, hd, h⟩ := bind_eq_some_iff.1 h
      rw [straysFrom, hd, any_some] at hstray
      split at h
      next hdir =>
        obtain ⟨es', hes', h⟩ := bind_eq_some_iff.1 h
        obtain ⟨t', ht', rfl⟩ := map_eq_some_iff.1 h
        rw [if_pos hdir, hes'] at hstray
        rw [ih hstray ht']
      next hdir =>
        rw [if_neg hdir] at hstray
        cases hstray

theorem reachedFrom_of_held {P : List (Dirent Id) → Prop} (hsub : SubTrees P lib k es)
    {d : Dirent Id} (hd : entryIn lib es path = some d) (hkind : (d.isDir || d.isReg) = true)
    (hheld : heldOn own es path = true) :
    (∃ t ∈ R, t <+: path) ∨ reachedFrom own R es path = some path := by
  induction path generalizing R es with
  | nil => cases hd
  | cons m path ih =>
    by_cases hm : [m] ∈ R
    · exact .inl ⟨[m], hm, ⟨path, rfl⟩⟩
    have hleft := leftIn_of_notMem es hm
    cases path with
    | nil =>
      refine .inr ?_
      rw [reachedFrom, hleft, show findDirent m es = some d from hd, bind_some, if_pos hkind]
    | cons m' path =>
      rw [heldOn, Option.any_eq_true] at hheld
      obtain ⟨d', hd', hheld⟩ := hheld
      rw [Option.any_eq_true] at hheld
      obtain ⟨es', hes', hheld⟩ := hheld
      have hdir : d'.isDir = true := by
        by_contra hdir
        rw [entryIn, hd', subEntries, if_neg hdir, entryIn_nil] at hd
        cases hd
      obtain ⟨hlib, hsub'⟩ := hsub.load hd' hdir hes'
      rw [entryIn, hd', subEntries, if_pos hdir, hlib] at hd
      rcases ih (R := after m R) hsub' hd hheld with ⟨t, ht, hle⟩ | hreached
      · exact .inl ⟨m :: t, mem_after.1 ht, cons_prefix_cons.2 ⟨rfl, hle⟩⟩
      · refine .inr ?_
        rw [reachedFrom, hleft, hd', bind_some, if_pos hdir, hes', bind_some,
          hreached]
        rfl

theorem reachedAll_subset (pre post : List Name) :
    reachedAll own es pre ⊆ reachedAll own es (pre ++ post) := by
  induction post using reverseRecOn with
  | nil =>
    rw [append_nil]
    exact fun _ h => h
  | append_singleton post name ih =>
    intro t ht
    rw [← append_assoc, reachedAll_concat, addReached]
    cases reachedFrom own (reachedAll own es (pre ++ post)) es (Server.delParts name) with
    | none => exact ih ht
    | some t' => exact mem_cons_of_mem _ (ih ht)

theorem mem_reachedAll : t ∈ reachedAll own es filepaths ↔
    ∃ pre name post, filepaths = pre ++ name :: post ∧
      reachedFrom own (reachedAll own es pre) es (Server.delParts name) = some t := by
  constructor
  · intro h
    induction filepaths using reverseRecOn with
    | nil => cases h
    | append_singleton filepaths name ih =>
      rw [reachedAll_concat, addReached] at h
      have hold : t ∈ reachedAll own es filepaths → ∃ pre name' post,
          filepaths ++ [name] = pre ++ name' :: post ∧
            reachedFrom own (reachedAll own es pre) es (Server.delParts name') = some t := by
        intro ht
        obtain ⟨pre, name', post, rfl, hreached⟩ := ih ht
        exact ⟨pre, name', post ++ [name], by simp, hreached⟩
      cases hr : reachedFrom own (reachedAll own es filepaths) es (Server.delParts name) with
      | none =>
        rw [hr] at h
        exact hold h
      | some t' =>
        rw [hr] at h
        rcases mem_cons.1 h with rfl | ht
        · exact ⟨filepaths, name, [], rfl, hr⟩
        · exact hold ht
  · rintro ⟨pre, name, post, rfl, hreached⟩
    rw [append_cons]
    refine reachedAll_subset (pre ++ [name]) post ?_
    rw [reachedAll_concat, addReached, hreached]
    exact mem_cons_self

theorem listedPath_eq {name : Name} (h : [] ∉ Server.delParts name) :
    listedPath name = Server.delParts name := by
  have hparts : (Server.delParts name).flatMap fields = Server.delParts name :=
    flatMap_fields_parts fun p hp =>
      ⟨fun hnil => h (hnil ▸ hp), Server.slash_notMem_gStrsplit _ p hp⟩
  rw [← hparts, Server.delParts, Server.flatMap_gStrsplit, Server.fields_skipSlash]
  rfl

/-- What the walks reach is at or below what is listed, and the other way round. -/
theorem onlyListed_iff (hsub : SubTrees (SortedNames (· ≠ [])) lib k es) :
    OnlyListed own lib es filepaths ↔
      (∀ t ∈ reachedAll own es filepaths,
        ∃ name ∈ filepaths, listedPath name ≠ [] ∧ listedPath name <+: t) ∧
      ∀ name ∈ filepaths, entryIn lib es (listedPath name) ≠ none →
        ∃ t ∈ reachedAll own es filepaths, t <+: listedPath name := by
  constructor
  · intro h
    refine ⟨fun t ht => ?_, fun name hname hentry => ?_⟩
    · obtain ⟨pre, name, post, hsplit, hreached⟩ := mem_reachedAll.1 ht
      cases hstray : straysFrom own (reachedAll own es pre) es (Server.delParts name) with
      | true => exact h.strays pre name post t hsplit hstray hreached
      | false =>
        obtain ⟨-, hnil⟩ := reachedFrom_present hsub hreached
        obtain rfl := reachedFrom_straight hstray hreached
        refine ⟨name, by rw [hsplit]; simp, ?_⟩
        rw [listedPath_eq hnil]
        exact ⟨fun hempty => reachedFrom_ne_nil (hempty ▸ hreached), prefix_rfl⟩
    · obtain ⟨d, hd⟩ := ne_none_iff_exists'.1 hentry
      by_cases hmissed : [] ∈ Server.delParts name ∨ (d.isDir || d.isReg) = false ∨
          heldOn own es (listedPath name) = false
      · exact h.missed name hname d hd hmissed
      · simp only [not_or, Bool.not_eq_false] at hmissed
        obtain ⟨hnil, hkind, hheld⟩ := hmissed
        obtain ⟨pre, post, rfl⟩ := append_of_mem hname
        rcases reachedFrom_of_held (R := reachedAll own es pre) hsub hd hkind hheld with
          ⟨t, ht, hle⟩ | hreached
        · exact ⟨t, reachedAll_subset pre _ ht, hle⟩
        · refine ⟨listedPath name, mem_reachedAll.2 ⟨pre, name, post, rfl, ?_⟩, prefix_rfl⟩
          rwa [← listedPath_eq hnil]
  · rintro ⟨hlisted, hreached⟩
    refine ⟨fun pre name post t hsplit _ ht => ?_, fun name hname d hd _ => ?_⟩
    · exact hlisted t (mem_reachedAll.2 ⟨pre, name, post, hsplit, ht⟩)
    · exact hreached name hname (by rw [hd]; exact some_ne_none d)

end Walks

/-! ## Both stores -/

variable (st st' : FsStore Id)

omit [DecidableEq Id] in
theorem FsStore.saved_or (id : Id) (o : FsObj Id)
    (h : (st.obj id).or (st'.obj id) = some o) : o.Nonempty ∧ sha1 o = id := by
  rcases or_eq_some_iff.1 h with h | ⟨-, h⟩
  · exact st.saved id o h
  · exact st'.saved id o h

def FsStore.join (st st' : FsStore Id) : FsStore Id :=
  ⟨fun id => (st.obj id).or (st'.obj id), st.saved_or st'⟩

omit [DecidableEq Id] in
theorem FsStore.le_join_left : st ≤ st.join st' := fun id o h => by
  show (st.obj id).or (st'.obj id) = some o
  rw [h]
  rfl

omit [DecidableEq Id] in
theorem FsStore.le_join_right : st' ≤ st.join st' := fun id o h => by
  show (st.obj id).or (st'.obj id) = some o
  cases ho : st.obj id with
  | none => exact h
  | some o' =>
    obtain rfl : o' = o := sha1_injective ((st.saved id o' ho).2.trans (st'.saved id o h).2.symm)
    rfl

def FsStore.entries (st : FsStore Id) (id : Id) : List (Dirent Id) := (st.getSeafdir id).getD []

/-- The walks reach what is listed, the files left in the directories they go through have the mode
    bits that saving sets, and for a virtual library the store of the origin holds what is left
    already. -/
structure DeletesListed (e : DeleteEnv Id) (stores : RepoId → FsStore Id) (repoId storeId : RepoId)
    (root : Id) (filepaths : List Name) : Prop where
  only : OnlyListed (stores repoId) (stores storeId) ((stores storeId).entries root) filepaths
  modes : ∀ p n d, Entered (stores repoId) ((stores storeId).entries root) filepaths p →
    entryAt (stores storeId) root (p ++ [n]) = some d →
    (∀ t ∈ reachedAll (stores repoId) ((stores storeId).entries root) filepaths,
      ¬ t <+: p ++ [n]) → fileMode d.mode = d.mode
  stocked : storeId ≠ repoId → ∃ root', Pruned (stores storeId) e.now
    (reachedAll (stores repoId) ((stores storeId).entries root) filepaths) root root'

section Batch

variable {e : DeleteEnv Id} {stores stores' : RepoId → FsStore Id} {repoId storeId : RepoId}
  {root root' : Id} {filepaths : List Name} {k : ℕ} {es : List (Dirent Id)}

/-- What has been saved when a list of paths is published. -/
structure BatchSaved (e : DeleteEnv Id) (stores stores' : RepoId → FsStore Id) (repoId : RepoId)
    (es : List (Dirent Id)) (filepaths : List Name) (root' : Id) (dents : List (Dirent Id))
    (st₁ st₂ : FsStore Id) : Prop where
  commit : commitTree e.writeObj
    (Server.doBatchDelFiles e (stores repoId) (.ofSeafDir es) filepaths).1 (stores repoId) =
      some (dents, st₁)
  le : st₁ ≤ st₂
  root : root' = seafDirId (Server.sortDirents dents)
  saved : st₂.getSeafdir root' = some (Server.sortDirents dents)
  stores : stores' = fun id => if id = repoId then st₂ else stores id

theorem exists_batchSaved (hes : (stores storeId).getSeafdir root = some es)
    (hnamed : SortedNames (· ≠ []) es)
    (h : Server.batchDelFilesIn e stores repoId storeId root filepaths = some (stores', root')) :
    ∃ dents st₁ st₂, BatchSaved e stores stores' repoId es filepaths root' dents st₁ st₂ := by
  have hsorted : Server.sortDirents es = es := (desc_iff.1 hnamed.1).1.insertionSort_eq
  obtain ⟨dir, hdir, h⟩ := bind_eq_some_iff.1 h
  rw [Server.getSeafdirSorted, hes, map_some, hsorted] at hdir
  cases hdir
  simp only at h
  split at h
  · cases h
  obtain ⟨⟨st₂, root₂⟩, hcommit, heq⟩ := map_eq_some_iff.1 h
  cases heq
  obtain ⟨dents, st₁, htreeOf, hle, hroot, hsaved⟩ := commitTreeFromChangeset_some hcommit
  exact ⟨dents, st₁, st₂, htreeOf, hle, hroot, hsaved, rfl⟩

/-- **What a list of paths publishes** is the pruned tree, in the store of the library if that is
    the store of its id. -/
theorem batchDelFilesIn_pruned (htree : Tree (SortedNames (· ≠ [])) (stores storeId) k root)
    (hmodes : ∀ p n d, Entered (stores repoId) ((stores storeId).entries root) filepaths p →
      entryAt (stores storeId) root (p ++ [n]) = some d →
      (∀ t ∈ reachedAll (stores repoId) ((stores storeId).entries root) filepaths,
        ¬ t <+: p ++ [n]) → fileMode d.mode = d.mode)
    (h : Server.batchDelFilesIn e stores repoId storeId root filepaths = some (stores', root')) :
    ∃ X, stores storeId ≤ stores' storeId ∧ stores' storeId ≤ X ∧
      Pruned X e.now (reachedAll (stores repoId) ((stores storeId).entries root) filepaths)
        root root' ∧
      if storeId = repoId then X = stores' storeId else stores' storeId = stores storeId := by
  obtain ⟨es, hes, hnamed⟩ := htree.readable
  have hsub := htree.subTrees_of hes
  have hunique := (htree.imp fun _ h => (desc_iff.1 h.1).2).subTrees_of hes
  have hentries : (stores storeId).entries root = es := by rw [FsStore.entries, hes]; rfl
  rw [hentries] at hmodes ⊢
  obtain ⟨dents, st₁, st₂, hcommit, hle₂, rfl, hsaved, rfl⟩ := exists_batchSaved hes hnamed h
  have hle₁ := (commitTree_savedAs hcommit).le
  obtain ⟨hstands, hmemory⟩ := stands_doBatchDelFiles (e := e) (stores repoId) hunique filepaths
  -- the files in memory are files of the tree
  have hmodes' : ∀ p sub n d,
      (Server.doBatchDelFiles e (stores repoId) (.ofSeafDir es) filepaths).1.memory p = some sub →
      sub.lookup n = some (d, none) → fileMode d.mode = d.mode := by
    intro p sub n d hsome hd
    obtain ⟨hentry, hleft⟩ :=
      hstands.entryIn_memory hsub (nil_notMem_reachedAll filepaths) hsome hd
    refine hmodes p n d ((hmemory p).1 (by rw [hsome]; rfl)).1 ?_ hleft
    rwa [entryAt_eq hes]
  -- the pruned tree, in a store that holds the library and what is saved
  have hpruned : ∀ X, stores storeId ≤ X → st₂ ≤ X → Pruned X e.now
      (reachedAll (stores repoId) es filepaths) root
      (seafDirId (Server.sortDirents dents)) := fun X hlib hX =>
    hstands.pruned hmodes' ((htree.imp fun _ h => h.1).subTrees_of hes) hlib hcommit le_rfl
      (hle₂.trans hX) (FsStore.getSeafdir_mono hlib hes) (FsStore.getSeafdir_mono hX hsaved)
  by_cases hsame : storeId = repoId
  · subst hsame
    have hle : stores storeId ≤ st₂ := hle₁.trans hle₂
    refine ⟨st₂, ?_, ?_, hpruned st₂ hle le_rfl, ?_⟩ <;> simp [hle]
  · refine ⟨(stores storeId).join st₂, ?_, ?_, hpruned _ (FsStore.le_join_left _ _)
      (FsStore.le_join_right _ _), ?_⟩ <;> simp [hsame, FsStore.le_join_left]

/-- A file that is left in a directory of the walks has the bits afterwards, so it had them. -/
theorem modes_of_exactlyDeleted (htree : Tree (SortedNames (· ≠ [])) (stores storeId) k root)
    (h : Server.batchDelFilesIn e stores repoId storeId root filepaths = some (stores', root'))
    (hexact : ExactlyDeleted (stores storeId) (stores' storeId) root root' filepaths)
    {p : List Name} {n : Name} {d : Dirent Id}
    (hp : Entered (stores repoId) ((stores storeId).entries root) filepaths p)
    (hd : entryAt (stores storeId) root (p ++ [n]) = some d)
    (hleft : ∀ t ∈ reachedAll (stores repoId) ((stores storeId).entries root) filepaths,
      ¬ t <+: p ++ [n]) : fileMode d.mode = d.mode := by
  obtain ⟨es, hes, hnamed⟩ := htree.readable
  have hsub := htree.subTrees_of hes
  have hunique := (htree.imp fun _ h => (desc_iff.1 h.1).2).subTrees_of hes
  have hentries : (stores storeId).entries root = es := by rw [FsStore.entries, hes]; rfl
  rw [hentries] at hp hleft
  obtain ⟨dents, st₁, st₂, hcommit, hle₂, hroot, hsaved, -⟩ := exists_batchSaved hes hnamed h
  obtain ⟨hstands, hmemory⟩ := stands_doBatchDelFiles (e := e) (stores repoId) hunique filepaths
  by_contra hmode
  have hfile : d.isDir ≠ true := fun hdir =>
    hmode (congrArg Dirent.mode (Dirent.withFileMode_of_isDir hdir))
  obtain ⟨sub, hsome⟩ := isSome_iff_exists.1 ((hmemory p).2 ⟨hp, fun t ht hpre =>
    hleft t ht (hpre.trans (prefix_append p [n]))⟩)
  have hlookup := (hstands.lookup_memory hsub hsome ((entryAt_eq hes _).symm.trans hd)
    hleft).resolve_right hfile
  -- what is saved is what the library can read
  have hafter : entryAt (stores' storeId) root' (p ++ [n]) = some d.withFileMode := by
    obtain ⟨k', hT⟩ := hexact.tree
    rw [← hT.entryAt_mono (FsStore.le_join_left _ st₂),
      entryAt_eq (FsStore.getSeafdir_mono (FsStore.le_join_right _ st₂) hsaved),
      entryIn_sortDirents (hstands.unique hcommit)]
    exact hstands.entryIn_saved hcommit (hle₂.trans (FsStore.le_join_right _ st₂)) hsome hlookup
  by_cases hlisted : ∃ name ∈ filepaths, listedPath name ≠ [] ∧ listedPath name <+: p ++ [n]
  · obtain ⟨name, hname, hne, hpre⟩ := hlisted
    rw [hexact.gone name hname hne _ hpre] at hafter
    cases hafter
  · push Not at hlisted
    obtain ⟨d', hd', hsame⟩ := (hexact.left _ hlisted).exists_some hafter
    obtain rfl := mem_unique hd hd'
    exact hmode hsame.symm

theorem exactlyDeleted_iff {lib lib' : FsStore Id} {R : List (List Name)} {now : ℤ}
    (htree : Tree (SortedNames (· ≠ [])) lib k root) (hle : lib ≤ lib')
    (hpruned : Pruned lib' now R root root')
    (hR : ∀ t ∈ R, t ≠ [] ∧ entryAt lib root t ≠ none) :
    ExactlyDeleted lib lib' root root' filepaths ↔
      (∀ t ∈ R, ∃ name ∈ filepaths, listedPath name ≠ [] ∧ listedPath name <+: t) ∧
      ∀ name ∈ filepaths, entryAt lib root (listedPath name) ≠ none →
        ∃ t ∈ R, t <+: listedPath name := by
  have hdesc : Tree (Desc Dirent.name) lib k root := htree.imp fun _ h => h.1
  -- an entry that is not at or below a pruned path is still there
  have hthere : ∀ path, (∀ t ∈ R, ¬ t <+: path) → entryAt lib root path ≠ none →
      entryAt lib' root' path ≠ none := by
    intro path hpath hentry
    rw [← htree.entryAt_mono hle] at hentry
    exact (hpruned.entryAt_left hpath).none_iff.not.2 hentry
  constructor
  · intro h
    refine ⟨fun t ht => ?_, fun name hname hentry => ?_⟩
    · by_contra hlisted
      push Not at hlisted
      obtain ⟨hne, hentry⟩ := hR t ht
      exact hentry ((h.left t hlisted).none_iff.1 (hpruned.entryAt_gone ht hne prefix_rfl))
    · by_contra hreached
      push Not at hreached
      have hne : listedPath name ≠ [] := by
        intro hnil
        rw [hnil] at hentry
        exact hentry rfl
      exact hthere _ hreached hentry (h.gone name hname hne _ prefix_rfl)
  · rintro ⟨hlisted, hreached⟩
    refine ⟨⟨k, hpruned.tree (hdesc.store_mono hle)⟩, fun name hname hne path hpath => ?_,
      fun path hpath => ?_⟩
    · by_cases hpre : ∃ t ∈ R, t <+: path
      · obtain ⟨t, ht, hle'⟩ := hpre
        exact hpruned.entryAt_gone ht (hR t ht).1 hle'
      · push Not at hpre
        -- the listed path is not there, so there is nothing below it
        have hnone : entryAt lib root path = none := by
          by_contra hentry
          obtain ⟨t, ht, hle'⟩ :=
            hreached name hname (entryAt_of_le_path hne hpath hentry)
          exact hpre t ht (hle'.trans hpath)
        rw [← htree.entryAt_mono hle] at hnone
        exact (hpruned.entryAt_left hpre).none_iff.2 hnone
    · have hnot : ∀ t ∈ R, ¬ t <+: path := by
        intro t ht hle'
        obtain ⟨name, hname, hne, hpre⟩ := hlisted t ht
        exact hpath name hname hne (hpre.trans hle')
      have hleft := hpruned.entryAt_left hnot
      rw [htree.entryAt_mono hle] at hleft
      refine hleft.imp ?_
      rintro ⟨t, ht, hle'⟩
      obtain ⟨name, hname, hne, hpre⟩ := hlisted t ht
      refine ⟨name, hname, entryAt_of_le_path hne hpre (hR t ht).2, ?_⟩
      exact (List.prefix_or_prefix_of_prefix hpre hle').resolve_left (hpath name hname hne)

/-- **A list of paths deletes exactly what it lists** under the conditions of `DeletesListed`. -/
theorem batchDel_exact_iff (htree : Tree (SortedNames (· ≠ [])) (stores storeId) k root)
    (h : Server.batchDelFilesIn e stores repoId storeId root filepaths = some (stores', root')) :
    ExactlyDeleted (stores storeId) (stores' storeId) root root' filepaths ↔
      DeletesListed e stores repoId storeId root filepaths := by
  obtain ⟨es, hes, -⟩ := htree.readable
  have hsub := htree.subTrees_of hes
  have hentries : (stores storeId).entries root = es := by rw [FsStore.entries, hes]; rfl
  have hR : ∀ t ∈ reachedAll (stores repoId) ((stores storeId).entries root) filepaths,
      t ≠ [] ∧ entryAt (stores storeId) root t ≠ none := by
    intro t ht
    rw [hentries] at ht
    obtain ⟨pre, name, post, -, hreached⟩ := mem_reachedAll.1 ht
    rw [entryAt_eq hes]
    exact ⟨fun hnil => reachedFrom_ne_nil (hnil ▸ hreached),
      (reachedFrom_present hsub hreached).1⟩
  have honly : ∀ hle : stores storeId ≤ stores' storeId, Pruned (stores' storeId) e.now
        (reachedAll (stores repoId) ((stores storeId).entries root) filepaths) root root' →
      (ExactlyDeleted (stores storeId) (stores' storeId) root root' filepaths ↔
        OnlyListed (stores repoId) (stores storeId) ((stores storeId).entries root) filepaths) := by
    intro hle hp
    rw [exactlyDeleted_iff htree hle hp hR, hentries, onlyListed_iff hsub]
    simp only [entryAt_eq hes]
  constructor
  · intro hexact
    have hmodes := fun p n d => modes_of_exactlyDeleted (p := p) (n := n) (d := d) htree h hexact
    obtain ⟨X, hle, hX, hpruned, hcase⟩ := batchDelFilesIn_pruned htree hmodes h
    -- the library holds the pruned tree as soon as it can read it
    obtain ⟨k', hT'⟩ := hexact.tree
    have hp := hpruned.of_le hX (htree.store_mono hle) hT'
    refine ⟨(honly hle hp).1 hexact, hmodes, fun hne => ⟨root', ?_⟩⟩
    rw [if_neg hne] at hcase
    rwa [hcase] at hp
  · rintro ⟨hlisted, hmodes, hstock⟩
    obtain ⟨X, hle, hX, hpruned, hcase⟩ := batchDelFilesIn_pruned htree hmodes h
    refine (honly hle ?_).2 hlisted
    by_cases hsame : storeId = repoId
    · rw [if_pos hsame] at hcase
      rwa [hcase] at hpruned
    · obtain ⟨root'', hp⟩ := hstock hsame
      rw [if_neg hsame] at hcase
      obtain rfl : root' = root'' := hpruned.unique (hp.mono (hle.trans hX))
      rwa [hcase]

end Batch

/-! ### A library and a virtual library -/

/-- The stores of an origin and of a virtual library, which has no objects of its own. -/
def originStores (id : RepoId) : FsStore ℕ := if id = ['o'] then listedStore else .empty

theorem batchDel_exact_origin :
    ∃ stores' root', Server.batchDelFilesIn listedEnv originStores ['o'] ['o'] listedRoot
        ["/a/b".toList] = some (stores', root') ∧
      ExactlyDeleted (originStores ['o']) (stores' ['o']) listedRoot root' ["/a/b".toList] := by
  have htree : Tree (SortedNames (· ≠ [])) (originStores ['o']) 2 listedRoot := by decide +kernel
  have hsome : (Server.batchDelFilesIn listedEnv originStores ['o'] ['o'] listedRoot
      ["/a/b".toList]).isSome = true := by decide +kernel
  obtain ⟨⟨stores', root'⟩, h⟩ := isSome_iff_exists.1 hsome
  have hmodes : Tree (fun es => ∀ d ∈ es, fileMode d.mode = d.mode) (originStores ['o']) 2
    listedRoot := by decide +kernel
  refine ⟨stores', root', h, (batchDel_exact_iff htree h).2 ⟨⟨?_, ?_⟩, fun p n d _ hd _ => ?_,
    fun hne => absurd rfl hne⟩⟩
  · intro pre name post t hsplit hstray
    cases pre with
    | nil =>
      cases hsplit
      exact absurd hstray (by decide +kernel)
    | cons name' pre =>
      have hlen := congrArg List.length hsplit
      simp at hlen
  · intro name hname d hd hmissed
    obtain rfl := mem_singleton.1 hname
    obtain rfl : d = listedFile ['b'] := by
      have hentry : entryIn (originStores ['o']) ((originStores ['o']).entries listedRoot)
          (listedPath "/a/b".toList) = some (listedFile ['b']) := by decide +kernel
      exact mem_unique hd hentry
    exact absurd hmissed (by decide +kernel)
  · obtain ⟨i, es, hi, hes, -, hfind⟩ := leadsTo_of_entryAt hd
    obtain ⟨k, -, hT⟩ := hmodes.resolve hi
    exact (hT.subTrees_of hes).1 d (mem_of_findDirent hfind).1

/-- **In a virtual library** the root cannot be read after a deletion from it, and an entry below is
    not deleted. In any library, a path through a file deletes an entry beside it. -/
theorem batchDel_not_exact :
    Tree (SortedNames (· ≠ [])) (originStores ['o']) 2 listedRoot ∧
    (∃ stores' root', Server.batchDelFilesIn listedEnv originStores ['v'] ['o'] listedRoot
        ["/f".toList] = some (stores', root') ∧ (stores' ['o']).getSeafdir root' = none ∧
      ¬ ExactlyDeleted (originStores ['o']) (stores' ['o']) listedRoot root' ["/f".toList]) ∧
    (∃ stores' root', Server.batchDelFilesIn listedEnv originStores ['v'] ['o'] listedRoot
        ["/a/b".toList] = some (stores', root') ∧
      ¬ ExactlyDeleted (originStores ['o']) (stores' ['o']) listedRoot root' ["/a/b".toList]) ∧
    ∃ stores' root', Server.batchDelFilesIn listedEnv originStores ['o'] ['o'] listedRoot
        ["/f/g".toList] = some (stores', root') ∧
      ¬ ExactlyDeleted (originStores ['o']) (stores' ['o']) listedRoot root' ["/f/g".toList] := by
  refine ⟨by decide +kernel, ?_, ?_, ?_⟩
  · have hroot : (Server.batchDelFilesIn listedEnv originStores ['v'] ['o'] listedRoot
        ["/f".toList]).map (fun r => (r.1 ['o']).getSeafdir r.2) = some none := by decide +kernel
    obtain ⟨⟨stores', root'⟩, h, hnone⟩ := map_eq_some_iff.1 hroot
    refine ⟨stores', root', h, hnone, fun hexact => ?_⟩
    obtain ⟨k, hT⟩ := hexact.tree
    obtain ⟨es, hes, -⟩ := hT.readable
    cases hes.symm.trans hnone
  · have hroot : (Server.batchDelFilesIn listedEnv originStores ['v'] ['o'] listedRoot
        ["/a/b".toList]).map (fun r => entryAt (r.1 ['o']) r.2 [['a'], ['b']]) =
        some (some (listedFile ['b'])) := by decide +kernel
    obtain ⟨⟨stores', root'⟩, h, hsome⟩ := map_eq_some_iff.1 hroot
    refine ⟨stores', root', h, fun hexact => ?_⟩
    have hgone := hexact.gone "/a/b".toList mem_cons_self (by decide +kernel) [['a'], ['b']]
      (by decide +kernel)
    cases hsome.symm.trans hgone
  · have hroot : (Server.batchDelFilesIn listedEnv originStores ['o'] ['o'] listedRoot
        ["/f/g".toList]).map (fun r => entryAt (r.1 ['o']) r.2 [['g']]) = some none := by
      decide +kernel
    obtain ⟨⟨stores', root'⟩, h, hnone⟩ := map_eq_some_iff.1 hroot
    refine ⟨stores', root', h, fun hexact => ?_⟩
    have hbefore : entryAt (originStores ['o']) listedRoot [['g']] = some (listedFile ['g']) := by
      decide +kernel
    have hleft := hexact.left [['g']] fun name hname _ => by
      obtain rfl := mem_singleton.1 hname
      decide +kernel
    cases hbefore.symm.trans (hleft.none_iff.1 hnone)

end CloudFile
