/-
  Virtual libraries whose folder is gone from the head of their origin
  (`fileserver/virtual_repo.go`, `server/virtual-repo.c`). The handling climbs the recorded path
  and looks for a directory that the head has renamed. What is below it has to be put back after
  its new name; the file server keeps only the name it has cut off last.
-/
import CloudFile.Sync.InvalidPath
import CloudFile.Fs.PathResolution

namespace CloudFile

open SortedWalk GoPath List
open Option hiding join

variable {Id : Type} [ObjectId Id] [DecidableEq Id]

/-- What becomes of a virtual library. -/
inductive Followed (Id : Type) where
  /-- its row gets a base commit and a path, and the library a name if the folder itself has one -/
  | repointed (baseCommit : Id) (path : Name) (newName : Option Name)
  | deleted
  | untouched
deriving DecidableEq

def renamedDir (changes : List (Change Id)) (oldDirID : Id) : Option (Change Id) :=
  changes.find? fun de => de.status = .dirRenamed && de.sha1 = oldDirID

namespace Fileserver

def getSeafdirIDByPath (st : FsStore Id) (rootID : Id) (path : Name) :
    Except PathErr (Option Id) :=
  (getObjIDByPath st rootID path).map fun r => (r.filter fun r => sIsDir r.2).map Prod.fst

/-- The loop of `handleMissingVirtualRepo`; a round shortens the path. -/
def climb (st : FsStore Id) (parentRoot headCommit : Id) (changes : List (Change Id)) :
    ℕ → Name → Name → Followed Id
  | 0, _, _ => .untouched
  | fuel + 1, parPath, subPath =>
    match getSeafdirIDByPath st parentRoot parPath with
    -- the error is a wrapped one, never `ErrPathNoExist` itself
    | .error _ => .untouched
    | .ok none => .untouched
    | .ok (some oldDirID) => match renamedDir changes oldDirID with
      | some de =>
        let newPath := if subPath ≠ [] then join [['/'], de.newName, subPath]
          else join [['/'], de.newName]
        .repointed headCommit newPath (if subPath = [] then some (base newPath) else none)
      | none =>
        -- `strings.LastIndex(parPath, "/") <= 0`
        if '/' ∉ parPath.tail then .deleted
        else climb st parentRoot headCommit changes fuel (dir parPath) (base parPath)

/-- `handleMissingVirtualRepo`; `depth` bounds the depth of the trees that are compared. -/
def handleMissingVirtualRepo (order : List (DiffEntry Id) → List (DiffEntry Id)) (st : FsStore Id)
    (depth : ℕ) (parentRoot headRoot headCommit : Id) (path : Name) : Followed Id :=
  match diffCommits order st depth parentRoot headRoot true with
  | none => .untouched
  | some changes => climb st parentRoot headCommit changes (path.length + 1) path []

end Fileserver

namespace Server

/-- `seaf_fs_manager_get_seafdir_id_by_path` -/
def seafdirIdByPath (st : FsStore Id) (rootId : Id) (path : Name) :
    Except PathErr (Option Id) :=
  (pathToObjId st rootId path).map fun r => (r.filter fun r => sIsDir r.2).map Prod.fst

/-- `while (--p != path && *p != '/')`: the place of the slash before `p`, or the start -/
def prevSlash (path : Name) : ℕ → ℕ
  | 0 => 0
  | p + 1 => if p = 0 ∨ path[p]? = some '/' then p else prevSlash path p

/-- The loop of `handle_missing_virtual_repo`: `p` is the end of `par_path` in the path. -/
def climb (st : FsStore Id) (parentRoot headCommit : Id) (changes : List (Change Id))
    (path : Name) : ℕ → ℕ → Option Name → Followed Id
  | 0, _, _ => .untouched
  | fuel + 1, p, subPath =>
    match seafdirIdByPath st parentRoot (path.take p) with
    | .error .pathNoExist => .deleted
    | .error _ => .untouched
    | .ok none => .untouched
    | .ok (some oldDirId) => match renamedDir changes oldDirId with
      | some de =>
        let newPath := match subPath with
          | some sub => '/' :: (de.newName ++ '/' :: sub)
          | none => '/' :: de.newName
        .repointed headCommit newPath (if subPath = none then some (base newPath) else none)
      | none =>
        if prevSlash path p = 0 then .deleted
        else climb st parentRoot headCommit changes path fuel (prevSlash path p)
          (some (path.drop (prevSlash path p + 1)))

def handleMissingVirtualRepo (st : FsStore Id) (depth : ℕ) (parentRoot headRoot headCommit : Id)
    (path : Name) : Followed Id :=
  match diffCommits st depth parentRoot headRoot true with
  | none => .untouched
  | some changes =>
    climb st parentRoot headCommit changes path (path.length + 1) path.length none

end Server

/-! ## Lookups on the way -/

section Lookup

variable {st : FsStore Id} {k : ℕ} {root i : Id} {names : List Name}

theorem found_iff_ok_some {α : Type} {r : Except PathErr (Option α)} {a : α} :
    found r = some a ↔ r = .ok (some a) := by
  cases r with
  | error e => simp [found, Except.toOption]
  | ok o => simp [found, Except.toOption]

theorem entry_of_resolve {ps : List Name} {n : Name} (h : resolve st root (ps ++ [n]) = some i) :
    ∃ d, lookedUp st root ps n = some d ∧ entryAt st root (ps ++ [n]) = some d ∧
      d.isDir = true ∧ d.id = i := by
  rw [resolve_append, bind_eq_bind, bind_eq_some_iff] at h
  obtain ⟨j, hj, hn⟩ := h
  obtain ⟨_, hsub, ⟨⟩⟩ := resolve_cons_some.1 hn
  obtain ⟨es, d, hes, hd, hdir, hid⟩ := subdir_some.1 hsub
  have hres : Resolvable st root ps := by simp [Resolvable, hj]
  refine ⟨d, ?_, ?_, hdir, hid⟩
  · rw [lookedUp, landing_of_resolvable hres, hj]
    simpa [hes] using hd
  · rw [entryAt_concat, hj]
    simpa [hes] using hd

theorem fields_absolute (h : ∀ n ∈ names, ValidName n) :
    fields ('/' :: joinFields names) = names := by
  rw [fields_slash, fields_joinFields fun n hn => (h n hn).1]

theorem comps_absolute (h : ∀ n ∈ names, ValidName n) :
    comps ('/' :: joinFields names) = names := by
  rw [comps, fields_absolute h, cleanFields_plain fun n hn => (h n hn).2]

section

variable (hT : Tree (UniqueKeys Dirent.name) st k root) (hne : names ≠ [])
  (hvalid : ∀ n ∈ names, ValidName n) (h : resolve st root names = some i)
include hT hne hvalid h

theorem Fileserver.getSeafdirIDByPath_resolve :
    Fileserver.getSeafdirIDByPath st root ('/' :: joinFields names) = .ok (some i) := by
  obtain ⟨ps, n, rfl⟩ := (eq_nil_or_concat' names).resolve_left hne
  obtain ⟨d, hd, -, hdir, rfl⟩ := entry_of_resolve h
  have hfound := getObjIDByPath_found hT (comps_absolute hvalid)
  rw [hd, map_some, found_iff_ok_some] at hfound
  have hmode : sIsDir d.mode = true := hdir
  simp [getSeafdirIDByPath, hfound, Except.map, hmode]

theorem Server.seafdirIdByPath_resolve :
    Server.seafdirIdByPath st root ('/' :: joinFields names) = .ok (some i) := by
  obtain ⟨ps, n, rfl⟩ := (eq_nil_or_concat' names).resolve_left hne
  obtain ⟨d, -, hd, hdir, rfl⟩ := entry_of_resolve h
  have hfields := fields_absolute hvalid
  have hfound := pathToObjId_found hT
    (show fields ('/' :: joinFields (ps ++ [n])) ≠ [] by rw [hfields]; exact hne)
  rw [hfields, hd, map_some, found_iff_ok_some] at hfound
  have hmode : sIsDir d.mode = true := hdir
  simp [seafdirIdByPath, hfound, Except.map, hmode]

end

theorem resolve_below_ne {P : List (Dirent Id) → Prop} (hT : Tree P st k root) {path : List Name}
    (hne : path ≠ []) : resolve st root path ≠ some root := by
  intro h
  induction k using Nat.strong_induction_on with
  | _ k ih =>
    obtain ⟨k', hk', hT'⟩ := hT.resolve h
    have hpos := length_pos_iff.2 hne
    exact ih k' (by omega) hT'

end Lookup

/-! ## The renamed directory -/

section Renamed

variable {st : FsStore Id} {k : ℕ} {root : Id} {o n o' n' : List (Dirent Id)} {path P : List Name}
  {w : Results Id} {item : DiffItem Id}

theorem WalksTo.resolve (h : WalksTo st o n path o' n')
    (hT : Tree (UniqueNames ValidName) st k root)
    (ho : st.getSeafdir root = some o) :
    ∃ i k', CloudFile.resolve st root path = some i ∧ Tree (UniqueNames ValidName) st k' i ∧
      st.getSeafdir i = some o' ∧ ∀ m ∈ path, ValidName m := by
  induction h generalizing root k with
  | here o n => exact ⟨root, k, rfl, hT, ho, by simp⟩
  | @down o n sub sub' o' n' d d' path hrow hsame hdir hdir' hsub hsub' hwalk ih =>
    obtain ⟨hmem, -, hname⟩ := Server.mem_treeWalk hrow
    obtain ⟨es, hes, hu, hvalid⟩ := hT.readable
    obtain rfl := mem_unique hes ho
    have hfind : findDirent d'.name es = some d :=
      (findDirent_some hu).2 ⟨hmem d rfl, hname d d' rfl rfl⟩
    have hs : CloudFile.subdir st root d'.name = some d.id :=
      subdir_some.2 ⟨es, d, hes, hfind, hdir, rfl⟩
    obtain ⟨k₁, -, hT₁⟩ := hT.subdir hs
    obtain ⟨i, k', hi, hT', hes', hpath⟩ := ih hT₁ hsub
    refine ⟨i, k', ?_, hT', hes', forall_mem_cons.2 ⟨?_, hpath⟩⟩
    · simpa only [CloudFile.resolve, hs] using hi
    · rw [← hname d d' rfl rfl]
      exact hvalid d (hmem d rfl)

/-- The paths of entries with valid names are these names, joined. -/
def Results.Joins (w : Results Id) : Prop :=
  ∀ ps n, (∀ m ∈ ps ++ [n], ValidName m) → w.path (basedirOf ps) n = joinFields (ps ++ [n])

section

omit [ObjectId Id] [DecidableEq Id]

theorem Server.joins_results : (Server.results : Results Id).Joins :=
  fun ps n _ => basedirOf_append ps n

theorem Fileserver.joins_results : (Fileserver.results : Results Id).Joins :=
  fun _ _ h => join_basedirOf h

end

theorem WalksTo.readable (h : WalksTo st o n path o' n')
    (hT : Tree (UniqueNames ValidName) st k root)
    (hn : st.getSeafdir root = some n) : UniqueNames ValidName n' := by
  induction h generalizing root k with
  | here o n =>
    obtain ⟨es, hes, hnamed⟩ := hT.readable
    exact mem_unique hes hn ▸ hnamed
  | @down o n sub sub' o' n' d d' path hrow hsame hdir hdir' hsub hsub' hwalk ih =>
    obtain ⟨-, hmem, -⟩ := Server.mem_treeWalk hrow
    obtain ⟨es, hes, hu, -⟩ := hT.readable
    obtain rfl := mem_unique hes hn
    have hs : CloudFile.subdir st root d'.name = some d'.id :=
      subdir_some.2 ⟨es, d', hes, (findDirent_some hu).2 ⟨hmem d' rfl, rfl⟩, hdir', rfl⟩
    obtain ⟨k₁, -, hT₁⟩ := hT.subdir hs
    exact ih hT₁ hsub'

theorem sha1_of_deleted (hw : w.Joins) (hT : Tree (UniqueNames ValidName) st k root)
    (ho : st.getSeafdir root = some o) (hitem : FoldedItem st o n [] item)
    (hdel : IsDeleted item.status) (hP : ∀ m ∈ P, ValidName m)
    (hname : (item.toEntry w).name = joinFields P)
    {i : Id} (hi : CloudFile.resolve st root P = some i) :
    P ≠ [] ∧ (item.toEntry w).sha1 = i := by
  obtain ⟨path, o', n', a, b, hwalk, hrow, -, hmem⟩ := hitem
  obtain ⟨hparent, -, hdent⟩ := mem_foldedItems hmem
  have ha : a = some item.dent := hdent.resolve_right fun h => h.1 hdel
  have hd : item.dent ∈ o' := (Server.mem_treeWalk hrow).1 _ ha
  obtain ⟨j, k', hj, hT', ho', hpath⟩ := hwalk.resolve hT ho
  obtain ⟨es, hes, hu, hvalid⟩ := hT'.readable
  obtain rfl := mem_unique hes ho'
  have hall : ∀ m ∈ path ++ [item.dent.name], ValidName m := by
    intro m hm
    rcases mem_append.1 hm with hm | hm
    · exact hpath m hm
    · exact mem_singleton.1 hm ▸ hvalid _ hd
  rw [toEntry_name hmem, hw path item.dent.name hall] at hname
  have hPeq : P = path ++ [item.dent.name] := by
    rw [← fields_joinFields fun m hm => (hP m hm).1, ← hname,
      fields_joinFields fun m hm => (hall m hm).1]
  subst hPeq
  refine ⟨concat_ne_nil _ _, ?_⟩
  obtain ⟨d, -, hentry, -, rfl⟩ := entry_of_resolve hi
  rw [entryAt_concat, hj] at hentry
  have hfind : findDirent item.dent.name es = some d := by simpa [hes] using hentry
  rw [(findDirent_some hu).2 ⟨hd, rfl⟩] at hfind
  cases hfind
  rfl

theorem name_ne_nil (hw : w.Joins) {rootN : Id} (hT : Tree (UniqueNames ValidName) st k root)
    (ho : st.getSeafdir root = some o) (hN : Tree (UniqueNames ValidName) st k rootN)
    (hn : st.getSeafdir rootN = some n)
    (hitem : FoldedItem st o n [] item) : (item.toEntry w).name ≠ [] := by
  obtain ⟨path, o', n', a, b, hwalk, hrow, -, hmem⟩ := hitem
  obtain ⟨j, k', -, hT', ho', hpath⟩ := hwalk.resolve hT ho
  have hdent : ValidName item.dent.name := by
    rcases (mem_foldedItems hmem).2.2 with ha | ⟨-, hb, -⟩
    · obtain ⟨es, hes, -, hvalid⟩ := hT'.readable
      obtain rfl := mem_unique hes ho'
      exact hvalid _ ((Server.mem_treeWalk hrow).1 _ ha)
    · exact (hwalk.readable hN hn).2 _ ((Server.mem_treeWalk hrow).2.1 _ hb)
  have hall : ∀ m ∈ path ++ [item.dent.name], ValidName m := by
    intro m hm
    rcases mem_append.1 hm with hm | hm
    · exact hpath m hm
    · exact mem_singleton.1 hm ▸ hdent
  rw [toEntry_name hmem, hw path item.dent.name hall]
  exact joinFields_ne_nil (concat_ne_nil _ _) hall

theorem sha1_of_renamed (hw : w.Joins) {rootN : Id} (hT : Tree (UniqueNames ValidName) st k root)
    (ho : st.getSeafdir root = some o) (hN : Tree (UniqueNames ValidName) st k rootN)
    (hn : st.getSeafdir rootN = some n) {entries : List (DiffEntry Id)}
    (hentries : ∀ de ∈ entries, ∃ item, FoldedItem st o n [] item ∧ de = item.toEntry w)
    {ch : Change Id} (hch : Origin entries ch) (hstatus : ch.status = .dirRenamed)
    (hP : ∀ m ∈ P, ValidName m) (hname : ch.name = joinFields P) {i : Id}
    (hi : CloudFile.resolve st root P = some i) : P ≠ [] ∧ ch.sha1 = i ∧ ch.newName ≠ [] := by
  cases hch with
  | entry hde =>
    obtain ⟨item, ⟨path, o', n', a, b, -, -, -, hmem⟩, rfl⟩ := hentries _ hde
    have htwo : Fileserver.IsTwoWay DiffStatus.dirRenamed := hstatus ▸ (mem_foldedItems hmem).2.1
    simp [Fileserver.IsTwoWay] at htwo
  | rename hdelm hdel hadd =>
    obtain ⟨item, hitem, rfl⟩ := hentries _ hdelm
    obtain ⟨added, hadded, rfl⟩ := hentries _ hadd
    obtain ⟨hne, hsha1⟩ := sha1_of_deleted hw hT ho hitem hdel hP hname hi
    exact ⟨hne, hsha1, name_ne_nil hw hT ho hN hn hadded⟩

end Renamed

/-! ## Climbing -/

section Climb

variable {st : FsStore Id} {k : ℕ} {root : Id} {changes : List (Change Id)} {ch : Change Id}
  {P Q r as : List Name}

theorem joinFields_append {bs : List Name} (ha : as ≠ []) (hb : bs ≠ []) :
    joinFields (as ++ bs) = joinFields as ++ '/' :: joinFields bs := by
  induction as with
  | nil => exact absurd rfl ha
  | cons a as ih =>
    cases as with
    | nil =>
      obtain ⟨b, bs, rfl⟩ := exists_cons_of_ne_nil hb
      rfl
    | cons a' as =>
      rw [cons_append, cons_append, joinFields, ← cons_append,
        ih (cons_ne_nil _ _), joinFields, append_assoc, cons_append]

theorem join_absolute {names : List Name} (h : ∀ n ∈ names, ValidName n) {texts : List Name}
    (ht : texts.flatMap fields = names) :
    join (['/'] :: texts) = '/' :: joinFields names := by
  have hroot : isRooted (intercalate ['/'] (['/'] :: texts)) = true := by
    cases texts with
    | nil => rfl
    | cons t ts => rfl
  have hfields : fields (intercalate ['/'] (['/'] :: texts)) = names := by
    rw [fields_intercalate, flatMap_cons, ht]
    rfl
  rw [join, if_neg (cons_ne_nil _ _), clean_rooted hroot, comps, hfields,
    cleanFields_plain fun n hn => (h n hn).2]

/-- On the way one directory is renamed, and those below it have other ids. -/
structure OnTheWay (st : FsStore Id) (root : Id) (changes : List (Change Id)) (ch : Change Id)
    (P r : List Name) : Prop where
  names : ∀ n ∈ P ++ r, ValidName n
  ne_nil : P ≠ []
  here : resolve st root P = some ch.sha1
  below : Resolvable st root (P ++ r)
  found : ∀ i, renamedDir changes i = if i = ch.sha1 then some ch else none

theorem OnTheWay.init {n : Name} (h : OnTheWay st root changes ch P (r ++ [n])) :
    OnTheWay st root changes ch P r where
  names m hm := h.names m (by
    rw [← append_assoc]
    exact mem_append_left _ hm)
  ne_nil := h.ne_nil
  here := h.here
  below := by
    have hb := h.below
    rw [Resolvable, ← append_assoc, resolve_append, isSome_iff_exists] at hb
    obtain ⟨i, hi⟩ := hb
    obtain ⟨j, hj, -⟩ := bind_eq_some_iff.1 hi
    rw [Resolvable, hj]
    rfl
  found := h.found

theorem OnTheWay.step {n : Name} (h : OnTheWay st root changes ch P (r ++ [n]))
    (hT : Tree (UniqueNames ValidName) st k root) :
    ∃ i, resolve st root (P ++ (r ++ [n])) = some i ∧ renamedDir changes i = none := by
  obtain ⟨i, hi⟩ := isSome_iff_exists.1 h.below
  refine ⟨i, hi, ?_⟩
  rw [h.found, if_neg]
  rintro rfl
  rw [resolve_append, h.here] at hi
  obtain ⟨k', -, hT'⟩ := hT.resolve h.here
  exact resolve_below_ne hT' (concat_ne_nil n r) hi

theorem Tree.uniqueKeys (h : Tree (UniqueNames ValidName) st k root) :
    Tree (UniqueKeys Dirent.name) st k root :=
  h.imp fun _ hes => hes.1

/-- The file server puts the first name below the renamed directory back, and no other. -/
theorem Fileserver.climb_renamed (headCommit : Id) (hT : Tree (UniqueNames ValidName) st k root)
    (h : OnTheWay st root changes ch P r)
    (hQ : ∀ n ∈ Q, ValidName n) (hnew : ch.newName = joinFields Q) {fuel : ℕ}
    (hfuel : r.length < fuel) {subPath : Name} (hone : (fields subPath).length ≤ 1)
    (hsub : ∀ n ∈ fields subPath, ValidName n) :
    ∃ newName, Fileserver.climb st root headCommit changes fuel ('/' :: joinFields (P ++ r))
        subPath =
      .repointed headCommit ('/' :: joinFields (Q ++ (r ++ fields subPath).take 1)) newName := by
  induction r using reverseRecOn generalizing fuel subPath with
  | nil =>
    obtain ⟨fuel, rfl⟩ := Nat.exists_eq_add_one_of_ne_zero (Nat.ne_of_gt hfuel)
    have hP : ∀ n ∈ P, ValidName n := fun n hn => h.names n (mem_append_left _ hn)
    have hlook := getSeafdirIDByPath_resolve hT.uniqueKeys h.ne_nil hP h.here
    have hQfields : fields (joinFields Q) = Q := fields_joinFields fun n hn => (hQ n hn).1
    have hpath : (if subPath ≠ [] then join [['/'], ch.newName, subPath]
        else join [['/'], ch.newName]) = '/' :: joinFields (Q ++ fields subPath) := by
      have hvalid : ∀ n ∈ Q ++ fields subPath, ValidName n := fun n hn =>
        (mem_append.1 hn).elim (hQ n) (hsub n)
      split_ifs with hne
      · exact join_absolute hvalid (by simp [hnew, hQfields])
      · obtain rfl := not_not.1 hne
        exact join_absolute hvalid (by simp [hnew, hQfields])
    rw [append_nil, nil_append, take_of_length_le hone]
    simp only [climb, hlook, h.found, if_true, hpath]
    exact ⟨_, rfl⟩
  | append_singleton r n ih =>
    obtain ⟨fuel, rfl⟩ := Nat.exists_eq_add_one_of_ne_zero (Nat.ne_of_gt (Nat.zero_lt_of_lt hfuel))
    rw [length_append, length_singleton] at hfuel
    obtain ⟨i, hi, hnone⟩ := h.step hT
    have hne : P ++ (r ++ [n]) ≠ [] := append_ne_nil_of_left_ne_nil h.ne_nil _
    have hlook := getSeafdirIDByPath_resolve hT.uniqueKeys hne h.names hi
    have hn : ValidName n := h.names n (by simp)
    have hfields : fields n = [n] := fields_part hn.1
    have hslash : '/' ∈ joinFields (P ++ (r ++ [n])) := by
      rw [← append_assoc, joinFields_append (append_ne_nil_of_left_ne_nil h.ne_nil r)
        (cons_ne_nil n [])]
      exact mem_append_right _ mem_cons_self
    have hcomps := comps_absolute h.names
    rw [← append_assoc] at hcomps
    have hclean : clean ('/' :: joinFields (P ++ r ++ [n])) =
        '/' :: joinFields (P ++ r ++ [n]) := by
      rw [clean_rooted rfl, hcomps]
    obtain ⟨hbase, hdir⟩ := clean_rooted_split rfl hclean hcomps
    rw [← append_assoc] at hlook hslash ⊢
    simp only [climb, hlook, hnone, tail_cons, hslash, not_true_eq_false, hbase, hdir]
    have hlt : r.length < fuel := by omega
    have hlen : (fields n).length ≤ 1 := by rw [hfields]; exact le_rfl
    have hvalid : ∀ m ∈ fields n, ValidName m := by
      rw [hfields]
      exact fun m hm => mem_singleton.1 hm ▸ hn
    have htake : (r ++ [n] ++ fields subPath).take 1 = (r ++ fields n).take 1 := by
      rw [hfields]
      cases r <;> rfl
    rw [htake]
    exact ih h.init hlt hlen hvalid

def underneath (names : List Name) : Name := if names = [] then [] else '/' :: joinFields names

theorem joinFields_underneath (ha : as ≠ []) (bs : List Name) :
    joinFields (as ++ bs) = joinFields as ++ underneath bs := by
  unfold underneath
  split_ifs with hb
  · rw [hb, append_nil, append_nil]
  · exact joinFields_append ha hb

theorem take_joinFields (ha : as ≠ []) (bs : List Name) :
    ('/' :: joinFields (as ++ bs)).take ('/' :: joinFields as).length = '/' :: joinFields as := by
  rw [joinFields_underneath ha, ← cons_append, take_left']
  rfl

theorem Server.prevSlash_part {q m rest : Name} (hq : q ≠ []) (hm : '/' ∉ m) {l : ℕ}
    (hl : l ≤ m.length) :
    Server.prevSlash (q ++ '/' :: (m ++ rest)) (q.length + l + 1) = q.length := by
  have hpos : 0 < q.length := length_pos_iff.2 hq
  induction l with
  | zero =>
    have hslash : (q ++ '/' :: (m ++ rest))[q.length]? = some '/' := by
      rw [getElem?_append_right le_rfl, Nat.sub_self, getElem?_cons_zero]
    exact if_pos (.inr hslash)
  | succ l ih =>
    rw [prevSlash, if_neg ?_]
    · exact ih (by omega)
    · rintro (hzero | hslash)
      · omega
      · rw [getElem?_append_right (by omega),
          show q.length + (l + 1) - q.length = l + 1 by omega, getElem?_cons_succ,
          getElem?_append_left (by omega)] at hslash
        exact hm (mem_of_getElem? hslash)

/-- seaf-server puts back all that is below the renamed directory. -/
theorem Server.climb_renamed (headCommit : Id) (hT : Tree (UniqueNames ValidName) st k root)
    (h : OnTheWay st root changes ch P r)
    (hQ : Q ≠ []) (hnew : ch.newName = joinFields Q) {fuel : ℕ} (hfuel : r.length < fuel)
    (done : List Name) :
    ∃ newName, Server.climb st root headCommit changes ('/' :: joinFields (P ++ r ++ done)) fuel
        ('/' :: joinFields (P ++ r)).length (if done = [] then none else some (joinFields done)) =
      .repointed headCommit ('/' :: joinFields (Q ++ (r ++ done))) newName := by
  have hne : ∀ r' : List Name, P ++ r' ≠ [] := append_ne_nil_of_left_ne_nil h.ne_nil
  induction r using reverseRecOn generalizing fuel done with
  | nil =>
    obtain ⟨fuel, rfl⟩ := Nat.exists_eq_add_one_of_ne_zero (Nat.ne_of_gt hfuel)
    have hP : ∀ n ∈ P, ValidName n := fun n hn => h.names n (mem_append_left _ hn)
    rw [append_nil]
    have hlook := seafdirIdByPath_resolve hT.uniqueKeys h.ne_nil hP h.here
    simp only [climb, take_joinFields h.ne_nil, hlook, h.found, if_true, nil_append,
      joinFields_underneath hQ, hnew]
    by_cases hd : done = []
    · subst hd
      have hend : joinFields Q ++ underneath [] = joinFields Q := append_nil _
      rw [hend]
      exact ⟨_, rfl⟩
    · rw [if_neg hd, underneath, if_neg hd]
      exact ⟨_, rfl⟩
  | append_singleton r n ih =>
    obtain ⟨fuel, rfl⟩ := Nat.exists_eq_add_one_of_ne_zero (Nat.ne_of_gt (Nat.zero_lt_of_lt hfuel))
    rw [length_append] at hfuel
    obtain ⟨i, hi, hnone⟩ := h.step hT
    have hlook := seafdirIdByPath_resolve hT.uniqueKeys (hne _) h.names hi
    have hn : '/' ∉ n := (h.names n (by simp)).1.2
    -- the path, cut at the name the loop goes past
    have hcut : '/' :: joinFields (P ++ (r ++ [n]) ++ done) =
        ('/' :: joinFields (P ++ r)) ++ '/' :: (n ++ underneath done) := by
      rw [joinFields_underneath (hne _), ← append_assoc, joinFields_append (hne r)
        (cons_ne_nil n [])]
      simp [joinFields]
    have hlen : ('/' :: joinFields (P ++ (r ++ [n]))).length =
        ('/' :: joinFields (P ++ r)).length + n.length + 1 := by
      rw [← append_assoc, joinFields_append (hne r) (cons_ne_nil n [])]
      simp [joinFields]
      omega
    have hslash : prevSlash ('/' :: joinFields (P ++ (r ++ [n]) ++ done))
        ('/' :: joinFields (P ++ (r ++ [n]))).length = ('/' :: joinFields (P ++ r)).length := by
      rw [hcut, hlen]
      exact prevSlash_part (cons_ne_nil _ _) hn le_rfl
    have hdrop : ('/' :: joinFields (P ++ (r ++ [n]) ++ done)).drop
        (('/' :: joinFields (P ++ r)).length + 1) = joinFields (n :: done) := by
      rw [hcut, drop_append, Nat.add_sub_cancel_left,
        drop_eq_nil_of_le (Nat.le_succ _)]
      exact (joinFields_underneath (cons_ne_nil n []) done).symm
    simp only [climb, take_joinFields (hne _), hlook, hnone, hslash, hdrop]
    have hassoc : ∀ as : List Name, as ++ (r ++ [n]) ++ done = as ++ r ++ n :: done := by
      intro as
      rw [← append_assoc, append_assoc, singleton_append]
    rw [hassoc]
    have hih := ih h.init (Nat.lt_of_succ_lt_succ hfuel) (n :: done)
    rw [append_assoc r]
    exact hih

end Climb

/-! ## Following the folder -/

section Follow

variable {st : FsStore Id} {k : ℕ} {root rootN : Id} {o n : List (Dirent Id)} {w : Results Id}
  {P Q r : List Name}

theorem Tree.depthLe (hT : Tree (UniqueNames ValidName) st k root)
    (hn : st.getSeafdir root = some n) :
    DepthLe st k n := by
  induction k generalizing root n with
  | zero => exact hT.elim
  | succ k ih =>
    obtain ⟨es, hes, -, hsub⟩ := hT
    obtain rfl := mem_unique hes hn
    intro d hd hdir sub hsubdir
    exact ih (hsub d hd hdir) hsubdir

theorem length_le_joinFields (names : List Name) :
    names.length ≤ (joinFields names).length + 1 := by
  induction names with
  | nil => exact Nat.zero_le _
  | cons m names ih =>
    cases names with
    | nil => exact Nat.le_add_left _ _
    | cons m' names =>
      have hlen : (joinFields (m :: m' :: names)).length =
          m.length + ((joinFields (m' :: names)).length + 1) := length_append
      rw [length_cons]
      omega

theorem validName_of_resolve (hT : Tree (UniqueNames ValidName) st k root) {names : List Name}
    {i : Id}
    (h : resolve st root names = some i) : ∀ m ∈ names, ValidName m := by
  induction names generalizing root k with
  | nil => simp
  | cons m names ih =>
    obtain ⟨j, hj, hi⟩ := resolve_cons_some.1 h
    obtain ⟨es, d, hes, hfind, -, -⟩ := subdir_some.1 hj
    obtain ⟨es', hes', hu, hvalid⟩ := hT.readable
    obtain rfl := mem_unique hes' hes
    obtain ⟨hd, rfl⟩ := (findDirent_some hu).1 hfind
    obtain ⟨k', -, hT'⟩ := hT.subdir hj
    exact forall_mem_cons.2 ⟨hvalid d hd, ih hT' hi⟩

/-- The changes hold one renamed directory, from `P` to `Q`. -/
def OneRename (changes : Option (List (Change Id))) (P Q : List Name) : Prop :=
  ∃ cs ch, changes = some cs ∧ cs.filter (fun c => c.status = .dirRenamed) = [ch] ∧
    ch.name = joinFields P ∧ ch.newName = joinFields Q

omit [ObjectId Id] in
theorem renamedDir_of_filter {cs : List (Change Id)} {ch : Change Id}
    (h : cs.filter (fun c => c.status = .dirRenamed) = [ch]) (i : Id) :
    renamedDir cs i = if i = ch.sha1 then some ch else none := by
  have hfind : renamedDir cs i =
      (cs.filter fun c => c.status = .dirRenamed).find? fun c => c.sha1 = i := by
    rw [find?_filter, renamedDir]
    simp only [Bool.decide_and, Bool.decide_eq_true]
  rw [hfind, h, find?_singleton]
  simp only [decide_eq_true_eq, eq_comm (b := ch.sha1)]

theorem OneRename.onTheWay (hputs : w.Puts) (hjoins : w.Joins)
    (hT : Tree (UniqueNames ValidName) st k root)
    (hN : Tree (UniqueNames ValidName) st k rootN) (hP : Resolvable st root (P ++ r))
    {resolveRenames : List (DiffEntry Id) → List (Change Id)}
    (horigin : ∀ entries, ∀ ch ∈ resolveRenames entries, Origin entries ch)
    (h : OneRename ((diffTrees Server.treeWalk st (twoway w true) k [root, rootN] []).map
      resolveRenames) P Q) :
    ∃ cs ch, (diffTrees Server.treeWalk st (twoway w true) k [root, rootN] []).map
        resolveRenames = some cs ∧
      OnTheWay st root cs ch P r ∧ Q ≠ [] ∧ ch.newName = joinFields Q := by
  obtain ⟨cs, ch, hcs, hone, hname, hnew⟩ := h
  obtain ⟨entries, hentries, rfl⟩ := map_eq_some_iff.1 hcs
  obtain ⟨o, ho, -⟩ := hT.readable
  obtain ⟨n, hn, -⟩ := hN.readable
  have hfolded : ∀ de ∈ entries, ∃ item, FoldedItem st o n [] item ∧ de = item.toEntry w := by
    have hrun : diffTreesRecursive Server.treeWalk st (twoway w true) k [o, n] (basedirOf [])
        [] = some entries := by
      simpa [diffTrees, basedirOf, ho, hn] using hentries
    intro de hde
    have hmem := ((twoway_gathers hputs (hN.depthLe hn)).mem [] entries hrun de).1 hde
    exact hmem.resolve_left not_mem_nil
  obtain ⟨hch, hstatus⟩ := mem_filter.1 (hone ▸ mem_singleton_self ch)
  obtain ⟨i, hi⟩ := isSome_iff_exists.1 hP
  have hnames := validName_of_resolve hT hi
  rw [resolve_append] at hi
  obtain ⟨j, hj, -⟩ := bind_eq_some_iff.1 hi
  obtain ⟨hne, rfl, hnewName⟩ := sha1_of_renamed hjoins hT ho hN hn hfolded (horigin _ ch hch)
    (of_decide_eq_true hstatus) (validName_of_resolve hT hj) hname hj
  refine ⟨_, ch, hcs, ⟨hnames, hne, hj, hP, renamedDir_of_filter hone⟩, ?_, hnew⟩
  rintro rfl
  exact hnewName hnew

/-- The virtual library is pointed to the folder of these names. -/
def PointsTo (headCommit : Id) (names : List Name) (f : Followed Id) : Prop :=
  ∃ newName, f = .repointed headCommit ('/' :: joinFields names) newName

omit [ObjectId Id] [DecidableEq Id] in
theorem pointsTo_repointed {headCommit : Id} {names names' : List Name} {newName : Option Name}
    (h : ∀ m ∈ names, ValidName m) (h' : ∀ m ∈ names', ValidName m) :
    PointsTo headCommit names (.repointed headCommit ('/' :: joinFields names') newName) ↔
      names = names' := by
  constructor
  · rintro ⟨_, hf⟩
    have hpath : '/' :: joinFields names' = '/' :: joinFields names :=
      (Followed.repointed.inj hf).2.1
    rw [← fields_absolute h, ← hpath, fields_absolute h']
  · rintro rfl
    exact ⟨newName, rfl⟩

/-- **Where a virtual library goes** when `P` on its path is renamed to `Q`: seaf-server follows to
    any depth, the file server to the renamed directory or right below it. -/
theorem missing_followed_iff (order : MapOrder Id) (headCommit : Id)
    (hparent : Tree (UniqueNames ValidName) st k root)
    (hhead : Tree (UniqueNames ValidName) st k rootN)
    (hP : Resolvable st root (P ++ r)) (hQ : Resolvable st rootN (Q ++ r))
    (hserver : OneRename (Server.diffCommits st k root rootN true) P Q)
    (hfileserver : OneRename (Fileserver.diffCommits order.order st k root rootN true) P Q) :
    PointsTo headCommit (Q ++ r) (Server.handleMissingVirtualRepo st k root rootN headCommit
        ('/' :: joinFields (P ++ r))) ∧
      (PointsTo headCommit (Q ++ r) (Fileserver.handleMissingVirtualRepo order.order st k root rootN
        headCommit ('/' :: joinFields (P ++ r))) ↔ r.length ≤ 1) := by
  obtain ⟨i, hi⟩ := isSome_iff_exists.1 hQ
  have hvalid := validName_of_resolve hhead hi
  have hQvalid : ∀ m ∈ Q, ValidName m := fun m hm => hvalid m (mem_append_left _ hm)
  have hfuel : r.length < ('/' :: joinFields (P ++ r)).length + 1 := by
    have hlen := length_le_joinFields (P ++ r)
    rw [length_append] at hlen
    rw [length_cons]
    omega
  constructor
  · obtain ⟨cs, ch, hcs, hway, hne, hnew⟩ := hserver.onTheWay Server.puts_results
      Server.joins_results hparent hhead hP fun es =>
        (Server.diffResolveRenames_resolved es).origin fun _ => id
    obtain ⟨newName, hclimb⟩ := Server.climb_renamed headCommit hparent hway hne hnew hfuel []
    refine ⟨newName, ?_⟩
    rw [append_nil, append_nil] at hclimb
    rw [Server.handleMissingVirtualRepo, show Server.diffCommits st k root rootN true = _ from hcs]
    exact hclimb
  · rw [Fileserver.diffCommits, Fileserver.diffCommitRoots,
      show Fileserver.treeWalk = Server.treeWalk from funext Fileserver.treeWalk_eq] at hfileserver
    obtain ⟨cs, ch, hcs, hway, hne, hnew⟩ := hfileserver.onTheWay Fileserver.puts_results
      Fileserver.joins_results hparent hhead hP fun es =>
        (Fileserver.diffResolveRenames_resolved order.perm es).origin
          fun _ => mem_of_mem_filter
    have hfields : fields [] = [] := rfl
    obtain ⟨newName, hhandle⟩ : ∃ newName, Fileserver.handleMissingVirtualRepo order.order st k root
        rootN headCommit ('/' :: joinFields (P ++ r)) =
        .repointed headCommit ('/' :: joinFields (Q ++ r.take 1)) newName := by
      rw [Fileserver.handleMissingVirtualRepo, Fileserver.diffCommits, Fileserver.diffCommitRoots,
        show Fileserver.treeWalk = Server.treeWalk from funext Fileserver.treeWalk_eq, hcs]
      have hclimb := Fileserver.climb_renamed headCommit hparent hway hQvalid hnew hfuel
        (hfields ▸ Nat.zero_le 1) (hfields ▸ forall_mem_nil _)
      rwa [hfields, append_nil] at hclimb
    have htake : ∀ m ∈ Q ++ r.take 1, ValidName m := fun m hm =>
      hvalid m ((mem_append.1 hm).elim (mem_append_left _) fun h =>
        mem_append_right _ (mem_of_mem_take h))
    rw [hhandle, pointsTo_repointed hvalid htake, append_cancel_left_eq, eq_comm,
      take_eq_self_iff]

end Follow

/-! ## A folder two levels below the renamed directory -/

def folderEntry (id : ℕ) (name : Name) : Dirent ℕ := .new 0o040000 id name 0 [] 0

def folderTop : Dirent ℕ := folderEntry (seafDirId [folderEntry emptySha1 ['b']]) ['a']

def topRoot (name : Name) : List (Dirent ℕ) := [folderEntry (seafDirId [folderTop]) name]

/-- The parent of the head, with `p`, and the head, with `q` instead. -/
def renamedStore : FsStore ℕ :=
  (((FsStore.empty.insert (.dir [folderEntry emptySha1 ['b']]) (by simp [FsObj.Nonempty])).insert
    (.dir [folderTop]) (by simp [FsObj.Nonempty])).insert
    (.dir (topRoot ['p'])) (by simp [FsObj.Nonempty, topRoot])).insert
    (.dir (topRoot ['q'])) (by simp [FsObj.Nonempty, topRoot])

def renamedChange : Change ℕ := ⟨.dirRenamed, seafDirId [folderTop], ['p'], ['q']⟩

theorem missing_followed_child :
    PointsTo 9 [['q'], ['a']] (Server.handleMissingVirtualRepo renamedStore 4
      (seafDirId (topRoot ['p'])) (seafDirId (topRoot ['q'])) 9 "/p/a".toList) ∧
    PointsTo 9 [['q'], ['a']] (Fileserver.handleMissingVirtualRepo id renamedStore 4
      (seafDirId (topRoot ['p'])) (seafDirId (topRoot ['q'])) 9 "/p/a".toList) := by
  have hparent : Tree (UniqueNames ValidName) renamedStore 4 (seafDirId (topRoot ['p'])) := by
    decide +kernel
  have hhead : Tree (UniqueNames ValidName) renamedStore 4 (seafDirId (topRoot ['q'])) := by
    decide +kernel
  have hP : Resolvable renamedStore (seafDirId (topRoot ['p'])) ([['p']] ++ [['a']]) := by
    decide +kernel
  have hQ : Resolvable renamedStore (seafDirId (topRoot ['q'])) ([['q']] ++ [['a']]) := by
    decide +kernel
  have h := missing_followed_iff ⟨id, fun _ => .refl _⟩ 9 hparent hhead hP hQ
    ⟨[renamedChange], renamedChange, by decide +kernel, rfl, rfl, rfl⟩
    ⟨[renamedChange], renamedChange, by decide +kernel, rfl, rfl, rfl⟩
  exact ⟨h.1, h.2.2 le_rfl⟩

/-- The folder `p/a/b` is in the head as `q/a/b`.  The file server points the library to `q/a`. -/
theorem missing_not_followed :
    Resolvable renamedStore (seafDirId (topRoot ['p'])) [['p'], ['a'], ['b']] ∧
    Resolvable renamedStore (seafDirId (topRoot ['q'])) [['q'], ['a'], ['b']] ∧
    ¬ Resolvable renamedStore (seafDirId (topRoot ['q'])) [['p'], ['a'], ['b']] ∧
    OneRename (Fileserver.diffCommits id renamedStore 4 (seafDirId (topRoot ['p']))
      (seafDirId (topRoot ['q'])) true) [['p']] [['q']] ∧
    Server.handleMissingVirtualRepo renamedStore 4 (seafDirId (topRoot ['p']))
      (seafDirId (topRoot ['q'])) 9 "/p/a/b".toList = .repointed 9 "/q/a/b".toList none ∧
    Fileserver.handleMissingVirtualRepo id renamedStore 4 (seafDirId (topRoot ['p']))
      (seafDirId (topRoot ['q'])) 9 "/p/a/b".toList = .repointed 9 "/q/a".toList none := by
  refine ⟨by decide +kernel, by decide +kernel, by decide +kernel, ?_, by decide +kernel,
    by decide +kernel⟩
  exact ⟨[renamedChange], renamedChange, by decide +kernel, rfl, rfl, rfl⟩

end CloudFile
