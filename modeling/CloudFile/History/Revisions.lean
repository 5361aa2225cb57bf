/-
  The listing of the revisions of a file (`server/repo-op.c`). The callback stops at a commit
  without the file. On the others it looks at the file of the commit and of its parents, so the
  revisions are those of `revisionOf`, in the order of the visits (`foldlM_collect`).
-/
import CloudFile.History.FileInfo
import CloudFile.History.Traverse
import CloudFile.Diff.Renames

namespace CloudFile

open GoPath GLibPath List
open Worklist (Walk State)

variable {Id : Type} [ObjectId Id] [DecidableEq Id]

/-- A row of the listing; the last one tells the path before a rename. -/
structure FileRevision (Id : Type) where
  commit : Commit Id
  fileId : Id
  fileSize : ℤ
  renamedOldPath : Option Name
deriving DecidableEq

/-- A library, as the listing reads it; the depth bounds the recursion of a diff. -/
structure RevisionRepo (Id : Type) [ObjectId Id] where
  get : Id → Option (Commit Id)
  store : FsStore Id
  version : ℕ
  head : Id
  truncateTime : ℤ
  depth : ℕ

/-- `CollectRevisionParam`, as far as it changes; the revision found last comes first. -/
structure CollectRevisionParam (Id : Type) where
  gotLatest : Bool
  gotSecond : Bool
  notFoundFile : Bool
  wanted : List (FileRevision Id)
  cache : FileInfoCache Id
  error : Option PathErr

namespace CollectRevisionParam

def new (gotLatest gotSecond : Bool) : CollectRevisionParam Id where
  gotLatest := gotLatest
  gotSecond := gotSecond
  notFoundFile := false
  wanted := []
  cache _ := none
  error := none

variable (data : CollectRevisionParam Id)

def addRevisionInfo (commit : Commit Id) (info : FileInfo Id) : CollectRevisionParam Id :=
  { data with wanted := ⟨commit, info.fileId, info.fileSize, none⟩ :: data.wanted }

/-- The first revision is the latest one, the next one the second. -/
def noteRevision : CollectRevisionParam Id :=
  { data with gotLatest := true, gotSecond := data.gotLatest || data.gotSecond }

end CollectRevisionParam

namespace Revision

variable (r : RevisionRepo Id) (path : Name)

/-- Whether a parent has the same file; a failure may leave an error. -/
def sameInParent (info : FileInfo Id) (cache : FileInfoCache Id) (parentId : Id) :
    Except (Option PathErr) Bool × FileInfoCache Id :=
  match r.get parentId with
  | none => (.error none, cache)
  | some parent => match getFileInfo r.store r.version path parent cache (some info) with
    | .error e => (.error (some e), cache)
    | .ok (parentInfo, cache) => (.ok (parentInfo.any fun i => i.fileId = info.fileId), cache)

/-- The parents in turn, up to the first one with the same file. -/
def sameInParents (info : FileInfo Id) :
    List Id → FileInfoCache Id → Except (Option PathErr) Bool × FileInfoCache Id
  | [], cache => (.ok false, cache)
  | p :: ps, cache => match sameInParent r path info cache p with
    | (.ok false, cache) => sameInParents info ps cache
    | (res, cache) => (res, cache)

/-- The end of the callback: the info of the commit is not needed any more. -/
def out (commit : Commit Id) (data : CollectRevisionParam Id) (ok stop : Bool) :
    Call (CollectRevisionParam Id) where
  data := { data with cache := Function.update data.cache commit.commitId none }
  ok := ok
  stop := stop

/-- The part of the callback for a commit that has the file. -/
def collectFound (commit : Commit Id) (info : FileInfo Id) (data : CollectRevisionParam Id) :
    Call (CollectRevisionParam Id) :=
  if commit.parentId = none then out commit (data.addRevisionInfo commit info) true false
  else match sameInParents r path info commit.parents data.cache with
    | (.error e, cache) => out commit { data with cache := cache, error := e } false false
    | (.ok true, cache) => out commit { data with cache := cache } true false
    | (.ok false, cache) =>
      out commit ({ data with cache := cache }.noteRevision.addRevisionInfo commit info) true false

def collectFileRevisions (commit : Commit Id) (data : CollectRevisionParam Id) :
    Call (CollectRevisionParam Id) :=
  if data.gotLatest = true ∧ r.truncateTime = 0 then ⟨data, true, true⟩
  else if data.gotLatest = true ∧ 0 < r.truncateTime ∧ commit.time < r.truncateTime ∧
      data.gotSecond = true then ⟨{ data with notFoundFile := true }, true, true⟩
  else match getFileInfo r.store r.version path commit data.cache none with
    | .error e => out commit { data with error := some e } false false
    | .ok (none, cache) =>
      out commit { data with cache := cache, notFoundFile := true, error := none } true true
    | .ok (some info, cache) =>
      collectFound r path commit info { data with cache := cache, error := none }

def pathExistsInCommit (commitId : Id) (path : Name) : Bool :=
  (r.get commitId).any fun c =>
    (found (Server.pathToObjId r.store c.rootId path)).isSome

/-- The changes of a commit: against its parent, or of a merge against both. -/
def changesOf (commit : Commit Id) : Option (List (Change Id)) := do
  let p1 ← commit.parentId.bind r.get
  commit.secondParentId.elim (Server.diffCommits r.store r.depth p1.rootId commit.rootId false)
    fun second => do
      let p2 ← r.get second
      Server.diffMerge r.store r.depth commit.rootId p1.rootId p2.rootId

/-- `detect_rename_revision`: the parent commit with the old path, and that path. -/
def detectRenameRevision (commit : Commit Id) : Option (Id × Name) := do
  let changes ← changesOf r commit
  let parentId ← commit.parentId
  let de ← changes.find? fun de =>
    de.status = .renamed && de.newName = path.dropWhile (· = '/')
  commit.secondParentId.elim (some (parentId, de.name)) fun second =>
    if pathExistsInCommit r parentId de.name then some (parentId, de.name)
    else if pathExistsInCommit r second de.name then some (second, de.name)
    else none

/-- `convert_rpc_commit_list`: the old path of a rename goes to the last row. -/
def convertRpcCommitList (rows : List (FileRevision Id)) (oldPath : Option Name) :
    List (FileRevision Id) :=
  rows.dropLast ++ rows.getLast?.toList.map fun row => { row with renamedOldPath := oldPath }

/-- A call of the listing: its rows, the commit to go on from, and the flags. -/
structure ListedPage (Id : Type) where
  revisions : List (FileRevision Id)
  nextStartCommit : Option Id
  gotLatest : Bool
  gotSecond : Bool

def listed (data : CollectRevisionParam Id) (next : Option Id) : ListedPage Id :=
  let renamed := data.wanted.head?.bind fun last => detectRenameRevision r path last.commit
  { revisions := convertRpcCommitList data.wanted.reverse
      (renamed.map fun p => if p.2.head? = some '/' then p.2 else '/' :: p.2)
    -- a rename goes on at the parent with the old path; a commit without the file ends the list
    nextStartCommit := (renamed.map Prod.fst).or (if data.notFoundFile then none else next)
    gotLatest := data.gotLatest
    gotSecond := data.gotSecond }

/-- `seaf_repo_manager_list_file_revisions` -/
def listFileRevisions (limit : ℤ) (fuel : ℕ) (startCommitId : Option Id)
    (gotLatest gotSecond : Bool) : Option (ListedPage Id) :=
  (traverseCommitTreeWithLimit r.get true (collectFileRevisions r path) limit fuel
    (startCommitId.getD r.head) (.new gotLatest gotSecond)).map
    fun p => listed r path p.1 p.2

/-! ## What is collected -/

variable {r path} {names : List Name} {name : Name}

def fileOf (r : RevisionRepo Id) (names : List Name) (name : Name) (c : Commit Id) :
    Option (Dirent Id) := fileAt r.store name c.rootId names

def hasFile (r : RevisionRepo Id) (names : List Name) (name : Name) (c : Commit Id) : Bool :=
  (fileOf r names name c).isSome

def parentHas (r : RevisionRepo Id) (names : List Name) (name : Name) (fileId parentId : Id) :
    Bool :=
  (r.get parentId).any fun q => (fileOf r names name q).any fun d => d.id = fileId

/-- The row of a commit that changes the file: no parent has the same one. -/
def revisionOf (r : RevisionRepo Id) (names : List Name) (name : Name) (c : Commit Id) :
    Option (FileRevision Id) :=
  (fileOf r names name c).bind fun d =>
    if c.parents.any (parentHas r names name d.id) then none
    else some ⟨c, d.id, sizeOf r.store r.version d, none⟩

/-- A commit whose trees can be read, and with a second parent only besides a first one. -/
structure Sound (r : RevisionRepo Id) (c : Commit Id) : Prop where
  saved : r.get c.commitId = some c
  tree : ∃ k, Tree (fun _ => True) r.store k c.rootId
  parents : c.parentId = none → c.secondParentId = none

variable {c : Commit Id} {info : FileInfo Id} {cache : FileInfoCache Id}
  {data : CollectRevisionParam Id}

theorem sameInParent_eq (hp : IsFilePath path names name) {q : Commit Id} {p : Id}
    (hget : r.get p = some q) (hq : Sound r q)
    (hcache : CacheFits r.get r.store r.version names name cache)
    (hinfo : Fits r.store r.version names name c info) :
    ∃ cache', sameInParent r path info cache p =
        (.ok (parentHas r names name info.fileId p), cache') ∧
      CacheFits r.get r.store r.version names name cache' := by
  obtain ⟨k, hT⟩ := hq.tree
  have hlast : ∀ i ∈ some info, Fits r.store r.version names name c i := by
    rintro i ⟨⟩
    exact hinfo
  obtain ⟨pinfo, cache', hlookup, hcache', hfits, hsome⟩ :=
    getFileInfo_spec hp hq.saved hT hcache hlast
  refine ⟨cache', ?_, hcache'⟩
  unfold sameInParent parentHas fileOf
  rw [hget]
  simp only [hlookup, Option.any_some]
  cases pinfo with
  | none =>
    rw [Option.isSome_none, eq_comm, Option.isSome_eq_false_iff, Option.isNone_iff_eq_none] at hsome
    rw [hsome]
    rfl
  | some i =>
    obtain ⟨d, hd, hid, -⟩ := (hfits i rfl).file
    simp [hd, hid]

theorem sameInParents_eq (hp : IsFilePath path names name) {ps : List Id}
    (hps : ∀ p ∈ ps, ∃ q, r.get p = some q ∧ Sound r q)
    (hcache : CacheFits r.get r.store r.version names name cache)
    (hinfo : Fits r.store r.version names name c info) :
    ∃ cache', sameInParents r path info ps cache =
        (.ok (ps.any (parentHas r names name info.fileId)), cache') ∧
      CacheFits r.get r.store r.version names name cache' := by
  induction ps generalizing cache with
  | nil => exact ⟨cache, rfl, hcache⟩
  | cons p ps ih =>
    obtain ⟨q, hget, hq⟩ := hps p mem_cons_self
    obtain ⟨cache₁, hsame, hcache₁⟩ := sameInParent_eq hp hget hq hcache hinfo
    unfold sameInParents
    rw [hsame, any_cons]
    cases parentHas r names name info.fileId p with
    | true => exact ⟨cache₁, rfl, hcache₁⟩
    | false => exact ih (fun p hp => hps p (mem_cons_of_mem _ hp)) hcache₁

structure Collected (r : RevisionRepo Id) (names : List Name) (name : Name) (c : Commit Id)
    (data : CollectRevisionParam Id) (res : Call (CollectRevisionParam Id)) : Prop where
  ok : res.ok = true
  stop : res.stop = !hasFile r names name c
  cache : CacheFits r.get r.store r.version names name res.data.cache
  wanted : res.data.wanted = (revisionOf r names name c).toList ++ data.wanted
  notFound : res.data.notFoundFile = (data.notFoundFile || !hasFile r names name c)

theorem collectFound_collected (hp : IsFilePath path names name) (hc : Sound r c)
    (hps : ∀ p ∈ c.parents, ∃ q, r.get p = some q ∧ Sound r q)
    (hcache : CacheFits r.get r.store r.version names name data.cache)
    (hinfo : Fits r.store r.version names name c info) :
    Collected r names name c data (collectFound r path c info data) := by
  obtain ⟨d, hd, hid, hsize⟩ := hinfo.file
  have hhas : hasFile r names name c = true := by
    unfold hasFile fileOf
    rw [hd]
    rfl
  have hrev : revisionOf r names name c =
      if c.parents.any (parentHas r names name info.fileId) then none
      else some ⟨c, info.fileId, info.fileSize, none⟩ := by
    unfold revisionOf fileOf
    rw [hd, Option.bind_some, hid, hsize]
  unfold collectFound
  split_ifs with hinit
  · -- an initial commit has no parents
    have hparents : c.parents = [] := by
      unfold Commit.parents
      rw [hinit, hc.parents hinit]
      rfl
    rw [hparents] at hrev
    exact ⟨rfl, by rw [hhas]; rfl, hcache.erase _, by rw [hrev]; rfl, by rw [hhas]; simp [out,
      CollectRevisionParam.addRevisionInfo]⟩
  · obtain ⟨cache', hsame, hcache'⟩ := sameInParents_eq hp hps hcache hinfo
    rw [hsame]
    cases hany : c.parents.any (parentHas r names name info.fileId) with
    | true =>
      rw [hany] at hrev
      exact ⟨rfl, by rw [hhas]; rfl, hcache'.erase _, by rw [hrev]; rfl, by rw [hhas]; simp [out]⟩
    | false =>
      rw [hany] at hrev
      exact ⟨rfl, by rw [hhas]; rfl, hcache'.erase _, by rw [hrev]; rfl, by rw [hhas]; simp [out,
        CollectRevisionParam.addRevisionInfo, CollectRevisionParam.noteRevision]⟩

/-- **One call of the callback**, in a library that keeps its whole history. -/
theorem collectFileRevisions_collected (hp : IsFilePath path names name)
    (htime : r.truncateTime < 0) (hc : Sound r c)
    (hps : hasFile r names name c = true → ∀ p ∈ c.parents, ∃ q, r.get p = some q ∧ Sound r q)
    (hcache : CacheFits r.get r.store r.version names name data.cache) :
    Collected r names name c data (collectFileRevisions r path c data) := by
  obtain ⟨k, hT⟩ := hc.tree
  have hlast : ∀ i ∈ (none : Option (FileInfo Id)), Fits r.store r.version names name c i := by simp
  obtain ⟨info, cache', hlookup, hcache', hfits, hsome⟩ :=
    getFileInfo_spec hp hc.saved hT hcache hlast
  unfold collectFileRevisions
  rw [if_neg (by omega), if_neg (by omega), hlookup]
  cases info with
  | none =>
    have hno : hasFile r names name c = false := hsome.symm
    have hrev : revisionOf r names name c = none := by
      rw [hasFile, Option.isSome_eq_false_iff, Option.isNone_iff_eq_none] at hno
      rw [revisionOf, hno]
      rfl
    exact ⟨rfl, by rw [hno]; rfl, hcache'.erase _, by rw [hrev]; rfl, by rw [hno]; simp [out]⟩
  | some info =>
    have hhas : hasFile r names name c = true := hsome.symm
    have h : Collected r names name c { data with cache := cache', error := none }
        (collectFound r path c info { data with cache := cache', error := none }) :=
      collectFound_collected hp hc (hps hhas) hcache' (hfits info rfl)
    exact ⟨h.ok, h.stop, h.cache, h.wanted, h.notFound⟩

structure SoundHistory (r : RevisionRepo Id) (names : List Name) (name : Name) (head : Id) :
    Prop where
  history : History r.get (hasFile r names name) head
  sound : ∀ c : Commit Id, c.InHistory r.get (hasFile r names name) head → Sound r c

section Sound

variable {head : Id} (hs : SoundHistory r names name head) (hp : IsFilePath path names name)
  (htime : r.truncateTime < 0)
include hs hp htime

theorem SoundHistory.collected (hc : c.InHistory r.get (hasFile r names name) head)
    (hcache : CacheFits r.get r.store r.version names name data.cache) :
    Collected r names name c data (collectFileRevisions r path c data) := by
  refine collectFileRevisions_collected hp htime (hs.sound c hc) (fun hhas p hmem => ?_) hcache
  obtain ⟨q, hget, hq⟩ := hs.history.parents_readable hc hhas hmem
  exact ⟨q, hget, hs.sound q hq⟩

theorem SoundHistory.follows :
    Follows (Commit.InHistory r.get (hasFile r names name) head) (hasFile r names name)
      (fun data => CacheFits r.get r.store r.version names name data.cache)
      (collectFileRevisions r path) where
  stop _ _ hc hcache := (hs.collected hp htime hc hcache).stop
  keeps _ _ hc hcache := (hs.collected hp htime hc hcache).cache

variable {V : List (Commit Id)}

/-- **The calls of the callback** on a list of commits. -/
theorem foldlM_collect (hV : ∀ c ∈ V, c.InHistory r.get (hasFile r names name) head)
    (hcache : CacheFits r.get r.store r.version names name data.cache) :
    ∃ data', V.foldlM (called true (collectFileRevisions r path)) data = some data' ∧
      data'.wanted = (V.filterMap (revisionOf r names name)).reverse ++ data.wanted ∧
      data'.notFoundFile = (data.notFoundFile || V.any fun c => !hasFile r names name c) := by
  induction V generalizing data with
  | nil => exact ⟨data, rfl, rfl, by simp⟩
  | cons c V ih =>
    have h := hs.collected hp htime (hV c mem_cons_self) hcache
    obtain ⟨data', hfold, hwanted, hnot⟩ :=
      ih (fun x hx => hV x (mem_cons_of_mem c hx)) h.cache
    refine ⟨data', ?_, ?_, ?_⟩
    · rw [foldlM_cons, called, if_neg (by simp)]
      exact hfold
    · rw [hwanted, h.wanted, filterMap_cons]
      cases revisionOf r names name c <;> simp
    · rw [hnot, h.notFound, any_cons, Bool.or_assoc]

/-- **One call of the listing**: the revisions of the page, and whether a commit without the file
    was met. -/
theorem listFileRevisions_page (hc : c.InHistory r.get (hasFile r names name) head) {limit : ℤ}
    {t : State (Commit Id)}
    (hpage : Page r.get (hasFile r names name) limit 0 (Worklist.start c) V t) {start : Option Id}
    (hstart : start.getD r.head = c.commitId) (gotLatest gotSecond : Bool) :
    ∃ data, data.wanted = (V.filterMap (revisionOf r names name)).reverse ∧
      data.notFoundFile = (V.any fun c => !hasFile r names name c) ∧
      ∀ fuel, V.length ≤ fuel → listFileRevisions r path limit fuel start gotLatest gotSecond =
        some (listed r path data (t.waiting.head?.map Commit.commitId)) := by
  have hV : ∀ b ∈ V, b.InHistory r.get (hasFile r names name) head := fun b hb =>
    inHistory_of_walk hs.history hc hpage.walk b (mem_append_left _ hb)
  have hnew : CacheFits r.get r.store r.version names name
      (CollectRevisionParam.new gotLatest gotSecond : CollectRevisionParam Id).cache :=
    fun _ _ hinfo => by cases hinfo
  obtain ⟨data, hfold, hwanted, hnot⟩ := foldlM_collect hs hp htime hV hnew
  refine ⟨data, by rw [hwanted]; exact append_nil _, hnot, fun fuel hfuel => ?_⟩
  unfold listFileRevisions
  rw [hstart, traverseCommitTreeWithLimit_page hs.history (hs.follows hp htime) hc hpage hfuel hnew,
    hfold]
  rfl

end Sound

/-! ## All revisions -/

variable {head : Id}

omit [ObjectId Id] [DecidableEq Id] in
theorem map_convertRpcCommitList {α : Type} (f : FileRevision Id → α)
    (hf : ∀ row old, f { row with renamedOldPath := old } = f row) (rows : List (FileRevision Id))
    (oldPath : Option Name) : (convertRpcCommitList rows oldPath).map f = rows.map f := by
  unfold convertRpcCommitList
  cases rows using reverseRecOn with
  | nil => rfl
  | append_singleton rows row => simp [hf]

/-- The file of a commit is not the one of any parent. -/
def Revises (r : RevisionRepo Id) (names : List Name) (name : Name) (c : Commit Id)
    (d : Dirent Id) : Prop :=
  fileOf r names name c = some d ∧ ∀ p ∈ c.parents, ∀ q, r.get p = some q →
    ∀ d', fileOf r names name q = some d' → d'.id ≠ d.id

theorem revisionOf_eq_some {row : FileRevision Id} :
    revisionOf r names name c = some row ↔ ∃ d, Revises r names name c d ∧
      row = ⟨c, d.id, sizeOf r.store r.version d, none⟩ := by
  constructor
  · intro h
    obtain ⟨d, hd, hrow⟩ := Option.bind_eq_some_iff.1 h
    split_ifs at hrow with hany
    cases hrow
    refine ⟨d, ⟨hd, fun p hp q hq d' hd' hid => hany (List.any_eq_true.2 ⟨p, hp, ?_⟩)⟩, rfl⟩
    simp [parentHas, hq, hd', hid]
  · rintro ⟨d, ⟨hd, hne⟩, rfl⟩
    rw [revisionOf, hd, Option.bind_some, if_neg]
    intro hany
    obtain ⟨p, hp, hhas⟩ := List.any_eq_true.1 hany
    obtain ⟨q, hq, hhas⟩ := (Option.any_eq_true _ _).1 hhas
    obtain ⟨d', hd', hid⟩ := (Option.any_eq_true _ _).1 hhas
    exact hne p hp q hq d' hd' (of_decide_eq_true hid)

theorem commits_sublist (V : List (Commit Id)) :
    ((V.filterMap (revisionOf r names name)).map FileRevision.commit).Sublist V := by
  induction V with
  | nil => exact List.Sublist.slnil
  | cons c V ih =>
    cases hrev : revisionOf r names name c with
    | none =>
      rw [filterMap_cons_none hrev]
      exact ih.cons c
    | some row =>
      obtain ⟨d, -, rfl⟩ := revisionOf_eq_some.1 hrev
      rw [filterMap_cons_some hrev]
      exact ih.cons_cons c

/-- **The listing is exact**: it has a row for each commit that can be reached through commits
    with the file and has another file than each of its parents, once. -/
theorem listFileRevisions_exact {r : RevisionRepo Id} {path name : Name} {names : List Name}
    (hp : IsFilePath path names name) (htime : r.truncateTime < 0) {start : Option Id}
    (hist : History r.get (fun _ => true) (start.getD r.head))
    (hsound : ∀ c : Commit Id, c.InHistory r.get (fun _ => true) (start.getD r.head) → Sound r c)
    {limit : ℤ} (hlimit : limit ≤ 0) (gotLatest gotSecond : Bool) :
    ∃ page n, (∀ fuel, n ≤ fuel →
        listFileRevisions r path limit fuel start gotLatest gotSecond = some page) ∧
      (page.revisions.map FileRevision.commit).Nodup ∧
      ∀ c id size, (c, id, size) ∈ page.revisions.map (fun x => (x.commit, x.fileId, x.fileSize)) ↔
        c.InHistory r.get (hasFile r names name) (start.getD r.head) ∧
          ∃ d, Revises r names name c d ∧ id = d.id ∧ size = sizeOf r.store r.version d := by
  have hgoes : ∀ c, hasFile r names name c = true → (fun _ => true) c = true := fun _ _ => rfl
  have hs : SoundHistory r names name (start.getD r.head) :=
    ⟨hist.mono hgoes, fun c hc => hsound c (hc.mono hgoes)⟩
  obtain ⟨c₀, h₀⟩ := Option.isSome_iff_exists.1
    (hs.history.readable _ Relation.ReflTransGen.refl)
  have hc₀ := hs.history.inHistory_of_get h₀ Relation.ReflTransGen.refl
  obtain ⟨V₀, seen, hw⟩ := exists_walk_of_inHistory hs.history hc₀
  obtain ⟨V, ⟨W, seen'⟩, hpage⟩ := exists_page hw limit 0
  obtain rfl : W = [] := hpage.waiting_of_unlimited hlimit
  obtain ⟨hnodup, hmem⟩ := hpage.walk.exact insertByTime_perm
  obtain ⟨data, hwanted, -, hlist⟩ := listFileRevisions_page hs hp htime hc₀ hpage
    (hs.history.saved _ c₀ h₀).symm gotLatest gotSecond
  have hrows : ∀ {α : Type} (f : FileRevision Id → α),
      (∀ row old, f { row with renamedOldPath := old } = f row) →
      (listed r path data none).revisions.map f =
        (V.filterMap (revisionOf r names name)).map f := by
    intro α f hf
    rw [listed, map_convertRpcCommitList f hf, hwanted, reverse_reverse]
  refine ⟨listed r path data none, V.length, hlist, ?_, fun c id size => ?_⟩
  · rw [hrows FileRevision.commit fun _ _ => rfl]
    exact (commits_sublist V).nodup hnodup
  · rw [hrows _ fun _ _ => rfl, ← (hs.history.reach_iff h₀), ← hmem c]
    simp only [mem_map, mem_filterMap, revisionOf_eq_some]
    constructor
    · rintro ⟨row, ⟨c', hc', d, hd, rfl⟩, heq⟩
      cases heq
      exact ⟨hc', d, hd, rfl, rfl⟩
    · rintro ⟨hc, d, hd, rfl, rfl⟩
      exact ⟨_, ⟨c, hc, d, hd, rfl⟩, rfl⟩

end Revision

/-! ## A library with a merge -/

def versionOfF (id : ℕ) : Dirent ℕ := .new sIfreg id ['f'] 0 ['u'] 1

def rootOfF (id : ℕ) : ℕ := seafDirId [versionOfF id]

theorem nonempty_rootOfF (id : ℕ) : (FsObj.dir [versionOfF id]).Nonempty := cons_ne_nil _ _

def storeOfF : FsStore ℕ :=
  (FsStore.empty.insert (.dir [versionOfF 7]) (nonempty_rootOfF 7)).insert (.dir [versionOfF 8])
    (nonempty_rootOfF 8)

/-- An empty library, two commits that write the file, one beside them that does not, and the
    merge of both sides. -/
def commitsOfF : List (Commit ℕ) :=
  [⟨1, 0, 10, none, none⟩, ⟨2, rootOfF 7, 20, some 1, none⟩, ⟨3, rootOfF 8, 30, some 2, none⟩,
    ⟨4, 0, 40, some 1, none⟩, ⟨5, rootOfF 8, 50, some 3, some 4⟩]

def repoOfF : RevisionRepo ℕ := ⟨lookupCommit commitsOfF, storeOfF, 1, 5, -1, 3⟩

theorem history_repoOfF (goes : Commit ℕ → Bool) {head : ℕ} (hhead : head ∈ [1, 2, 3, 4, 5]) :
    History repoOfF.get goes head :=
  History.ofList hhead (by decide +kernel)

theorem sound_repoOfF {goes : Commit ℕ → Bool} {head : ℕ} {c : Commit ℕ}
    (hc : c.InHistory repoOfF.get goes head) : Revision.Sound repoOfF c := by
  have hall : ∀ c ∈ commitsOfF, Tree (fun _ => True) storeOfF 1 c.rootId ∧
      (c.parentId = none → c.secondParentId = none) := by decide +kernel
  obtain ⟨hT, hparents⟩ := hall c (lookupCommit_some hc.1).1
  exact ⟨hc.1, ⟨1, hT⟩, hparents⟩

theorem isFilePath_f : Revision.IsFilePath ['/', 'f'] [] ['f'] :=
  ⟨by decide, by decide, by decide⟩

theorem listFileRevisions_exact_merged : ∃ page : Revision.ListedPage ℕ,
    (∃ fuel, Revision.listFileRevisions repoOfF ['/', 'f'] (-1) fuel none false false = some page) ∧
    (page.revisions.map FileRevision.commit).Nodup ∧
    (⟨2, rootOfF 7, 20, some 1, none⟩, 7, 1) ∈
      page.revisions.map (fun x => (x.commit, x.fileId, x.fileSize)) := by
  have hist : History repoOfF.get (fun _ => true) ((none : Option ℕ).getD repoOfF.head) :=
    history_repoOfF _ (by decide)
  obtain ⟨page, n, hlist, hnodup, hrows⟩ := Revision.listFileRevisions_exact isFilePath_f
    (show repoOfF.truncateTime < 0 by decide) hist (fun c hc => sound_repoOfF hc)
    (show (-1 : ℤ) ≤ 0 by decide) false false
  refine ⟨page, ⟨n, hlist n le_rfl⟩, hnodup, (hrows _ _ _).2 ⟨⟨by decide +kernel, ?_⟩, versionOfF 7,
    ⟨by decide +kernel, ?_⟩, rfl, rfl⟩⟩
  · refine (Relation.ReflTransGen.single ?_).tail (b := 3) ?_
    · exact ⟨⟨5, rootOfF 8, 50, some 3, some 4⟩, by decide +kernel, by decide +kernel, by decide⟩
    · exact ⟨⟨3, rootOfF 8, 30, some 2, none⟩, by decide +kernel, by decide +kernel, by decide⟩
  · intro p hp q hq d hd
    obtain rfl : p = 1 := by simpa [Commit.parents] using hp
    obtain rfl : q = ⟨1, 0, 10, none, none⟩ := by
      have hget : repoOfF.get 1 = some ⟨1, 0, 10, none, none⟩ := by decide +kernel
      exact Option.mem_unique hq hget
    have hnone : Revision.fileOf repoOfF [] ['f'] ⟨1, 0, 10, none, none⟩ = none := by decide +kernel
    cases hnone.symm.trans hd

end CloudFile
