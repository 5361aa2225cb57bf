/-
  Uploads (`fileserver/fileop.go`, `server/repo-op.c`). An upload adds its files to the target
  directory and publishes the new tree, and starts again from the new head if another writer was
  first. The list of reported names is declared before this loop and only ever appended to.
-/
import CloudFile.Publish.GenCommit
import CloudFile.Write.Rewrite
import CloudFile.Merge.Outcome

namespace CloudFile

open SortedWalk List

variable {Id : Type} [ObjectId Id] [DecidableEq Id]

/-! ## The model -/

/-- The files of a request, each with the id and the size it got when it was indexed. -/
structure Upload (Id : Type) where
  fileNames : List Name
  ids : List Id
  sizes : List ℤ
  user : Name
  canonPath : Name
  replace : Bool
  lastModify : ℤ
  lastGCID : Option GcId
  /-- the time when the entry of each file is made, in the file server -/
  now : ℕ → ℤ

/-- What a round of the loop finds. The C server reads the record once more before it publishes. -/
structure Round (Id : Type) [ObjectId Id] where
  head : Option (Commit Id)
  store : FsStore Id
  env : WriteEnv Id
  /-- the time when the entry of each file is made, in the C server -/
  now : ℕ → ℤ
  saved : Bool
  genHead : Option Id
  attempts : ℕ → Attempt Id

/-- What a successful upload has: the names it reports, the commit it has published, and the
    tree its last round has written. -/
structure Landed (Id : Type) [ObjectId Id] where
  names : List Name
  commit : Commit Id
  root : Id
  store : FsStore Id

/-- The result of an upload, none while it is retrying; and the row around each transaction. -/
structure Posted (Id : Type) [ObjectId Id] where
  result : Option (Except PublishErr (Landed Id))
  rows : List (Option Id × Option Id)

/-- The entries of the files: those with an id and a size. -/
def Upload.dents (u : Upload Id) (now : ℕ → ℤ) : List (Dirent Id) :=
  (u.fileNames.zip (u.ids.zip u.sizes)).mapIdx fun i f =>
    Dirent.new (sIfreg ||| 0o644) f.2.1 f.1 (if u.lastModify ≤ 0 then now i else u.lastModify) []
      f.2.2

section Loop

-- adding the files to a tree, after the names reported so far; and the publication
variable (post : Round Id → Commit Id → List Name → Option (Written Id (List Name)))
  (gen : Round Id → Commit Id → Id → Publication Id)

/-- After the publication of a round; `again` is what follows if the upload starts again. -/
def Publication.orAgain (p : Publication Id) (w : Written Id (List Name)) (again : Posted Id) :
    Posted Id :=
  match p.result with
  | .ok commit => ⟨some (.ok ⟨w.out, commit, w.dirID, w.store⟩), p.rows⟩
  | .error .conflict => ⟨again.result, p.rows ++ again.rows⟩
  | .error e => ⟨some (.error e), p.rows⟩

/-- The loop from `retry:` on. -/
def postLoop : List (Round Id) → List Name → Posted Id
  | [], _ => ⟨none, []⟩
  | r :: rs, names =>
    match r.head with
    | none => ⟨some (.error .load), []⟩
    | some head => match post r head names with
      | none => ⟨some (.error .post), []⟩
      | some w => (gen r head w.dirID).orAgain w (postLoop rs w.out)

end Loop

namespace Fileserver

/-- The round of `postFilesAndGenCommit` before its publication. -/
def postRound (u : Upload Id) (r : Round Id) (head : Commit Id) (names : List Name) :
    Option (Written Id (List Name)) :=
  doPostMultiFiles r.env.writeObj r.env.now r.env.sortDents r.store head.rootId u.canonPath
    (u.dents u.now) u.user u.replace names

/-- The publication of a round: the record and the base are those of the round. -/
def genRound (u : Upload Id) (r : Round Id) (head : Commit Id) (rootID : Id) : Publication Id :=
  genNewCommit r.attempts r.saved head.commitId head rootID u.replace true u.lastGCID

/-- `postFilesAndGenCommit`; without a file there is an index out of range. -/
def postFilesAndGenCommit (u : Upload Id) (rounds : List (Round Id)) : Posted Id :=
  if u.fileNames = [] then ⟨none, []⟩ else postLoop (postRound u) (genRound u) rounds []

end Fileserver

namespace Server

/-- The files are put in the tree of the head. -/
def postRound (u : Upload Id) (r : Round Id) (head : Commit Id) (nameList : List Name) :
    Option (Written Id (List Name)) :=
  doPostMultiFiles r.env.writeObj r.env.now r.store head.rootId u.canonPath (u.dents r.now) u.user
    u.replace nameList

/-- The tree is published. -/
def genRound (u : Upload Id) (r : Round Id) (head : Commit Id) (rootId : Id) : Publication Id :=
  genNewCommit r.attempts r.saved r.genHead head rootId u.replace true u.lastGCID

/-- `post_files_and_gen_commit`; without a file there is a read through a null pointer. -/
def postFilesAndGenCommit (u : Upload Id) (rounds : List (Round Id)) : Posted Id :=
  if u.fileNames = [] then ⟨none, []⟩ else postLoop (postRound u) (genRound u) rounds []

end Server

/-- The response: `formatJSONRet`, `format_json_ret`. -/
def Upload.response (u : Upload Id) (l : Landed Id) : List (Name × Id × ℤ) :=
  l.names.zip (u.ids.zip u.sizes)

/-- What is reported about the operation. -/
inductive FileOpFact (Id : Type) where
  | committed (names : List Name) (commitID : Id)
  | aborted (names : List Name)

/-- The facts of an upload after it was prepared. -/
def Posted.facts (u : Upload Id) (p : Posted Id) : List (FileOpFact Id) :=
  match p.result with
  | none => []
  | some (.ok l) => [.committed l.names l.commit.commitId]
  | some (.error _) => [.aborted u.fileNames]

/-! ## What is reported -/

/-- The entries of the directory a path leads to by names. -/
def dirByNames (st : FsStore Id) : Id → List Name → Option (List (Dirent Id))
  | id, [] => st.getSeafdir id
  | id, n :: path => st.getSeafdir id >>= findDirent n >>= fun d => dirByNames st d.id path

/-- The directory of the upload. -/
def Upload.target (u : Upload Id) : List Name := toPathNames (stripSlash u.canonPath)

/-- One name for each file, in order; and under the `i`-th name the target directory has the
    `i`-th id, unless a later file of the same name replaces it. -/
structure ReportsLanded (u : Upload Id) (l : Landed Id) : Prop where
  length : l.names.length = u.fileNames.length
  response : (u.response l).map Prod.fst = l.names
  landed : ∀ (i : ℕ) name id, l.names[i]? = some name → u.ids[i]? = some id →
    (u.replace = true → ∀ j, i < j → u.fileNames[j]? ≠ u.fileNames[i]?) →
    ∃ d, dirByNames l.store l.root u.target >>= findDirent name = some d ∧ d.id = id

/-- A request as its callers make it: every file has an id and a size. -/
structure Upload.Indexed (u : Upload Id) : Prop where
  ids : u.ids.length = u.fileNames.length
  sizes : u.sizes.length = u.fileNames.length

/-- The target directory of a round has sorted entries with unique names. -/
def Round.TargetSorted (r : Round Id) (u : Upload Id) : Prop :=
  ∀ head es, r.head = some head → dirByNames r.store head.rootId u.target = some es →
    Desc Dirent.name es

/-! ## One round -/

variable {id : Id} {u : Upload Id} {r : Round Id} {head : Commit Id} {names : List Name}
  {now : ℕ → ℤ} {w : Written Id (List Name)}

theorem Rewritten.dirByNames {α : Type} {edit : List (Dirent Id) → Option (List (Dirent Id) × α)}
    {now : ℕ → ℤ} {st st' : FsStore Id} {id' : Id} {path : List Name} {a : α}
    (h : Rewritten edit now st st' id path id' a) :
    ∃ es es', CloudFile.dirByNames st id path = some es ∧ edit es = some (es', a) ∧
      CloudFile.dirByNames st' id' path = some es' := by
  induction h with
  | @here id id' es es' a hes hedit hes' => exact ⟨es, es', hes, hedit, hes'⟩
  | @down id id' i es d n path a hes hfind _ hes' ih =>
    obtain ⟨es₁, es₂, h₁, hedit, h₂⟩ := ih
    refine ⟨es₁, es₂, ?_, hedit, ?_⟩
    · simp [CloudFile.dirByNames, hes, hfind, h₁]
    · simp [CloudFile.dirByNames, hes', findDirent_touch hfind, h₂]

/-- A round has added the files to the target directory and appended their names. -/
def RoundAdds (u : Upload Id) (now : ℕ → ℤ) (names : List Name) (w : Written Id (List Name)) :
    Prop :=
  ∃ es es' ns, UniqueKeys Dirent.name es ∧ w.out = names ++ ns ∧
    Adds u.user u.replace es (u.dents now) ns es' ∧
    dirByNames w.store w.dirID u.target = some es'

theorem Fileserver.postRound_adds (hr : r.TargetSorted u) (hhead : r.head = some head)
    (hsort : SortsDirents r.env.sortDents) (h : postRound u r head names = some w) :
    RoundAdds u u.now names w := by
  unfold postRound doPostMultiFiles at h
  split_ifs at h
  obtain ⟨-, hrew⟩ := rewriteRecursive_spec h
  obtain ⟨es, es', hes, hedit, hes'⟩ := hrew.dirByNames
  have hu := (hr head es hhead hes).uniqueKeys
  obtain ⟨-, ns, hns, hadds⟩ := addNewEntries_spec hsort hu hedit
  exact ⟨es, es', ns, hu, hns, hadds, hes'⟩

omit [ObjectId Id] [DecidableEq Id] in
theorem Upload.map_withFileMode_dents (now : ℕ → ℤ) :
    (u.dents now).map Dirent.withFileMode = u.dents now := by
  refine (map_congr_left fun d hd => d.withFileMode_eq_self ?_).trans (map_id _)
  obtain ⟨i, h, rfl⟩ := mem_mapIdx.1 hd
  show fileMode (sIfreg ||| 0o644) = sIfreg ||| 0o644
  decide

theorem Server.postRound_adds (hr : r.TargetSorted u) (hhead : r.head = some head)
    (h : postRound u r head names = some w) : RoundAdds u r.now names w := by
  obtain ⟨-, hrew⟩ := rewriteRecursive_spec h
  obtain ⟨es, es', hes, hedit, hes'⟩ := hrew.dirByNames
  have hd := hr head es hhead hes
  obtain ⟨-, ns, hns, hadds⟩ := addNewEntries_spec hd hedit
  rw [Upload.map_withFileMode_dents] at hadds
  exact ⟨es, es', ns, hd.uniqueKeys, hns, hadds, hes'⟩

section

omit [ObjectId Id] [DecidableEq Id]

theorem Upload.length_dents (hu : u.Indexed) (now : ℕ → ℤ) :
    (u.dents now).length = u.fileNames.length := by
  simp [Upload.dents, hu.ids, hu.sizes]

theorem Upload.dents_name (hu : u.Indexed) (now : ℕ → ℤ) :
    (u.dents now).map Dirent.name = u.fileNames := by
  refine ext_getElem? fun i => ?_
  by_cases hi : i < u.fileNames.length
  · have h1 : i < u.ids.length := by rw [hu.ids]; exact hi
    have h2 : i < u.sizes.length := by rw [hu.sizes]; exact hi
    simp [Upload.dents, hi, h1, h2]
  · simp [Upload.dents, hi]

end

theorem RoundAdds.length (h : RoundAdds u now names w) (hu : u.Indexed) :
    w.out.length = names.length + u.fileNames.length := by
  obtain ⟨es, es', ns, -, hout, hadds, -⟩ := h
  rw [hout, length_append, hadds.length, Upload.length_dents hu]

omit [ObjectId Id] [DecidableEq Id] in
theorem Upload.dents_id (now : ℕ → ℤ) (hu : u.Indexed) {i : ℕ} (h : u.ids[i]? = some id) :
    ∃ dent, (u.dents now)[i]? = some dent ∧ dent.id = id := by
  obtain ⟨h1, rfl⟩ := List.getElem?_eq_some_iff.1 h
  have hi : i < u.fileNames.length := by rw [← hu.ids]; exact h1
  have h2 : i < u.sizes.length := by rw [hu.sizes]; exact hi
  simp [Upload.dents, hi, h1, h2]

/-- **A single round reports what has landed.** -/
theorem RoundAdds.reports (h : RoundAdds u now [] w) (hu : u.Indexed) (commit : Commit Id) :
    ReportsLanded u ⟨w.out, commit, w.dirID, w.store⟩ := by
  have hlen := h.length hu
  obtain ⟨es, es', ns, hkeys, hout, hadds, hdir⟩ := h
  simp only [length_nil, Nat.zero_add] at hlen
  constructor
  · exact hlen
  · refine map_fst_zip ?_
    rw [hlen, length_zip, hu.ids, hu.sizes, min_self]
  · intro i name id hname hid hlast
    simp only [hout] at hname
    obtain ⟨dent, hdent, rfl⟩ := Upload.dents_id now hu hid
    -- the name is not reported again
    have hdrop : name ∉ ns.drop (i + 1) := by
      intro hmem
      obtain ⟨j, hj⟩ := mem_iff_getElem?.1 hmem
      rw [getElem?_drop] at hj
      cases hrep : u.replace with
      | true =>
        rw [hrep] at hadds
        rw [hadds.names_of_replace, Upload.dents_name hu] at hj hname
        exact hlast hrep (i + 1 + j) (by omega) (hj.trans hname.symm)
      | false =>
        rw [hrep] at hadds
        have hij := (getElem?_inj (List.getElem?_eq_some_iff.1 hj).1
          hadds.nodup_of_unique).1 (hj.trans hname.symm)
        omega
    have hmem := hadds.added hdent hname hdrop
    have hfind := (findDirent_some (hadds.unique hkeys)).2 ⟨hmem, Dirent.named_name ..⟩
    exact ⟨dent.named u.user name, by simp [hdir, hfind], Dirent.named_id ..⟩

/-! ## The whole upload -/

section Upload

variable {post : Round Id → Commit Id → List Name → Option (Written Id (List Name))}
  {gen : Round Id → Commit Id → Id → Publication Id} {rs : List (Round Id)} {l : Landed Id}
  {p : Publication Id} {again : Posted Id}

section

omit [DecidableEq Id]

theorem orAgain_ok (h : (p.orAgain w again).result = some (.ok l)) :
    (∃ commit, p.result = .ok commit ∧ l = ⟨w.out, commit, w.dirID, w.store⟩) ∨
      p.result = .error .conflict ∧ again.result = some (.ok l) := by
  unfold Publication.orAgain at h
  cases hp : p.result with
  | ok commit =>
    simp only [hp, Option.some.injEq, Except.ok.injEq] at h
    exact .inl ⟨commit, rfl, h.symm⟩
  | error e =>
    cases e with
    | conflict => exact .inr ⟨rfl, by simpa only [hp] using h⟩
    | _ => simp [hp] at h

theorem postLoop_ok (h : (postLoop post gen (r :: rs) names).result = some (.ok l)) :
    ∃ head w, r.head = some head ∧ post r head names = some w ∧
      ((∃ commit, (gen r head w.dirID).result = .ok commit ∧
          l = ⟨w.out, commit, w.dirID, w.store⟩) ∨
        (gen r head w.dirID).result = .error .conflict ∧
          (postLoop post gen rs w.out).result = some (.ok l)) := by
  unfold postLoop at h
  cases hhead : r.head with
  | none => simp [hhead] at h
  | some head =>
    cases hw : post r head names with
    | none => simp [hhead, hw] at h
    | some w =>
      simp only [hhead, hw] at h
      exact ⟨head, w, rfl, hw, orAgain_ok h⟩

theorem length_postLoop {n : ℕ} (hpost : ∀ r ∈ rs, ∀ head names w, r.head = some head →
      post r head names = some w → w.out.length = names.length + n)
    (h : (postLoop post gen rs names).result = some (.ok l)) :
    names.length + n ≤ l.names.length := by
  induction rs generalizing names with
  | nil => simp [postLoop] at h
  | cons r rs ih =>
    obtain ⟨head, w, hhead, hw, hcases⟩ := postLoop_ok h
    have hlen := hpost r mem_cons_self head names w hhead hw
    rcases hcases with ⟨commit, -, rfl⟩ | ⟨-, hrest⟩
    · exact hlen.ge
    · have hrec := ih (fun r hr => hpost r (mem_cons_of_mem _ hr)) hrest
      omega

end

theorem reports_iff (clock : Round Id → ℕ → ℤ) (hu : u.Indexed) (hne : u.fileNames ≠ [])
    (hpost : ∀ r' ∈ r :: rs, ∀ head names w, r'.head = some head → post r' head names = some w →
      RoundAdds u (clock r') names w) {c : Prop}
    (hgen : ∀ head root, r.head = some head → (gen r head root).TellsHead c)
    (h : (postLoop post gen (r :: rs) []).result = some (.ok l)) : ReportsLanded u l ↔ c := by
  obtain ⟨head, w, hhead, hw, ⟨commit, hp, rfl⟩ | ⟨hp, hrest⟩⟩ := postLoop_ok h
  · have hadds := hpost r mem_cons_self head [] w hhead hw
    exact iff_of_true (hadds.reports hu commit) ((hgen head _ hhead).1 ⟨commit, hp⟩)
  · -- the names of the first round are still there
    refine iff_of_false ?_ ((hgen head _ hhead).2 hp)
    intro hrep
    have hfirst := (hpost r mem_cons_self head [] w hhead hw).length hu
    have hlen := length_postLoop (n := u.fileNames.length)
      (fun r' hr' head names w hhead hw =>
        (hpost r' (mem_cons_of_mem _ hr') head names w hhead hw).length hu) hrest
    have hpos := length_pos_iff.2 hne
    have := hrep.length
    omega

theorem Fileserver.reports_iff (hu : u.Indexed)
    (hrounds : ∀ r' ∈ r :: rs, r'.TargetSorted u ∧ SortsDirents r'.env.sortDents)
    (hhead : r.head = some head)
    (h : (postFilesAndGenCommit u (r :: rs)).result = some (.ok l)) :
    ReportsLanded u l ↔ u.replace = true ∨ (r.attempts 0).row = some head.commitId := by
  unfold postFilesAndGenCommit at h
  split_ifs at h with hne
  refine CloudFile.reports_iff (fun _ => u.now) hu hne ?_ ?_ h
  · intro r' hr' head' names w hh hw
    exact postRound_adds (hrounds r' hr').1 hh (hrounds r' hr').2 hw
  · intro head' root hh
    obtain rfl := Option.mem_unique hhead hh
    have htells : (genRound u r head root).TellsHead (u.replace = true ∨
        head.commitId = head.commitId ∧ (r.attempts 0).row = some head.commitId) :=
      genNewCommit_tellsHead
    simpa only [true_and] using htells

theorem Server.reports_iff (hu : u.Indexed) (hrounds : ∀ r' ∈ r :: rs, r'.TargetSorted u)
    (hhead : r.head = some head)
    (h : (postFilesAndGenCommit u (r :: rs)).result = some (.ok l)) :
    ReportsLanded u l ↔ u.replace = true ∨
      r.genHead = some head.commitId ∧ (r.attempts 0).row = some head.commitId := by
  unfold postFilesAndGenCommit at h
  split_ifs at h with hne
  refine CloudFile.reports_iff Round.now hu hne ?_ ?_ h
  · intro r' hr' head' names w hh hw
    exact postRound_adds (hrounds r' hr') hh hw
  · intro head' root hh
    obtain rfl := Option.mem_unique hhead hh
    exact genNewCommit_tellsHead

/-- **The names an upload reports** are one for each file, as it has landed, exactly if it
    replaces or the head has not moved before its first publication. -/
theorem upload_reports_iff (hu : u.Indexed)
    (hrounds : ∀ r' ∈ r :: rs, r'.TargetSorted u ∧ Fileserver.SortsDirents r'.env.sortDents)
    (hhead : r.head = some head) :
    ((Fileserver.postFilesAndGenCommit u (r :: rs)).result = some (.ok l) →
      (ReportsLanded u l ↔ u.replace = true ∨ (r.attempts 0).row = some head.commitId)) ∧
    ((Server.postFilesAndGenCommit u (r :: rs)).result = some (.ok l) →
      (ReportsLanded u l ↔ u.replace = true ∨
        r.genHead = some head.commitId ∧ (r.attempts 0).row = some head.commitId)) :=
  ⟨Fileserver.reports_iff hu hrounds hhead,
    Server.reports_iff hu (fun r' hr' => (hrounds r' hr').1) hhead⟩

/-! ## What a failure means for the head -/

variable {e : PublishErr}

omit [DecidableEq Id] in
theorem orAgain_rows (hp : ∀ e, p.result = .error e → ∀ q ∈ p.rows, q.2 = q.1)
    (hagain : again.result = some (.error e) → ∀ q ∈ again.rows, q.2 = q.1)
    (h : (p.orAgain w again).result = some (.error e)) :
    ∀ q ∈ (p.orAgain w again).rows, q.2 = q.1 := by
  unfold Publication.orAgain at h ⊢
  cases hr : p.result with
  | ok commit => simp [hr] at h
  | error e' =>
    have hrows := hp e' hr
    cases e' with
    | conflict =>
      simp only [hr] at h ⊢
      intro q hq
      rcases mem_append.1 hq with hq | hq
      · exact hrows q hq
      · exact hagain h q hq
    | _ =>
      exact hrows

omit [DecidableEq Id] in
theorem postLoop_rows
    (hgen : ∀ r ∈ rs, ∀ head root e, (gen r head root).result = .error e →
      ∀ p ∈ (gen r head root).rows, p.2 = p.1)
    (h : (postLoop post gen rs names).result = some (.error e)) :
    ∀ p ∈ (postLoop post gen rs names).rows, p.2 = p.1 := by
  induction rs generalizing names with
  | nil => simp [postLoop] at h
  | cons r rs ih =>
    unfold postLoop at h ⊢
    cases hhead : r.head with
    | none => simp
    | some head =>
      cases hw : post r head names with
      | none => simp [hw]
      | some w =>
        simp only [hhead, hw] at h ⊢
        exact orAgain_rows (hgen r mem_cons_self head w.dirID)
          (ih fun r hr => hgen r (mem_cons_of_mem _ hr)) h

theorem Fileserver.postFilesAndGenCommit_rows
    (hpost : ∀ r ∈ rs, ∀ k, (r.attempts k).steps.postPass true = true)
    (h : (postFilesAndGenCommit u rs).result = some (.error e)) :
    ∀ p ∈ (postFilesAndGenCommit u rs).rows, p.2 = p.1 := by
  unfold postFilesAndGenCommit at h ⊢
  split_ifs at h ⊢
  refine postLoop_rows ?_ h
  intro r hr head root e hgen
  exact genNewCommit_rows (hpost r hr) hgen

/-- **A failed publication and the head**: an error of `updateBranch`, of `genNewCommit` or of an
    aborted upload leaves the row unless it comes from a step after the transaction. -/
theorem failed_publication_iff :
    (∀ (checkGC : Bool) (lastGCID : Option GcId) (s : UpdateSteps) (row : Option Id) (new old : Id)
        (second : Option Id),
      ((∃ e, (Fileserver.updateBranch checkGC lastGCID s row new old second).result = .error e) →
          (Fileserver.updateBranch checkGC lastGCID s row new old second).row = row) ↔
        ¬ (s.Pass checkGC lastGCID ∧ row = some old ∧ new ≠ old ∧
          s.postPass second.isSome = false)) ∧
    (∀ (as : ℕ → Attempt Id) (saved : Bool) (repoHead : Id) (base : Commit Id) (newRoot : Id)
        (handle checkGC : Bool) (lastGCID : Option GcId),
      (∀ k, (as k).steps.postPass true = true) → ∀ e,
      (Fileserver.genNewCommit as saved repoHead base newRoot handle checkGC lastGCID).result =
        .error e →
      ∀ p ∈ (Fileserver.genNewCommit as saved repoHead base newRoot handle checkGC lastGCID).rows,
        p.2 = p.1) ∧
    ∀ (u : Upload Id) (rounds : List (Round Id)) (names : List Name),
      (∀ r ∈ rounds, ∀ k, (r.attempts k).steps.postPass true = true) →
      .aborted names ∈ (Fileserver.postFilesAndGenCommit u rounds).facts u →
      ∀ p ∈ (Fileserver.postFilesAndGenCommit u rounds).rows, p.2 = p.1 := by
  refine ⟨fun _ _ _ _ _ _ _ => updateBranch_error_iff,
    fun _ _ _ _ _ _ _ _ hpost e h => genNewCommit_rows hpost h, ?_⟩
  intro u rounds names hpost hfact
  unfold Posted.facts at hfact
  split at hfact
  · simp at hfact
  · simp at hfact
  · next e hr => exact Fileserver.postFilesAndGenCommit_rows hpost hr

end Upload

/-! ## An upload that loses a race -/

def uploadF : Upload ℕ where
  fileNames := [['f']]
  ids := [5]
  sizes := [1]
  user := ['u']
  canonPath := ['/']
  replace := false
  lastModify := 0
  lastGCID := none
  now _ := 3

def otherRoot : List (Dirent ℕ) := [.new 0o100644 6 ['f'] 2 ['v'] 1]

def otherStore : FsStore ℕ := FsStore.empty.insert (.dir otherRoot) (List.cons_ne_nil _ _)

/-- A round that reads the commit `head` with the given root; its publication finds `row`. -/
def plainRound (head root row : ℕ) : Round ℕ where
  head := some ⟨head, root, 0, none, none⟩
  store := otherStore
  env := ⟨fun _ => true, Server.sortDirents, fun _ => 4, fun _ => 4, 4⟩
  now _ := 3
  saved := true
  genHead := some head
  attempts _ := plainAttempt row

theorem uploadF_indexed : uploadF.Indexed := ⟨rfl, rfl⟩

theorem plainRound_sorted {head root row : ℕ} {es : List (Dirent ℕ)}
    (hes : otherStore.getSeafdir root = some es) (hd : Desc Dirent.name es) :
    (plainRound head root row).TargetSorted uploadF ∧
      Fileserver.SortsDirents (plainRound head root row).env.sortDents := by
  refine ⟨?_, Server.sortDirents_sorts⟩
  intro c es' hc hes'
  cases hc
  obtain rfl := Option.mem_unique hes hes'
  exact hd

/-- What an upload reports, what it responds, and the id that is under the name `f`. -/
structure Report where
  names : List Name
  response : List (Name × ℕ × ℤ)
  underF : Option ℕ
deriving DecidableEq

def reported (p : Posted ℕ) : Option Report :=
  match p.result with
  | some (.ok l) => some ⟨l.names, uploadF.response l,
      (dirByNames l.store l.root uploadF.target >>= findDirent ['f']).map Dirent.id⟩
  | _ => none

theorem ok_of_reported {p : Posted ℕ} (h : (reported p).isSome = true) :
    ∃ l, p.result = some (.ok l) := by
  unfold reported at h
  split at h
  · next l hl => exact ⟨l, hl⟩
  · cases h

theorem upload_reports_undisturbed :
    (∃ l, (Fileserver.postFilesAndGenCommit uploadF [plainRound 1 0 1]).result = some (.ok l) ∧
      ReportsLanded uploadF l) ∧
    ∃ l, (Server.postFilesAndGenCommit uploadF [plainRound 1 0 1]).result = some (.ok l) ∧
      ReportsLanded uploadF l := by
  have hrounds : ∀ r ∈ [plainRound 1 0 1], r.TargetSorted uploadF ∧
      Fileserver.SortsDirents r.env.sortDents := by
    intro r hr
    rw [mem_singleton.1 hr]
    exact plainRound_sorted FsStore.getSeafdir_empty List.Pairwise.nil
  constructor
  · obtain ⟨l, hl⟩ := ok_of_reported (p := Fileserver.postFilesAndGenCommit uploadF
      [plainRound 1 0 1]) (by decide +kernel)
    exact ⟨l, hl, ((upload_reports_iff uploadF_indexed hrounds rfl).1 hl).2 (.inr rfl)⟩
  · obtain ⟨l, hl⟩ := ok_of_reported (p := Server.postFilesAndGenCommit uploadF
      [plainRound 1 0 1]) (by decide +kernel)
    exact ⟨l, hl, ((upload_reports_iff uploadF_indexed hrounds rfl).2 hl).2 (.inr ⟨rfl, rfl⟩)⟩

/-- **A stale name**: the second attempt lands as `f (1)`, but both names are reported. -/
theorem upload_reports_stale :
    let rounds := [plainRound 1 0 2, plainRound 2 (seafDirId otherRoot) 2]
    let stale : Report := ⟨[['f'], "f (1)".toList], [(['f'], 5, 1)], some 6⟩
    reported (Fileserver.postFilesAndGenCommit uploadF rounds) = some stale ∧
    reported (Server.postFilesAndGenCommit uploadF rounds) = some stale := by
  intro rounds stale
  constructor
  · decide +kernel
  · decide +kernel

/-! ## An upload that is aborted after it has landed -/

/-- A round whose publication cannot update the information about the library. -/
def brokenInfoRound : Round ℕ :=
  { plainRound 1 0 1 with
    attempts := fun _ => { plainAttempt 1 with
      steps := { passingSteps with newUpdated := ⟨false, some false⟩ } } }

/-- Where these steps pass, a lost race that is not handled leaves the head. -/
theorem failed_publication_lost_race :
    (Fileserver.genNewCommit (fun _ => plainAttempt 2) true 1 (rootCommit 1) 9 false false
      none).result = .error .conflict ∧
    ∀ p ∈ (Fileserver.genNewCommit (fun _ => plainAttempt 2) true 1 (rootCommit 1) 9 false false
      none).rows, p.2 = p.1 :=
  ⟨rfl, (@failed_publication_iff ℕ _ _).2.1 (fun _ => plainAttempt 2) true 1 (rootCommit 1) 9
    false false none (fun _ => rfl) .conflict rfl⟩

/-- **An aborted upload that has landed**: the head is 101 when `UpdateRepoInfo` fails. -/
theorem aborted_upload_landed :
    (Fileserver.postFilesAndGenCommit uploadF [brokenInfoRound]).facts uploadF =
      [.aborted [['f']]] ∧
    (Fileserver.postFilesAndGenCommit uploadF [brokenInfoRound]).rows = [(some 1, some 101)] ∧
    (Fileserver.updateBranch true none { passingSteps with newUpdated := ⟨false, some false⟩ }
      (some 1) 101 1 none) = ⟨.error .branchUpdated, some 101⟩ := by
  refine ⟨rfl, ?_, rfl⟩
  decide +kernel

end CloudFile
