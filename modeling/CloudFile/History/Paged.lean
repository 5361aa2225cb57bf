/-
  The listing of the revisions of a file in pages. A page ends after a commit with the file when
  at most one commit waits, and the listing takes a commit without the file for the place where
  the file begins. Where such a commit comes before a narrow place, revisions are lost (`CutOff`,
  `listPages_eq_iff`).
-/
import CloudFile.History.Revisions

namespace CloudFile

open List Option

open Worklist (Walk State)

variable {Id : Type} [ObjectId Id] [DecidableEq Id]

namespace Revision

/-- The pages of the listing one after the other, with the flags carried over -/
def listPages (r : RevisionRepo Id) (path : Name) (limit : ℤ) (fuel : ℕ) :
    ℕ → Option Id → Bool → Bool → Option (List (FileRevision Id))
  | 0, _, _, _ => none
  | pages + 1, start, gotLatest, gotSecond => do
    let page ← listFileRevisions r path limit fuel start gotLatest gotSecond
    page.nextStartCommit.elim (some page.revisions) fun next =>
      (listPages r path limit fuel pages (some next) page.gotLatest page.gotSecond).map
        (page.revisions ++ ·)

/-! ## Where the pages are cut off -/

/-- After the commits `V₁` and `c` and before `V₂`: a commit without the file has been met, the
    last one has the file, at most one waits, and there are revisions left. -/
structure CutAt (r : RevisionRepo Id) (names : List Name) (name : Name) (V₁ : List (Commit Id))
    (c : Commit Id) (V₂ : List (Commit Id)) : Prop where
  file : hasFile r names name c = true
  absent : ∃ a ∈ V₁, hasFile r names name a = false
  narrow : ∀ w ∈ V₂.tail, ∀ v ∈ V₁ ++ [c], w ∉ parentsOf r.get (hasFile r names name) v
  revisions : V₂.filterMap (revisionOf r names name) ≠ []

def Cut (r : RevisionRepo Id) (names : List Name) (name : Name) (V : List (Commit Id)) : Prop :=
  ∃ V₁ c V₂, V = V₁ ++ c :: V₂ ∧ CutAt r names name V₁ c V₂

/-- The history of the file below a commit has such a place. -/
def CutOff (r : RevisionRepo Id) (names : List Name) (name : Name) (head : Id) : Prop :=
  ∃ c V seen, r.get head = some c ∧ Walk insertByTime (parentsOf r.get (hasFile r names name))
    (Worklist.start c) V ⟨[], seen⟩ ∧ Cut r names name V

variable {r : RevisionRepo Id} {path name : Name} {names : List Name} {head : Id}
  {U V₁ V₂ : List (Commit Id)} {c b : Commit Id}

theorem CutAt.append (h : CutAt r names name V₁ c V₂)
    (hU : ∀ w ∈ (V₁ ++ c :: V₂).tail, ∀ v ∈ U, w ∉ parentsOf r.get (hasFile r names name) v) :
    CutAt r names name (U ++ V₁) c V₂ where
  file := h.file
  absent := by
    obtain ⟨a, ha, hno⟩ := h.absent
    exact ⟨a, mem_append_right U ha, hno⟩
  narrow w hw v hv := by
    rw [append_assoc, mem_append] at hv
    rcases hv with hv | hv
    · refine hU w ?_ v hv
      have hmem : w ∈ V₂ := mem_of_mem_tail hw
      cases V₁ with
      | nil => exact hmem
      | cons x V₁ => simp [hmem]
    · exact h.narrow w hw v hv
  revisions := h.revisions

/-- The list has narrowed on the way of the visits. -/
theorem narrow_iff {seen : List (Commit Id)} {t : State (Commit Id)}
    (hw : Walk insertByTime (parentsOf r.get (hasFile r names name)) (Worklist.start c) (U ++ b ::
      V₂) ⟨[], seen⟩)
    (hU : Walk insertByTime (parentsOf r.get (hasFile r names name)) (Worklist.start c) (U ++ [b])
      t) :
    t.waiting.length ≤ 1 ↔
      ∀ w ∈ V₂.tail, ∀ v ∈ U ++ [b], w ∉ parentsOf r.get (hasFile r names name) v := by
  obtain ⟨V', hV', hrest⟩ := hU.remainder hw
  obtain rfl : V₂ = V' := by simpa using hV'
  exact hU.narrow_iff insertByTime_perm hrest (by simp)

theorem cut_split {W : List (Commit Id)} (hV : U ++ b :: W = V₁ ++ V₂)
    (hat : CutAt r names name U b W) (hpast : ∀ W', V₁ = U ++ b :: W' → W' = []) :
    (∃ X, V₂ = X ++ W) ∧
      ((V₁.any fun c => !hasFile r names name c) = true ∨ Cut r names name V₂) := by
  obtain ⟨a, ha, hno⟩ := hat.absent
  have hany : ∀ {L : List (Commit Id)}, a ∈ L → (L.any fun c => !hasFile r names name c) = true :=
    fun haL => any_eq_true.2 ⟨a, haL, by rw [hno]; rfl⟩
  rcases append_eq_append_iff.1 hV with ⟨X, rfl, hX⟩ | ⟨X, rfl, rfl⟩
  · cases X with
    | nil => exact ⟨⟨[b], hX.symm⟩, .inl (hany (mem_append_left _ ha))⟩
    | cons x X =>
      obtain ⟨rfl, rfl⟩ := List.cons.inj hX
      obtain rfl := hpast X rfl
      exact ⟨⟨[], rfl⟩, .inl (hany (mem_append_left _ ha))⟩
  · refine ⟨⟨X ++ [b], by simp⟩, ?_⟩
    rcases mem_append.1 ha with ha | ha
    · exact .inl (hany ha)
    · refine .inr ⟨X, b, W, rfl, hat.file, ⟨a, ha, hno⟩, fun w hw v hv => ?_, hat.revisions⟩
      exact hat.narrow w hw v (by simp at hv ⊢; tauto)

/-! ## One page -/

theorem revisionOf_renamed {row : FileRevision Id} (h : revisionOf r names name c = some row) :
    row.commit = c ∧ row.renamedOldPath = none := by
  obtain ⟨d, -, rfl⟩ := revisionOf_eq_some.1 h
  exact ⟨rfl, rfl⟩

omit [ObjectId Id] [DecidableEq Id] in
theorem convertRpcCommitList_none {rows : List (FileRevision Id)}
    (h : ∀ row ∈ rows, row.renamedOldPath = none) : convertRpcCommitList rows none = rows := by
  unfold convertRpcCommitList
  cases rows using reverseRecOn with
  | nil => rfl
  | append_singleton rows row =>
    have hrow : { row with renamedOldPath := none } = row := by
      rw [← h row (by simp)]
    simp [hrow]

/-- The library keeps its whole history, times fall along the links to the parents, and the file
    is never renamed. -/
structure Paged (r : RevisionRepo Id) (path : Name) (names : List Name) (name : Name) (head : Id) :
    Prop where
  sound : SoundHistory r names name head
  isFilePath : IsFilePath path names name
  unlimited : r.truncateTime < 0
  descending : Descending r.get (hasFile r names name) head
  noRename : ∀ c : Commit Id, c.InHistory r.get (hasFile r names name) head →
    detectRenameRevision r path c = none

section Pages

variable (hs : Paged r path names name head) {c : Commit Id} {V V₁ : List (Commit Id)}
  {t : State (Commit Id)} {limit : ℤ} {start : Option Id}
include hs

section

variable (hc : c.InHistory r.get (hasFile r names name) head)
include hc

theorem Paged.listed_page (hpage : Page r.get (hasFile r names name) limit 0 (Worklist.start c) V t)
    (hstart : start.getD r.head = c.commitId) (gotLatest gotSecond : Bool) :
    ∃ latest second, ∀ fuel, V.length ≤ fuel →
      listFileRevisions r path limit fuel start gotLatest gotSecond =
        some ⟨V.filterMap (revisionOf r names name),
          if V.any fun c => !hasFile r names name c then none
          else t.waiting.head?.map Commit.commitId, latest, second⟩ := by
  obtain ⟨data, hwanted, hnot, hlist⟩ := listFileRevisions_page hs.sound hs.isFilePath
    hs.unlimited hc hpage hstart gotLatest gotSecond
  refine ⟨data.gotLatest, data.gotSecond, fun fuel hfuel => (hlist fuel hfuel).trans ?_⟩
  have hrows : ∀ row ∈ data.wanted, row.commit ∈ V ∧ row.renamedOldPath = none := by
    intro row hrow
    rw [hwanted, mem_reverse, mem_filterMap] at hrow
    obtain ⟨b, hb, hrev⟩ := hrow
    obtain ⟨rfl, hold⟩ := revisionOf_renamed hrev
    exact ⟨hb, hold⟩
  have hrenamed : (data.wanted.head?.bind fun last => detectRenameRevision r path last.commit) =
      none := by
    cases hlast : data.wanted.head? with
    | none => rfl
    | some last =>
      have hV := (hrows last (mem_of_mem_head? hlast)).1
      exact hs.noRename _ (inHistory_of_walk hs.sound.history hc hpage.walk _
        (mem_append_left _ hV))
  have hconvert := convertRpcCommitList_none fun row hrow =>
    (hrows row (mem_reverse.1 hrow)).2
  rw [hwanted, reverse_reverse] at hconvert
  unfold listed
  rw [hrenamed, hnot, hwanted, reverse_reverse]
  simp only [map_none, none_or, hconvert]

theorem Paged.listPages_succ
    (hpage : Page r.get (hasFile r names name) limit 0 (Worklist.start c) V t)
    (hstart : start.getD r.head = c.commitId) (gotLatest gotSecond : Bool) :
    ∃ latest second, ∀ fuel pages, V.length ≤ fuel →
      listPages r path limit fuel (pages + 1) start gotLatest gotSecond =
        if V.any fun c => !hasFile r names name c then
          some (V.filterMap (revisionOf r names name))
        else t.waiting.head?.elim (some (V.filterMap (revisionOf r names name))) fun next =>
          (listPages r path limit fuel pages (some next.commitId) latest second).map
            (V.filterMap (revisionOf r names name) ++ ·) := by
  obtain ⟨latest, second, hlist⟩ := hs.listed_page hc hpage hstart gotLatest gotSecond
  refine ⟨latest, second, fun fuel pages hfuel => ?_⟩
  rw [listPages, hlist fuel hfuel, bind_eq_bind, bind_some]
  split_ifs
  · rfl
  · cases t.waiting.head? <;> rfl

end

variable {seen : List (Commit Id)} {fuel pages : ℕ}

section

variable (hc : c.InHistory r.get (hasFile r names name) head)
include hc

/-- **Pages that are not cut off** are the listing. -/
theorem Paged.listPages_of_not_cut
    (hw : Walk insertByTime (parentsOf r.get (hasFile r names name)) (Worklist.start c) V ⟨[],
      seen⟩)
    (hcut : ¬ Cut r names name V) (hstart : start.getD r.head = c.commitId)
    (hfuel : V.length ≤ fuel) (hpages : V.length ≤ pages) (gotLatest gotSecond : Bool) :
    listPages r path limit fuel pages start gotLatest gotSecond =
      some (V.filterMap (revisionOf r names name)) := by
  induction pages generalizing c V seen start gotLatest gotSecond with
  | zero =>
    rw [Nat.le_zero, length_eq_zero_iff] at hpages
    subst hpages
    cases hw
  | succ pages ih =>
    obtain ⟨V₁, t, hp⟩ := exists_page hw limit 0
    have hne : 0 < V₁.length := length_pos_iff.2 (hp.ne_nil (by simp [Worklist.start]))
    obtain ⟨latest, second, hsucc⟩ := hs.listPages_succ hc hp hstart gotLatest gotSecond
    rcases Page.rest hs.sound.history hs.descending hc hw hp with
      ⟨ht, rfl⟩ | ⟨q, V₂, seen', ht, rfl, hq, hw₂⟩
    · rw [hsucc fuel pages hfuel, ht]
      exact ite_self _
    · obtain ⟨U, b, rfl, hb⟩ := hp.last_goes (by simp [ht])
      rw [append_assoc, singleton_append] at hw hcut
      have hnarrow := (narrow_iff hw hp.walk).1 (by simp [ht])
      rw [length_append] at hfuel hpages
      have happend : (U ++ [b] ++ V₂).filterMap (revisionOf r names name) =
          (U ++ [b]).filterMap (revisionOf r names name) ++
            V₂.filterMap (revisionOf r names name) := filterMap_append
      rw [hsucc fuel pages (by omega), ht, happend]
      split_ifs with hany
      · -- the page met a commit without the file: nothing is left to list
        have hrest : V₂.filterMap (revisionOf r names name) = [] := by
          by_contra hrev
          obtain ⟨a, ha, hno⟩ := any_eq_true.1 hany
          rw [Bool.not_eq_true'] at hno
          rcases mem_append.1 ha with ha | ha
          · exact hcut ⟨U, b, V₂, rfl, hb, ⟨a, ha, hno⟩, hnarrow, hrev⟩
          · rw [mem_singleton.1 ha, hb] at hno
            cases hno
        rw [hrest, append_nil]
      · have hcut₂ : ¬ Cut r names name V₂ := by
          rintro ⟨V₃, x, V₄, rfl, hx⟩
          refine hcut ⟨U ++ [b] ++ V₃, x, V₄, by simp, hx.append hnarrow⟩
        have hrec : listPages r path limit fuel pages (some q.commitId) latest second =
            some (V₂.filterMap (revisionOf r names name)) :=
          ih hq hw₂ hcut₂ rfl (by omega) (by omega) latest second
        simp only [head?_cons, elim_some, hrec, map_some]

/-- **Pages that are cut off**, with the limit one, miss a revision. -/
theorem Paged.listPages_of_cut
    (hw : Walk insertByTime (parentsOf r.get (hasFile r names name)) (Worklist.start c) V ⟨[],
      seen⟩)
    (hcut : Cut r names name V) (hstart : start.getD r.head = c.commitId) (hfuel : V.length ≤ fuel)
    (hpages : V.length ≤ pages) (gotLatest gotSecond : Bool) :
    ∃ rows, listPages r path 1 fuel pages start gotLatest gotSecond = some rows ∧
      rows.length < (V.filterMap (revisionOf r names name)).length := by
  induction pages generalizing c V seen start gotLatest gotSecond with
  | zero =>
    rw [Nat.le_zero, length_eq_zero_iff] at hpages
    subst hpages
    cases hw
  | succ pages ih =>
    obtain ⟨V₁, t, hp⟩ := exists_page hw 1 0
    have hne : 0 < V₁.length := length_pos_iff.2 (hp.ne_nil (by simp [Worklist.start]))
    obtain ⟨latest, second, hsucc⟩ := hs.listPages_succ hc hp hstart gotLatest gotSecond
    obtain ⟨U, b, W, rfl, hat⟩ := hcut
    have hWne : W ≠ [] := by
      rintro rfl
      exact hat.revisions rfl
    -- the page does not go beyond the place where the list narrows
    have hpast : ∀ W', V₁ = U ++ b :: W' → W' = [] := by
      intro W' hV₁
      by_contra hW'
      rw [append_cons] at hw
      obtain ⟨s', hU, -⟩ := hw.split
      rw [← append_cons] at hw
      exact hp.not_narrow le_rfl hV₁ hW' hat.file hU ((narrow_iff hw hU).2 hat.narrow)
    rcases Page.rest hs.sound.history hs.descending hc hw hp with
      ⟨ht, hV⟩ | ⟨q, V₂, seen', ht, hV, hq, hw₂⟩
    · exact absurd (hpast W hV.symm) hWne
    · obtain ⟨⟨X, hX⟩, hwhere⟩ := cut_split hV hat hpast
      have hlen : (U ++ b :: W).length = V₁.length + V₂.length := by
        rw [hV, length_append]
      have hrev : 0 < (V₂.filterMap (revisionOf r names name)).length := by
        rw [hX, filterMap_append, length_append]
        have := length_pos_iff.2 hat.revisions
        omega
      rw [hsucc fuel pages (by omega), ht, hV, filterMap_append, length_append]
      by_cases hany : (V₁.any fun c => !hasFile r names name c) = true
      · exact ⟨_, if_pos hany, by omega⟩
      · have hnext : (some q.commitId).getD r.head = q.commitId := rfl
        obtain ⟨rows, hrows, hless⟩ := ih hq hw₂ (hwhere.resolve_left hany) hnext (by omega)
          (by omega) latest second
        refine ⟨V₁.filterMap (revisionOf r names name) ++ rows, ?_, ?_⟩
        · rw [if_neg hany]
          simp only [head?_cons, elim_some, hrows, map_some]
        · rw [length_append]
          omega

end

end Pages

/-- **The pages are the listing exactly if they are not cut off**: at no place a commit without
    the file was met, one commit waits, and revisions are left. -/
theorem listPages_eq_iff {r : RevisionRepo Id} {path name : Name} {names : List Name}
    (hp : IsFilePath path names name) (htime : r.truncateTime < 0) {start : Option Id}
    (hist : History r.get (fun _ => true) (start.getD r.head))
    (hsound : ∀ c : Commit Id, c.InHistory r.get (fun _ => true) (start.getD r.head) → Sound r c)
    (hdesc : Descending r.get (fun _ => true) (start.getD r.head))
    (hrename : ∀ c : Commit Id, c.InHistory r.get (fun _ => true) (start.getD r.head) →
      detectRenameRevision r path c = none) :
    (∀ limit : ℤ, 1 ≤ limit → ∀ gotLatest gotSecond, ∃ rows n, ∀ fuel pages, n ≤ fuel → n ≤ pages →
      listPages r path limit fuel pages start gotLatest gotSecond = some rows ∧
      (listFileRevisions r path (-1) fuel start gotLatest gotSecond).map ListedPage.revisions =
        some rows) ↔
      ¬ CutOff r names name (start.getD r.head) := by
  have hgoes : ∀ c, hasFile r names name c = true → (fun _ => true) c = true := fun _ _ => rfl
  have hs : Paged r path names name (start.getD r.head) :=
    ⟨⟨hist.mono hgoes, fun c hc => hsound c (hc.mono hgoes)⟩, hp, htime, hdesc.mono hgoes,
      fun c hc => hrename c (hc.mono hgoes)⟩
  obtain ⟨c₀, h₀⟩ := isSome_iff_exists.1
    (hs.sound.history.readable _ Relation.ReflTransGen.refl)
  have hc₀ := hs.sound.history.inHistory_of_get h₀ Relation.ReflTransGen.refl
  have hstart : start.getD r.head = c₀.commitId := (hs.sound.history.saved _ c₀ h₀).symm
  obtain ⟨V, seen, hw⟩ := exists_walk_of_inHistory hs.sound.history hc₀
  have hlisting : ∀ gotLatest gotSecond fuel, V.length ≤ fuel →
      (listFileRevisions r path (-1) fuel start gotLatest gotSecond).map ListedPage.revisions =
        some (V.filterMap (revisionOf r names name)) := by
    intro gotLatest gotSecond fuel hfuel
    obtain ⟨V', ⟨W, seen'⟩, hpage⟩ := exists_page hw (-1) 0
    obtain rfl : W = [] := hpage.waiting_of_unlimited (by decide)
    obtain rfl := hpage.walk.unique hw
    obtain ⟨latest, second, hlist⟩ := hs.listed_page hc₀ hpage hstart gotLatest gotSecond
    rw [hlist fuel hfuel]
    rfl
  constructor
  · rintro hall ⟨c, V', seen', hget, hw', hcut⟩
    obtain rfl := mem_unique h₀ hget
    obtain rfl := hw'.unique hw
    obtain ⟨rows, n, hrows⟩ := hall 1 le_rfl false false
    obtain ⟨hpages, hlist⟩ := hrows (max n V.length) (max n V.length) (le_max_left _ _)
      (le_max_left _ _)
    obtain ⟨rows', hrows', hless⟩ := hs.listPages_of_cut hc₀ hw hcut hstart (le_max_right n _)
      (le_max_right n _) false false
    rw [hlisting false false _ (le_max_right n _)] at hlist
    rw [hpages, ← hlist] at hrows'
    cases hrows'
    exact absurd hless (lt_irrefl _)
  · intro hcut limit _ gotLatest gotSecond
    refine ⟨V.filterMap (revisionOf r names name), V.length, fun fuel pages hfuel hpages =>
      ⟨?_, hlisting gotLatest gotSecond fuel hfuel⟩⟩
    exact hs.listPages_of_not_cut hc₀ hw (fun h => hcut ⟨c₀, V, seen, h₀, hw, h⟩) hstart hfuel
      hpages gotLatest gotSecond

end Revision

/-! ## The library with a merge -/

theorem descending_repoOfF (goes : Commit ℕ → Bool) (head : ℕ) :
    Descending repoOfF.get goes head :=
  Descending.ofList (by decide +kernel)

theorem noRename_repoOfF {goes : Commit ℕ → Bool} {head : ℕ} {c : Commit ℕ}
    (hc : c.InHistory repoOfF.get goes head) :
    Revision.detectRenameRevision repoOfF ['/', 'f'] c = none := by
  have hall : ∀ c ∈ commitsOfF, Revision.detectRenameRevision repoOfF ['/', 'f'] c = none := by
    decide +kernel
  exact hall c (lookupCommit_some hc.1).1

def commitOfF (id : ℕ) (time : UInt64) (fileId parent : ℕ) : Commit ℕ :=
  ⟨id, rootOfF fileId, time, some parent, none⟩

def firstOfF : Commit ℕ := ⟨1, 0, 10, none, none⟩

/-- The history below the commit 3 is a line, and only the first commit has no file. -/
theorem not_cutOff_line : ¬ Revision.CutOff repoOfF [] ['f'] 3 := by
  rintro ⟨c, V, seen, hget, hw, V₁, b, V₂, rfl, hat⟩
  obtain rfl : c = commitOfF 3 30 8 2 := by
    have h₃ : repoOfF.get 3 = some (commitOfF 3 30 8 2) := by decide +kernel
    exact mem_unique hget h₃
  have hline : Walk insertByTime (parentsOf repoOfF.get (Revision.hasFile repoOfF [] ['f']))
      (Worklist.start (commitOfF 3 30 8 2))
      [commitOfF 3 30 8 2, commitOfF 2 20 7 1, firstOfF]
      ⟨[], [firstOfF, commitOfF 2 20 7 1, commitOfF 3 30 8 2]⟩ :=
    .step (s := ⟨[commitOfF 2 20 7 1], [commitOfF 2 20 7 1, commitOfF 3 30 8 2]⟩)
      (by decide +kernel)
      (.step (s := ⟨[firstOfF], [firstOfF, commitOfF 2 20 7 1, commitOfF 3 30 8 2]⟩)
        (by decide +kernel) (.step (by decide +kernel) .nil))
  have hV := hline.unique hw
  obtain ⟨a, ha, hno⟩ := hat.absent
  have hfiles : ∀ x ∈ [commitOfF 3 30 8 2, commitOfF 2 20 7 1],
      Revision.hasFile repoOfF [] ['f'] x = true := by decide +kernel
  have hmem : a ∈ [commitOfF 3 30 8 2, commitOfF 2 20 7 1] := by
    rcases V₁ with _ | ⟨v, _ | ⟨v', V₁⟩⟩
    · cases ha
    · simp only [singleton_append, List.cons.injEq] at hV
      rw [mem_singleton.1 ha, hV.1]
      exact mem_cons_self
    · simp only [cons_append, List.cons.injEq, append_eq_singleton_iff] at hV
      obtain ⟨rfl, rfl, ⟨rfl, -⟩ | ⟨-, h⟩⟩ := hV
      · exact ha
      · cases h
  rw [hfiles a hmem] at hno
  cases hno

theorem listPages_eq_iff_line : ¬ Revision.CutOff repoOfF [] ['f'] 3 ∧
    ∃ rows n, ∀ fuel pages, n ≤ fuel → n ≤ pages →
      Revision.listPages repoOfF ['/', 'f'] 1 fuel pages (some 3) false false = some rows ∧
      (Revision.listFileRevisions repoOfF ['/', 'f'] (-1) fuel (some 3) false false).map
        Revision.ListedPage.revisions = some rows := by
  have hist : History repoOfF.get (fun _ => true) ((some 3).getD repoOfF.head) :=
    history_repoOfF _ (by decide)
  refine ⟨not_cutOff_line, (Revision.listPages_eq_iff isFilePath_f
    (show repoOfF.truncateTime < 0 by decide) hist (fun c hc => sound_repoOfF hc)
    (descending_repoOfF _ _) fun c hc => noRename_repoOfF hc).2 not_cutOff_line 1 le_rfl false
    false⟩

def rowOfF (id : ℕ) (time : UInt64) (fileId parent : ℕ) : FileRevision ℕ :=
  ⟨commitOfF id time fileId parent, fileId, 1, none⟩

/-- One page ends after the commit 3 with the commit 2 left, but the commit 4 beside them has no
    file. -/
theorem listPages_not_listing :
    Descending repoOfF.get (fun _ => true) 5 ∧
    (∀ c ∈ commitsOfF, Revision.detectRenameRevision repoOfF ['/', 'f'] c = none) ∧
    Revision.listPages repoOfF ['/', 'f'] 1 5 5 none false false = some [rowOfF 3 30 8 2] ∧
    (Revision.listFileRevisions repoOfF ['/', 'f'] (-1) 5 none false false).map
      Revision.ListedPage.revisions = some [rowOfF 3 30 8 2, rowOfF 2 20 7 1] := by
  refine ⟨descending_repoOfF _ 5, ?_⟩
  decide +kernel

end CloudFile
