/-
  Resumable uploads. The ranges of a file are written to a temporary file that
  `WebUploadTempFiles` has under the path of the upload, and that file is committed when the last
  range is there. It is never cut, so what an abandoned upload has left is committed too.
-/
import CloudFile.Sync.RecvFs

namespace CloudFile

/-- `lseek` and the writes after it; there are zeros between the end of the file and the offset. -/
def pwrite (file : Bytes) (offset : ℕ) (bytes : Bytes) : Bytes :=
  if bytes = [] then file
  else (file.rightpad offset 0).take offset ++ bytes ++ file.drop (offset + bytes.length)

/-- The two servers. -/
inductive UploadServer where
  | server
  | fileserver

/-- A request with a `Content-Range`, and what its steps run into. -/
structure RangeRequest where
  server : UploadServer
  rstart : ℕ
  rend : ℕ
  fsize : ℕ
  body : Bytes
  /-- the checks before the temporary file is looked up -/
  allowed : Bool
  /-- the temporary file can be created, or opened -/
  opens : Bool
  /-- after how many bytes the copy fails -/
  copyFails : Option ℕ
  /-- the checks after the last range, and the publication -/
  posts : Bool

namespace RangeRequest

/-- The range ends the file. -/
def isLast (q : RangeRequest) : Bool := q.rend + 1 == q.fsize

/-- The bytes that are written. -/
def copied (q : RangeRequest) : Bytes :=
  match q.copyFails with
  | none => q.body
  | some n => q.body.take n

/-- From the copy on: the file that has a record afterwards, and the file that is committed. -/
def copyAndPost (tmp : Option Bytes) (q : RangeRequest) : Option Bytes × Option Bytes :=
  let file := pwrite (tmp.getD []) q.rstart q.copied
  if !q.isLast then (some file, none)
  else (none, if q.copyFails.isNone && q.posts then some file else none)

/-- `doUpload`, with `writeBlockDataToTmpFile` and `clearTmpFile`. -/
def doUpload (tmp : Option Bytes) (q : RangeRequest) : Option Bytes × Option Bytes :=
  if !q.allowed || !q.opens then (tmp, none) else copyAndPost tmp q

/-- `upload_api_cb`, with `write_block_data_to_tmp_file` and `upload_finish_cb`: the last range
    takes the record away also where the file cannot be opened. -/
def uploadApiCb (tmp : Option Bytes) (q : RangeRequest) : Option Bytes × Option Bytes :=
  if !q.allowed then (tmp, none)
  else if !q.opens then (if q.isLast then none else tmp, none)
  else copyAndPost tmp q

/-- The answer of the server. -/
def serve (tmp : Option Bytes) (q : RangeRequest) : Option Bytes × Option Bytes :=
  match q.server with
  | .server => uploadApiCb tmp q
  | .fileserver => doUpload tmp q

/-- The request writes this byte. -/
def Writes (q : RangeRequest) (i : ℕ) : Prop :=
  (q.allowed = true ∧ q.opens = true) ∧ q.rstart ≤ i ∧ i < q.rstart + q.copied.length

end RangeRequest

open RangeRequest List

/-- The file after the requests. -/
def tmpAfter (tmp : Option Bytes) (qs : List RangeRequest) : Option Bytes :=
  qs.foldl (fun t q => (serve t q).1) tmp

/-- The requests send the ranges of `X` from a position on, in order. -/
def Tiles (X : Bytes) : ℕ → List RangeRequest → Prop
  | off, [] => off = X.length
  | off, q :: qs => q.rstart = off ∧ q.rend + 1 = off + q.body.length ∧ q.fsize = X.length ∧
      q.body ≠ [] ∧ q.body <+: X.drop off ∧ Tiles X (off + q.body.length) qs

/-- The old file does not go beyond `X`, and has what the requests do not write. -/
def FitsUpload (old X : Bytes) (qs : List RangeRequest) : Prop :=
  old.length ≤ X.length ∧
    ∀ i < X.length, (∀ q ∈ qs, ¬ q.Writes i) → old.getD i 0 = X.getD i 0

/-! ## What the writes leave -/

/-- From `f` to `g`, the bytes of `X` at the positions `P` are laid over the file. -/
structure Laid (X : Bytes) (P : ℕ → Prop) (f g : Bytes) : Prop where
  grows : f.length ≤ g.length
  within : g.length ≤ max f.length X.length
  inside : ∀ i, P i → g.getD i 0 = X.getD i 0
  outside : ∀ i, ¬ P i → g.getD i 0 = f.getD i 0

variable {X f g h : Bytes} {P Q : ℕ → Prop} {off : ℕ} {q : RangeRequest} {qs : List RangeRequest}

theorem Laid.refl (hP : ∀ i, ¬ P i) : Laid X P f f :=
  ⟨le_rfl, le_max_left _ _, fun i hi => absurd hi (hP i), fun _ _ => rfl⟩

theorem Laid.trans (hf : Laid X P f g) (hg : Laid X Q g h) : Laid X (fun i => P i ∨ Q i) f h where
  grows := hf.grows.trans hg.grows
  within := hg.within.trans (max_le hf.within (le_max_right _ _))
  inside i hi := by
    by_cases hQ : Q i
    · exact hg.inside i hQ
    · rw [hg.outside i hQ, hf.inside i (hi.resolve_right hQ)]
  outside i hi := by
    obtain ⟨hP, hQ⟩ := not_or.1 hi
    rw [hg.outside i hQ, hf.outside i hP]

theorem length_pwrite {bytes : Bytes} (hne : bytes ≠ []) :
    (pwrite f off bytes).length = max f.length (off + bytes.length) := by
  rw [pwrite, if_neg hne]
  simp only [length_append, length_take, length_rightpad, length_drop]
  omega

theorem getD_pwrite (bytes : Bytes) (i : ℕ) :
    (pwrite f off bytes).getD i 0 =
      if off ≤ i ∧ i < off + bytes.length then bytes.getD (i - off) 0 else f.getD i 0 := by
  by_cases hne : bytes = []
  · subst hne
    rw [pwrite, if_pos rfl, length_nil, if_neg (by omega)]
  rw [pwrite, if_neg hne]
  simp only [getD_eq_getElem?_getD, append_assoc, getElem?_append,
    getElem?_take, getElem?_drop, rightpad, getElem?_replicate]
  grind

theorem laid_pwrite {bytes : Bytes} (hpre : bytes <+: X.drop off) :
    Laid X (fun i => off ≤ i ∧ i < off + bytes.length) f (pwrite f off bytes) := by
  have hbyte : ∀ i, i < bytes.length → bytes.getD i 0 = X.getD (off + i) 0 := by
    intro i hi
    obtain ⟨rest, hrest⟩ := hpre
    rw [getD_eq_getElem?_getD, getD_eq_getElem?_getD, ← getElem?_drop, ← hrest,
      getElem?_append_left hi]
  by_cases hne : bytes = []
  · subst hne
    exact .refl fun i hi => absurd hi (by simp)
  · have hlen := hpre.length_le
    have hpos := length_pos_iff.2 hne
    rw [length_drop] at hlen
    refine ⟨?_, ?_, fun i hi => ?_, fun i hi => ?_⟩
    · rw [length_pwrite hne]
      exact le_max_left _ _
    · rw [length_pwrite hne]
      omega
    · rw [getD_pwrite, if_pos hi, hbyte _ (by omega), Nat.add_sub_cancel' hi.1]
    · rw [getD_pwrite, if_neg hi]

/-! ## The requests of an upload -/

theorem copied_le_body (q : RangeRequest) : q.copied <+: q.body := by
  unfold copied
  split
  · exact prefix_rfl
  · exact take_prefix _ _

theorem laid_serve (hlast : q.isLast = false) (hpre : q.body <+: X.drop q.rstart)
    (tmp : Option Bytes) : Laid X q.Writes (tmp.getD []) ((serve tmp q).1.getD []) := by
  by_cases hopen : q.allowed = true ∧ q.opens = true
  · have hserve : (serve tmp q).1 = some (pwrite (tmp.getD []) q.rstart q.copied) := by
      unfold serve
      split <;> simp [doUpload, uploadApiCb, copyAndPost, hopen, hlast]
    have hwrites : q.Writes = fun i => q.rstart ≤ i ∧ i < q.rstart + q.copied.length := by
      funext i
      exact propext (and_iff_right hopen)
    rw [hserve, hwrites]
    exact laid_pwrite ((copied_le_body q).trans hpre)
  · have hserve : (serve tmp q).1 = tmp := by
      unfold serve
      split <;> cases ha : q.allowed <;> cases ho : q.opens <;>
        simp_all [doUpload, uploadApiCb]
    rw [hserve]
    exact .refl fun i hi => hopen hi.1

theorem laid_tmpAfter (ht : Tiles X off (qs ++ [q])) (tmp : Option Bytes) :
    Laid X (fun i => ∃ r ∈ qs, r.Writes i) (tmp.getD []) ((tmpAfter tmp qs).getD []) ∧
      off < X.length ∧ q.body <+: X.drop q.rstart ∧ q.rstart + q.body.length = X.length ∧
      q.body ≠ [] := by
  induction qs generalizing off tmp with
  | nil =>
    obtain ⟨rfl, -, -, hne, hpre, hend⟩ := ht
    have hpos := length_pos_iff.2 hne
    exact ⟨.refl (by simp), by rw [← hend]; omega, hpre, hend, hne⟩
  | cons r qs ih =>
    obtain ⟨rfl, hrend, hsize, hne, hpre, ht⟩ := ht
    obtain ⟨hlaid, hlt, hq⟩ := ih ht (serve tmp r).1
    have hlast : r.isLast = false := by
      rw [isLast, hrend, hsize, beq_eq_false_iff_ne]
      exact hlt.ne
    refine ⟨?_, by omega, hq⟩
    simp only [mem_cons, exists_eq_or_imp]
    exact (laid_serve hlast hpre tmp).trans hlaid

theorem serve_commits {tmp : Option Bytes} {c : Bytes} (hc : (serve tmp q).2 = some c) :
    (q.allowed = true ∧ q.opens = true) ∧ q.copied = q.body ∧
      c = pwrite (tmp.getD []) q.rstart q.body ∧ (serve tmp q).1 = none := by
  have hserve : (q.allowed = true ∧ q.opens = true) ∧ serve tmp q = copyAndPost tmp q := by
    unfold serve at hc ⊢
    cases hs : q.server <;> cases ha : q.allowed <;> cases ho : q.opens <;>
      simp_all [doUpload, uploadApiCb]
  obtain ⟨hopen, hserve⟩ := hserve
  rw [hserve] at hc ⊢
  unfold copyAndPost at hc ⊢
  split_ifs at hc with hlast hok
  have hcopied : q.copied = q.body := by
    rw [Bool.and_eq_true, Option.isNone_iff_eq_none] at hok
    rw [copied, hok.1]
  rw [if_neg hlast]
  exact ⟨hopen, hcopied, by rw [← hcopied]; exact (Option.some.inj hc).symm, rfl⟩

/-- **What a resumable upload commits** is what was sent, and the record is gone, exactly if the
    temporary file of the path fits the upload when its first range arrives. -/
theorem resumable_exact_iff {c : Bytes} (before : List RangeRequest)
    (ht : Tiles X 0 (qs ++ [q])) (hc : (serve (tmpAfter none (before ++ qs)) q).2 = some c) :
    (c = X ∧ (serve (tmpAfter none (before ++ qs)) q).1 = none) ↔
      FitsUpload ((tmpAfter none before).getD []) X (qs ++ [q]) := by
  obtain ⟨hopen, hcopied, rfl, hnone⟩ := serve_commits hc
  rw [and_iff_left hnone]
  have hsplit : tmpAfter none (before ++ qs) = tmpAfter (tmpAfter none before) qs :=
    foldl_append
  rw [hsplit]
  obtain ⟨hlaid, -, hpre, hend, hne⟩ := laid_tmpAfter ht (tmpAfter none before)
  generalize (tmpAfter none before).getD [] = old at hlaid ⊢
  generalize (tmpAfter (tmpAfter none before) qs).getD [] = file at hlaid ⊢
  have hall := hlaid.trans (laid_pwrite hpre)
  have hlong : X.length ≤ (pwrite file q.rstart q.body).length := by
    rw [length_pwrite hne, hend]
    exact le_max_right _ _
  have hwrites : ∀ i, (∀ r ∈ qs ++ [q], ¬ r.Writes i) ↔
      ¬ ((∃ r ∈ qs, r.Writes i) ∨ q.rstart ≤ i ∧ i < q.rstart + q.body.length) := by
    intro i
    simp [Writes, hopen, hcopied, or_imp, forall_and]
  constructor
  · intro heq
    refine ⟨heq ▸ hall.grows, fun i _ hi => ?_⟩
    rw [← hall.outside i ((hwrites i).1 hi), heq]
  · rintro ⟨hshort, hold⟩
    have hlen : (pwrite file q.rstart q.body).length = X.length := by
      have hwithin := hall.within
      omega
    refine ext_getElem hlen fun i hi hi' => ?_
    have hbyte : (pwrite file q.rstart q.body).getD i 0 = X.getD i 0 := by
      by_cases hw : (∃ r ∈ qs, r.Writes i) ∨ q.rstart ≤ i ∧ i < q.rstart + q.body.length
      · exact hall.inside i hw
      · rw [hall.outside i hw, hold i hi' ((hwrites i).2 hw)]
    simpa [getD_eq_getElem?_getD, hi, hi'] using hbyte

def sentRange (rstart fsize : ℕ) (body : Bytes) : RangeRequest :=
  ⟨.fileserver, rstart, rstart + body.length - 1, fsize, body, true, true, none, true⟩

/-- The first byte of another upload is written over. -/
theorem upload_over_abandoned :
    serve (tmpAfter none ([sentRange 0 3 [7]] ++ [sentRange 0 3 [1, 2]])) (sentRange 2 3 [3]) =
      (none, some [1, 2, 3]) := by
  have hc : (serve (tmpAfter none ([sentRange 0 3 [7]] ++ [sentRange 0 3 [1, 2]]))
    (sentRange 2 3 [3])).2 = some [1, 2, 3] := by decide
  have ht : Tiles [1, 2, 3] 0 ([sentRange 0 3 [1, 2]] ++ [sentRange 2 3 [3]]) := by
    simp [Tiles, sentRange]
  refine Prod.ext ((resumable_exact_iff [sentRange 0 3 [7]] ht hc).2 ⟨by decide, ?_⟩).2 hc
  intro i hi hno
  exfalso
  have hi : i < 3 := hi
  have hfirst : ¬ i < 2 := fun hlt => hno (sentRange 0 3 [1, 2]) (by simp)
    ⟨⟨rfl, rfl⟩, Nat.zero_le i, hlt⟩
  exact hno (sentRange 2 3 [3]) (by simp) ⟨⟨rfl, rfl⟩, Nat.not_lt.1 hfirst, hi⟩

/-- **The end of another upload is committed**: it had sent three bytes, and the new content has
    two. -/
theorem upload_with_old_end : Tiles [8, 9] 0 ([] ++ [sentRange 0 2 [8, 9]]) ∧
    serve (tmpAfter none ([sentRange 0 4 [1, 2, 3]] ++ [])) (sentRange 0 2 [8, 9]) =
      (none, some [8, 9, 3]) :=
  ⟨by simp [Tiles, sentRange], by decide⟩

end CloudFile
