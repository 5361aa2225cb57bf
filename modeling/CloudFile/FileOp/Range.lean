/-
  Range downloads of the fileserver (`fileop.go`: `parseRange`, `doFileRange`).

  Where bytes are sent, `none` is a slice out of bounds or a subtraction that
  wraps; no range that `parseRange` accepts leads to one.
-/
import CloudFile.Sync.RecvFs

namespace CloudFile

open List Option

/-- `strconv.ParseUint(s, 10, 64)` -/
def parseUint (s : List Char) : Option ℕ :=
  let n := s.foldl (fun n c => 10 * n + (c.toNat - '0'.toNat)) 0
  if s = [] ∨ ¬ s.all Char.isDigit ∨ 2 ^ 64 ≤ n then none else some n

/-- The range a client asks for. -/
def parseRange (byteRanges : List Char) (fileSize : ℕ) : Option (ℕ × ℕ) :=
  let start := byteRanges.idxOf '='
  let stop := byteRanges.idxOf '-'
  let first := parseUint ((byteRanges.take stop).drop (start + 1))
  let last := parseUint (byteRanges.drop (stop + 1))
  if fileSize = 0 ∨ ¬ "bytes=".toList <+: byteRanges ∨ ',' ∈ byteRanges
      ∨ stop = byteRanges.length then none
  else Option.filter (fun r => r.1 ≤ r.2) <|
    if start + 1 = stop then (last.filter (· ≠ 0)).map fun retByte =>
      (if fileSize ≤ retByte then 0 else fileSize - retByte, fileSize - 1)
    else if stop + 1 = byteRanges.length then first.map (·, fileSize - 1)
    else first.bind fun firstByte => last.map fun lastByte =>
      (firstByte, min lastByte (fileSize - 1))

/-- A difference that must not be negative. -/
def sub64 (a b : ℕ) : Option ℕ := if b ≤ a then some (a - b) else none

/-- A part of a buffer. -/
def slice (buf : Bytes) (lo hi : ℕ) : Option Bytes :=
  if lo ≤ hi ∧ hi ≤ buf.length then some ((buf.take hi).drop lo) else none

/-- The first loop: `startBlock` and `pos`. -/
def findStart (start : ℕ) : List ℕ → ℕ → ℕ → ℕ → Option (ℕ × ℕ)
  | [], _, _, pos => some (0, pos)
  | v :: vs, i, off, _ => do
    let pos ← sub64 start off
    if start < off + v then some (i, pos) else findStart start vs (i + 1) (off + v) pos

/-- The last loop, over the blocks after the first one that is sent. -/
def sendRest (stop : ℕ) : List Bytes → List ℕ → ℕ → Option Bytes
  | [], _, _ => some []
  | _ :: _, [], _ => none
  | blk :: blks, v :: vs, start => do
    let left := (← sub64 stop start) + 1
    if left ≤ v then slice blk 0 left else pure (blk ++ (← sendRest stop blks vs (start + v)))

/-- The bytes of a range, over the blocks. -/
def sendRange (start stop : ℕ) (blks : List Bytes) (blkSize : List ℕ) : Option Bytes := do
  let (startBlock, pos) ← findStart start blkSize 0 0 0
  match blks.drop startBlock, blkSize.drop startBlock with
  | [], _ => some []
  | _ :: _, [] => none
  | blk :: blks, v :: vs =>
    let room ← sub64 v pos
    if (← sub64 stop start) + 1 ≤ room then
      slice blk pos ((← sub64 ((pos + stop) % 2 ^ 64) start) + 1)
    else pure ((← slice blk pos blk.length) ++ (← sendRest stop blks vs (start + room)))

/-- The answer to a range. -/
inductive RangeReply where
  | ok
  | notSatisfiable (fileSize : ℕ)
  /-- `Content-Length`, the numbers of `Content-Range`, and the body -/
  | content (length start stop fileSize : ℕ) (body : Bytes)

/-- The sizes, from the cache for a large file. -/
def blockSizes (fileSize : ℕ) (blks : List Bytes) (cached : Option (List ℕ)) : List ℕ :=
  if 2 ^ 23 < fileSize ∧ cached.getD [] ≠ [] then cached.getD [] else blks.map List.length

/-- `doFileRange`, where all reads and writes succeed: the reply, and the sizes that
    `blockMapCacheTable` has for the file.  `head` is for the method `HEAD`. -/
def doFileRange (head : Bool) (byteRanges : List Char) (fileSize : ℕ) (blks : List Bytes)
    (cached : Option (List ℕ)) : Option (RangeReply × Option (List ℕ)) :=
  if fileSize = 0 then some (.ok, cached) else
  match parseRange byteRanges fileSize with
  | none => some (.notSatisfiable fileSize, cached)
  | some (start, stop) => do
    let length := (← sub64 stop start) + 1
    if head then return (.content length start stop fileSize [], cached)
    let blkSize := blockSizes fileSize blks cached
    let body ← sendRange start stop blks blkSize
    return (.content length start stop fileSize body,
      if 2 ^ 23 < fileSize then some blkSize else cached)

variable {start stop : ℕ} {blks : List Bytes} {byteRanges : List Char}

theorem parseRange_bounds {fileSize : ℕ}
    (h : parseRange byteRanges fileSize = some (start, stop)) :
    start ≤ stop ∧ stop < fileSize := by
  simp only [parseRange] at h
  split at h
  · cases h
  obtain ⟨hr, hle⟩ := filter_eq_some_iff.1 h
  refine ⟨by simpa using hle, ?_⟩
  split at hr
  · obtain ⟨_, -, hr⟩ := map_eq_some_iff.1 hr
    grind
  split at hr
  · obtain ⟨_, -, hr⟩ := map_eq_some_iff.1 hr
    grind
  · obtain ⟨_, -, hr⟩ := bind_eq_some_iff.1 hr
    obtain ⟨_, -, hr⟩ := map_eq_some_iff.1 hr
    grind

theorem findStart_spec (start : ℕ) : ∀ (blks : List Bytes) (i off pos : ℕ), off ≤ start →
    start < off + blks.flatten.length → ∃ pre blk post p, blks = pre ++ blk :: post ∧
      start = off + pre.flatten.length + p ∧ p < blk.length ∧
      findStart start (blks.map List.length) i off pos = some (i + pre.length, p)
  | [], _, _, _, hle, hlt => by simp at hlt; omega
  | blk :: blks, i, off, pos, hle, hlt => by
    rw [flatten_cons, length_append] at hlt
    by_cases hin : start < off + blk.length
    · refine ⟨[], blk, blks, start - off, rfl, ?_, by omega, ?_⟩
      · rw [flatten_nil, length_nil]; omega
      · simp [findStart, sub64, hin, hle]
    · obtain ⟨pre, b, post, p, rfl, hp, hlt', hf⟩ := findStart_spec start blks (i + 1)
        (off + blk.length) (start - off) (by omega) (by omega)
      refine ⟨blk :: pre, b, post, p, rfl, ?_, hlt', ?_⟩
      · rw [flatten_cons, length_append]; omega
      · rw [map_cons, findStart, sub64, if_pos hle, bind_eq_bind, bind_some,
          if_neg hin, hf, length_cons, Nat.add_right_comm, Nat.add_assoc]

theorem sendRest_eq (stop : ℕ) : ∀ (blks : List Bytes) (start : ℕ), start ≤ stop →
    stop - start < blks.flatten.length →
    sendRest stop blks (blks.map List.length) start
      = some (blks.flatten.take (stop - start + 1))
  | [], _, _, h => by simp at h
  | blk :: blks, start, hle, h => by
    rw [flatten_cons, length_append] at h
    simp only [map_cons, sendRest, sub64, if_pos hle, bind_eq_bind, bind_some,
      flatten_cons]
    split_ifs with hin
    · rw [slice, if_pos ⟨Nat.zero_le _, hin⟩, drop_zero, take_append_of_le_length hin]
    · have hall : blk.length ≤ stop - start + 1 := by omega
      rw [sendRest_eq stop blks (start + blk.length) (by omega) (by omega), take_append,
        take_of_length_le hall, ← Nat.sub_sub, Nat.sub_add_comm (by omega)]
      rfl

theorem sendRange_eq (hsize : blks.flatten.length < 2 ^ 63)
    (hle : start ≤ stop) (hlt : stop < blks.flatten.length) :
    sendRange start stop blks (blks.map List.length)
      = some ((blks.flatten.drop start).take (stop - start + 1)) := by
  obtain ⟨pre, blk, post, pos, rfl, hstart, hpos, hf⟩ :=
    findStart_spec start blks 0 0 0 (Nat.zero_le start) (by omega)
  rw [Nat.zero_add] at hstart hf
  rw [flatten_append, flatten_cons] at hsize hlt ⊢
  rw [length_append, length_append] at hsize hlt
  have hdrop : (pre.flatten ++ (blk ++ post.flatten)).drop start
      = blk.drop pos ++ post.flatten := by
    rw [hstart, drop_length_add_append, drop_append_of_le_length hpos.le]
  have hmod : (pos + stop) % 2 ^ 64 = pos + stop := Nat.mod_eq_of_lt (by omega)
  have hstop : start ≤ pos + stop := by omega
  -- the first block is sent as the rest of a file that begins at `pos`
  rw [sendRange, hf, hdrop, ← flatten_cons, ← sendRest_eq stop (blk.drop pos :: post) start hle
    (by rw [flatten_cons, length_append, length_drop]; omega)]
  simp only [bind_eq_bind, bind_some, map_append, map_cons,
    drop_left', length_map, sub64, hpos.le, hle, if_true, hmod, hstop, sendRest,
    length_drop]
  split_ifs with hin
  · rw [slice, slice, if_pos (by omega), if_pos (by simp; omega), drop_zero, take_drop,
      show pos + stop - start + 1 = pos + (stop - start + 1) by omega]
  · rw [slice, if_pos ⟨hpos.le, le_rfl⟩, take_length, bind_some]

/-- **A range download sends the range**, also with the sizes that the downloads before it have
    cached.  The size of a file is an `int64`. -/
theorem doFileRange_sends (hsize : blks.flatten.length < 2 ^ 63) {cached : Option (List ℕ)}
    (hcached : ∀ sizes ∈ cached, sizes = blks.map List.length) (head : Bool)
    (h : parseRange byteRanges blks.flatten.length = some (start, stop)) :
    start ≤ stop ∧ stop < blks.flatten.length ∧ ∃ cached',
      (∀ sizes ∈ cached', sizes = blks.map List.length) ∧
      doFileRange head byteRanges blks.flatten.length blks cached
        = some (.content (stop - start + 1) start stop blks.flatten.length
          (if head then [] else (blks.flatten.drop start).take (stop - start + 1)), cached') := by
  obtain ⟨hle, hlt⟩ := parseRange_bounds h
  have hsizes : blockSizes blks.flatten.length blks cached = blks.map List.length := by
    unfold blockSizes
    cases cached <;> simp_all
  have hne : blks.flatten.length ≠ 0 := by omega
  refine ⟨hle, hlt, ?_⟩
  simp only [doFileRange, hne, if_false, h, hsizes, sub64, hle, if_true]
  cases head
  · refine ⟨if 2 ^ 23 < blks.flatten.length then some (blks.map List.length) else cached, ?_, ?_⟩
    · split_ifs <;> simp_all
    · simp [sendRange_eq hsize hle hlt]
  · exact ⟨cached, hcached, rfl⟩

theorem doFileRange_sends_four_blocks : ∃ cached', doFileRange false "bytes=1-3".toList 5
    [[1, 2], [], [3], [4, 5]] none = some (.content 3 1 3 5 [2, 3, 4], cached') := by
  obtain ⟨-, -, cached', -, h⟩ := @doFileRange_sends 1 3 [[1, 2], [], [3], [4, 5]]
    "bytes=1-3".toList (by decide) none (by simp) false (by decide +kernel)
  exact ⟨cached', h⟩

end CloudFile
