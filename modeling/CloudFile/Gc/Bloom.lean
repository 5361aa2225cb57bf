/-
  The Bloom filter of the garbage collector (`lib/bloom-filter.c`) and the allocation of a GC
  index (`server/gc/gc-core.c`). A filter answers yes for everything that was added. Adding
  computes the bit in an `unsigned int` and testing in a `size_t`: `Bloom` carries the bound that
  makes them the same.
-/
import Mathlib.Logic.Function.Basic
import Mathlib.Data.UInt
import Mathlib.Tactic.IntervalCases

namespace CloudFile

def charBit : ℕ := 8

def setBit (a : ℕ → UInt8) (n : ℕ) : ℕ → UInt8 :=
  Function.update a (n / charBit) (a (n / charBit) ||| 1 <<< (n % charBit).toUInt8)

def getBit (a : ℕ → UInt8) (n : ℕ) : Bool :=
  a (n / charBit) &&& 1 <<< (n % charBit).toUInt8 ≠ 0

/-- `Bloom`: the bits, and for a counting filter a counter of four bits for each. -/
structure Bloom where
  asize : ℕ
  a : ℕ → UInt8
  counters : ℕ → UInt8
  k : ℕ
  counting : Bool
  pos : 0 < asize
  fits : asize ≤ 2 ^ 32

def bloomCreate (size k : ℕ) (counting : Bool) (pos : 0 < size) (fits : size ≤ 2 ^ 32) :
    Option Bloom :=
  if k = 0 ∨ 4 < k then none else some ⟨size, fun _ => 0, fun _ => 0, k, counting, pos, fits⟩

def maxBfSize : ℕ := 1 <<< 29

/-- The size `alloc_gc_index` computes: four bits for each object, within its bounds. -/
def gcIndexSize (totalBlocks : UInt64) : ℕ :=
  min (max (totalBlocks <<< 2).toNat (1 <<< 13)) maxBfSize

theorem gcIndexSize_pos (n : UInt64) : 0 < gcIndexSize n :=
  lt_min (lt_max_of_lt_right (by decide)) (by decide)

theorem gcIndexSize_fits (n : UInt64) : gcIndexSize n ≤ 2 ^ 32 :=
  (min_le_right _ _).trans (by decide)

def allocGcIndex (totalBlocks : UInt64) : Option Bloom :=
  bloomCreate (gcIndexSize totalBlocks) 3 false (gcIndexSize_pos totalBlocks)
    (gcIndexSize_fits totalBlocks)

def incrBit (bf : Bloom) (bitIdx : UInt32) : Bloom :=
  let a := setBit bf.a bitIdx.toNat
  if !bf.counting then { bf with a := a }
  else
    let charIdx := bitIdx.toNat / 2
    let value := bf.counters charIdx
    let low := value &&& 0xF
    let high := (value &&& 0xF0) >>> 4
    let low' := if bitIdx.toNat % 2 = 0 ∧ low < 0xF then low + 1 else low
    let high' := if bitIdx.toNat % 2 ≠ 0 ∧ high < 0xF then high + 1 else high
    { bf with a := a, counters := Function.update bf.counters charIdx (high' <<< 4 ||| low') }

section Hash

-- the four words of the SHA-256 digest of a string
variable {Id : Type} (sha256 : Id → ℕ → UInt64)

/-- `sha_int[i] % bloom->asize` -/
def bitOf (bf : Bloom) (s : Id) (i : ℕ) : ℕ := (sha256 s i).toNat % bf.asize

def bloomAdd (bloom : Bloom) (s : Id) : Bloom :=
  (List.range bloom.k).foldl (fun bf i => incrBit bf (bitOf sha256 bf s i).toUInt32) bloom

def bloomTest (bloom : Bloom) (s : Id) : Bool :=
  (List.range bloom.k).all fun i => getBit bloom.a (bitOf sha256 bloom s i)

/-! ## Bits -/

theorem uint8_or_and_distrib (x y z : UInt8) : (x ||| y) &&& z = (x &&& z) ||| (y &&& z) :=
  UInt8.toBitVec_inj.1 BitVec.and_or_distrib_right

theorem one_shift_ne_zero (n : ℕ) : (1 : UInt8) <<< (n % charBit).toUInt8 ≠ 0 := by
  have hn : n % charBit < 8 := Nat.mod_lt n (by decide)
  generalize n % charBit = m at hn
  interval_cases m <;> decide

variable (a : ℕ → UInt8)

theorem getBit_setBit_self (n : ℕ) : getBit (setBit a n) n = true := by
  simp only [getBit, setBit, Function.update_self, uint8_or_and_distrib, UInt8.and_self, ne_eq,
    UInt8.or_eq_zero_iff, one_shift_ne_zero, and_false, not_false_eq_true, decide_true]

theorem getBit_setBit (n : ℕ) {m : ℕ} (h : getBit a m = true) :
    getBit (setBit a n) m = true := by
  by_cases hm : m / charBit = n / charBit
  · simp only [getBit, setBit, hm, Function.update_self, uint8_or_and_distrib, ne_eq,
      decide_eq_true_eq, UInt8.or_eq_zero_iff] at h ⊢
    exact fun hz => h hz.1
  · simpa only [getBit, setBit, Function.update_of_ne hm] using h

variable (bf : Bloom)

@[simp] theorem incrBit_a (n : UInt32) : (incrBit bf n).a = setBit bf.a n.toNat := by
  unfold incrBit
  split <;> rfl

@[simp] theorem incrBit_asize (n : UInt32) : (incrBit bf n).asize = bf.asize := by
  unfold incrBit
  split <;> rfl

@[simp] theorem incrBit_k (n : UInt32) : (incrBit bf n).k = bf.k := by
  unfold incrBit
  split <;> rfl

/-! ## The filter -/

theorem toNat_bitOf (s : Id) (i : ℕ) :
    (bitOf sha256 bf s i).toUInt32.toNat = bitOf sha256 bf s i :=
  Nat.mod_eq_of_lt ((Nat.mod_lt _ bf.pos).trans_le bf.fits)

theorem foldl_incrBit (s : Id) (is : List ℕ) :
    let bf' := is.foldl (fun bf i => incrBit bf (bitOf sha256 bf s i).toUInt32) bf
    bf'.asize = bf.asize ∧ bf'.k = bf.k ∧ (∀ n, getBit bf.a n = true → getBit bf'.a n = true) ∧
      ∀ i ∈ is, getBit bf'.a (bitOf sha256 bf s i) = true := by
  induction is generalizing bf with
  | nil => simp
  | cons i is ih =>
    obtain ⟨hsize, hk, hkeep, hset⟩ := ih (incrBit bf (bitOf sha256 bf s i).toUInt32)
    simp only [incrBit_asize, incrBit_k, incrBit_a, toNat_bitOf] at hsize hk hkeep
    refine ⟨hsize, hk, fun n hn => hkeep n (getBit_setBit _ _ hn), ?_⟩
    rintro j (_ | ⟨_, hj⟩)
    · exact hkeep _ (getBit_setBit_self _ _)
    · simpa [bitOf] using hset j hj

/-- **No false negatives**: what was added is found. -/
theorem bloomTest_bloomAdd (s : Id) :
    bloomTest sha256 (bloomAdd sha256 bf s) s = true := by
  obtain ⟨hsize, hk, -, hset⟩ := foldl_incrBit sha256 bf s (List.range bf.k)
  rw [← bloomAdd] at hsize hk hset
  refine List.all_eq_true.2 fun i hi => ?_
  rw [hk] at hi
  simpa [bitOf, hsize] using hset i hi

theorem bloomTest_mono (t : Id) {s : Id} (h : bloomTest sha256 bf s = true) :
    bloomTest sha256 (bloomAdd sha256 bf t) s = true := by
  obtain ⟨hsize, hk, hkeep, -⟩ := foldl_incrBit sha256 bf t (List.range bf.k)
  rw [← bloomAdd] at hsize hk hkeep
  refine List.all_eq_true.2 fun i hi => ?_
  rw [hk] at hi
  simpa [bitOf, hsize] using hkeep _ (List.all_eq_true.1 h i hi)

/-- Adding many keeps what was found, and finds each of them. -/
theorem foldl_bloomAdd (ss : List Id) :
    (∀ s ∈ ss, bloomTest sha256 (ss.foldl (bloomAdd sha256) bf) s = true) ∧
      ∀ s, bloomTest sha256 bf s = true →
        bloomTest sha256 (ss.foldl (bloomAdd sha256) bf) s = true := by
  induction ss generalizing bf with
  | nil => simp
  | cons t ss ih =>
    obtain ⟨hall, hkeep⟩ := ih (bloomAdd sha256 bf t)
    refine ⟨?_, fun s hs => hkeep s (bloomTest_mono sha256 bf t hs)⟩
    rintro s (_ | ⟨_, hs⟩)
    · exact hkeep t (bloomTest_bloomAdd sha256 bf t)
    · exact hall s hs

/-- **No false negatives in a run**: everything added to a filter is found in it, whatever else
    was added before or after. -/
theorem bloomTest_foldl (ss : List Id) :
    ss.all (bloomTest sha256 (ss.foldl (bloomAdd sha256) bf)) = true :=
  List.all_eq_true.2 (foldl_bloomAdd sha256 bf ss).1

end Hash

end CloudFile
