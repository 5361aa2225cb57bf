/-
  The rolling fingerprint (`common/cdc/rabin-checksum.c`) and how `file_chunk_cdc` moves it along
  a file. It is kept in 32 bits while the tables are made for 64, so it depends on eight bytes
  (`fingerprint_eight_bytes`).
-/
import Mathlib.Data.Nat.Bitwise
import Mathlib.Data.UInt

namespace CloudFile

namespace Rabin

open List

def poly : ℕ := 0xbfe6b8a5bf378d83

/-- The place of the highest bit, from 1 -/
def fls64 (v : ℕ) : ℕ := if v = 0 then 0 else v.log2 + 1

/-- The first loop of `polymod`, from bit `i - 1` down to 0 -/
def reduceHigh (d : ℕ) : ℕ → ℕ → ℕ → ℕ
  | 0, _, nl => nl
  | i + 1, nh, nl =>
    if nh &&& 1 <<< i = 0 then reduceHigh d i nh nl
    else reduceHigh d i (nh ^^^ d >>> (63 - i)) (nl ^^^ (d <<< (i + 1)) % 2 ^ 64)

/-- The second loop, over `n` bits down to bit `k` -/
def reduceLow (d k : ℕ) : ℕ → ℕ → ℕ
  | 0, nl => nl
  | n + 1, nl =>
    reduceLow d k n (if nl &&& 1 <<< (k + n) = 0 then nl else nl ^^^ d >>> (63 - (k + n)))

def polymod (nh nl d : ℕ) : ℕ :=
  let k := fls64 d - 1
  let d := (d <<< (63 - k)) % 2 ^ 64
  let nl := if nh = 0 then nl else
    reduceHigh d 63 (if nh.testBit 63 then nh ^^^ d else nh) nl
  reduceLow d k (64 - k) nl

/-- The loop of `polymult`, from `i` on for `n` rounds -/
def multiply (x y : ℕ) : ℕ → ℕ → ℕ × ℕ → ℕ × ℕ
  | 0, _, p => p
  | n + 1, i, (ph, pl) => multiply x y n (i + 1)
    (if x &&& 1 <<< i = 0 then (ph, pl) else (ph ^^^ y >>> (64 - i), pl ^^^ (y <<< i) % 2 ^ 64))

def polymult (x y : ℕ) : ℕ × ℕ := multiply x y 63 1 (0, if x.testBit 0 then y else 0)

def polymmult (x y d : ℕ) : ℕ := polymod (polymult x y).1 (polymult x y).2 d

/-- `calcT` -/
def xshift : ℕ := fls64 poly - 1
def shift : ℕ := xshift - 8
def T (j : ℕ) : ℕ := polymmult j (polymod 0 (1 <<< xshift) poly) poly ||| (j <<< xshift) % 2 ^ 64

def append8 (p : ℕ) (m : UInt8) : ℕ := ((p <<< 8) % 2 ^ 64 ||| m.toNat) ^^^ T (p >>> shift)

/-- `calcU` -/
def sizeshift : ℕ → ℕ
  | 0 => 1
  | n + 1 => append8 (sizeshift n) 0
def U (size : ℕ) (i : UInt8) : ℕ := polymmult i.toNat (sizeshift (size - 1)) poly

def rabinRollingChecksum (csum : ℕ) (c1 c2 : UInt8) : ℕ := append8 (csum ^^^ U 48 c1) c2 % 2 ^ 32

def rabinChecksum (buf : List UInt8) : ℕ := buf.foldl (fun sum b => rabinRollingChecksum sum 0 b) 0

/-- The fingerprints as `file_chunk_cdc` computes them: of the first window, and then at each next
    byte, with the byte that leaves the window. -/
def fingerprint (buf : List UInt8) : ℕ → ℕ
  | 0 => rabinChecksum (buf.take 48)
  | k + 1 => rabinRollingChecksum (fingerprint buf k) (buf.getD k 0) (buf.getD (k + 48) 0)

/-! ## What is left of a window -/

/-- A byte after the others, in 32 bits -/
def push (csum : ℕ) (c : UInt8) : ℕ := (256 * csum + c.toNat) % 2 ^ 32

/-- What a byte that leaves the window does to the fingerprint -/
def leaves (c : UInt8) : ℕ := append8 (U 48 c) 0 % 2 ^ 32

theorem sizeshift_eq : sizeshift 47 = 0x30ce60d7420a4013 := by decide +kernel

theorem leaves_table : ∀ c < 256, append8 (polymmult c 0x30ce60d7420a4013 poly) 0 % 2 ^ 32 = 0 →
    c = 0 := by
  decide +kernel

theorem leaves_eq_zero_iff {c : UInt8} : leaves c = 0 ↔ c = 0 := by
  constructor
  · intro h
    rw [leaves, U, sizeshift_eq] at h
    exact UInt8.toNat_inj.1 (leaves_table _ c.toNat_lt h)
  · rintro rfl
    decide +kernel

theorem append8_mod (p : ℕ) (m : UInt8) :
    append8 p m % 2 ^ 32 = ((p <<< 8 ||| m.toNat) ^^^ T (p >>> shift)) % 2 ^ 32 := by
  simp only [append8, Nat.xor_mod_two_pow, Nat.or_mod_two_pow, Nat.mod_mod_of_dvd (p <<< 8)
    (show 2 ^ 32 ∣ 2 ^ 64 by decide)]

theorem xor_shiftLeft_or (a b : ℕ) {m : ℕ} (hm : m < 2 ^ 8) :
    (a ^^^ b <<< 8) ||| m = (a ||| m) ^^^ b <<< 8 := by
  refine Nat.eq_of_testBit_eq fun i => ?_
  by_cases hi : i < 8
  · simp [Nat.not_le.2 hi]
  · have hbit : m.testBit i = false :=
      Nat.testBit_lt_two_pow (hm.trans_le (Nat.pow_le_pow_right Nat.two_pos (not_lt.1 hi)))
    simp [hbit]

theorem push_eq (csum : ℕ) (c : UInt8) : push csum c = (csum <<< 8 ||| c.toNat) % 2 ^ 32 := by
  rw [← Nat.shiftLeft_add_eq_or_of_lt c.toNat_lt, Nat.shiftLeft_eq, push, mul_comm]

theorem rabinRollingChecksum_eq {csum : ℕ} (h : csum < 2 ^ 32) (c1 c2 : UInt8) :
    rabinRollingChecksum csum c1 c2 = push csum c2 ^^^ leaves c1 := by
  have hshift : shift = 55 := by decide
  have hhigh : csum >>> shift = 0 := by
    rw [hshift, Nat.shiftRight_eq_div_pow, Nat.div_eq_of_lt (h.trans (by decide))]
  rw [rabinRollingChecksum, leaves, append8_mod, append8_mod, push_eq, ← Nat.xor_mod_two_pow,
    Nat.shiftRight_xor_distrib, hhigh, Nat.zero_xor, Nat.shiftLeft_xor_distrib,
    xor_shiftLeft_or _ _ c2.toNat_lt, Nat.xor_assoc]
  simp

theorem rabinRollingChecksum_zero {csum : ℕ} (h : csum < 2 ^ 32) (c : UInt8) :
    rabinRollingChecksum csum 0 c = push csum c := by
  rw [rabinRollingChecksum_eq h, leaves_eq_zero_iff.2 rfl, Nat.xor_zero]

theorem foldl_rolling {csum : ℕ} (h : csum < 2 ^ 32) (buf : List UInt8) :
    buf.foldl (fun sum b => rabinRollingChecksum sum 0 b) csum = buf.foldl push csum := by
  induction buf generalizing csum with
  | nil => rfl
  | cons b buf ih =>
    rw [foldl_cons, foldl_cons, rabinRollingChecksum_zero h]
    exact ih (Nat.mod_lt _ (by decide))

theorem rabinChecksum_concat (buf : List UInt8) (c : UInt8) :
    rabinChecksum (buf ++ [c]) = push (rabinChecksum buf) c := by
  simp only [rabinChecksum, foldl_rolling (show 0 < 2 ^ 32 by decide), foldl_concat]

theorem rabinChecksum_lt (buf : List UInt8) : rabinChecksum buf < 2 ^ 32 := by
  cases buf using reverseRecOn with
  | nil => decide
  | append_singleton buf c =>
    rw [rabinChecksum_concat]
    exact Nat.mod_lt _ (by decide)

/-- Four bytes push out what was there before. -/
theorem rabinChecksum_cons (b : UInt8) {t : List UInt8} (ht : 4 ≤ t.length) :
    rabinChecksum (b :: t) = rabinChecksum t := by
  simp only [rabinChecksum, foldl_rolling (show 0 < 2 ^ 32 by decide)]
  match t, ht with
  | b1 :: b2 :: b3 :: b4 :: t, _ =>
    simp only [foldl_cons]
    congr 1
    simp only [push]
    omega

/-- A step moves the window, and leaves a trace of the byte that it drops. -/
theorem rabinRollingChecksum_window (b c : UInt8) {t : List UInt8} (ht : 4 ≤ t.length) :
    rabinRollingChecksum (rabinChecksum (b :: t)) b c = rabinChecksum (t ++ [c]) ^^^ leaves b := by
  rw [rabinRollingChecksum_eq (rabinChecksum_lt _), rabinChecksum_concat, rabinChecksum_cons b ht]

theorem window_succ {buf : List UInt8} {k : ℕ} (hk : k + 48 < buf.length) :
    ∃ t : List UInt8, t.length = 47 ∧ (buf.drop k).take 48 = buf.getD k 0 :: t ∧
      (buf.drop (k + 1)).take 48 = t ++ [buf.getD (k + 48) 0] := by
  refine ⟨(buf.drop (k + 1)).take 47, by rw [length_take, length_drop]; omega, ?_, ?_⟩
  · rw [drop_eq_getElem_cons (by omega), take_succ_cons, getD_eq_getElem _ _ (by omega)]
  · rw [take_succ_eq_append_getElem (by rw [length_drop]; omega), getElem_drop,
      getD_eq_getElem _ _ hk]

/-- **When the fingerprint is that of the window** at every position: exactly if all bytes that have
    left it are zero. -/
theorem fingerprint_window_iff (buf : List UInt8) :
    (∀ k, k + 48 ≤ buf.length → fingerprint buf k = rabinChecksum ((buf.drop k).take 48)) ↔
      ∀ k, k + 48 < buf.length → buf.getD k 0 = 0 := by
  constructor
  · intro h k hk
    obtain ⟨t, ht, hold, hnew⟩ := window_succ hk
    have hstep := h (k + 1) (by omega)
    rw [fingerprint, h k hk.le, hold, hnew, rabinRollingChecksum_window _ _ (by omega)] at hstep
    refine leaves_eq_zero_iff.1 (Nat.xor_right_inj.1 (hstep.trans (Nat.xor_zero _).symm))
  · intro h k hk
    induction k with
    | zero => rfl
    | succ k ih =>
      obtain ⟨t, ht, hold, hnew⟩ := window_succ (show k + 48 < buf.length by omega)
      rw [fingerprint, ih (by omega), hold, hnew, rabinRollingChecksum_window _ _ (by omega),
        leaves_eq_zero_iff.2 (h k (by omega)), Nat.xor_zero]

/-- A one that leaves a window of zeros is not forgotten. -/
theorem fingerprint_not_window :
    fingerprint (1 :: replicate 48 0) 1 ≠
      rabinChecksum (((1 :: replicate 48 0).drop 1).take 48) := by
  decide +kernel

/-! ## What a fingerprint depends on -/

theorem fingerprint_lt (buf : List UInt8) (k : ℕ) : fingerprint buf k < 2 ^ 32 := by
  cases k with
  | zero => exact rabinChecksum_lt _
  | succ k => exact Nat.mod_lt _ (by decide)

/-- After a step, sums that agree in their last bits agree in eight more. -/
theorem rabinRollingChecksum_mod {s s' j : ℕ} (hs : s < 2 ^ 32) (hs' : s' < 2 ^ 32) (hj : j ≤ 24)
    (h : s % 2 ^ j = s' % 2 ^ j) (c1 c2 : UInt8) :
    rabinRollingChecksum s c1 c2 % 2 ^ (j + 8) = rabinRollingChecksum s' c1 c2 % 2 ^ (j + 8) := by
  have hpush : push s c2 % 2 ^ (j + 8) = push s' c2 % 2 ^ (j + 8) := by
    have hdvd : 2 ^ (j + 8) ∣ 2 ^ 32 := pow_dvd_pow 2 (by omega)
    rw [push, push, Nat.mod_mod_of_dvd _ hdvd, Nat.mod_mod_of_dvd _ hdvd, pow_add, mul_comm (2 ^ j)]
    exact (Nat.ModEq.mul_left' 256 h).add_right _
  rw [rabinRollingChecksum_eq hs, rabinRollingChecksum_eq hs', Nat.xor_mod_two_pow, hpush,
    ← Nat.xor_mod_two_pow]

/-- The bytes that have come and gone in the last `n` steps decide the last `8 n` bits. -/
theorem fingerprint_mod {buf buf' : List UInt8} {k k' n : ℕ} (hn : n ≤ 4)
    (hleft : ∀ i < n, buf.getD (k + i) 0 = buf'.getD (k' + i) 0)
    (hlast : ∀ i < n, buf.getD (k + i + 48) 0 = buf'.getD (k' + i + 48) 0) :
    fingerprint buf (k + n) % 2 ^ (8 * n) = fingerprint buf' (k' + n) % 2 ^ (8 * n) := by
  induction n with
  | zero => simp [Nat.mod_one]
  | succ n ih =>
    have hmod := ih (by omega) (fun i hi => hleft i (by omega)) fun i hi => hlast i (by omega)
    rw [← Nat.add_assoc, ← Nat.add_assoc, fingerprint, fingerprint, hleft n (by omega),
      hlast n (by omega)]
    exact rabinRollingChecksum_mod (fingerprint_lt _ _) (fingerprint_lt _ _) (by omega) hmod _ _

/-- **A fingerprint forgets all but eight bytes**: after four steps it depends on the last four
    bytes of the window and on the four bytes that have left it, and on nothing else of the file. -/
theorem fingerprint_eight_bytes {buf buf' : List UInt8} {k k' : ℕ}
    (hleft : ∀ i < 4, buf.getD (k + i) 0 = buf'.getD (k' + i) 0)
    (hlast : ∀ i < 4, buf.getD (k + i + 48) 0 = buf'.getD (k' + i + 48) 0) :
    fingerprint buf (k + 4) = fingerprint buf' (k' + 4) := by
  have hmod := fingerprint_mod le_rfl hleft hlast
  rwa [Nat.mod_eq_of_lt (fingerprint_lt _ _), Nat.mod_eq_of_lt (fingerprint_lt _ _)] at hmod

/-- The ones between those bytes are not seen. -/
theorem fingerprint_ignores_middle :
    fingerprint (replicate 4 0 ++ replicate 44 1 ++ replicate 4 0) 4 =
      fingerprint (replicate 52 0) 4 :=
  fingerprint_eight_bytes (k := 0) (by decide) (by decide)

end Rabin

end CloudFile
