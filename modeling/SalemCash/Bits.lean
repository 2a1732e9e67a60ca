import Mathlib.Data.Nat.Bitwise

/-!
# Masks of a single bit and a low field

A mask made of one high bit `2^k` and the `j` low bits below it splits a number into
that bit and its low field. Lock-time fields are read through such masks: the type
bit of a relative lock time and its 16-bit value. Bits packed into bytes are set by `|` with
a shifted bit and read by `&` with a shifted one, and a byte is fixed by its eight bits.
-/
namespace Bits

/-- One bit of `x`, in place. -/
theorem and_two_pow (x k : Nat) : x &&& 2 ^ k = 2 ^ k * (x / 2 ^ k % 2) := by
  have hmod : (x &&& 2 ^ k) % 2 ^ k = 0 := by
    rw [Nat.and_mod_two_pow, Nat.mod_self, Nat.and_zero]
  have hdiv : (x &&& 2 ^ k) / 2 ^ k = x / 2 ^ k % 2 := by
    rw [Nat.and_div_two_pow, Nat.div_self (Nat.two_pow_pos k), Nat.and_one_is_mod]
  rw [← Nat.div_add_mod (x &&& 2 ^ k) (2 ^ k), hmod, hdiv, Nat.add_zero]

/-- The bit `k` of `x` in place, plus its `j` low bits. -/
theorem and_two_pow_add_mask (x : Nat) {j k : Nat} (hjk : j ≤ k) :
    x &&& (2 ^ k + (2 ^ j - 1)) = 2 ^ k * (x / 2 ^ k % 2) + x % 2 ^ j := by
  have hlt : 2 ^ j - 1 < 2 ^ k := by
    have := Nat.pow_le_pow_right (by decide : 0 < 2) hjk
    have := Nat.two_pow_pos j
    omega
  have hmod : (x &&& (2 ^ k + (2 ^ j - 1))) % 2 ^ k = x % 2 ^ j := by
    rw [Nat.and_mod_two_pow, Nat.add_mod_left, Nat.mod_eq_of_lt hlt, Nat.and_two_pow_sub_one_eq_mod,
      Nat.mod_mod_of_dvd _ (Nat.pow_dvd_pow 2 hjk)]
  have hdiv : (x &&& (2 ^ k + (2 ^ j - 1))) / 2 ^ k = x / 2 ^ k % 2 := by
    rw [Nat.and_div_two_pow, Nat.add_div_left _ (Nat.two_pow_pos k), Nat.div_eq_of_lt hlt,
      Nat.and_one_is_mod]
  rw [← Nat.div_add_mod (x &&& (2 ^ k + (2 ^ j - 1))) (2 ^ k), hmod, hdiv]

/-- A count with no set bit below `t` and bit `t` set is a multiple of `2^(k+1)` exactly
for `k < t`. -/
theorem mod_two_pow_succ_eq_zero_iff {x t k : Nat} (hlow : x % 2 ^ t = 0)
    (hbit : x / 2 ^ t % 2 = 1) : x % 2 ^ (k + 1) = 0 ↔ k < t := by
  constructor
  · intro hk
    by_contra hge
    have hdvd : 2 ^ (t + 1) ∣ x :=
      Nat.dvd_trans (Nat.pow_dvd_pow 2 (by omega)) (Nat.dvd_of_mod_eq_zero hk)
    have hmod : x % 2 ^ (t + 1) = x % 2 ^ t + 2 ^ t * (x / 2 ^ t % 2) := Nat.mod_pow_succ
    rw [Nat.mod_eq_zero_of_dvd hdvd, hlow, hbit, Nat.mul_one, Nat.zero_add] at hmod
    exact absurd hmod (Nat.ne_of_lt (Nat.two_pow_pos t))
  · intro hk
    exact Nat.mod_eq_zero_of_dvd
      (Nat.dvd_trans (Nat.pow_dvd_pow 2 hk) (Nat.dvd_of_mod_eq_zero hlow))

/-- A number in the last `2^k` below a multiple `d` of `2^(k+1)` has bit `k` set, and its
block of `2^k` starts at `d - 2^k`. -/
theorem div_two_pow_of_last_block {d n k : Nat} (hd : d % 2 ^ (k + 1) = 0)
    (hlo : d - 2 ^ k ≤ n) (hhi : n < d) :
    n / 2 ^ k % 2 = 1 ∧ n / 2 ^ k * 2 ^ k = d - 2 ^ k := by
  obtain ⟨q, rfl⟩ : ∃ q, d = 2 ^ (k + 1) * q :=
    ⟨d / 2 ^ (k + 1), (Nat.mul_div_cancel' (Nat.dvd_of_mod_eq_zero hd)).symm⟩
  have hpos := Nat.two_pow_pos k
  have hsplit : 2 ^ (k + 1) * q = 2 ^ k * (2 * q) := by
    rw [Nat.pow_succ, Nat.mul_comm (2 ^ k) 2, Nat.mul_assoc, Nat.mul_left_comm]
  rw [hsplit] at hlo hhi ⊢
  have hq : 0 < q := Nat.pos_of_ne_zero fun h0 => by simp [h0] at hhi
  have hlast : 2 ^ k * (2 * q) - 2 ^ k = (2 * q - 1) * 2 ^ k := by
    rw [Nat.mul_comm (2 * q - 1), Nat.mul_sub_one]
  have hdiv : n / 2 ^ k = 2 * q - 1 := by
    apply Nat.div_eq_of_lt_le
    · rw [← hlast]
      exact hlo
    · rw [Nat.sub_add_cancel (by omega), Nat.mul_comm]
      exact hhi
  rw [hdiv, hlast]
  exact ⟨by omega, rfl⟩

/-- One below a count whose lowest set bit is `t`: above bit `t` the two agree. -/
theorem pred_div_two_pow_eq {x t l : Nat} (hlow : x % 2 ^ t = 0) (hbit : x / 2 ^ t % 2 = 1)
    (htl : t < l) : (x - 1) / 2 ^ l = x / 2 ^ l := by
  have hpos := Nat.two_pow_pos t
  have hmod : x % 2 ^ (t + 1) = 2 ^ t := by
    rw [Nat.mod_pow_succ, hlow, hbit, Nat.mul_one, Nat.zero_add]
  have hsplit : 2 ^ l = 2 ^ (t + 1) * 2 ^ (l - (t + 1)) := by
    rw [← Nat.pow_add, Nat.add_sub_cancel' htl]
  have hx := Nat.div_add_mod x (2 ^ (t + 1))
  have hblock : (x - 1) / 2 ^ (t + 1) = x / 2 ^ (t + 1) := by
    apply Nat.div_eq_of_lt_le
    · have := Nat.mul_comm (x / 2 ^ (t + 1)) (2 ^ (t + 1))
      omega
    · have hup : (x / 2 ^ (t + 1) + 1) * 2 ^ (t + 1) =
          2 ^ (t + 1) * (x / 2 ^ (t + 1)) + 2 ^ (t + 1) := by
        rw [Nat.add_mul, Nat.one_mul, Nat.mul_comm]
      have hpow : 2 ^ (t + 1) = 2 * 2 ^ t := by rw [Nat.pow_succ, Nat.mul_comm]
      omega
  rw [hsplit, ← Nat.div_div_eq_div_mul, ← Nat.div_div_eq_div_mul, hblock]

/-- The low seven bits of a byte, as a number. -/
theorem toNat_low (b : UInt8) : (b &&& 0x7f).toNat = b.toNat % 128 := by
  rw [UInt8.toNat_and, show (0x7f : UInt8).toNat = 2 ^ 7 - 1 from rfl, Nat.and_two_pow_sub_one_eq_mod]

/-- The sign bit of a byte, in place. -/
theorem toNat_sign (b : UInt8) : (b &&& 0x80).toNat = if b.toNat < 128 then 0 else 128 := by
  have lt := b.toNat_lt
  rw [UInt8.toNat_and, show (0x80 : UInt8).toNat = 2 ^ 7 from rfl, and_two_pow]
  split <;> omega

/-- Setting the sign bit puts it above the low seven bits. -/
theorem toNat_or_sign (b : UInt8) : (b ||| 0x80).toNat = b.toNat % 128 + 128 := by
  have lt := b.toNat_lt
  have top : b.toNat / 2 ^ 7 ||| 1 = 1 := by
    rcases (by omega : b.toNat / 2 ^ 7 = 0 ∨ b.toNat / 2 ^ 7 = 1) with zero | one
    · rw [zero]; rfl
    · rw [one]; rfl
  rw [UInt8.toNat_or, show (0x80 : UInt8).toNat = 2 ^ 7 from rfl, ← Nat.div_add_mod (b.toNat ||| 2 ^ 7) (2 ^ 7),
    Nat.or_div_two_pow, Nat.or_mod_two_pow, Nat.div_self (Nat.two_pow_pos 7), top, Nat.mod_self, Nat.or_zero]
  omega

theorem toNat_toUInt8_mod_eight {k : Nat} (hk : k < 8) : k.toUInt8.toNat % 8 = k := by
  rw [Nat.toUInt8, UInt8.toNat_ofNat', Nat.mod_eq_of_lt (by omega : k < 2 ^ 8), Nat.mod_eq_of_lt hk]

/-- `x | (b << k)` sets bit `k` of a byte when `b` holds and keeps the other bits. -/
theorem testBit_or_shiftLeft (x : UInt8) (b : Bool) {k : Nat} (hk : k < 8) (j : Nat) :
    (x ||| b.toUInt8 <<< k.toUInt8).toNat.testBit j = (x.toNat.testBit j || b && decide (j = k)) := by
  rw [UInt8.toNat_or, Nat.testBit_or, UInt8.toNat_shiftLeft, toNat_toUInt8_mod_eight hk]
  cases b with
  | false =>
    rw [show (false.toUInt8).toNat = 0 from rfl, Nat.zero_shiftLeft, Nat.zero_mod, Nat.zero_testBit]
    simp
  | true =>
    have small : 2 ^ k < 2 ^ 8 := Nat.pow_lt_pow_right (by decide) hk
    rw [show (true.toUInt8).toNat = 1 from rfl, Nat.one_shiftLeft, Nat.mod_eq_of_lt small, Nat.testBit_two_pow,
      Bool.true_and, decide_eq_decide.mpr eq_comm]

/-- `(x & (1 << k)) != 0` reads bit `k` of a byte. -/
theorem and_one_shiftLeft_ne_zero (x : UInt8) {k : Nat} (hk : k < 8) :
    (x &&& (1 : UInt8) <<< k.toUInt8 != 0) = x.toNat.testBit k := by
  have small : 2 ^ k < 2 ^ 8 := Nat.pow_lt_pow_right (by decide) hk
  have one : ((1 : UInt8) <<< k.toUInt8).toNat = 2 ^ k := by
    rw [UInt8.toNat_shiftLeft, toNat_toUInt8_mod_eight hk, show (1 : UInt8).toNat = 1 from rfl, Nat.one_shiftLeft,
      Nat.mod_eq_of_lt small]
  have masked : (x &&& (1 : UInt8) <<< k.toUInt8).toNat = (x.toNat.testBit k).toNat * 2 ^ k := by
    rw [UInt8.toNat_and, one, Nat.and_two_pow]
  cases bit : x.toNat.testBit k with
  | false =>
    rw [bit, Bool.toNat_false, Nat.zero_mul, ← UInt8.toNat_zero, UInt8.toNat_inj] at masked
    simp [masked]
  | true =>
    have nonzero : x &&& (1 : UInt8) <<< k.toUInt8 ≠ 0 := by
      intro zero
      rw [zero, bit, UInt8.toNat_zero, Bool.toNat_true, Nat.one_mul] at masked
      exact absurd masked.symm (Nat.two_pow_pos k).ne'
    simp [nonzero]

/-- Two bytes with the same eight bits are equal. -/
theorem byte_eq_of_testBit {x y : UInt8} (same : ∀ j < 8, x.toNat.testBit j = y.toNat.testBit j) : x = y := by
  rw [← UInt8.toNat_inj]
  apply Nat.eq_of_testBit_eq
  intro j
  by_cases low : j < 8
  · exact same j low
  · have above : 2 ^ 8 ≤ 2 ^ j := Nat.pow_le_pow_right (by decide) (by omega)
    rw [Nat.testBit_lt_two_pow (lt_of_lt_of_le x.toNat_lt above), Nat.testBit_lt_two_pow (lt_of_lt_of_le y.toNat_lt above)]

end Bits
