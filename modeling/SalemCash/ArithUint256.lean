import SalemCash.RestoringDivision

/-!
# 256-bit arithmetic

`base_uint<BITS>` of `arith_uint256.h` keeps its number in 32-bit limbs; it is
modelled by `BitVec BITS`, whose operations wrap modulo `2 ^ BITS` as the limb
operations do. `operator/=` is the shift-and-subtract loop of `arith_uint256.cpp`,
which is restoring division (`RestoringDivision`): it returns the quotient of the
numbers, and throws `uint_error` only for a zero divisor.

`SetCompact` decodes the compact form of a target: a size byte and a 23-bit mantissa
with a sign bit. A mantissa that does not overflow gives a number of at most
`2 ^ 256 - 2 ^ 240`, so adding one to it does not wrap.
-/
namespace SalemCash

/-- The exception `base_uint` throws. -/
structure uint_error where
  what : String
  deriving DecidableEq, Repr

namespace base_uint

variable {BITS : Nat}

/-- `bits()`: the position of the highest set bit plus one, `0` for zero. -/
def bits (x : BitVec BITS) : Nat := x.toNat.size

/-- The body of the loop of `operator/=` at position `shift`: the remainder and the
quotient after it. -/
def divRound (num div quot : BitVec BITS) (shift : Nat) : BitVec BITS × BitVec BITS :=
  if num ≥ div then
    -- set a bit of the result.
    (num - div, quot ||| (1 : BitVec BITS) <<< shift)
  else (num, quot)

/-- The loop of `operator/=`, from `shift` down to `0`, shifting `div` back after each
round; the quotient. -/
def divLoop (num div quot : BitVec BITS) : Nat → BitVec BITS
  | 0 => (divRound num div quot 0).2
  | shift + 1 =>
    let r := divRound num div quot (shift + 1)
    divLoop r.1 (div >>> 1) r.2 shift

/-- `operator*=(uint32_t)`. -/
def mulUInt32 (a : BitVec BITS) (b32 : UInt32) : BitVec BITS := a * BitVec.ofNat BITS b32.toNat

/-- `operator/=`. -/
def div (a b : BitVec BITS) : Except uint_error (BitVec BITS) :=
  let num_bits := bits a
  let div_bits := bits b
  if div_bits = 0 then .error ⟨"Division by zero"⟩
  -- the result is certainly 0.
  else if div_bits > num_bits then .ok 0
  else
    let shift := num_bits - div_bits
    -- shift so that div and num align.
    .ok (divLoop a (b <<< shift) 0 shift)

open RestoringDivision

/-- Setting bit `shift` of a vector of more bits. -/
theorem toNat_or_one_shiftLeft (quot : BitVec BITS) {shift : Nat} (hs : shift < BITS) :
    (quot ||| (1 : BitVec BITS) <<< shift).toNat = quot.toNat ||| 2 ^ shift := by
  have hpow : 2 ^ shift < 2 ^ BITS := Nat.pow_lt_pow_right (by decide) hs
  rw [BitVec.toNat_or, BitVec.toNat_shiftLeft, BitVec.ofNat_eq_ofNat, BitVec.toNat_one (by omega),
    Nat.one_shiftLeft, Nat.mod_eq_of_lt hpow]

/-- One round of the loop is one round of restoring division. -/
theorem divRound_spec {a d : Nat} {num div quot : BitVec BITS} {shift : Nat}
    (hs : shift < BITS) (hdiv : div.toNat = d * 2 ^ shift)
    (h : Partial a d (shift + 1) num.toNat quot.toNat) :
    Partial a d shift (divRound num div quot shift).1.toNat
      (divRound num div quot shift).2.toNat := by
  unfold divRound
  by_cases hge : num ≥ div
  · have hle : div.toNat ≤ num.toNat := BitVec.le_def.mp hge
    rw [if_pos hge, BitVec.toNat_sub_of_le hge, toNat_or_one_shiftLeft quot hs, hdiv]
    exact h.subtract (hdiv ▸ hle)
  · have hlt : num.toNat < div.toNat := Nat.lt_of_not_le (fun hle => hge (BitVec.le_def.mpr hle))
    rw [if_neg hge]
    exact h.keep (hdiv ▸ hlt)

/-- The loop from `shift` ends in the quotient, the divisor being `d` shifted to `shift`.
The induction is on `shift`; each round keeps `Partial` one position lower. -/
theorem divLoop_spec {a d : Nat} {num div quot : BitVec BITS} {shift : Nat}
    (hs : shift < BITS) (hdiv : div.toNat = d * 2 ^ shift)
    (h : Partial a d (shift + 1) num.toNat quot.toNat) :
    (divLoop num div quot shift).toNat = a / d := by
  induction shift generalizing num div quot with
  | zero => exact (divRound_spec hs hdiv h).finish.1
  | succ shift ih =>
    have hdiv' : (div >>> 1).toNat = d * 2 ^ shift := by
      rw [BitVec.toNat_ushiftRight, hdiv, Nat.shiftRight_one, Nat.pow_succ, ← Nat.mul_assoc,
        Nat.mul_div_cancel _ (by decide)]
    exact ih (by omega) hdiv' (divRound_spec hs hdiv h)

theorem bits_eq_zero_iff (x : BitVec BITS) : bits x = 0 ↔ x = 0 := by
  rw [bits, Nat.size_eq_zero, ← BitVec.toNat_inj]
  rfl

/-- `operator/=` of a non-zero divisor is the quotient of the numbers. -/
theorem div_eq (a b : BitVec BITS) (hb : b ≠ 0) : div a b = .ok (a / b) := by
  have hbits : bits b ≠ 0 := fun h => hb ((bits_eq_zero_iff b).mp h)
  have hd : 0 < b.toNat := Nat.pos_of_ne_zero (fun h => hb (BitVec.eq_of_toNat_eq h))
  unfold div
  rw [if_neg hbits]
  by_cases hgt : bits b > bits a
  · rw [if_pos hgt]
    congr 1
    apply BitVec.eq_of_toNat_eq
    rw [BitVec.toNat_udiv, Nat.div_eq_of_lt (lt_of_size_lt hgt)]
    rfl
  · rw [if_neg hgt]
    dsimp only
    congr 1
    apply BitVec.eq_of_toNat_eq
    have hle : b.toNat.size ≤ a.toNat.size := Nat.le_of_not_lt hgt
    have hs : a.toNat.size - b.toNat.size < BITS := by
      have := Nat.size_le.mpr a.isLt
      have := Nat.size_pos.mpr hd
      omega
    have hshift : (b <<< (bits a - bits b)).toNat = b.toNat * 2 ^ (bits a - bits b) := by
      rw [BitVec.toNat_shiftLeft, Nat.shiftLeft_eq]
      exact Nat.mod_eq_of_lt (mul_two_pow_size_sub_lt a.isLt hle)
    rw [BitVec.toNat_udiv]
    exact divLoop_spec hs hshift (Partial.start (lt_mul_two_pow_size_sub hd _))

/-- `~T / (T + 1) + 1` is `2 ^ BITS / (T + 1)` when `T + 1` does not wrap and `T` is not
zero. -/
theorem not_div_succ_add_one (T : BitVec BITS) (hT : T.toNat + 1 < 2 ^ BITS) (h0 : T ≠ 0) :
    (~~~T / (T + 1) + 1).toNat = 2 ^ BITS / (T.toNat + 1) := by
  have hT0 : 0 < T.toNat := Nat.pos_of_ne_zero (fun h => h0 (BitVec.eq_of_toNat_eq h))
  have hone : (1 : BitVec BITS).toNat = 1 := by
    have : 0 < BITS := Nat.pos_of_ne_zero (by rintro rfl; omega)
    rw [BitVec.ofNat_eq_ofNat, BitVec.toNat_one this]
  have hsucc : (T + 1).toNat = T.toNat + 1 := by
    rw [BitVec.toNat_add, hone]
    exact Nat.mod_eq_of_lt hT
  have hquot : (~~~T / (T + 1)).toNat = 2 ^ BITS / (T.toNat + 1) - 1 := by
    have h := Nat.sub_mul_div (2 ^ BITS) (T.toNat + 1) 1
    rw [Nat.mul_one] at h
    rw [BitVec.toNat_udiv, BitVec.toNat_not, hsucc, ← h]
    congr 1
    omega
  have hpos : 1 ≤ 2 ^ BITS / (T.toNat + 1) := (Nat.one_le_div_iff (by omega)).mpr (by omega)
  have hlt : 2 ^ BITS / (T.toNat + 1) < 2 ^ BITS := Nat.div_lt_self (by omega) (by omega)
  rw [BitVec.toNat_add, hquot, hone, Nat.sub_add_cancel hpos]
  exact Nat.mod_eq_of_lt hlt

end base_uint

abbrev arith_uint256 := BitVec 256

/-- `arith_uint256::SetCompact`: the number, with `*pfNegative` and `*pfOverflow`. -/
def SetCompact (nCompact : UInt32) : arith_uint256 × Bool × Bool :=
  let nSize := (nCompact >>> 24).toNat
  let nWord := if nSize ≤ 3 then (nCompact &&& 0x007fffff) >>> (8 * (3 - nSize)).toUInt32
    else nCompact &&& 0x007fffff
  let value : arith_uint256 :=
    if nSize ≤ 3 then BitVec.ofNat 256 nWord.toNat
    else BitVec.ofNat 256 nWord.toNat <<< (8 * (nSize - 3))
  let fNegative := nWord != 0 && (nCompact &&& 0x00800000) != 0
  let fOverflow := nWord != 0 && (nSize > 34 || (nWord > 0xff && nSize > 33) ||
    (nWord > 0xffff && nSize > 32))
  (value, fNegative, fOverflow)

/-- The bound on a mantissa `w` shifted by whole bytes from a size `n` that passes the
overflow test. -/
theorem mantissa_mul_le {w n : Nat} (hw : w ≤ 0x7fffff) (hn : n ≤ 34) (h33 : 0xff < w → n ≤ 33)
    (h32 : 0xffff < w → n ≤ 32) : w * 2 ^ (8 * (n - 3)) ≤ 2 ^ 256 - 2 ^ 240 := by
  rcases Nat.lt_or_ge n 33 with hlt | hge
  · calc w * 2 ^ (8 * (n - 3)) ≤ 0x7fffff * 2 ^ 232 :=
          Nat.mul_le_mul hw (Nat.pow_le_pow_right (by decide) (by omega))
      _ ≤ 2 ^ 256 - 2 ^ 240 := by decide
  · by_cases h34 : n = 34
    · have hw' : w ≤ 0xff := Nat.le_of_not_lt fun h => absurd (h33 h) (by omega)
      calc w * 2 ^ (8 * (n - 3)) ≤ 0xff * 2 ^ 248 := by
            rw [h34]
            exact Nat.mul_le_mul_right _ hw'
        _ ≤ 2 ^ 256 - 2 ^ 240 := by decide
    · have hw' : w ≤ 0xffff := Nat.le_of_not_lt fun h => absurd (h32 h) (by omega)
      calc w * 2 ^ (8 * (n - 3)) ≤ 0xffff * 2 ^ 240 := by
            rw [show n = 33 by omega]
            exact Nat.mul_le_mul_right _ hw'
        _ ≤ 2 ^ 256 - 2 ^ 240 := by decide

/-- A compact number that does not overflow is at most `2 ^ 256 - 2 ^ 240`. -/
theorem SetCompact_le (nCompact : UInt32) (h : (SetCompact nCompact).2.2 = false) :
    (SetCompact nCompact).1.toNat ≤ 2 ^ 256 - 2 ^ 240 := by
  have hmask : (nCompact &&& 0x007fffff).toNat ≤ 0x7fffff := by
    rw [UInt32.toNat_and]
    exact Nat.and_le_right
  by_cases hs : (nCompact >>> 24).toNat ≤ 3
  · simp only [SetCompact, if_pos hs, BitVec.toNat_ofNat]
    calc _ ≤ ((nCompact &&& 0x007fffff) >>> (8 * (3 - (nCompact >>> 24).toNat)).toUInt32).toNat :=
          Nat.mod_le _ _
      _ ≤ 2 ^ 32 := Nat.le_of_lt (UInt32.toNat_lt _)
      _ ≤ 2 ^ 256 - 2 ^ 240 := by decide
  · simp only [SetCompact, if_neg hs] at h ⊢
    rw [BitVec.toNat_shiftLeft, BitVec.toNat_ofNat, Nat.shiftLeft_eq,
      Nat.mod_eq_of_lt (by omega : (nCompact &&& 0x007fffff).toNat < 2 ^ 256)]
    by_cases hw : nCompact &&& 0x007fffff = 0
    · rw [hw]
      simp
    · simp [hw, UInt32.lt_iff_toNat_lt] at h
      obtain ⟨⟨hn, h33⟩, h32⟩ := h
      exact Nat.le_trans (Nat.mod_le _ _) (mantissa_mul_le hmask hn h33 h32)

end SalemCash
