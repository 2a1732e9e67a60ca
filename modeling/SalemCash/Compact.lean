import SalemCash.ArithUint256
import SalemCash.Bits

/-!
# The compact form of a target

`arith_uint256::GetCompact` writes a number as a size byte, a sign bit and a 23-bit
mantissa: the number's significant bytes, only the top three when there are more, and
one byte fewer when the top one would set the sign bit. `SetCompact` reads the word back.
A round trip therefore keeps the number without its low bytes, the fewest that leave less
than `2 ^ 23` (`droppedBytes`), and loses nothing on a number that `SetCompact` produced.
-/
namespace SalemCash

/-- `base_uint::GetLow64`: the low two limbs. -/
def GetLow64 (x : arith_uint256) : UInt64 := x.toNat.toUInt64

/-- `arith_uint256::GetCompact`; `none` where one of its `assert`s fails. -/
def GetCompact (x : arith_uint256) (fNegative : Bool) : Option UInt32 :=
  let nSize := (base_uint.bits x + 7) / 8
  let nCompact : UInt32 :=
    if nSize ≤ 3 then (GetLow64 x <<< (8 * (3 - nSize)).toUInt64).toUInt32
    else (GetLow64 (x >>> (8 * (nSize - 3)))).toUInt32
  -- the 0x00800000 bit denotes the sign: if it is already set, divide the mantissa by 256
  let carry := nCompact &&& 0x00800000 != 0
  let nCompact := if carry then nCompact >>> 8 else nCompact
  let nSize := if carry then nSize + 1 else nSize
  if nCompact &&& ~~~0x007fffff != 0 then none
  else if 256 ≤ nSize then none
  else
    let nCompact := nCompact ||| nSize.toUInt32 <<< 24
    some (nCompact ||| if fNegative && nCompact &&& 0x007fffff != 0 then 0x00800000 else 0)

namespace Compact

/-- The fewest low bytes to drop from `n` so that what is left is below `2 ^ 23`. -/
def droppedBytes (n : Nat) : Nat :=
  if n < 2 ^ 23 then 0 else droppedBytes (n / 256) + 1
termination_by n
decreasing_by omega

/-- `n` without its `k` low bytes. -/
def truncate (n k : Nat) : Nat := n / 256 ^ k * 256 ^ k

theorem div_256_pow_succ (n k : Nat) : n / 256 / 256 ^ k = n / 256 ^ (k + 1) := by
  rw [Nat.div_div_eq_div_mul, Nat.pow_succ, Nat.mul_comm]

/-- `droppedBytes n` is the `k` that leaves less than `2 ^ 23`, where `k - 1` does not. -/
theorem droppedBytes_eq {n k : Nat} (fits : n / 256 ^ k < 2 ^ 23)
    (fewest : k = 0 ∨ 2 ^ 23 ≤ n / 256 ^ (k - 1)) : droppedBytes n = k := by
  induction k generalizing n with
  | zero =>
    rw [droppedBytes, if_pos (by simpa using fits)]
  | succ k ih =>
    have above : 2 ^ 23 ≤ n / 256 ^ k := by simpa using fewest
    have big : ¬ n < 2 ^ 23 := fun small =>
      absurd (Nat.lt_of_le_of_lt (Nat.div_le_self n _) small) (Nat.not_lt.mpr above)
    rw [droppedBytes, if_neg big, ih (by rwa [div_256_pow_succ])]
    rcases k with _ | k
    · exact .inl rfl
    · exact .inr (by rwa [div_256_pow_succ])

theorem truncate_le (n k : Nat) : truncate n k ≤ n := Nat.div_mul_le_self n _

theorem truncate_of_dvd {n k : Nat} (dvd : 256 ^ k ∣ n) : truncate n k = n := Nat.div_mul_cancel dvd

theorem div_pow_pred {n k : Nat} (positive : 0 < k) : n / 256 ^ k = n / 256 ^ (k - 1) / 256 := by
  rw [Nat.div_div_eq_div_mul, ← pow_succ, Nat.sub_add_cancel positive]

/-- `droppedBytes n` leaves less than `2 ^ 23`, and one byte fewer would not. -/
theorem droppedBytes_spec (n : Nat) :
    n / 256 ^ droppedBytes n < 2 ^ 23 ∧ (droppedBytes n = 0 ∨ 2 ^ 23 ≤ n / 256 ^ (droppedBytes n - 1)) := by
  induction n using Nat.strong_induction_on with
  | _ n ih =>
    rw [droppedBytes]
    split
    · exact ⟨by simpa, .inl rfl⟩
    · rename_i big
      obtain ⟨fits, fewest⟩ := ih (n / 256) (by omega)
      refine ⟨by rwa [← div_256_pow_succ], .inr ?_⟩
      rw [Nat.add_sub_cancel]
      rcases Nat.eq_zero_or_pos (droppedBytes (n / 256)) with zero | positive
      · rw [zero]
        simpa using big
      · have above := fewest.resolve_left positive.ne'
        rwa [div_256_pow_succ, Nat.sub_add_cancel positive] at above

/-- A number without its low bytes is zero only for zero. -/
theorem truncate_eq_zero_iff (n : Nat) : truncate n (droppedBytes n) = 0 ↔ n = 0 := by
  obtain ⟨-, fewest⟩ := droppedBytes_spec n
  constructor
  · intro zero
    by_contra nonzero
    have kept : 0 < n / 256 ^ droppedBytes n := by
      rcases Nat.eq_zero_or_pos (droppedBytes n) with none | positive
      · rw [none, pow_zero, Nat.div_one]
        omega
      · have above := fewest.resolve_left positive.ne'
        rw [div_pow_pred positive]
        omega
    exact absurd zero (Nat.mul_ne_zero kept.ne' (Nat.pow_pos (by decide)).ne')
  · rintro rfl
    simp [truncate]

/-- A number whose bytes from `j` up fit in 23 bits keeps at least its `j` low bytes. -/
theorem le_of_fewest {n k j : Nat} (fewest : k = 0 ∨ 2 ^ 23 ≤ n / 256 ^ (k - 1))
    (fits : n / 256 ^ j < 2 ^ 23) : k ≤ j := by
  rcases fewest with zero | above
  · omega
  · by_contra more
    have smaller : n / 256 ^ (k - 1) ≤ n / 256 ^ j :=
      Nat.div_le_div_left (Nat.pow_le_pow_right (by decide) (by omega)) (Nat.pow_pos (by decide))
    omega

/-- The number of significant bytes, `(bits() + 7) / 8`. -/
def byteSize (n : Nat) : Nat := (n.size + 7) / 8

/-- The mantissa before the sign-bit adjustment: the top three significant bytes, or all of
them moved up to three. -/
def topBytes (n : Nat) : Nat :=
  if byteSize n ≤ 3 then n * 256 ^ (3 - byteSize n) else n / 256 ^ (byteSize n - 3)

/-- The mantissa and size byte `GetCompact` writes for `n`. -/
def fieldsOf (n : Nat) : Nat × Nat :=
  if 2 ^ 23 ≤ topBytes n then (topBytes n / 256, byteSize n + 1) else (topBytes n, byteSize n)

/-- The number `SetCompact` reads from a mantissa and a size byte. -/
def valueOf (m s : Nat) : Nat := if s ≤ 3 then m / 256 ^ (3 - s) else m * 256 ^ (s - 3)

theorem pow_256 (k : Nat) : (256 : Nat) ^ k = 2 ^ (8 * k) := by rw [pow_mul]; rfl

theorem lt_pow_byteSize (n : Nat) : n < 256 ^ byteSize n := by
  calc n < 2 ^ n.size := Nat.lt_size_self n
    _ ≤ 2 ^ (8 * byteSize n) := Nat.pow_le_pow_right (by decide) (by unfold byteSize; omega)
    _ = 256 ^ byteSize n := (pow_256 _).symm

theorem pow_byteSize_le {n : Nat} (positive : 0 < n) : 256 ^ (byteSize n - 1) ≤ n := by
  have sized : 0 < n.size := Nat.size_pos.mpr positive
  calc 256 ^ (byteSize n - 1) = 2 ^ (8 * (byteSize n - 1)) := pow_256 _
    _ ≤ 2 ^ (n.size - 1) := Nat.pow_le_pow_right (by decide) (by unfold byteSize; omega)
    _ ≤ n := Nat.lt_size.mp (by omega)

theorem byteSize_pos {n : Nat} (positive : 0 < n) : 0 < byteSize n := by
  have := Nat.size_pos.mpr positive
  unfold byteSize
  omega

theorem byteSize_le {n : Nat} (small : n < 2 ^ 256) : byteSize n ≤ 32 := by
  have := Nat.size_le.mpr small
  unfold byteSize
  omega

theorem topBytes_lt (n : Nat) : topBytes n < 2 ^ 24 := by
  have bytes := lt_pow_byteSize n
  unfold topBytes
  split
  · calc n * 256 ^ (3 - byteSize n) < 256 ^ byteSize n * 256 ^ (3 - byteSize n) :=
          Nat.mul_lt_mul_of_pos_right bytes (Nat.pow_pos (by decide))
      _ = 2 ^ 24 := by rw [← pow_add, Nat.add_sub_cancel' (by omega)]; rfl
  · rw [Nat.div_lt_iff_lt_mul (Nat.pow_pos (by decide))]
    calc n < 256 ^ byteSize n := bytes
      _ = 2 ^ 24 * 256 ^ (byteSize n - 3) := by
        rw [show (2 : Nat) ^ 24 = 256 ^ 3 from rfl, ← pow_add, Nat.add_sub_cancel' (by omega)]

theorem le_topBytes {n : Nat} (positive : 0 < n) : 2 ^ 16 ≤ topBytes n := by
  have bytes := pow_byteSize_le positive
  have sized := byteSize_pos positive
  unfold topBytes
  split
  · calc 2 ^ 16 = 256 ^ (byteSize n - 1) * 256 ^ (3 - byteSize n) := by
          rw [← pow_add, show byteSize n - 1 + (3 - byteSize n) = 2 by omega]; rfl
      _ ≤ n * 256 ^ (3 - byteSize n) := Nat.mul_le_mul_right _ bytes
  · rw [Nat.le_div_iff_mul_le (Nat.pow_pos (by decide))]
    calc 2 ^ 16 * 256 ^ (byteSize n - 3) = 256 ^ (byteSize n - 1) := by
          rw [show (2 : Nat) ^ 16 = 256 ^ 2 from rfl, ← pow_add]; congr 1; omega
      _ ≤ n := bytes

/-- The mantissa has 23 bits. -/
theorem fieldsOf_fst_lt (n : Nat) : (fieldsOf n).1 < 2 ^ 23 := by
  have top := topBytes_lt n
  unfold fieldsOf
  split <;> simp only <;> omega

/-- The mantissa is zero only for zero. -/
theorem fieldsOf_fst_eq_zero_iff (n : Nat) : (fieldsOf n).1 = 0 ↔ n = 0 := by
  rcases Nat.eq_zero_or_pos n with rfl | positive
  · rfl
  · have top := le_topBytes positive
    unfold fieldsOf
    split <;> simp only <;> omega

/-- A number of 256 bits has at most 33 bytes in its compact form, and 33 only with a
mantissa of two bytes. -/
theorem fieldsOf_snd_le {n : Nat} (small : n < 2 ^ 256) :
    (fieldsOf n).2 ≤ 33 ∧ ((fieldsOf n).2 = 33 → (fieldsOf n).1 < 2 ^ 16) := by
  have size := byteSize_le small
  have top := topBytes_lt n
  unfold fieldsOf
  split <;> simp only <;> omega

/-- The fields of a number of at most three bytes: the number moved up to three bytes,
or, when that sets the sign bit, to two. -/
theorem fieldsOf_short {n : Nat} (short : byteSize n ≤ 3) : ∃ k,
    valueOf (fieldsOf n).1 (fieldsOf n).2 = n / 256 ^ k * 256 ^ k ∧ n / 256 ^ k < 2 ^ 23 ∧
      (k = 0 ∨ 2 ^ 23 ≤ n / 256 ^ (k - 1)) := by
  have top := topBytes_lt n
  have bytes := lt_pow_byteSize n
  have moved : topBytes n = n * 256 ^ (3 - byteSize n) := by rw [topBytes, if_pos short]
  have back : topBytes n / 256 ^ (3 - byteSize n) = n := by
    rw [moved, Nat.mul_div_cancel _ (Nat.pow_pos (by decide))]
  unfold fieldsOf
  by_cases carry : 2 ^ 23 ≤ topBytes n
  · rw [if_pos carry]
    by_cases three : byteSize n = 3
    · have same : topBytes n = n := by rw [moved, three, Nat.sub_self, pow_zero, Nat.mul_one]
      refine ⟨1, ?_, ?_, .inr ?_⟩
      · simp only [valueOf, three, same]
        rfl
      · rw [pow_one]
        omega
      · simpa [same] using carry
    · have small : n < 2 ^ 23 := by
        calc n < 256 ^ byteSize n := bytes
          _ ≤ 256 ^ 2 := Nat.pow_le_pow_right (by decide) (by omega)
          _ < 2 ^ 23 := by decide
      refine ⟨0, ?_, by simpa using small, .inl rfl⟩
      simp only [valueOf, if_pos (show byteSize n + 1 ≤ 3 by omega), pow_zero, Nat.div_one, Nat.mul_one]
      calc topBytes n / 256 / 256 ^ (3 - (byteSize n + 1)) = topBytes n / 256 ^ (3 - byteSize n) := by
            rw [Nat.div_div_eq_div_mul, ← pow_succ']
            congr 2
            omega
        _ = n := back
  · rw [if_neg carry]
    have small : n < 2 ^ 23 :=
      Nat.lt_of_le_of_lt (moved ▸ Nat.le_mul_of_pos_right n (Nat.pow_pos (by decide))) (Nat.not_le.mp carry)
    refine ⟨0, ?_, by simpa using small, .inl rfl⟩
    simp only [valueOf, if_pos short, back, pow_zero, Nat.div_one, Nat.mul_one]

/-- The fields of a number of more than three bytes: its top three bytes, or its top two
when the third would set the sign bit. -/
theorem fieldsOf_long {n : Nat} (long : ¬ byteSize n ≤ 3) : ∃ k,
    valueOf (fieldsOf n).1 (fieldsOf n).2 = n / 256 ^ k * 256 ^ k ∧ n / 256 ^ k < 2 ^ 23 ∧
      (k = 0 ∨ 2 ^ 23 ≤ n / 256 ^ (k - 1)) := by
  have top := topBytes_lt n
  have top_eq : topBytes n = n / 256 ^ (byteSize n - 3) := by rw [topBytes, if_neg long]
  have positive : 0 < n := Nat.pos_of_ne_zero fun zero => long (by subst zero; decide)
  have lower := pow_byteSize_le positive
  unfold fieldsOf
  by_cases carry : 2 ^ 23 ≤ topBytes n
  · rw [if_pos carry]
    have dropped : topBytes n / 256 = n / 256 ^ (byteSize n - 2) := by
      rw [top_eq, Nat.div_div_eq_div_mul, ← pow_succ]
      congr 2
      omega
    refine ⟨byteSize n - 2, ?_, by omega, .inr ?_⟩
    · simp only [valueOf, if_neg (show ¬ byteSize n + 1 ≤ 3 by omega), dropped]
      rw [show byteSize n + 1 - 3 = byteSize n - 2 by omega]
    · rw [show byteSize n - 2 - 1 = byteSize n - 3 by omega, ← top_eq]
      exact carry
  · rw [if_neg carry]
    refine ⟨byteSize n - 3, ?_, by omega, ?_⟩
    · simp only [valueOf, if_neg long, top_eq]
    · right
      rw [Nat.le_div_iff_mul_le (Nat.pow_pos (by decide))]
      calc 2 ^ 23 * 256 ^ (byteSize n - 3 - 1) ≤ 256 ^ 3 * 256 ^ (byteSize n - 3 - 1) :=
            Nat.mul_le_mul_right _ (by decide)
        _ = 256 ^ (byteSize n - 1) := by rw [← pow_add]; congr 1; omega
        _ ≤ n := lower

/-- `SetCompact` of the fields `GetCompact` writes is the number without its low bytes:
the fewest that leave less than `2 ^ 23`. -/
theorem valueOf_fieldsOf (n : Nat) :
    valueOf (fieldsOf n).1 (fieldsOf n).2 = truncate n (droppedBytes n) := by
  obtain ⟨k, value, fits, fewest⟩ :=
    if short : byteSize n ≤ 3 then fieldsOf_short short else fieldsOf_long short
  rw [value, truncate, droppedBytes_eq fits fewest]

section Fields

variable {w : UInt32} {s : Nat}

theorem size_shift_toNat (hs : s < 256) : (s.toUInt32 <<< 24).toNat = s * 2 ^ 24 := by
  have shift : (24 : UInt32).toNat % 32 = 24 := rfl
  rw [UInt32.toNat_shiftLeft, shift, Nat.toUInt32_eq, UInt32.toNat_ofNat',
    Nat.mod_eq_of_lt (show s < 2 ^ 32 by omega), Nat.shiftLeft_eq]
  exact Nat.mod_eq_of_lt (by omega)

theorem sign_bit_toNat (t : Bool) :
    (if t then (0x00800000 : UInt32) else 0).toNat = 2 ^ 23 * t.toNat := by
  cases t <;> rfl

/-- The mantissa and size of a compact word, before the sign bit. -/
theorem mantissa_field (hw : w.toNat < 2 ^ 23) (hs : s < 256) :
    (w ||| s.toUInt32 <<< 24) &&& 0x007fffff = w := by
  apply UInt32.toNat_inj.mp
  rw [UInt32.toNat_and, UInt32.toNat_or, size_shift_toNat hs,
    show (0x007fffff : UInt32).toNat = 2 ^ 23 - 1 from rfl, Nat.and_two_pow_sub_one_eq_mod,
    Nat.or_mod_two_pow, Nat.mod_eq_of_lt hw, show s * 2 ^ 24 = 2 ^ 23 * (2 * s) by ring,
    Nat.mul_mod_right, Nat.or_zero]

/-- The word `GetCompact` returns: the mantissa, the size byte and the sign bit. -/
def word (w : UInt32) (s : Nat) (t : Bool) : UInt32 :=
  (w ||| s.toUInt32 <<< 24) ||| if t then 0x00800000 else 0

/-- What `SetCompact` reads of a compact word: the size byte, the mantissa and the sign. -/
theorem compact_fields (hw : w.toNat < 2 ^ 23) (hs : s < 256) (t : Bool) :
    (word w s t >>> 24).toNat = s ∧ word w s t &&& 0x007fffff = w ∧
      (word w s t &&& 0x00800000 != 0) = t := by
  have packed : (word w s t).toNat = (w.toNat ||| 2 ^ 24 * s) ||| 2 ^ 23 * t.toNat := by
    rw [word, UInt32.toNat_or, UInt32.toNat_or, size_shift_toNat hs, sign_bit_toNat, Nat.mul_comm s]
  have wHigh : w.toNat / 2 ^ 24 = 0 := Nat.div_eq_of_lt (by omega)
  have signHigh : 2 ^ 23 * t.toNat / 2 ^ 24 = 0 := Nat.div_eq_of_lt (by cases t <;> simp)
  refine ⟨?_, ?_, ?_⟩
  · rw [UInt32.toNat_shiftRight, packed, show (24 : UInt32).toNat % 32 = 24 from rfl, Nat.shiftRight_eq_div_pow,
      Nat.or_div_two_pow, Nat.or_div_two_pow, wHigh, signHigh, Nat.mul_div_cancel_left _ (by decide)]
    simp
  · apply UInt32.toNat_inj.mp
    rw [UInt32.toNat_and, packed, show (0x007fffff : UInt32).toNat = 2 ^ 23 - 1 from rfl,
      Nat.and_two_pow_sub_one_eq_mod, Nat.or_mod_two_pow, Nat.or_mod_two_pow, Nat.mod_eq_of_lt hw,
      show 2 ^ 24 * s = 2 ^ 23 * (2 * s) by ring, Nat.mul_mod_right, Nat.mul_mod_right]
    simp
  · have bit : ((w.toNat ||| 2 ^ 24 * s) ||| 2 ^ 23 * t.toNat) / 2 ^ 23 % 2 = t.toNat := by
      rw [Nat.or_div_two_pow, Nat.or_div_two_pow, Nat.div_eq_of_lt hw, Nat.mul_div_cancel_left _ (by decide),
        show 2 ^ 24 * s = 2 ^ 23 * (2 * s) by ring, Nat.mul_div_cancel_left _ (by decide),
        Nat.zero_or, ← Nat.pow_one 2, Nat.or_mod_two_pow, Nat.mul_mod_right, Nat.zero_or]
      cases t <;> rfl
    have read : (word w s t &&& 0x00800000).toNat = 2 ^ 23 * t.toNat := by
      rw [UInt32.toNat_and, packed, show (0x00800000 : UInt32).toNat = 2 ^ 23 from rfl, Bits.and_two_pow, bit]
    cases t
    · rw [bne_eq_false_iff_eq]
      exact UInt32.toNat_inj.mp (by rw [read]; rfl)
    · apply bne_iff_ne.mpr
      intro zero
      have := congrArg UInt32.toNat zero
      rw [read] at this
      simp at this

end Fields

section SetCompactWord

variable {w : UInt32} {s : Nat}

theorem bne_zero_toNat (a : UInt32) : (a != 0) = (a.toNat != 0) :=
  Bool.eq_iff_iff.mpr (by simp only [bne_iff_ne, ne_eq, ← UInt32.toNat_inj, UInt32.toNat_zero])

/-- `SetCompact`'s `nWord` for a size of at most three: the mantissa shifted right. -/
theorem nWord_toNat (short : s ≤ 3) (w : UInt32) :
    (w >>> (8 * (3 - s)).toUInt32).toNat = w.toNat / 256 ^ (3 - s) := by
  rw [UInt32.toNat_shiftRight, Nat.toUInt32_eq, UInt32.toNat_ofNat', Nat.mod_eq_of_lt (by omega),
    Nat.mod_eq_of_lt (by omega), Nat.shiftRight_eq_div_pow, pow_256]

theorem SetCompact_word_value (hw : w.toNat < 2 ^ 23) (hs : s < 256) (t : Bool) :
    (SetCompact (word w s t)).1 = BitVec.ofNat 256 (valueOf w.toNat s) := by
  obtain ⟨size, mantissa, -⟩ := compact_fields hw hs t
  simp only [SetCompact, size, mantissa]
  by_cases short : s ≤ 3
  · simp only [if_pos short, valueOf, nWord_toNat short]
  · simp only [if_neg short, valueOf]
    apply BitVec.eq_of_toNat_eq
    rw [BitVec.toNat_shiftLeft, BitVec.toNat_ofNat, BitVec.toNat_ofNat,
      Nat.mod_eq_of_lt (by omega : w.toNat < 2 ^ 256), Nat.shiftLeft_eq, pow_256]

/-- `SetCompact` reports a negative number when the sign bit is set and the number is not zero. -/
theorem SetCompact_word_negative (hw : w.toNat < 2 ^ 23) (hs : s < 256) (t : Bool) :
    (SetCompact (word w s t)).2.1 = (valueOf w.toNat s != 0 && t) := by
  obtain ⟨size, mantissa, sign⟩ := compact_fields hw hs t
  simp only [SetCompact, size, mantissa, sign]
  congr 1
  by_cases short : s ≤ 3
  · simp only [valueOf, if_pos short, bne_zero_toNat, nWord_toNat short]
  · simp only [valueOf, if_neg short, bne_zero_toNat]
    exact Bool.eq_iff_iff.mpr (by simp)

/-- No overflow is reported for a size of at most 33, with two mantissa bytes at 33. -/
theorem SetCompact_word_overflow (hw : w.toNat < 2 ^ 23) (hs : s ≤ 33) (top : s = 33 → w.toNat < 2 ^ 16)
    (t : Bool) : (SetCompact (word w s t)).2.2 = false := by
  obtain ⟨size, mantissa, -⟩ := compact_fields hw (by omega : s < 256) t
  simp only [SetCompact, size, mantissa]
  by_cases short : s ≤ 3
  · simp [if_pos short]
    omega
  · have bound : w.toNat ≤ 0xffff ∨ s ≤ 32 := by
      rcases Nat.lt_or_ge s 33 with below | at33
      · exact .inr (by omega)
      · exact .inl (by have := top (by omega); omega)
    simp [if_neg short, UInt32.lt_iff_toNat_lt]
    intro _
    omega

end SetCompactWord

section GetCompactWord

theorem toUInt32_toNat {v : Nat} (small : v < 2 ^ 32) : v.toUInt32.toNat = v := by
  rw [Nat.toUInt32_eq, UInt32.toNat_ofNat', Nat.mod_eq_of_lt small]

/-- The mantissa `GetCompact` reads, before the sign-bit adjustment, is `topBytes`. -/
theorem topBytes_toUInt32 (x : arith_uint256) :
    (if byteSize x.toNat ≤ 3 then (GetLow64 x <<< (8 * (3 - byteSize x.toNat)).toUInt64).toUInt32
      else (GetLow64 (x >>> (8 * (byteSize x.toNat - 3)))).toUInt32) = (topBytes x.toNat).toUInt32 := by
  have bytes := lt_pow_byteSize x.toNat
  have top := topBytes_lt x.toNat
  apply UInt32.toNat_inj.mp
  rw [toUInt32_toNat (by omega)]
  by_cases short : byteSize x.toNat ≤ 3
  · have small : x.toNat < 2 ^ 24 :=
      calc x.toNat < 256 ^ byteSize x.toNat := bytes
        _ ≤ 256 ^ 3 := Nat.pow_le_pow_right (by decide) short
    rw [topBytes, if_pos short] at top ⊢
    have low : (GetLow64 x).toNat = x.toNat := by
      rw [GetLow64, Nat.toUInt64_eq, UInt64.toNat_ofNat', Nat.mod_eq_of_lt (by omega)]
    have amount : (8 * (3 - byteSize x.toNat)).toUInt64.toNat % 64 = 8 * (3 - byteSize x.toNat) := by
      rw [Nat.toUInt64_eq, UInt64.toNat_ofNat', Nat.mod_eq_of_lt (by omega), Nat.mod_eq_of_lt (by omega)]
    rw [if_pos short, UInt64.toNat_toUInt32, UInt64.toNat_shiftLeft, low, amount, Nat.shiftLeft_eq, ← pow_256,
      Nat.mod_eq_of_lt (show x.toNat * 256 ^ (3 - byteSize x.toNat) < 2 ^ 64 by omega),
      Nat.mod_eq_of_lt (show x.toNat * 256 ^ (3 - byteSize x.toNat) < 2 ^ 32 by omega)]
  · rw [topBytes, if_neg short] at top ⊢
    have low : (GetLow64 (x >>> (8 * (byteSize x.toNat - 3)))).toNat = x.toNat / 256 ^ (byteSize x.toNat - 3) := by
      rw [GetLow64, Nat.toUInt64_eq, UInt64.toNat_ofNat', BitVec.toNat_ushiftRight, Nat.shiftRight_eq_div_pow,
        ← pow_256, Nat.mod_eq_of_lt (by omega)]
    rw [if_neg short, UInt64.toNat_toUInt32, low, Nat.mod_eq_of_lt (by omega)]

/-- The sign bit of a mantissa of at most 24 bits. -/
theorem carry_bit {v : Nat} (small : v < 2 ^ 24) :
    (v.toUInt32 &&& 0x00800000 != 0) = decide (2 ^ 23 ≤ v) := by
  have read : (v.toUInt32 &&& 0x00800000).toNat = 2 ^ 23 * (v / 2 ^ 23 % 2) := by
    rw [UInt32.toNat_and, toUInt32_toNat (by omega), show (0x00800000 : UInt32).toNat = 2 ^ 23 from rfl,
      Bits.and_two_pow]
  by_cases big : 2 ^ 23 ≤ v
  · rw [decide_eq_true big]
    apply bne_iff_ne.mpr
    intro zero
    have := congrArg UInt32.toNat zero
    rw [read, show v / 2 ^ 23 % 2 = 1 by omega] at this
    simp at this
  · rw [decide_eq_false big, bne_eq_false_iff_eq]
    exact UInt32.toNat_inj.mp (by rw [read, show v / 2 ^ 23 % 2 = 0 by omega]; rfl)

theorem toUInt32_shiftRight_8 {v : Nat} (small : v < 2 ^ 32) : v.toUInt32 >>> 8 = (v / 256).toUInt32 := by
  apply UInt32.toNat_inj.mp
  rw [UInt32.toNat_shiftRight, toUInt32_toNat small, toUInt32_toNat (by omega),
    show (8 : UInt32).toNat % 32 = 8 from rfl, Nat.shiftRight_eq_div_pow]

/-- The first `assert` of `GetCompact` holds for a mantissa of 23 bits. -/
theorem and_not_mask {w : UInt32} (hw : w.toNat < 2 ^ 23) : w &&& ~~~0x007fffff = 0 := by
  have low : w &&& 0x007fffff = w := by
    apply UInt32.toNat_inj.mp
    rw [UInt32.toNat_and, show (0x007fffff : UInt32).toNat = 2 ^ 23 - 1 from rfl,
      Nat.and_two_pow_sub_one_eq_mod, Nat.mod_eq_of_lt hw]
  calc w &&& ~~~0x007fffff = (w &&& 0x007fffff) &&& ~~~0x007fffff := by rw [low]
    _ = w &&& (0x007fffff &&& ~~~0x007fffff) := UInt32.and_assoc _ _ _
    _ = 0 := by rw [show (0x007fffff : UInt32) &&& ~~~0x007fffff = 0 by decide, UInt32.and_zero]

/-- `GetCompact` never trips its `assert`s: it writes `fieldsOf` as a compact word. -/
theorem GetCompact_eq (x : arith_uint256) (fNegative : Bool) :
    GetCompact x fNegative = some (word (fieldsOf x.toNat).1.toUInt32 (fieldsOf x.toNat).2
      (fNegative && (fieldsOf x.toNat).1.toUInt32 != 0)) := by
  have top := topBytes_lt x.toNat
  have size := byteSize_le x.isLt
  have bits : (base_uint.bits x + 7) / 8 = byteSize x.toNat := rfl
  have mantissa := fieldsOf_fst_lt x.toNat
  have sizeByte := (fieldsOf_snd_le x.isLt).1
  simp only [GetCompact, bits, topBytes_toUInt32, carry_bit top]
  by_cases carry : 2 ^ 23 ≤ topBytes x.toNat
  · have fields : fieldsOf x.toNat = (topBytes x.toNat / 256, byteSize x.toNat + 1) := by
      rw [fieldsOf, if_pos carry]
    rw [fields] at mantissa sizeByte ⊢
    simp only [decide_eq_true carry, if_true, toUInt32_shiftRight_8 (by omega : topBytes x.toNat < 2 ^ 32)]
    rw [and_not_mask (by rw [toUInt32_toNat (by omega)]; exact mantissa)]
    simp only [bne_self_eq_false, Bool.false_eq_true, if_false, if_neg (show ¬ 256 ≤ byteSize x.toNat + 1 by omega)]
    rw [mantissa_field (by rw [toUInt32_toNat (by omega)]; exact mantissa) (by omega)]
    rfl
  · have fields : fieldsOf x.toNat = (topBytes x.toNat, byteSize x.toNat) := by
      rw [fieldsOf, if_neg carry]
    rw [fields] at mantissa sizeByte ⊢
    simp only [decide_eq_false carry, Bool.false_eq_true, if_false]
    rw [and_not_mask (by rw [toUInt32_toNat (by omega)]; exact mantissa)]
    simp only [bne_self_eq_false, Bool.false_eq_true, if_false, if_neg (show ¬ 256 ≤ byteSize x.toNat by omega)]
    rw [mantissa_field (by rw [toUInt32_toNat (by omega)]; exact mantissa) (by omega)]
    rfl

end GetCompactWord

/-- `SetCompact` of what `GetCompact` writes: no overflow, the sign exactly when asked for and
the number is not zero, and the number without its low bytes. -/
theorem SetCompact_GetCompact (x : arith_uint256) (fNegative : Bool) :
    ∃ c, GetCompact x fNegative = some c ∧
      (SetCompact c).1.toNat = truncate x.toNat (droppedBytes x.toNat) ∧
      (SetCompact c).2.1 = (fNegative && x != 0) ∧ (SetCompact c).2.2 = false := by
  have mantissa : (fieldsOf x.toNat).1.toUInt32.toNat = (fieldsOf x.toNat).1 :=
    toUInt32_toNat (by have := fieldsOf_fst_lt x.toNat; omega)
  have hw : (fieldsOf x.toNat).1.toUInt32.toNat < 2 ^ 23 := by
    rw [mantissa]
    exact fieldsOf_fst_lt x.toNat
  have sizes := fieldsOf_snd_le x.isLt
  have hs : (fieldsOf x.toNat).2 < 256 := by omega
  refine ⟨_, GetCompact_eq x fNegative, ?_, ?_, ?_⟩
  · rw [SetCompact_word_value hw hs, BitVec.toNat_ofNat, mantissa, valueOf_fieldsOf,
      Nat.mod_eq_of_lt (Nat.lt_of_le_of_lt (truncate_le _ _) x.isLt)]
  · rw [SetCompact_word_negative hw hs, mantissa, valueOf_fieldsOf, bne_zero_toNat, mantissa]
    have nonzero : (x != 0) = (x.toNat != 0) :=
      Bool.eq_iff_iff.mpr (by rw [bne_iff_ne, bne_iff_ne, ne_eq, ne_eq, ← BitVec.toNat_inj]; rfl)
    have kept : (truncate x.toNat (droppedBytes x.toNat) != 0) = (x.toNat != 0) :=
      Bool.eq_iff_iff.mpr (by simp only [bne_iff_ne, ne_eq, truncate_eq_zero_iff])
    have top : ((fieldsOf x.toNat).1 != 0) = (x.toNat != 0) :=
      Bool.eq_iff_iff.mpr (by simp only [bne_iff_ne, ne_eq, fieldsOf_fst_eq_zero_iff])
    rw [nonzero, kept, top, Bool.and_left_comm, Bool.and_self]
  · exact SetCompact_word_overflow hw sizes.1 (fun top => by rw [mantissa]; exact sizes.2 top) _

/-- Without overflow, `SetCompact` decodes a mantissa of 23 bits shifted by whole bytes. -/
theorem SetCompact_shape (nCompact : UInt32) (noOverflow : (SetCompact nCompact).2.2 = false) :
    ∃ w j, w < 2 ^ 23 ∧ (SetCompact nCompact).1.toNat = w * 256 ^ j := by
  have masked : (nCompact &&& 0x007fffff).toNat < 2 ^ 23 := by
    rw [UInt32.toNat_and, show (0x007fffff : UInt32).toNat = 2 ^ 23 - 1 from rfl, Nat.and_two_pow_sub_one_eq_mod]
    exact Nat.mod_lt _ (by decide)
  by_cases short : (nCompact >>> 24).toNat ≤ 3
  · refine ⟨(nCompact &&& 0x007fffff).toNat / 256 ^ (3 - (nCompact >>> 24).toNat), 0,
      Nat.lt_of_le_of_lt (Nat.div_le_self _ _) masked, ?_⟩
    simp only [SetCompact, if_pos short, BitVec.toNat_ofNat, nWord_toNat short, pow_zero, Nat.mul_one]
    exact Nat.mod_eq_of_lt (Nat.lt_of_le_of_lt (Nat.div_le_self _ _) (by omega))
  · refine ⟨(nCompact &&& 0x007fffff).toNat, (nCompact >>> 24).toNat - 3, masked, ?_⟩
    simp only [SetCompact, if_neg short, BitVec.toNat_shiftLeft, BitVec.toNat_ofNat, Nat.shiftLeft_eq]
    rw [Nat.mod_eq_of_lt (by omega : (nCompact &&& 0x007fffff).toNat < 2 ^ 256), ← pow_256]
    by_cases zero : nCompact &&& 0x007fffff = 0
    · simp [zero]
    · have nonzero : (nCompact &&& 0x007fffff != 0) = true := bne_iff_ne.mpr zero
      simp only [SetCompact, if_neg short, nonzero, Bool.true_and, Bool.or_eq_false_iff, Bool.and_eq_false_iff,
        decide_eq_false_iff_not, UInt32.lt_iff_toNat_lt] at noOverflow
      obtain ⟨⟨size34, size33⟩, size32⟩ := noOverflow
      have bound := mantissa_mul_le (n := (nCompact >>> 24).toNat) (Nat.le_of_lt_succ masked) (by omega)
        (fun big => Nat.le_of_not_lt (size33.resolve_left (by rw [show (0xff : UInt32).toNat = 0xff from rfl]; omega)))
        (fun big => Nat.le_of_not_lt (size32.resolve_left (by rw [show (0xffff : UInt32).toNat = 0xffff from rfl]; omega)))
      rw [← pow_256] at bound
      exact Nat.mod_eq_of_lt (by omega)

end Compact

theorem compact_round_trip :
    (∀ (x : arith_uint256) (fNegative : Bool), ∃ c, GetCompact x fNegative = some c ∧
      (SetCompact c).2.2 = false ∧ (SetCompact c).2.1 = (fNegative && x != 0) ∧
      ∃ k, x.toNat / 256 ^ k < 2 ^ 23 ∧ (k = 0 ∨ 2 ^ 23 ≤ x.toNat / 256 ^ (k - 1)) ∧
        (SetCompact c).1.toNat = x.toNat / 256 ^ k * 256 ^ k ∧ (SetCompact c).1 ≤ x ∧
        (256 ^ k ∣ x.toNat → (SetCompact c).1 = x)) ∧
    (∀ nCompact : UInt32, (SetCompact nCompact).2.1 = false → (SetCompact nCompact).2.2 = false →
      ∃ c, GetCompact (SetCompact nCompact).1 false = some c ∧ (SetCompact c).1 = (SetCompact nCompact).1) := by
  have decoded (x : arith_uint256) (fNegative : Bool) : ∃ c, GetCompact x fNegative = some c ∧
      (SetCompact c).2.2 = false ∧ (SetCompact c).2.1 = (fNegative && x != 0) ∧
      ∃ k, x.toNat / 256 ^ k < 2 ^ 23 ∧ (k = 0 ∨ 2 ^ 23 ≤ x.toNat / 256 ^ (k - 1)) ∧
        (SetCompact c).1.toNat = x.toNat / 256 ^ k * 256 ^ k ∧ (SetCompact c).1 ≤ x ∧
        (256 ^ k ∣ x.toNat → (SetCompact c).1 = x) := by
    obtain ⟨c, written, value, negative, overflow⟩ := Compact.SetCompact_GetCompact x fNegative
    obtain ⟨fits, fewest⟩ := Compact.droppedBytes_spec x.toNat
    refine ⟨c, written, overflow, negative, _, fits, fewest, value, ?_, fun dvd => ?_⟩
    · exact BitVec.le_def.mpr (value ▸ Compact.truncate_le _ _)
    · exact BitVec.eq_of_toNat_eq (by rw [value, Compact.truncate_of_dvd dvd])
  refine ⟨decoded, fun nCompact _ noOverflow => ?_⟩
  obtain ⟨w, j, small, shape⟩ := Compact.SetCompact_shape nCompact noOverflow
  obtain ⟨c, written, -, -, k, -, fewest, -, -, exact⟩ := decoded (SetCompact nCompact).1 false
  have fits : (SetCompact nCompact).1.toNat / 256 ^ j < 2 ^ 23 := by
    rw [shape, Nat.mul_div_cancel _ (Nat.pow_pos (by decide))]
    exact small
  have kept := Compact.le_of_fewest fewest fits
  refine ⟨c, written, exact ?_⟩
  rw [shape]
  exact Dvd.dvd.mul_left (Nat.pow_dvd_pow 256 kept) w

theorem compact_round_trip_at_1d00ffff :
    (SetCompact 0x1d00ffff).2.1 = false ∧ (SetCompact 0x1d00ffff).2.2 = false ∧
      ∃ c, GetCompact (SetCompact 0x1d00ffff).1 false = some c ∧
        (SetCompact c).1 = (SetCompact 0x1d00ffff).1 :=
  ⟨rfl, rfl, compact_round_trip.2 0x1d00ffff rfl rfl⟩

end SalemCash
