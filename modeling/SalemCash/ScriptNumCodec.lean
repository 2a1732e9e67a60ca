import Mathlib.Data.Nat.Digits.Lemmas
import SalemCash.ExceptLogic
import SalemCash.Bits
import SalemCash.ScriptNum

/-!
# Script numbers round trip

`CScriptNum::serialize` writes the magnitude of a number little endian, with its sign in
the top bit of the last byte, adding a byte when the magnitude's top byte already uses
that bit. `set_vch` reads the same format back, and the minimality check of the decoding
constructor rejects exactly the byte vectors `serialize` does not write.

The magnitude is `Nat.digits 256` of the number (`digitBytes`). Its last byte is not zero,
which the minimality check asks of the last byte without the sign bit, unless that byte
is a pure sign byte after one that needs the bit.
-/

namespace SalemCash

namespace CScriptNum

/-- The little-endian bytes of a magnitude, with no trailing zero. -/
def digitBytes (m : Nat) : List UInt8 := (Nat.digits 256 m).map Nat.toUInt8

theorem toUInt8_toNat_of_lt {x : Nat} (lt : x < 256) : x.toUInt8.toNat = x := by
  simpa using Nat.mod_eq_of_lt lt

theorem toNat_sign_bit : (0x80 : UInt8).toNat = 128 := rfl

theorem sign_or_low (b : UInt8) (sign : b &&& 0x80 ≠ 0) : (b &&& 0x7f) ||| 0x80 = b := by
  rw [ne_eq, ← UInt8.toNat_inj, Bits.toNat_sign, UInt8.toNat_zero] at sign
  rw [← UInt8.toNat_inj, Bits.toNat_or_sign, Bits.toNat_low]
  have lt := b.toNat_lt
  split at sign <;> omega

theorem low_of_no_sign (b : UInt8) (noSign : b &&& 0x80 = 0) : b &&& 0x7f = b := by
  rw [← UInt8.toNat_inj, Bits.toNat_sign, UInt8.toNat_zero] at noSign
  rw [← UInt8.toNat_inj, Bits.toNat_low]
  split at noSign <;> omega

theorem or_sign_low (b : UInt8) (noSign : b &&& 0x80 = 0) : (b ||| 0x80) &&& 0x7f = b := by
  rw [← UInt8.toNat_inj, Bits.toNat_sign, UInt8.toNat_zero] at noSign
  rw [← UInt8.toNat_inj, Bits.toNat_low, Bits.toNat_or_sign]
  split at noSign <;> omega

theorem or_sign_sign (b : UInt8) : (b ||| 0x80) &&& 0x80 ≠ 0 := by
  rw [ne_eq, ← UInt8.toNat_inj, Bits.toNat_sign, Bits.toNat_or_sign, UInt8.toNat_zero]
  split <;> omega

theorem low_sign_zero (b : UInt8) : b &&& 0x7f &&& 0x80 = 0 := by
  rw [← UInt8.toNat_inj, Bits.toNat_sign, Bits.toNat_low, UInt8.toNat_zero]
  split <;> omega

/-- The bits other than the sign bit are zero only in a zero or a pure sign byte. -/
theorem low_ne_zero_iff (b : UInt8) : b &&& 0x7f ≠ 0 ↔ b ≠ 0 ∧ b ≠ 0x80 := by
  simp only [ne_eq, ← UInt8.toNat_inj, Bits.toNat_low, UInt8.toNat_zero, toNat_sign_bit]
  have lt := b.toNat_lt
  omega

/-- A byte without the sign bit is never a pure sign byte. -/
theorem ne_zero_iff_of_no_sign (b : UInt8) (noSign : b &&& 0x80 = 0) : b ≠ 0 ↔ b ≠ 0 ∧ b ≠ 0x80 := by
  rw [← UInt8.toNat_inj, Bits.toNat_sign, UInt8.toNat_zero] at noSign
  simp only [ne_eq, ← UInt8.toNat_inj, UInt8.toNat_zero, toNat_sign_bit]
  split at noSign <;> omega

/-- A byte with no bits but the sign bit is a zero or a pure sign byte. -/
theorem eq_of_low_zero (b : UInt8) (low : b &&& 0x7f = 0) : b = 0 ∨ b = 0x80 := by
  rw [← UInt8.toNat_inj, Bits.toNat_low, UInt8.toNat_zero] at low
  simp only [← UInt8.toNat_inj, UInt8.toNat_zero, toNat_sign_bit]
  have lt := b.toNat_lt
  omega

theorem leValue_eq (bs : List UInt8) : leValue bs = Nat.ofDigits 256 (bs.map UInt8.toNat) := by
  induction bs with
  | nil => rfl
  | cons b bs ih => rw [leValue, ih, List.map_cons, Nat.ofDigits_cons]

theorem leValue_append (xs ys : List UInt8) :
    leValue (xs ++ ys) = leValue xs + 256 ^ xs.length * leValue ys := by
  induction xs with
  | nil => simp [leValue]
  | cons b xs ih =>
    rw [List.cons_append, leValue, leValue, ih, List.length_cons, pow_succ]
    ring

@[simp] theorem leValue_append_zero (xs : List UInt8) : leValue (xs ++ [0]) = leValue xs := by
  simp [leValue_append, leValue]

theorem leValue_eq_zero_iff (bs : List UInt8) : leValue bs = 0 ↔ ∀ b ∈ bs, b = 0 := by
  induction bs with
  | nil => simp [leValue]
  | cons b bs ih =>
    have byte : b.toNat = 0 ↔ b = 0 := by rw [← UInt8.toNat_inj, UInt8.toNat_zero]
    rw [leValue, List.forall_mem_cons, ← ih, ← byte]
    omega

/-- `serialize`'s loop writes the digits of the magnitude. -/
theorem magnitudeBytes_eq : ∀ (fuel n : Nat), n ≤ fuel → magnitudeBytes fuel n = digitBytes n
  | 0, n, small => by
    obtain rfl : n = 0 := by omega
    rfl
  | fuel + 1, n, small => by
    rcases Nat.eq_zero_or_pos n with rfl | positive
    · rfl
    · rw [magnitudeBytes, if_neg positive.ne', magnitudeBytes_eq fuel (n / 256) (by omega), digitBytes,
        digitBytes, Nat.digits_def' (by norm_num) positive, List.map_cons]

theorem leValue_digitBytes (m : Nat) : leValue (digitBytes m) = m := by
  have bytes : ((Nat.digits 256 m).map Nat.toUInt8).map UInt8.toNat = Nat.digits 256 m := by
    rw [List.map_map]
    conv_rhs => rw [← List.map_id (Nat.digits 256 m)]
    exact List.map_congr_left fun d mem => toUInt8_toNat_of_lt (Nat.digits_lt_base (by norm_num) mem)
  rw [leValue_eq, digitBytes, bytes, Nat.ofDigits_digits]

/-- Bytes with no trailing zero are the digits of their magnitude. -/
theorem digitBytes_leValue {bs : List UInt8} (last : ∀ h : bs ≠ [], bs.getLast h ≠ 0) :
    digitBytes (leValue bs) = bs := by
  have digits : ∀ d ∈ bs.map UInt8.toNat, d < 256 := by
    intro d mem
    obtain ⟨b, -, rfl⟩ := List.mem_map.mp mem
    exact b.toNat_lt
  have top : ∀ h : bs.map UInt8.toNat ≠ [], (bs.map UInt8.toNat).getLast h ≠ 0 := by
    intro h
    rw [List.getLast_map]
    intro zero
    exact last _ (UInt8.toNat_inj.mp (by rw [zero, UInt8.toNat_zero]))
  rw [leValue_eq, digitBytes, Nat.digits_ofDigits 256 (by norm_num) _ digits top, List.map_map]
  conv_rhs => rw [← List.map_id bs]
  exact List.map_congr_left fun b _ => by simp

/-- A positive magnitude ends in a byte that is not zero. -/
theorem digitBytes_split {m : Nat} (positive : 0 < m) :
    ∃ init top, digitBytes m = init ++ [top] ∧ top ≠ 0 := by
  have nonempty : digitBytes m ≠ [] := by
    simpa [digitBytes] using Nat.digits_ne_nil_iff_ne_zero.mpr positive.ne'
  refine ⟨(digitBytes m).dropLast, (digitBytes m).getLast nonempty,
    (List.dropLast_append_getLast nonempty).symm, ?_⟩
  have digitsNonempty : Nat.digits 256 m ≠ [] := Nat.digits_ne_nil_iff_ne_zero.mpr positive.ne'
  have lt := Nat.digits_lt_base (by norm_num) (List.getLast_mem digitsNonempty)
  have ne := Nat.getLast_digit_ne_zero 256 positive.ne'
  simp only [digitBytes, List.getLast_map]
  intro zero
  apply ne
  rw [← toUInt8_toNat_of_lt lt, zero, UInt8.toNat_zero]

theorem getLastD_concat (init : List UInt8) (last : UInt8) : (init ++ [last]).getLastD 0 = last := by
  simp [List.getLastD_eq_getLast?]

/-- `serialize` on a number whose magnitude ends in `top`: a sign byte after it when it
uses the sign bit, else the sign in it. -/
theorem serialize_of_split {n : Int} (nonzero : n ≠ 0) {init : List UInt8} {top : UInt8}
    (split : digitBytes n.natAbs = init ++ [top]) :
    serialize n = if top &&& 0x80 ≠ 0 then init ++ [top, if n < 0 then 0x80 else 0]
      else init ++ [if n < 0 then top ||| 0x80 else top] := by
  rw [serialize, if_neg nonzero]
  simp only [magnitudeBytes_eq _ _ le_rfl, split, getLastD_concat, List.dropLast_concat]
  by_cases sign : top &&& 0x80 ≠ 0
  · simp [sign]
  · by_cases negative : n < 0 <;> simp [sign, negative]

theorem set_vch_concat (init : List UInt8) (last : UInt8) :
    set_vch (init ++ [last]) = if last &&& 0x80 ≠ 0 then -((leValue (init ++ [last &&& 0x7f]) : Nat) : Int)
      else (leValue (init ++ [last]) : Int) := by
  simp [set_vch]

/-- The minimality check passes on `init ++ [last]` when the last byte has bits other than
the sign bit, or when the byte before it uses the sign bit. -/
def MinimalEnd (init : List UInt8) (last : UInt8) : Bool :=
  last &&& 0x7f != 0 || init.getLast?.any (· &&& 0x80 != 0)

/-- The decoding constructor with `fRequireMinimal`, on a vector that fits. -/
theorem decode_concat {init : List UInt8} {last : UInt8} {k : Nat} (fits : (init ++ [last]).length ≤ k) :
    decode (init ++ [last]) true k = if MinimalEnd init last then .ok ⟨set_vch (init ++ [last])⟩
      else .error (.thrown .scriptnum_error) := by
  have sizeOk : ¬k < (init ++ [last]).length := by omega
  rw [decode, if_neg sizeOk]
  rcases List.eq_nil_or_concat init with rfl | ⟨front, x, rfl⟩
  · by_cases low : last &&& 0x7f = 0 <;> simp [MinimalEnd, low]
  · simp only [List.concat_eq_append]
    have second : (front ++ [x] ++ [last]).getD ((front ++ [x] ++ [last]).length - 2) 0 = x := by
      simp [List.getD_eq_getElem?_getD]
    rw [second, getLastD_concat]
    by_cases low : last &&& 0x7f = 0 <;> by_cases sign : x &&& 0x80 = 0 <;> simp [MinimalEnd, low, sign]

/-- `serialize` of a number other than zero is a minimal vector that `set_vch` reads as
the number. -/
theorem serialize_spec {n : Int} (nonzero : n ≠ 0) :
    ∃ init last, serialize n = init ++ [last] ∧ MinimalEnd init last = true ∧ set_vch (init ++ [last]) = n := by
  obtain ⟨init, top, split, topNe⟩ := digitBytes_split (Int.natAbs_pos.mpr nonzero)
  have magnitude : leValue (init ++ [top]) = n.natAbs := by rw [← split, leValue_digitBytes]
  rw [serialize_of_split nonzero split]
  by_cases sign : top &&& 0x80 ≠ 0
  · rw [if_pos sign]
    refine ⟨init ++ [top], if n < 0 then 0x80 else 0, by simp, by simp [MinimalEnd, sign], ?_⟩
    by_cases negative : n < 0
    · rw [if_pos negative, set_vch_concat, if_pos (by decide), show (0x80 : UInt8) &&& 0x7f = 0 by decide,
        leValue_append_zero, magnitude]
      omega
    · rw [if_neg negative, set_vch_concat, if_neg (by decide), leValue_append_zero, magnitude]
      omega
  · rw [if_neg sign]
    have noSign : top &&& 0x80 = 0 := not_not.mp sign
    by_cases negative : n < 0
    · rw [if_pos negative]
      refine ⟨init, top ||| 0x80, rfl, by simp [MinimalEnd, or_sign_low top noSign, topNe], ?_⟩
      rw [set_vch_concat, if_pos (or_sign_sign top), or_sign_low top noSign, magnitude]
      omega
    · rw [if_neg negative]
      refine ⟨init, top, rfl, by simp [MinimalEnd, low_of_no_sign top noSign, topNe], ?_⟩
      rw [set_vch_concat, if_neg sign, magnitude]
      omega

/-- `set_vch` reads back what `serialize` wrote, and the minimality check accepts it. -/
theorem decode_serialize (n : Int) {k : Nat} (fits : (serialize n).length ≤ k) :
    decode (serialize n) true k = .ok ⟨n⟩ := by
  by_cases zero : n = 0
  · subst zero
    rfl
  · obtain ⟨init, last, written, minimal, value⟩ := serialize_spec zero
    rw [written] at fits ⊢
    rw [decode_concat fits, if_pos minimal, value]

/-- `set_vch` reads back every number `serialize` writes. -/
theorem set_vch_serialize (n : Int) : set_vch (serialize n) = n := by
  by_cases zero : n = 0
  · subst zero
    rfl
  · obtain ⟨init, last, written, -, value⟩ := serialize_spec zero
    rw [written, value]

theorem length_digitBytes_le {m k : Nat} (small : m < 256 ^ k) : (digitBytes m).length ≤ k := by
  rw [digitBytes, List.length_map]
  exact (Nat.digits_length_le_iff (by norm_num) m).mpr small

/-- `serialize` writes the magnitude's bytes and at most one sign byte more. -/
theorem length_serialize_le (n : Int) : (serialize n).length ≤ (digitBytes n.natAbs).length + 1 := by
  by_cases zero : n = 0
  · subst zero
    simp [serialize]
  · obtain ⟨init, top, split, -⟩ := digitBytes_split (Int.natAbs_pos.mpr zero)
    rw [serialize_of_split zero split, split]
    split <;> simp

/-- The magnitude `m > 0` ending in `top` is written with `top` and, as `m` or `-m`, the sign. -/
theorem serialize_natCast {m : Nat} {init : List UInt8} {top : UInt8}
    (split : digitBytes m = init ++ [top]) (negative : Bool) :
    serialize (if negative then -(m : Int) else m) = if top &&& 0x80 ≠ 0 then
      init ++ [top, if negative then 0x80 else 0] else init ++ [if negative then top ||| 0x80 else top] := by
  have positive : 0 < m := by
    rcases Nat.eq_zero_or_pos m with rfl | positive
    · simp [digitBytes] at split
    · exact positive
  have nonneg : ¬ (m : Int) < 0 := by omega
  cases negative
  · rw [serialize_of_split (by simp; omega) (by simpa using split)]
    simp [nonneg]
  · rw [serialize_of_split (by simp; omega) (by simpa using split)]
    simp [positive]

/-- Every vector the minimality check accepts is what `serialize` writes for its value. -/
theorem serialize_set_vch {v : valtype} {k : Nat} {c : CScriptNum} (decoded : decode v true k = .ok c) :
    serialize (set_vch v) = v := by
  rcases List.eq_nil_or_concat v with rfl | ⟨init, last, rfl⟩
  · rfl
  rw [List.concat_eq_append] at decoded ⊢
  have fits : (init ++ [last]).length ≤ k := by
    by_contra long
    rw [decode, if_pos (by omega)] at decoded
    cases decoded
  rw [decode_concat fits] at decoded
  have minimal : MinimalEnd init last = true := by
    by_contra bad
    rw [if_neg bad] at decoded
    cases decoded
  simp only [MinimalEnd, Bool.or_eq_true, bne_iff_ne, ne_eq, Option.any_eq_true] at minimal
  by_cases low : last &&& 0x7f ≠ 0
  · have split : digitBytes (leValue (init ++ [last &&& 0x7f])) = init ++ [last &&& 0x7f] :=
      digitBytes_leValue fun _ => by simpa using low
    by_cases sign : last &&& 0x80 ≠ 0
    · have written := serialize_natCast split true
      rw [if_pos rfl, if_neg (by rw [low_sign_zero]; simp), if_pos rfl, sign_or_low last sign] at written
      rw [set_vch_concat, if_pos sign, written]
    · have noSign : last &&& 0x80 = 0 := not_not.mp sign
      rw [low_of_no_sign last noSign] at split low
      have written := serialize_natCast split false
      rw [if_neg (by simp), if_neg sign, if_neg (by simp)] at written
      rw [set_vch_concat, if_neg sign, written]
  · obtain ⟨x, last?, sign⟩ := minimal.resolve_left low
    obtain ⟨front, rfl⟩ : ∃ front, init = front ++ [x] := by
      rcases List.eq_nil_or_concat init with rfl | ⟨front, x', rfl⟩
      · simp at last?
      · simp only [List.concat_eq_append, List.getLast?_concat, Option.some.injEq] at last?
        exact ⟨front, by rw [last?, List.concat_eq_append]⟩
    have xNe : x ≠ 0 := by
      rintro rfl
      exact sign (by decide)
    have split : digitBytes (leValue (front ++ [x])) = front ++ [x] :=
      digitBytes_leValue fun _ => by simpa using xNe
    rcases eq_of_low_zero last (not_not.mp low) with rfl | rfl
    · have written := serialize_natCast split false
      rw [if_neg (by simp), if_pos sign] at written
      rw [set_vch_concat, if_neg (by decide), leValue_append_zero, written]
      simp
    · have written := serialize_natCast split true
      rw [if_pos rfl, if_pos sign] at written
      rw [set_vch_concat, if_pos (by decide), show (0x80 : UInt8) &&& 0x7f = 0 by decide, leValue_append_zero,
        written]
      simp

theorem CastToBool_cons_cons (a b : UInt8) (bs : List UInt8) :
    CastToBool (a :: b :: bs) = (a != 0 || CastToBool (b :: bs)) := rfl

theorem CastToBool_concat (init : List UInt8) (last : UInt8) :
    CastToBool (init ++ [last]) = (init.any (· != 0) || (last != 0 && last != 0x80)) := by
  induction init with
  | nil => rfl
  | cons b init ih =>
    obtain ⟨c, cs, split⟩ : ∃ c cs, init ++ [last] = c :: cs := List.exists_cons_of_ne_nil (by simp)
    rw [List.cons_append, split, CastToBool_cons_cons, ← split, ih, List.any_cons, Bool.or_assoc]

/-- `CastToBool` is true exactly for the vectors whose value is not zero. -/
theorem CastToBool_iff (v : valtype) : CastToBool v = true ↔ set_vch v ≠ 0 := by
  rcases List.eq_nil_or_concat v with rfl | ⟨init, last, rfl⟩
  · simp [CastToBool, set_vch]
  rw [List.concat_eq_append, CastToBool_concat, set_vch_concat]
  by_cases sign : last &&& 0x80 ≠ 0
  · rw [if_pos sign]
    have magnitude : ((leValue (init ++ [last &&& 0x7f]) : Nat) : Int) ≠ 0 ↔
        (∃ b ∈ init, b ≠ 0) ∨ last &&& 0x7f ≠ 0 := by
      rw [Int.natCast_ne_zero, ne_eq, leValue_eq_zero_iff]
      simp
    rw [neg_ne_zero, magnitude, low_ne_zero_iff last]
    simp
  · rw [if_neg sign]
    have magnitude : ((leValue (init ++ [last]) : Nat) : Int) ≠ 0 ↔ (∃ b ∈ init, b ≠ 0) ∨ last ≠ 0 := by
      rw [Int.natCast_ne_zero, ne_eq, leValue_eq_zero_iff]
      simp
    rw [magnitude, ne_zero_iff_of_no_sign last (not_not.mp sign)]
    simp

end CScriptNum

theorem ScriptNum_round_trip :
    (∀ n : Int, INT64_MIN < n → n ≤ INT64_MAX → ∀ k, (CScriptNum.serialize n).length ≤ k →
      CScriptNum.decode (CScriptNum.serialize n) true k = .ok ⟨n⟩) ∧
    (∀ (v : valtype) (k : Nat) (c : CScriptNum), 1 ≤ v.length → v.length ≤ 8 →
      CScriptNum.decode v true k = .ok c → CScriptNum.serialize (CScriptNum.set_vch v) = v) ∧
    (∀ v : valtype, CastToBool v = true ↔ CScriptNum.set_vch v ≠ 0) := by
  refine ⟨?_, ?_, CScriptNum.CastToBool_iff⟩
  · intro n _ _ k fits
    exact CScriptNum.decode_serialize n fits
  · intro v k c _ _ decoded
    exact CScriptNum.serialize_set_vch decoded

theorem ScriptNum_round_trip_at_255 :
    CScriptNum.decode [0xff, 0x80] true 4 = .ok ⟨-255⟩ ∧
      CScriptNum.serialize (CScriptNum.set_vch [0xff, 0x80]) = [0xff, 0x80] ∧
      (CastToBool [0x80] = true ↔ CScriptNum.set_vch [0x80] ≠ 0) := by
  have written : CScriptNum.serialize (-255) = [0xff, 0x80] := by decide
  refine ⟨?_, ?_, ScriptNum_round_trip.2.2 [0x80]⟩
  · rw [← written]
    exact ScriptNum_round_trip.1 (-255) (by decide) (by decide) 4 (by decide)
  · exact ScriptNum_round_trip.2.1 [0xff, 0x80] 4 ⟨-255⟩ (by decide) (by decide) (by rw [← written]; rfl)

end SalemCash
