import Mathlib
import SalemCash.PolyRemainder
import SalemCash.Bech32

/-!
# What the Bech32 checksum computes

The comment of `PolyMod` reads its input as a polynomial over GF(32) with an implicit leading
`1`, and its result as the coefficients of the remainder modulo the generator `g`. Here GF(32)
is GF(2)[a] / (a ^ 5 + a ^ 3 + 1), as that comment builds it, and a 5-bit value is the element
whose coefficients are its bits (`gf`). The register's six digits are then a polynomial of
degree below six (`unpack`), and one round of `PolyMod` is one step of Horner's rule reduced
modulo `g` (`unpack_polyModStep`). So `PolyMod` computes the remainder (`unpack_PolyMod`).

From that, `CreateChecksum` makes the remainder of the whole string `1`, so `Decode` takes back
what `Encode` writes, and a change of one data character changes the remainder by a non-zero
constant times a power of `x`, which `g` never divides.
-/
set_option autoImplicit false

namespace SalemCash

namespace Bech32

open Polynomial PolyRemainder

/-- `a ^ 5 + a ^ 3 + 1` over GF(2). -/
noncomputable def fieldModulus : (ZMod 2)[X] := X ^ 5 + X ^ 3 + 1

abbrev GF32 := AdjoinRoot fieldModulus

/-- The generator `a` of GF(32). -/
noncomputable def alpha : GF32 := AdjoinRoot.root fieldModulus

/-- The element whose coefficients are the five low bits of `b`. -/
noncomputable def gf (b : Nat) : GF32 := ∑ i ∈ Finset.range 5, if b.testBit i then alpha ^ i else 0

/-- Multiplication by `a` on 5-bit values: a shift, reduced by `a ^ 5 = a ^ 3 + 1`. -/
def xtime (b : Nat) : Nat := if b < 16 then 2 * b else 2 * (b - 16) ^^^ 9

theorem two_eq_zero : (2 : GF32) = 0 := by
  rw [← map_ofNat (AdjoinRoot.of fieldModulus) 2, show (OfNat.ofNat 2 : ZMod 2) = 0 from rfl, map_zero]

@[simp] theorem add_self (x : GF32) : x + x = 0 := by
  rw [← two_mul, two_eq_zero, zero_mul]

theorem sub_eq_add (x y : GF32) : x - y = x + y := by
  rw [sub_eq_add_neg, neg_eq_of_add_eq_zero_left (add_self y)]

theorem poly_add_self (p : GF32[X]) : p + p = 0 := by
  ext n
  rw [coeff_add, add_self, coeff_zero]

theorem alpha_pow_five : alpha ^ 5 = alpha ^ 3 + 1 := by
  have root : alpha ^ 5 + alpha ^ 3 + 1 = 0 := by
    have zero : aeval alpha fieldModulus = 0 := by rw [alpha, AdjoinRoot.aeval_eq, AdjoinRoot.mk_self]
    simpa [fieldModulus] using zero
  calc alpha ^ 5 = alpha ^ 5 + (alpha ^ 3 + 1) + (alpha ^ 3 + 1) := by rw [add_assoc, add_self, add_zero]
    _ = alpha ^ 3 + 1 := by rw [← add_assoc (alpha ^ 5), root, zero_add]

@[simp] theorem gf_zero : gf 0 = 0 := by simp [gf]

theorem gf_xor (a b : Nat) : gf (a ^^^ b) = gf a + gf b := by
  rw [gf, gf, gf, ← Finset.sum_add_distrib]
  refine Finset.sum_congr rfl fun i _ => ?_
  rw [Nat.testBit_xor]
  cases a.testBit i <;> cases b.testBit i <;> simp

theorem gf_ite (p : Prop) [Decidable p] (b : Nat) : gf (if p then b else 0) = if p then gf b else 0 := by
  split <;> simp

/-- The five bits of a value below `32` spelt out. -/
theorem gf_eq (b : Nat) :
    gf b = (if b.testBit 0 then 1 else 0) + (if b.testBit 1 then alpha else 0) + (if b.testBit 2 then alpha ^ 2 else 0) +
      (if b.testBit 3 then alpha ^ 3 else 0) + (if b.testBit 4 then alpha ^ 4 else 0) := by
  simp [gf, Finset.sum_range_succ]

/-- Doubling a value below `16` moves every bit up one place. -/
theorem gf_double {b : Nat} (small : b < 16) : alpha * gf b = gf (2 * b) := by
  have up : ∀ i, (2 * b).testBit (i + 1) = b.testBit i := fun i => by
    rw [Nat.mul_comm, show (2 : Nat) = 2 ^ 1 from rfl, Nat.testBit_mul_two_pow]
    simp
  have low : (2 * b).testBit 0 = false := by
    rw [Nat.mul_comm, show (2 : Nat) = 2 ^ 1 from rfl, Nat.testBit_mul_two_pow]
    simp
  have top : b.testBit 4 = false := Nat.testBit_eq_false_of_lt small
  conv_lhs => rw [gf, Finset.sum_range_succ, top]
  conv_rhs => rw [gf, Finset.sum_range_succ', low]
  simp only [Bool.false_eq_true, if_false, add_zero, Finset.mul_sum, up, mul_ite, mul_zero, pow_succ]
  exact Finset.sum_congr rfl fun i _ => by rw [mul_comm]

theorem gf_sixteen : gf 16 = alpha ^ 4 := by
  rw [gf_eq]
  simp [show Nat.testBit 16 4 = true by decide, show Nat.testBit 16 0 = false by decide,
    show Nat.testBit 16 1 = false by decide, show Nat.testBit 16 2 = false by decide,
    show Nat.testBit 16 3 = false by decide]

theorem gf_nine : gf 9 = alpha ^ 3 + 1 := by
  rw [gf_eq]
  simp [show Nat.testBit 9 0 = true by decide, show Nat.testBit 9 1 = false by decide,
    show Nat.testBit 9 2 = false by decide, show Nat.testBit 9 3 = true by decide,
    show Nat.testBit 9 4 = false by decide, add_comm]

theorem xtime_lt {b : Nat} (small : b < 32) : xtime b < 32 := by
  unfold xtime
  split
  · omega
  · exact Nat.xor_lt_two_pow (show 2 * (b - 16) < 2 ^ 5 by omega) (show 9 < 2 ^ 5 by decide)

/-- `xtime` is multiplication by `a`. -/
theorem gf_xtime {b : Nat} (small : b < 32) : alpha * gf b = gf (xtime b) := by
  unfold xtime
  split
  · exact gf_double (by omega)
  · obtain ⟨low, rfl⟩ : ∃ low, b = low + 16 := ⟨b - 16, by omega⟩
    have high : low + 16 = low ^^^ 16 := (show ∀ low < 16, low + 16 = low ^^^ 16 by decide) low (by omega)
    rw [Nat.add_sub_cancel, high, gf_xor, mul_add, gf_double (by omega), gf_sixteen, gf_xor, gf_nine,
      show alpha * alpha ^ 4 = alpha ^ 5 by ring, alpha_pow_five]

theorem xtime_iterate_lt {b : Nat} (small : b < 32) (n : Nat) : xtime^[n] b < 32 := by
  induction n with
  | zero => exact small
  | succ n ih => rw [Function.iterate_succ_apply']; exact xtime_lt ih

/-- `n` times `xtime` is multiplication by `a ^ n`. -/
theorem gf_xtime_iterate {b : Nat} (small : b < 32) (n : Nat) : alpha ^ n * gf b = gf (xtime^[n] b) := by
  induction n with
  | zero => simp
  | succ n ih => rw [Function.iterate_succ_apply', ← gf_xtime (xtime_iterate_lt small n), ← ih, pow_succ', mul_assoc]

/-- A product: a sum over the bits of the first factor of the second one times `a ^ n`. -/
theorem gf_mul_eq_sum (a : Nat) {b : Nat} (small : b < 32) :
    gf a * gf b = ∑ n ∈ Finset.range 5, if a.testBit n then gf (xtime^[n] b) else 0 := by
  rw [gf, Finset.sum_mul]
  exact Finset.sum_congr rfl fun n _ => by rw [ite_mul, zero_mul, gf_xtime_iterate small]

theorem fieldModulus_monic : fieldModulus.Monic := by
  unfold fieldModulus
  monicity!

theorem fieldModulus_degree : fieldModulus.degree = 5 := by
  unfold fieldModulus
  compute_degree!

/-- The bits of `b` as a polynomial over GF(2), the representative of `gf b`. -/
noncomputable def bitPoly (b : Nat) : (ZMod 2)[X] := ∑ i : Fin 5, C (if b.testBit i then 1 else 0) * X ^ (i : ℕ)

theorem gf_eq_mk (b : Nat) : gf b = AdjoinRoot.mk fieldModulus (bitPoly b) := by
  rw [gf, bitPoly, map_sum, ← Fin.sum_univ_eq_sum_range]
  refine Finset.sum_congr rfl fun i _ => ?_
  rw [map_mul, map_pow, AdjoinRoot.mk_X, AdjoinRoot.mk_C, alpha]
  split <;> simp

/-- Only `0` is the zero of GF(32): the representative has degree below that of the modulus. -/
theorem gf_eq_zero {b : Nat} (small : b < 32) (zero : gf b = 0) : b = 0 := by
  rw [gf_eq_mk, AdjoinRoot.mk_eq_zero] at zero
  have below : (bitPoly b).degree < fieldModulus.degree := by
    rw [fieldModulus_degree]
    exact degree_sum_fin_lt _
  have none : bitPoly b = 0 := by
    by_contra nonzero
    exact fieldModulus_monic.not_dvd_of_degree_lt nonzero below zero
  apply Nat.eq_of_testBit_eq
  intro i
  rw [Nat.zero_testBit]
  by_cases low : i < 5
  · have coeff := congrArg (coeff · i) none
    simp only [bitPoly, finsetSum_coeff, coeff_C_mul_X_pow, coeff_zero] at coeff
    rw [Finset.sum_eq_single ⟨i, low⟩ (fun j _ other => if_neg (fun same => other (Fin.ext same.symm)))
      (by simp)] at coeff
    cases bit : b.testBit i
    · rfl
    · rw [if_pos rfl, bit, if_pos rfl] at coeff
      exact absurd coeff (by decide)
  · exact Nat.testBit_lt_two_pow (lt_of_lt_of_le small
      (calc (32 : Nat) = 2 ^ 5 := rfl
        _ ≤ 2 ^ i := Nat.pow_le_pow_right (by decide) (by omega)))

theorem gf_injective {a b : Nat} (smallA : a < 32) (smallB : b < 32) (same : gf a = gf b) : a = b := by
  have zero : gf (a ^^^ b) = 0 := by rw [gf_xor, same, add_self]
  have xor := gf_eq_zero (Nat.xor_lt_two_pow (show a < 2 ^ 5 from smallA) smallB) zero
  calc a = a ^^^ (a ^^^ b) := by rw [xor, Nat.xor_zero]
    _ = b := by rw [← Nat.xor_assoc, Nat.xor_self, Nat.zero_xor]

theorem gf_one : gf 1 = 1 := by
  rw [gf_eq]
  simp [show Nat.testBit 1 0 = true by decide, show Nat.testBit 1 1 = false by decide,
    show Nat.testBit 1 2 = false by decide, show Nat.testBit 1 3 = false by decide,
    show Nat.testBit 1 4 = false by decide]

instance : Nontrivial GF32 :=
  nontrivial_of_ne 0 1 fun same => absurd (gf_injective (by decide) (by decide) (by rw [gf_zero, gf_one]; exact same))
    (show (0 : ℕ) ≠ 1 by decide)

/-- `{17}` is the inverse of `{18}`, the constant term of the generator. -/
theorem gf_seventeen_mul : gf 17 * gf 18 = 1 := by
  rw [gf_mul_eq_sum _ (by decide)]
  simp only [Finset.sum_range_succ, Finset.sum_range_zero, zero_add]
  simp only [show Nat.testBit 17 0 = true by decide, show Nat.testBit 17 1 = false by decide,
    show Nat.testBit 17 2 = false by decide, show Nat.testBit 17 3 = false by decide,
    show Nat.testBit 17 4 = true by decide, if_true, Bool.false_eq_true, if_false, add_zero, ← gf_xor]
  rw [show xtime^[0] 18 ^^^ xtime^[4] 18 = 1 by decide, gf_one]

/-- The six digits of the register as the coefficients of a polynomial, digit `j` for `x ^ j`. -/
noncomputable def unpack (c : Nat) : GF32[X] := ∑ j : Fin 6, C (gf (digit j c)) * X ^ (j : ℕ)

/-- The Bech32 generator `g(x) = x^6 + {29}x^5 + {22}x^4 + {20}x^3 + {21}x^2 + {29}x + {18}`. -/
noncomputable def generator : GF32[X] :=
  X ^ 6 + C (gf 29) * X ^ 5 + C (gf 22) * X ^ 4 + C (gf 20) * X ^ 3 + C (gf 21) * X ^ 2 + C (gf 29) * X + C (gf 18)

theorem coeff_unpack (c n : Nat) : (unpack c).coeff n = if n < 6 then gf (digit n c) else 0 := by
  simp only [unpack, finsetSum_coeff, coeff_C_mul_X_pow]
  split
  · rw [Finset.sum_eq_single ⟨n, ‹_›⟩ (fun j _ other => if_neg (fun same => other (Fin.ext same.symm))) (by simp)]
    simp
  · exact Finset.sum_eq_zero fun j _ => if_neg (by omega)

theorem degree_unpack (c : Nat) : (unpack c).degree < ↑(6 : ℕ) := degree_sum_fin_lt _

theorem unpack_xor (x y : Nat) : unpack (x ^^^ y) = unpack x + unpack y := by
  simp only [unpack, digit_xor, gf_xor, C_add, add_mul, Finset.sum_add_distrib]

theorem unpack_one : unpack 1 = 1 := by
  ext n
  rw [coeff_unpack, coeff_one, digit_small (by decide)]
  by_cases bottom : n = 0
  · simp [bottom, gf_one]
  · simp [bottom]

/-- Registers of 30 bits are determined by their polynomials. -/
theorem unpack_injective {c c' : Nat} (small : c < 2 ^ 30) (small' : c' < 2 ^ 30) (same : unpack c = unpack c') :
    c = c' := by
  apply eq_of_digits small small'
  intro j low
  have coeff := congrArg (coeff · j) same
  simp only [coeff_unpack, if_pos low] at coeff
  exact gf_injective (digit_lt j c) (digit_lt j c') coeff

theorem generator_eq : generator = X ^ 6 + unpack 0x3b6a57b2 := by
  rw [generator, unpack, Fin.sum_univ_six]
  simp only [Fin.val_zero, Fin.val_one, Fin.val_two, show ((3 : Fin 6) : ℕ) = 3 from rfl,
    show ((4 : Fin 6) : ℕ) = 4 from rfl, show ((5 : Fin 6) : ℕ) = 5 from rfl, show digit 0 0x3b6a57b2 = 18 by decide,
    show digit 1 0x3b6a57b2 = 29 by decide, show digit 2 0x3b6a57b2 = 21 by decide,
    show digit 3 0x3b6a57b2 = 20 by decide, show digit 4 0x3b6a57b2 = 22 by decide,
    show digit 5 0x3b6a57b2 = 29 by decide, pow_zero, mul_one, pow_one]
  ring

theorem generator_monic : generator.Monic := by
  rw [generator_eq]
  exact monic_X_pow_add (degree_unpack _)

theorem natDegree_generator : generator.natDegree = 6 := by
  rw [generator_eq, natDegree_add_eq_left_of_degree_lt (by rw [degree_X_pow]; exact degree_unpack _), natDegree_X_pow]

theorem coeff_generator (n : Nat) :
    generator.coeff n = if n = 6 then 1 else if n < 6 then gf (digit n 0x3b6a57b2) else 0 := by
  rw [generator_eq, coeff_add, coeff_X_pow, coeff_unpack]
  by_cases top : n = 6
  · simp [top]
  · simp [top]

/-- The constants of `PolyMod` are `{2 ^ n}` times the low coefficients of the generator: digit
`j` of them, added for the bits of `t`, is `t` times digit `j` of the first. -/
theorem gf_digit_mix {t : Nat} {j : Nat} (low : j < 6) :
    gf (digit j (mix t)) = gf t * gf (digit j 0x3b6a57b2) := by
  have constants : ∀ j < 6, digit j 0x26508e6d = xtime^[1] (digit j 0x3b6a57b2) ∧
      digit j 0x1ea119fa = xtime^[2] (digit j 0x3b6a57b2) ∧ digit j 0x3d4233dd = xtime^[3] (digit j 0x3b6a57b2) ∧
      digit j 0x2a1462b3 = xtime^[4] (digit j 0x3b6a57b2) := by decide
  obtain ⟨one, two, three, four⟩ := constants j low
  rw [gf_mul_eq_sum _ (digit_lt _ _), mix]
  simp only [digit_xor, digit_ite, gf_xor, gf_ite, Finset.sum_range_succ, Finset.sum_range_zero, zero_add,
    one, two, three, four, Function.iterate_zero, id]

/-- One round of `PolyMod` is one step of Horner's rule on the register's polynomial, reduced
modulo the generator: the digit shifted out at the top is cancelled by that multiple of `g`. -/
theorem unpack_polyModStep {c : UInt32} {v_i : UInt8} (small : c.toNat < 2 ^ 30) (value : v_i.toNat < 32) :
    unpack (polyModStep c v_i).toNat = (unpack c.toNat * X + C (gf v_i.toNat)) %ₘ generator := by
  rw [modByMonic_mul_X_add_C generator_monic natDegree_generator (degree_unpack _)]
  ext n
  rw [coeff_unpack, coeff_sub, coeff_add, coeff_C, coeff_C_mul, coeff_generator, coeff_unpack c.toNat 5,
    if_pos (by decide : 5 < 6), sub_eq_add]
  cases n with
  | zero =>
    rw [coeff_mul_X_zero, if_pos (by decide), digit_polyModStep small value (by decide), if_pos rfl, gf_xor,
      gf_digit_mix (by decide)]
    simp
  | succ k =>
    rw [coeff_mul_X, coeff_unpack, if_neg (Nat.succ_ne_zero k)]
    by_cases low : k + 1 < 6
    · rw [if_pos low, if_pos (by omega), digit_polyModStep small value low, if_neg (Nat.succ_ne_zero k), gf_xor,
        gf_digit_mix low, if_neg (by omega), if_pos low]
      simp
    · rw [if_neg low]
      by_cases top : k = 5
      · subst top
        simp
      · rw [if_neg (by omega), if_neg (by omega), if_neg low]
        simp

/-- A value as a coefficient: its five bits as an element of `GF32`. -/
noncomputable def coefficient (a : UInt8) : GF32 := gf a.toNat

/-- The run of the register from `c` over values below 32: it stays below `2 ^ 30` and holds the
remainder of the Horner sum of the values from the polynomial of `c`. The induction is on the
values, generalizing the register; `modByMonic_horner` lets each round's reduction be taken
at the end. -/
theorem unpack_foldl_polyModStep {c : UInt32} (small : c.toNat < 2 ^ 30) (v : List UInt8)
    (values : ∀ a ∈ v, a.toNat < 32) :
    (v.foldl polyModStep c).toNat < 2 ^ 30 ∧
      unpack (v.foldl polyModStep c).toNat = horner coefficient (unpack c.toNat) v %ₘ generator := by
  induction v generalizing c with
  | nil =>
    refine ⟨small, ?_⟩
    rw [List.foldl_nil, horner_nil, (modByMonic_eq_self_iff generator_monic).mpr]
    rw [degree_eq_natDegree generator_monic.ne_zero, natDegree_generator]
    exact degree_unpack _
  | cons a v ih =>
    have value := values a List.mem_cons_self
    obtain ⟨bound, reduced⟩ := ih (polyModStep_lt c value) fun b inside => values b (List.mem_cons_of_mem a inside)
    refine ⟨bound, ?_⟩
    rw [List.foldl_cons, reduced, unpack_polyModStep small value, horner_cons,
      modByMonic_horner _ generator_monic (unpack c.toNat * X + C (coefficient a))]
    rfl

theorem PolyMod_lt (v : List UInt8) (values : ∀ a ∈ v, a.toNat < 32) : (PolyMod v).toNat < 2 ^ 30 :=
  (unpack_foldl_polyModStep (by decide) v values).1

/-- `PolyMod` is the remainder of the Horner sum of the values from `1`. -/
theorem unpack_PolyMod (v : List UInt8) (values : ∀ a ∈ v, a.toNat < 32) :
    unpack (PolyMod v).toNat = horner coefficient 1 v %ₘ generator := by
  rw [PolyMod, (unpack_foldl_polyModStep (by decide) v values).2, show (1 : UInt32).toNat = 1 from rfl, unpack_one]

/-- The Horner sum from `1` is `x ^ |v|` plus the values, the first the highest. -/
theorem horner_one_eq_sum (v : List UInt8) :
    horner coefficient 1 v = X ^ v.length + ∑ i : Fin v.length, C (gf v[i].toNat) * X ^ (v.length - 1 - i) := by
  rw [horner_eq, horner_zero_eq_sum, one_mul]
  rfl

/-- A register of 30 bits is `1` exactly when its polynomial is. -/
theorem PolyMod_eq_one_iff (v : List UInt8) (values : ∀ a ∈ v, a.toNat < 32) :
    PolyMod v = 1 ↔ horner coefficient 1 v %ₘ generator = 1 := by
  rw [← unpack_PolyMod v values, ← unpack_one]
  constructor
  · intro one
    rw [one]
    rfl
  · intro same
    exact UInt32.toNat_inj.mp (unpack_injective (PolyMod_lt v values) (by decide) same)

theorem degree_generator : generator.degree = ↑(6 : ℕ) := by
  rw [degree_eq_natDegree generator_monic.ne_zero, natDegree_generator]

theorem modByMonic_generator_of_degree_lt {p : GF32[X]} (below : p.degree < ↑(6 : ℕ)) : p %ₘ generator = p :=
  (modByMonic_eq_self_iff generator_monic).mpr (degree_generator ▸ below)

theorem append_lt {xs ys : List UInt8} (early : ∀ a ∈ xs, a.toNat < 32) (late : ∀ a ∈ ys, a.toNat < 32) :
    ∀ a ∈ xs ++ ys, a.toNat < 32 := fun a inside =>
  (List.mem_append.mp inside).elim (early a) (late a)

theorem ExpandHRP_lt (hrp : List UInt8) : ∀ a ∈ ExpandHRP hrp, a.toNat < 32 := by
  intro a inside
  simp only [ExpandHRP, List.mem_append, List.mem_map, List.mem_singleton] at inside
  rcases inside with (⟨c, -, rfl⟩ | rfl) | ⟨c, -, rfl⟩
  · rw [UInt8.toNat_shiftRight, show (5 : UInt8).toNat % 8 = 5 from rfl, Nat.shiftRight_eq_div_pow]
    have := c.toNat_lt
    omega
  · decide
  · rw [UInt8.toNat_and]
    exact Nat.and_lt_two_pow _ (show (0x1f : UInt8).toNat < 2 ^ 5 by decide)

/-- Entry `i` of the checksum is digit `5 - i` of the register: the highest digit first. -/
theorem toNat_checksum_entry (m : UInt32) {i : Nat} (low : i < 6) :
    ((m >>> (5 * (5 - i)).toUInt32) &&& 31).toUInt8.toNat = digit (5 - i) m.toNat := by
  have shift : (5 * (5 - i)).toUInt32.toNat = 5 * (5 - i) := by
    rw [Nat.toUInt32, UInt32.toNat_ofNat']
    omega
  rw [UInt32.toNat_toUInt8, UInt32.toNat_and, UInt32.toNat_shiftRight, shift,
    Nat.mod_eq_of_lt (by omega : 5 * (5 - i) < 32), show (31 : UInt32).toNat = 2 ^ 5 - 1 from rfl,
    Nat.and_two_pow_sub_one_eq_mod, Nat.shiftRight_eq_div_pow, pow_mul, digit, show (2 : ℕ) ^ 5 = 32 from rfl]
  omega

theorem range_six_map {β : Type} (g : ℕ → β) : (List.range 6).map g = [g 0, g 1, g 2, g 3, g 4, g 5] := rfl

/-- The six entries of the checksum, read by Horner's rule, are the register's polynomial. -/
theorem horner_checksum (m : UInt32) :
    horner coefficient 0 ((List.range 6).map fun i => ((m >>> (5 * (5 - i)).toUInt32) &&& 31).toUInt8) =
      unpack m.toNat := by
  have entry : ∀ i < 6, coefficient (((m >>> (5 * (5 - i)).toUInt32) &&& 31).toUInt8) = gf (digit (5 - i) m.toNat) :=
    fun i low => by rw [coefficient, toNat_checksum_entry m low]
  rw [range_six_map, horner_cons, horner_cons, horner_cons, horner_cons, horner_cons, horner_cons, horner_nil,
    entry 0 (by decide), entry 1 (by decide), entry 2 (by decide), entry 3 (by decide), entry 4 (by decide),
    entry 5 (by decide), unpack, Fin.sum_univ_six]
  simp only [Fin.val_zero, Fin.val_one, Fin.val_two, show ((3 : Fin 6) : ℕ) = 3 from rfl,
    show ((4 : Fin 6) : ℕ) = 4 from rfl, show ((5 : Fin 6) : ℕ) = 5 from rfl]
  ring

theorem CreateChecksum_lt (hrp values : List UInt8) : ∀ a ∈ CreateChecksum hrp values, a.toNat < 32 := by
  intro a inside
  simp only [CreateChecksum, List.mem_map, List.mem_range] at inside
  obtain ⟨i, low, rfl⟩ := inside
  rw [toNat_checksum_entry _ low]
  exact digit_lt _ _

theorem length_CreateChecksum (hrp values : List UInt8) : (CreateChecksum hrp values).length = 6 := by
  simp [CreateChecksum]

/-- Six values after a start: the start shifted by six places, reduced, plus the values. -/
theorem horner_six_modByMonic (p : GF32[X]) {ck : List UInt8} (six : ck.length = 6) :
    horner coefficient p ck %ₘ generator = p * X ^ 6 %ₘ generator + horner coefficient 0 ck := by
  have below : (horner coefficient 0 ck).degree < ↑(6 : ℕ) := six ▸ degree_horner_zero_lt coefficient ck
  rw [horner_eq, six, add_modByMonic, modByMonic_generator_of_degree_lt below]

/-- The checksum is the remainder that `PolyMod` leaves after six zeros, with its `1` cancelled:
the remainder of the values shifted by six places, plus one. -/
theorem horner_CreateChecksum (hrp values : List UInt8) (small : ∀ a ∈ values, a.toNat < 32) :
    horner coefficient 0 (CreateChecksum hrp values) =
      horner coefficient 1 (Cat (ExpandHRP hrp) values) * X ^ 6 %ₘ generator + 1 := by
  have padSmall : ∀ a ∈ Cat (ExpandHRP hrp) values ++ List.replicate 6 0, a.toNat < 32 :=
    append_lt (append_lt (ExpandHRP_lt hrp) small) fun a zero => by
      rw [List.eq_of_mem_replicate zero]
      decide
  have zeros : horner coefficient 0 (List.replicate 6 (0 : UInt8)) = 0 := by
    simp [List.replicate_succ, horner_cons, coefficient]
  rw [CreateChecksum, horner_checksum, UInt32.toNat_xor, unpack_xor, unpack_PolyMod _ padSmall,
    show (1 : UInt32).toNat = 1 from rfl, unpack_one, horner_append, horner_eq, zeros, add_zero, List.length_replicate]

/-- The register after the expanded human-readable part, the values and their checksum is `1`:
the whole sum is `1` more than a multiple of the generator. -/
theorem VerifyChecksum_CreateChecksum (hrp values : List UInt8) (small : ∀ a ∈ values, a.toNat < 32) :
    VerifyChecksum hrp (Cat values (CreateChecksum hrp values)) = true := by
  have allSmall : ∀ a ∈ Cat (ExpandHRP hrp) values ++ CreateChecksum hrp values, a.toNat < 32 :=
    append_lt (append_lt (ExpandHRP_lt hrp) small) (CreateChecksum_lt hrp values)
  unfold VerifyChecksum
  rw [beq_iff_eq, show Cat (ExpandHRP hrp) (Cat values (CreateChecksum hrp values)) =
      Cat (ExpandHRP hrp) values ++ CreateChecksum hrp values from (List.append_assoc _ _ _).symm,
    PolyMod_eq_one_iff _ allSmall, horner_append, horner_six_modByMonic _ (length_CreateChecksum hrp values),
    horner_CreateChecksum hrp values small, ← add_assoc, poly_add_self, zero_add]

/-- Only one list of six values below 32 completes the values to a checksum that verifies. -/
theorem CreateChecksum_unique (hrp values ck : List UInt8) (small : ∀ a ∈ values, a.toNat < 32)
    (checkSmall : ∀ a ∈ ck, a.toNat < 32) (six : ck.length = 6) (valid : VerifyChecksum hrp (Cat values ck) = true) :
    CreateChecksum hrp values = ck := by
  have allSmall : ∀ a ∈ Cat (ExpandHRP hrp) values ++ ck, a.toNat < 32 :=
    append_lt (append_lt (ExpandHRP_lt hrp) small) checkSmall
  unfold VerifyChecksum at valid
  rw [beq_iff_eq, show Cat (ExpandHRP hrp) (Cat values ck) = Cat (ExpandHRP hrp) values ++ ck
      from (List.append_assoc _ _ _).symm, PolyMod_eq_one_iff _ allSmall, horner_append,
    horner_six_modByMonic _ six] at valid
  apply horner_zero_injective coefficient (by rw [length_CreateChecksum, six])
    fun a made b given same => UInt8.toNat_inj.mp
      (gf_injective (CreateChecksum_lt hrp values a made) (checkSmall b given) same)
  set r := horner coefficient 1 (Cat (ExpandHRP hrp) values) * X ^ 6 %ₘ generator
  calc horner coefficient 0 (CreateChecksum hrp values) = r + 1 := horner_CreateChecksum hrp values small
    _ = r + (r + horner coefficient 0 ck) := by rw [valid]
    _ = horner coefficient 0 ck := by rw [← add_assoc, poly_add_self, zero_add]

/-- The constant term `{18}` of the generator is cancelled by `{17}`. -/
theorem generator_cancel (y : GF32) (zero : generator.coeff 0 * y = 0) : y = 0 := by
  rw [coeff_generator, if_neg (by decide), if_pos (by decide), show digit 0 0x3b6a57b2 = 18 by decide] at zero
  calc y = gf 17 * gf 18 * y := by rw [gf_seventeen_mul, one_mul]
    _ = 0 := by rw [mul_assoc, zero, mul_zero]

/-- Changing one value below 32 to another breaks a checksum that verified. -/
theorem VerifyChecksum_set (hrp : List UInt8) {values : List UInt8} (small : ∀ a ∈ values, a.toNat < 32)
    (valid : VerifyChecksum hrp values = true) {k : Nat} (hk : k < values.length) {v : UInt8}
    (value : v.toNat < 32) (changed : v ≠ values[k]) : VerifyChecksum hrp (values.set k v) = false := by
  have setSmall : ∀ a ∈ values.set k v, a.toNat < 32 := fun a inside =>
    (List.mem_or_eq_of_mem_set inside).elim (small a) fun same => same ▸ value
  have differ : coefficient v ≠ coefficient values[k] := fun same =>
    changed (UInt8.toNat_inj.mp (gf_injective value (small _ (List.getElem_mem hk)) same))
  unfold VerifyChecksum at valid ⊢
  rw [beq_iff_eq, Cat, PolyMod_eq_one_iff _ (append_lt (ExpandHRP_lt hrp) small), horner_append] at valid
  rw [beq_eq_false_iff_ne, Cat, ne_eq, PolyMod_eq_one_iff _ (append_lt (ExpandHRP_lt hrp) setSmall), horner_append]
  intro same
  exact horner_set_modByMonic_ne coefficient generator_monic natDegree_generator generator_cancel _ hk differ
    (same.trans valid.symm)

/-- `Decode` reads back what `Encode` writes, for a non-empty printable human-readable part with
no upper case letter and values below 32 that fit in 90 characters. -/
theorem Decode_Encode {hrp values : List UInt8} (named : hrp ≠ [])
    (printable : ∀ c ∈ hrp, (33 ≤ c ∧ c ≤ 126) ∧ ¬(c ≥ 65 ∧ c ≤ 90)) (small : ∀ a ∈ values, a.toNat < 32)
    (short : hrp.length + values.length + 7 ≤ 90) : Decode (Encode hrp values) = (hrp, values) := by
  set data := Cat values (CreateChecksum hrp values) with dataDef
  have dataSmall : ∀ a ∈ data, a.toNat < 32 := append_lt small (CreateChecksum_lt hrp values)
  have lengthData : data.length = values.length + 6 := by
    rw [dataDef, Cat, List.length_append, length_CreateChecksum]
  set coded := data.map fun c => CHARSET.getD c.toNat 0
  have chars : ∀ c ∈ coded, c ∈ CHARSET := by
    intro c inside
    obtain ⟨a, member, rfl⟩ := List.mem_map.mp inside
    exact getD_CHARSET_mem (dataSmall a member)
  have everyChar : ∀ c ∈ hrp ++ 49 :: coded, (33 ≤ c ∧ c ≤ 126) ∧ ¬(c ≥ 65 ∧ c ≤ 90) := by
    intro c inside
    rcases List.mem_append.mp inside with early | rest
    · exact printable c early
    · rcases List.mem_cons.mp rest with rfl | later
      · decide
      · exact ⟨(CHARSET_mem c (chars c later)).1, (CHARSET_mem c (chars c later)).2.1⟩
  have sep : 49 ∉ coded := fun inside => (CHARSET_mem 49 (chars 49 inside)).2.2 rfl
  have mapped : coded.mapM charValue = some data := mapM_map_eq_some fun a inside => by
    rw [charValue_CHARSET a.toNat (dataSmall a inside)]
    simp
  have lowered : hrp.map LowerCase = hrp :=
    (List.map_congr_left fun c inside => LowerCase_of_not_upper (printable c inside).2).trans (List.map_id _)
  have encoded : Encode hrp values = hrp ++ 49 :: coded := by simp [Encode, coded, dataDef]
  have lengthCoded : coded.length = values.length + 6 := by rw [List.length_map, lengthData]
  have scan := scanCase_of_noUpper (fun c inside => (everyChar c inside).1) fun c inside => (everyChar c inside).2
  rw [encoded, Decode_eq_of_valid scan (fun both => Bool.false_ne_true both.2) sep named (by omega) (by omega) mapped
    (by rw [lowered]; exact VerifyChecksum_CreateChecksum hrp values small),
    lowered, lengthData, Nat.add_sub_cancel, dataDef, Cat, List.take_left]

/-- Changing one data character of a string that decodes, to a `CHARSET` character that is not
the same letter in lower case, makes `Decode` fail. -/
theorem Decode_set_eq_nil {pre post : List UInt8} (sep : 49 ∉ post) (valid : Decode (pre ++ 49 :: post) ≠ ([], []))
    {k : Nat} (hk : k < post.length) {c : UInt8} (charset : c ∈ CHARSET) (changed : LowerCase c ≠ LowerCase post[k]) :
    Decode (pre ++ 49 :: post.set k c) = ([], []) := by
  by_contra decoded
  have sepSet : 49 ∉ post.set k c := fun inside =>
    (List.mem_or_eq_of_mem_set inside).elim sep fun same => (CHARSET_mem c charset).2.2 same.symm
  obtain ⟨values, mapped, verify, -⟩ := exists_of_Decode_ne_nil sep valid
  obtain ⟨values', mapped', verify', -⟩ := exists_of_Decode_ne_nil sepSet decoded
  obtain ⟨i, low, rfl⟩ := List.getElem_of_mem charset
  have value : charValue CHARSET[i] = some i.toUInt8 := by
    rw [← List.getD_eq_getElem _ 0]
    exact charValue_CHARSET i (length_CHARSET ▸ low)
  have small : ∀ a ∈ values, a.toNat < 32 := forall_of_mapM_eq_some (fun _ _ found => (charValue_eq_some found).1) mapped
  have length := length_of_mapM_eq_some mapped
  have hk' : k < values.length := by omega
  have entry := getElem_of_mapM_eq_some mapped hk hk'
  have differ : i.toUInt8 ≠ values[k] := fun same =>
    changed (by rw [(charValue_eq_some value).2, (charValue_eq_some entry).2, same])
  rw [Option.some.inj (mapped'.symm.trans (mapM_set_eq_some mapped value k)),
    VerifyChecksum_set _ small verify hk' (charValue_eq_some value).1 differ] at verify'
  exact Bool.false_ne_true verify'

/-- The Bech32 checksum over GF(32) and the encoder's round trip: the six digits of `PolyMod v`
are the coefficients of `x ^ |v| + ∑ v_i x ^ (|v| - 1 - i)` modulo the generator; `Decode`
reads back `Encode` for a non-empty printable human-readable part without upper case letters;
and a string that decodes stops decoding when one data character is changed to a `CHARSET`
character that is not the same letter in lower case. -/
theorem Bech32_checksum_round_trip :
    (∀ v : List UInt8, (∀ a ∈ v, a.toNat < 32) →
      (PolyMod v).toNat < 2 ^ 30 ∧ ∀ j < 6, gf (digit j (PolyMod v).toNat) =
        ((X ^ v.length + ∑ i : Fin v.length, C (gf v[i].toNat) * X ^ (v.length - 1 - i)) %ₘ generator).coeff j) ∧
    (∀ hrp values : List UInt8, hrp ≠ [] → (∀ c ∈ hrp, (33 ≤ c ∧ c ≤ 126) ∧ ¬(c ≥ 65 ∧ c ≤ 90)) →
      (∀ a ∈ values, a.toNat < 32) → hrp.length + values.length + 7 ≤ 90 →
      Decode (Encode hrp values) = (hrp, values)) ∧
    (∀ (pre post : List UInt8) (k : Nat) (hk : k < post.length) (c : UInt8), 49 ∉ post →
      Decode (pre ++ 49 :: post) ≠ ([], []) → c ∈ CHARSET → LowerCase c ≠ LowerCase post[k] →
      Decode (pre ++ 49 :: post.set k c) = ([], [])) := by
  refine ⟨fun v values => ⟨PolyMod_lt v values, fun j low => ?_⟩,
    fun _ _ named printable small short => Decode_Encode named printable small short,
    fun _ _ _ hk _ sep valid charset changed => Decode_set_eq_nil sep valid hk charset changed⟩
  rw [← horner_one_eq_sum, ← unpack_PolyMod v values, coeff_unpack, if_pos low]

theorem Bech32_checksum_round_trip_bc :
    ([98, 99] : List UInt8) ≠ [] ∧ Decode (Encode [98, 99] [0, 1]) = ([98, 99], [0, 1]) :=
  ⟨by decide, Bech32_checksum_round_trip.2.1 _ _ (by decide) (by simp) (by simp) (by decide)⟩

set_option maxRecDepth 8000 in
/-- An empty human-readable part does not come back, since `Decode`
wants the separator after at least one character; and `219460F373` and `219460f373`, which
differ in one data character by case, both decode, to `2` and the values `5, 21`. -/
theorem Bech32_empty_hrp_and_case :
    Decode (Encode [] []) = ([], []) ∧
    Decode [50, 49, 57, 52, 54, 48, 70, 51, 55, 51] = ([50], [5, 21]) ∧
    Decode [50, 49, 57, 52, 54, 48, 102, 51, 55, 51] = ([50], [5, 21]) := by
  refine ⟨?_, ?_, ?_⟩ <;> decide

/-- `Decode` accepts only encodings, up to case: what it returns is a non-empty printable
human-readable part without upper case letters and values below 32 that fit in 90 characters,
the inputs of `Decode_Encode`, and `Encode` of it is the string in lower case. The six values
after the data are the checksum, since only one list of six values verifies. -/
theorem Decode_canonical {str hrp values : List UInt8} (decoded : Decode str = (hrp, values))
    (ok : (hrp, values) ≠ ([], [])) :
    hrp ≠ [] ∧ (∀ c ∈ hrp, (33 ≤ c ∧ c ≤ 126) ∧ ¬(c ≥ 65 ∧ c ≤ 90)) ∧ (∀ a ∈ values, a.toNat < 32) ∧
      hrp.length + values.length + 7 ≤ 90 ∧ Encode hrp values = str.map LowerCase := by
  have accepted : Decode str ≠ ([], []) := fun bad => ok (decoded.symm.trans bad)
  obtain ⟨pre, post, rfl, sep⟩ := split_of_Decode_ne_nil accepted
  obtain ⟨all, mapped, verify, printable, named, room, short, result⟩ := exists_of_Decode_ne_nil sep accepted
  obtain ⟨rfl, rfl⟩ := Prod.mk.inj (decoded.symm.trans result)
  have allSmall : ∀ a ∈ all, a.toNat < 32 :=
    forall_of_mapM_eq_some (fun _ _ found => (charValue_eq_some found).1) mapped
  have length := length_of_mapM_eq_some mapped
  have split : all.take (all.length - 6) ++ all.drop (all.length - 6) = all := List.take_append_drop _ _
  have dataSmall : ∀ a ∈ all.take (all.length - 6), a.toNat < 32 := fun a inside => allSmall a (List.mem_of_mem_take inside)
  have check : CreateChecksum (pre.map LowerCase) (all.take (all.length - 6)) = all.drop (all.length - 6) :=
    CreateChecksum_unique _ _ _ dataSmall (fun a inside => allSmall a (List.mem_of_mem_drop inside))
      (by rw [List.length_drop]; omega) (by rw [Cat, split]; exact verify)
  refine ⟨by simpa using named, fun c inside => ?_, dataSmall, by simp; omega, ?_⟩
  · obtain ⟨d, member, rfl⟩ := List.mem_map.mp inside
    exact LowerCase_printable (printable d (List.mem_append_left _ member))
  · rw [Encode, check, Cat, split, map_of_mapM_eq_some (fun _ _ found => (charValue_eq_some found).2.symm) mapped]
    simp [show LowerCase 49 = 49 by decide]

set_option maxRecDepth 8000 in
/-- `219460F373` decodes, and `Encode` of what it returns is `219460f373`. -/
theorem Decode_canonical_upper :
    Decode [50, 49, 57, 52, 54, 48, 70, 51, 55, 51] = ([50], [5, 21]) ∧ (([50], [5, 21]) : List UInt8 × List UInt8) ≠ ([], []) ∧
      Encode [50] [5, 21] = [50, 49, 57, 52, 54, 48, 70, 51, 55, 51].map LowerCase :=
  have decoded : Decode [50, 49, 57, 52, 54, 48, 70, 51, 55, 51] = ([50], [5, 21]) := by decide
  have ok : (([50], [5, 21]) : List UInt8 × List UInt8) ≠ ([], []) := by decide
  ⟨decoded, ok, (Decode_canonical decoded ok).2.2.2.2⟩

end Bech32

end SalemCash
