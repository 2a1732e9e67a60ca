import Mathlib.Data.Nat.Digits.Lemmas
import Mathlib.Tactic.Ring

/-!
# Schoolbook base conversion on a digit buffer

A number is held in a buffer of a fixed number of base-`R` digits, least significant
first. One pass multiplies it by `B` and adds a digit: each position takes
`(carry + B * d) % R` and passes `(carry + B * d) / R` on to the next. A pass stops at the
end of the buffer, or at the first position past the used ones (`length`) where the carry
is zero. Feeding the base-`B` digits of a number into an empty buffer, most significant
first, leaves its base-`R` digits there whenever no pass ended with a carry (`run_result`),
and none does as long as `B ^ n ≤ R ^ size` for `n` input digits and a buffer of `size`
digits (`run_carryFree`).
-/

namespace Radix

open Nat (ofDigits digits)

/-- One pass over the buffer from its least significant digit: the new digits, and the
carry and the number of positions visited at the end. -/
def mulAdd (B R length : Nat) : Nat → Nat → List Nat → List Nat × Nat × Nat
  | carry, i, [] => ([], carry, i)
  | carry, i, d :: ds =>
    if carry ≠ 0 ∨ i < length then
      let rest := mulAdd B R length ((carry + B * d) / R) (i + 1) ds
      ((carry + B * d) % R :: rest.1, rest.2)
    else (d :: ds, carry, i)

/-- The buffer with the number of positions in use, and whether every pass so far ended
with a zero carry. -/
structure Buffer where
  digits : List Nat
  length : Nat
  carryFree : Bool

/-- A buffer of `size` zero digits. -/
def Buffer.empty (size : Nat) : Buffer := ⟨List.replicate size 0, 0, true⟩

/-- Multiply by `B` and add `d`. -/
def Buffer.push (B R : Nat) (buf : Buffer) (d : Nat) : Buffer :=
  let pass := mulAdd B R buf.length d 0 buf.digits
  ⟨pass.1, pass.2.2, buf.carryFree && pass.2.1 == 0⟩

/-- The used digits, most significant first, without leading zeros. -/
def Buffer.result (buf : Buffer) : List Nat :=
  (buf.digits.take buf.length).reverse.dropWhile (· == 0)

/-- Convert the base-`B` digits `ds`, most significant first, in a buffer of `size`
base-`R` digits. -/
def run (B R size : Nat) (ds : List Nat) : Buffer :=
  ds.foldl (Buffer.push B R) (Buffer.empty size)

/-- The buffer holds the digits of `n`, and those past the used positions are zero. -/
structure Buffer.Holds (R : Nat) (buf : Buffer) (n : Nat) : Prop where
  lt : ∀ d ∈ buf.digits, d < R
  zero : ∀ d ∈ buf.digits.drop buf.length, d = 0
  value : ofDigits R buf.digits = n

variable {B R : Nat}

@[simp] theorem Buffer.empty_digits (size : Nat) : (Buffer.empty size).digits = List.replicate size 0 :=
  rfl

@[simp] theorem Buffer.empty_length (size : Nat) : (Buffer.empty size).length = 0 := rfl

@[simp] theorem Buffer.empty_carryFree (size : Nat) : (Buffer.empty size).carryFree = true := rfl

@[simp] theorem Buffer.push_digits (buf : Buffer) (d : Nat) :
    (buf.push B R d).digits = (mulAdd B R buf.length d 0 buf.digits).1 := rfl

@[simp] theorem Buffer.push_length (buf : Buffer) (d : Nat) :
    (buf.push B R d).length = (mulAdd B R buf.length d 0 buf.digits).2.2 := rfl

@[simp] theorem Buffer.push_carryFree (buf : Buffer) (d : Nat) :
    (buf.push B R d).carryFree = (buf.carryFree && (mulAdd B R buf.length d 0 buf.digits).2.1 == 0) :=
  rfl

theorem ofDigits_eq_zero_of_forall {l : List Nat} (zero : ∀ d ∈ l, d = 0) : ofDigits R l = 0 := by
  rw [List.eq_replicate_iff.mpr ⟨rfl, zero⟩, Nat.ofDigits_replicate_zero]

/-- The positions past `length` seen from the next position. -/
theorem mem_drop_of_mem_drop_succ {length i d : Nat} {ds : List Nat} {x : Nat}
    (mem : x ∈ ds.drop (length - (i + 1))) : x ∈ (d :: ds).drop (length - i) := by
  rcases Nat.eq_zero_or_pos (length - i) with used | unused
  · rw [used, List.drop_zero]
    rw [show length - (i + 1) = 0 by omega, List.drop_zero] at mem
    exact List.mem_cons_of_mem d mem
  · rw [show length - i = length - (i + 1) + 1 by omega, List.drop_succ_cons]
    exact mem

section MulAdd

variable {length : Nat}

@[simp] theorem length_mulAdd : ∀ (carry i : Nat) (ds : List Nat),
    (mulAdd B R length carry i ds).1.length = ds.length
  | _, _, [] => rfl
  | carry, i, d :: ds => by
    simp only [mulAdd]
    split_ifs
    · simp [length_mulAdd _ _ ds]
    · rfl

theorem mulAdd_lt (positive : 0 < R) : ∀ (carry i : Nat) (ds : List Nat), (∀ d ∈ ds, d < R) →
    ∀ d ∈ (mulAdd B R length carry i ds).1, d < R
  | _, _, [], _ => by simp [mulAdd]
  | carry, i, d :: ds, digits => by
    simp only [mulAdd]
    split_ifs
    · intro x mem
      rcases List.mem_cons.mp mem with rfl | mem
      · exact Nat.mod_lt _ positive
      · exact mulAdd_lt positive _ _ ds (fun x hx => digits x (List.mem_cons_of_mem d hx)) x mem
    · exact digits

theorem le_mulAdd_index : ∀ (carry i : Nat) (ds : List Nat), i ≤ (mulAdd B R length carry i ds).2.2
  | _, _, [] => le_refl _
  | carry, i, d :: ds => by
    simp only [mulAdd]
    split_ifs
    · exact Nat.le_of_succ_le (le_mulAdd_index _ (i + 1) ds)
    · exact le_refl _

/-- A pass multiplies by `B` and adds the carry; what does not fit is the final carry. -/
theorem mulAdd_value : ∀ (carry i : Nat) (ds : List Nat), (∀ d ∈ ds.drop (length - i), d = 0) →
    ofDigits R (mulAdd B R length carry i ds).1 + R ^ ds.length * (mulAdd B R length carry i ds).2.1 =
      carry + B * ofDigits R ds
  | carry, i, [], _ => by simp [mulAdd]
  | carry, i, d :: ds, zero => by
    simp only [mulAdd]
    split_ifs with visit
    · have ih := mulAdd_value ((carry + B * d) / R) (i + 1) ds
        (fun x mem => zero x (mem_drop_of_mem_drop_succ mem))
      simp only [Nat.ofDigits_cons, List.length_cons]
      calc (carry + B * d) % R + R * ofDigits R (mulAdd B R length ((carry + B * d) / R) (i + 1) ds).1
            + R ^ (ds.length + 1) * (mulAdd B R length ((carry + B * d) / R) (i + 1) ds).2.1
          = (carry + B * d) % R + R * (ofDigits R (mulAdd B R length ((carry + B * d) / R) (i + 1) ds).1
            + R ^ ds.length * (mulAdd B R length ((carry + B * d) / R) (i + 1) ds).2.1) := by ring
        _ = (carry + B * d) % R + R * ((carry + B * d) / R) + R * (B * ofDigits R ds) := by
            rw [ih]; ring
        _ = carry + B * (d + R * ofDigits R ds) := by rw [Nat.mod_add_div]; ring
    · obtain ⟨noCarry, past⟩ : carry = 0 ∧ length ≤ i := by omega
      rw [show length - i = 0 by omega, List.drop_zero] at zero
      rw [noCarry, ofDigits_eq_zero_of_forall zero]
      simp

/-- The positions a pass did not visit are still zero. -/
theorem mulAdd_zero : ∀ (carry i : Nat) (ds : List Nat), (∀ d ∈ ds.drop (length - i), d = 0) →
    ∀ d ∈ (mulAdd B R length carry i ds).1.drop ((mulAdd B R length carry i ds).2.2 - i), d = 0
  | _, _, [], _ => by simp [mulAdd]
  | carry, i, d :: ds, zero => by
    simp only [mulAdd]
    split_ifs
    · have visited := @le_mulAdd_index B R length ((carry + B * d) / R) (i + 1) ds
      rw [show (mulAdd B R length ((carry + B * d) / R) (i + 1) ds).2.2 - i =
          (mulAdd B R length ((carry + B * d) / R) (i + 1) ds).2.2 - (i + 1) + 1 by omega,
        List.drop_succ_cons]
      exact mulAdd_zero _ _ ds (fun x mem => zero x (mem_drop_of_mem_drop_succ mem))
    · simpa [show length - i = 0 by omega] using zero

end MulAdd

section Push

variable {buf : Buffer} {n d : Nat}

theorem Buffer.push_digits_length (buf : Buffer) (d : Nat) :
    (buf.push B R d).digits.length = buf.digits.length :=
  length_mulAdd _ _ _

theorem Buffer.push_value (holds : buf.Holds R n) :
    ofDigits R (buf.push B R d).digits + R ^ buf.digits.length * (mulAdd B R buf.length d 0 buf.digits).2.1 =
      d + B * n := by
  rw [← holds.value]
  exact mulAdd_value d 0 buf.digits (by simpa using holds.zero)

/-- A pass that ends with no carry keeps the invariant. -/
theorem Buffer.push_holds (positive : 0 < R) (holds : buf.Holds R n)
    (noCarry : (mulAdd B R buf.length d 0 buf.digits).2.1 = 0) :
    (buf.push B R d).Holds R (d + B * n) where
  lt := mulAdd_lt positive _ _ _ holds.lt
  zero := by simpa using mulAdd_zero d 0 buf.digits (by simpa using holds.zero)
  value := by simpa [noCarry] using Buffer.push_value (B := B) (d := d) holds

/-- A pass ends with no carry when the new number fits the buffer. -/
theorem Buffer.push_noCarry (holds : buf.Holds R n) (fits : d + B * n < R ^ buf.digits.length) :
    (mulAdd B R buf.length d 0 buf.digits).2.1 = 0 := by
  have value := Buffer.push_value (B := B) (d := d) holds
  by_contra carry
  have : R ^ buf.digits.length ≤ R ^ buf.digits.length * (mulAdd B R buf.length d 0 buf.digits).2.1 :=
    Nat.le_mul_of_pos_right _ (Nat.pos_of_ne_zero carry)
  omega

theorem Buffer.carryFree_of_push (free : (buf.push B R d).carryFree = true) :
    buf.carryFree = true ∧ (mulAdd B R buf.length d 0 buf.digits).2.1 = 0 := by
  simpa using free

end Push

theorem Buffer.empty_holds (positive : 0 < R) (size : Nat) : (Buffer.empty size).Holds R 0 where
  lt d mem := by
    rw [Buffer.empty_digits] at mem
    rw [List.eq_of_mem_replicate mem]
    exact positive
  zero d mem := by simpa using List.eq_of_mem_replicate (List.mem_of_mem_drop mem)
  value := Nat.ofDigits_replicate_zero

/-- A carry once left is never forgotten. -/
theorem carryFree_of_foldl : ∀ (ds : List Nat) (buf : Buffer),
    (ds.foldl (Buffer.push B R) buf).carryFree = true → buf.carryFree = true
  | [], _, free => free
  | _ :: ds, _, free => (Buffer.carryFree_of_push (carryFree_of_foldl ds _ free)).1

/-- When no pass left a carry, the buffer holds the number with the digits `ds` appended. -/
theorem foldl_push_holds (positive : 0 < R) : ∀ (ds : List Nat) (buf : Buffer) (n : Nat),
    buf.Holds R n → (ds.foldl (Buffer.push B R) buf).carryFree = true →
    (ds.foldl (Buffer.push B R) buf).Holds R (ofDigits B ds.reverse + B ^ ds.length * n)
  | [], buf, n, holds, _ => by simpa using holds
  | d :: ds, buf, n, holds, free => by
    have pushed := Buffer.push_holds positive holds
      (Buffer.carryFree_of_push (carryFree_of_foldl ds _ free)).2
    rw [List.foldl_cons]
    convert foldl_push_holds positive ds _ _ pushed free using 1
    rw [Nat.ofDigits_reverse_cons, List.length_cons]
    ring

/-- No pass leaves a carry while the number stays below `B ^ k ≤ R ^ size`. -/
theorem foldl_push_carryFree (positive : 0 < R) : ∀ (ds : List Nat) (buf : Buffer) (n k : Nat),
    (∀ d ∈ ds, d < B) → buf.Holds R n → n < B ^ k → B ^ (k + ds.length) ≤ R ^ buf.digits.length →
    (ds.foldl (Buffer.push B R) buf).carryFree = buf.carryFree
  | [], _, _, _, _, _, _, _ => rfl
  | d :: ds, buf, n, k, digits, holds, below, fits => by
    have hd := digits d List.mem_cons_self
    have below' : d + B * n < B ^ (k + 1) := by
      calc d + B * n < B + B * n := by omega
        _ = B * (n + 1) := by ring
        _ ≤ B * B ^ k := Nat.mul_le_mul_left B below
        _ = B ^ (k + 1) := by ring
    have grow : B ^ (k + 1) ≤ B ^ (k + (ds.length + 1)) := Nat.pow_le_pow_right (by omega) (by omega)
    have noCarry := Buffer.push_noCarry holds (lt_of_lt_of_le below' (le_trans grow (by simpa using fits)))
    have rest := foldl_push_carryFree positive ds (buf.push B R d) (d + B * n) (k + 1)
      (fun x mem => digits x (List.mem_cons_of_mem d mem)) (Buffer.push_holds positive holds noCarry) below'
      (by rw [Buffer.push_digits_length, show k + 1 + ds.length = k + (ds.length + 1) by omega]
          simpa using fits)
    rw [List.foldl_cons, rest]
    simp [noCarry]

/-- Leading zeros dropped from the digits of a number, most significant first, leave
the digits of `Nat.digits`. -/
theorem dropWhile_zero_eq_digits (base : 1 < R) : ∀ w : List Nat, (∀ d ∈ w, d < R) →
    w.dropWhile (· == 0) = (digits R (ofDigits R w.reverse)).reverse
  | [], _ => by simp
  | d :: w, lt => by
    by_cases leading : d = 0
    · subst leading
      rw [List.dropWhile_cons_of_pos (by simp), Nat.ofDigits_reverse_zero_cons]
      exact dropWhile_zero_eq_digits base w (fun x mem => lt x (List.mem_cons_of_mem 0 mem))
    · rw [List.dropWhile_cons_of_neg (by simpa using leading), Nat.digits_ofDigits R base _
        (fun x mem => lt x (List.mem_reverse.mp mem)) (by simpa using leading), List.reverse_reverse]

/-- Digits below `R` with no leading zero, most significant first, are those of their number. -/
theorem digits_ofDigits_reverse (base : 1 < R) {ds : List Nat} (lt : ∀ d ∈ ds, d < R)
    (leading : ∀ d ∈ ds.head?, d ≠ 0) : (Nat.digits R (ofDigits R ds.reverse)).reverse = ds := by
  rw [← dropWhile_zero_eq_digits base ds lt]
  cases ds with
  | nil => rfl
  | cons d ds => exact List.dropWhile_cons_of_neg (by simpa using leading d rfl)

/-- The digits of a number, most significant first, do not start with a zero. -/
theorem head_digits_reverse_ne_zero (R n : Nat) : ∀ d ∈ (Nat.digits R n).reverse.head?, d ≠ 0 := by
  intro d mem
  rcases Nat.eq_zero_or_pos n with rfl | positive
  · simp at mem
  · have nonempty : Nat.digits R n ≠ [] := Nat.digits_ne_nil_iff_ne_zero.mpr positive.ne'
    rw [List.head?_reverse, List.getLast?_eq_some_getLast nonempty, Option.mem_def, Option.some.injEq] at mem
    exact mem ▸ Nat.getLast_digit_ne_zero R positive.ne'

theorem Buffer.result_eq (base : 1 < R) {buf : Buffer} {n : Nat} (holds : buf.Holds R n) :
    buf.result = (Nat.digits R n).reverse := by
  have split : ofDigits R buf.digits = ofDigits R (buf.digits.take buf.length) := by
    conv_lhs => rw [← List.take_append_drop buf.length buf.digits]
    rw [Nat.ofDigits_append, ofDigits_eq_zero_of_forall holds.zero]
    simp
  rw [Buffer.result, dropWhile_zero_eq_digits base _
    (fun x mem => holds.lt x (List.mem_of_mem_take (List.mem_reverse.mp mem))),
    List.reverse_reverse, ← split, holds.value]

/-- A conversion that left no carry holds the base-`R` digits of the number. -/
theorem run_result (base : 1 < R) {ds : List Nat} {size : Nat}
    (free : (run B R size ds).carryFree = true) :
    (run B R size ds).result = (Nat.digits R (ofDigits B ds.reverse)).reverse := by
  have holds := foldl_push_holds (by omega) ds (Buffer.empty size) 0 (Buffer.empty_holds (by omega) size) free
  simp only [mul_zero, add_zero] at holds
  exact Buffer.result_eq base holds

/-- Converting `ds` in a buffer of `size` digits leaves no carry when `B ^ ds.length ≤ R ^ size`. -/
theorem run_carryFree (positive : 0 < R) {ds : List Nat} {size : Nat} (digits : ∀ d ∈ ds, d < B)
    (fits : B ^ ds.length ≤ R ^ size) : (run B R size ds).carryFree = true :=
  (foldl_push_carryFree positive ds (Buffer.empty size) 0 0 digits
    (Buffer.empty_holds positive size) (by simp) (by simpa using fits)).trans rfl

/-- A buffer of `n * q / p + 1` base-`R` digits holds every `n`-digit base-`B` number when
`B ^ p ≤ R ^ q`: the size approximates `n * log B / log R` from above by `q / p`. -/
theorem pow_le_pow_size {p q : Nat} (positive : 0 < p) (base : 0 < R) (period : B ^ p ≤ R ^ q) (n : Nat) :
    B ^ n ≤ R ^ (n * q / p + 1) := by
  have exponent : n * q ≤ p * (n * q / p + 1) := (Nat.lt_mul_div_succ (n * q) positive).le
  rw [← Nat.pow_le_pow_iff_left positive.ne']
  calc (B ^ n) ^ p = (B ^ p) ^ n := by rw [← pow_mul, ← pow_mul, mul_comm]
    _ ≤ (R ^ q) ^ n := Nat.pow_le_pow_left period n
    _ = R ^ (n * q) := by rw [← pow_mul, mul_comm]
    _ ≤ R ^ (p * (n * q / p + 1)) := Nat.pow_le_pow_right base exponent
    _ = (R ^ (n * q / p + 1)) ^ p := by rw [← pow_mul, mul_comm]

end Radix
