import Mathlib.Data.Nat.Bitwise
import Mathlib.Data.Nat.Size
import Mathlib.Data.List.GetD

/-!
# Numbers in 32-bit words

A list of `UInt32` words, least significant first, stands for the number `val`. This module
gives what a word-by-word implementation of arithmetic needs of it: its bound, how it splits
at a word, its bits, its value most significant word first, and the rule for a carry loop
(`val_carryLoop`), which computes a 64-bit `n` from the carry and the next input, keeps the
low word of `n` and carries its high word.
-/
namespace Words

/-- The number the words stand for, least significant first. -/
def val : List UInt32 → Nat
  | [] => 0
  | x :: xs => x.toNat + 2 ^ 32 * val xs

@[simp] theorem val_nil : val [] = 0 := rfl

@[simp] theorem val_cons (x : UInt32) (xs : List UInt32) : val (x :: xs) = x.toNat + 2 ^ 32 * val xs := rfl

theorem pow_succ_words (n : Nat) : 2 ^ (32 * (n + 1)) = 2 ^ 32 * 2 ^ (32 * n) := by
  rw [Nat.mul_succ, Nat.pow_add, Nat.mul_comm]

theorem val_lt (xs : List UInt32) : val xs < 2 ^ (32 * xs.length) := by
  induction xs with
  | nil => simp
  | cons x xs ih =>
    have := x.toNat_lt
    calc x.toNat + 2 ^ 32 * val xs < 2 ^ 32 * (val xs + 1) := by rw [Nat.mul_succ]; omega
      _ ≤ 2 ^ 32 * 2 ^ (32 * xs.length) := Nat.mul_le_mul_left _ ih
      _ = 2 ^ (32 * (x :: xs).length) := (pow_succ_words xs.length).symm

theorem val_append (xs ys : List UInt32) : val (xs ++ ys) = val xs + 2 ^ (32 * xs.length) * val ys := by
  induction xs with
  | nil => simp
  | cons x xs ih =>
    rw [List.cons_append, val_cons, val_cons, ih, List.length_cons, pow_succ_words, Nat.mul_add,
      Nat.mul_assoc, Nat.add_assoc]

@[simp] theorem val_replicate_zero (n : Nat) : val (List.replicate n 0) = 0 := by
  induction n with
  | zero => rfl
  | succ n ih => simp [List.replicate_succ, ih]

/-- Splitting a remainder at the lowest word: the low word of `n` stays, the high part moves
up to the next word. -/
theorem add_mul_mod_words (n rest m : Nat) :
    (n + 2 ^ 32 * rest) % 2 ^ (32 * (m + 1)) = n % 2 ^ 32 + 2 ^ 32 * ((n / 2 ^ 32 + rest) % 2 ^ (32 * m)) := by
  rw [pow_succ_words, Nat.mod_mul, Nat.add_mul_mod_self_left, Nat.add_mul_div_left _ _ (by decide)]

/-- The first `k` words are the value modulo `2 ^ (32 * k)`. -/
theorem val_take (xs : List UInt32) (k : Nat) : val (xs.take k) = val xs % 2 ^ (32 * k) := by
  induction xs generalizing k with
  | nil => simp
  | cons x xs ih =>
    cases k with
    | zero => simp [Nat.mod_one]
    | succ k =>
      have := x.toNat_lt
      rw [List.take_succ_cons, val_cons, val_cons, ih, add_mul_mod_words, Nat.mod_eq_of_lt this,
        Nat.div_eq_of_lt this, Nat.zero_add]

/-- Bit `p` of the value is bit `p % 32` of word `p / 32`. -/
theorem testBit_val (xs : List UInt32) (p : Nat) : (val xs).testBit p = (xs.getD (p / 32) 0).toNat.testBit (p % 32) := by
  induction xs generalizing p with
  | nil => simp
  | cons x xs ih =>
    rw [val_cons, Nat.add_comm, Nat.testBit_two_pow_mul_add _ x.toNat_lt]
    by_cases low : p < 32
    · rw [if_pos low, Nat.div_eq_of_lt low, Nat.mod_eq_of_lt low]
      rfl
    · rw [if_neg low, ih]
      obtain ⟨q, rfl⟩ : ∃ q, p = q + 32 := ⟨p - 32, by omega⟩
      rw [Nat.add_sub_cancel, Nat.add_div_right _ (by decide), Nat.add_mod_right]
      rfl

/-- The complement of each word is the complement of the value. -/
theorem val_map_not (xs : List UInt32) : val (xs.map (~~~ ·)) + val xs + 1 = 2 ^ (32 * xs.length) := by
  induction xs with
  | nil => rfl
  | cons x xs ih =>
    have := x.toNat_lt
    have word : (~~~x).toNat + x.toNat + 1 = 2 ^ 32 := by
      rw [UInt32.toNat_not, UInt32.size]
      omega
    rw [List.map_cons, val_cons, val_cons, List.length_cons, pow_succ_words, ← ih]
    calc (~~~x).toNat + 2 ^ 32 * val (xs.map (~~~ ·)) + (x.toNat + 2 ^ 32 * val xs) + 1
        = ((~~~x).toNat + x.toNat + 1) + 2 ^ 32 * (val (xs.map (~~~ ·)) + val xs) := by omega
      _ = 2 ^ 32 * (val (xs.map (~~~ ·)) + val xs + 1) := by rw [word]; omega

/-- Put in front of the more significant end, a word counts `2 ^ 32` per word after it. -/
theorem val_reverse_cons (x : UInt32) (xs : List UInt32) :
    val (x :: xs).reverse = val xs.reverse + 2 ^ (32 * xs.length) * x.toNat := by
  rw [List.reverse_cons, val_append, List.length_reverse, val_cons, val_nil, Nat.mul_zero, Nat.add_zero]

/-- A word above `k` bits of less significant ones decides the bit length. -/
theorem size_add_two_pow_mul {low x k : Nat} (small : low < 2 ^ k) (pos : 0 < x) :
    Nat.size (low + 2 ^ k * x) = k + Nat.size x := by
  apply Nat.le_antisymm
  · rw [Nat.size_le]
    have : x < 2 ^ Nat.size x := Nat.lt_size_self x
    calc low + 2 ^ k * x < 2 ^ k * (x + 1) := by rw [Nat.mul_succ]; omega
      _ ≤ 2 ^ k * 2 ^ Nat.size x := Nat.mul_le_mul_left _ this
      _ = 2 ^ (k + Nat.size x) := (Nat.pow_add 2 k _).symm
  · have top : 2 ^ (Nat.size x - 1) ≤ x := Nat.lt_size.mp (by have := Nat.size_pos.mpr pos; omega)
    have : k + Nat.size x - 1 < Nat.size (low + 2 ^ k * x) := by
      rw [Nat.lt_size]
      calc 2 ^ (k + Nat.size x - 1) = 2 ^ k * 2 ^ (Nat.size x - 1) := by
            rw [← Nat.pow_add]
            congr 1
            have := Nat.size_pos.mpr pos
            omega
        _ ≤ 2 ^ k * x := Nat.mul_le_mul_left _ top
        _ ≤ low + 2 ^ k * x := Nat.le_add_left _ _
    omega

/-- A larger most significant word makes the larger number, whatever the words below it. -/
theorem add_mul_lt_add_mul {X Y M x y : Nat} (low : X < M) (lt : x < y) : X + M * x < Y + M * y :=
  calc X + M * x < M * (x + 1) := by rw [Nat.mul_succ]; omega
    _ ≤ M * y := Nat.mul_le_mul_left _ lt
    _ ≤ Y + M * y := Nat.le_add_left _ _

/-- Whether bit `n` of a word is set, as `x & (1 << n)`. -/
theorem and_one_shiftLeft_ne_zero (x : UInt32) {n : Nat} (lt : n < 32) :
    x &&& (1 <<< n.toUInt32) ≠ 0 ↔ x.toNat.testBit n = true := by
  have bit : ((1 : UInt32) <<< n.toUInt32).toNat = 2 ^ n := by
    rw [UInt32.toNat_shiftLeft, UInt32.toNat_one, Nat.toUInt32, UInt32.toNat_ofNat',
      Nat.mod_eq_of_lt (by omega : n < 2 ^ 32), Nat.mod_eq_of_lt lt, Nat.one_shiftLeft,
      Nat.mod_eq_of_lt (Nat.pow_lt_pow_right (by decide) lt)]
  rw [ne_eq, ← UInt32.toNat_inj, UInt32.toNat_and, bit, Nat.and_two_pow, UInt32.toNat_zero]
  cases x.toNat.testBit n <;> simp

/-- Below `2 ^ (n + 1)`, a number whose bit `n` is clear is below `2 ^ n`. -/
theorem lt_two_pow_of_testBit_false {x n : Nat} (lt : x < 2 ^ (n + 1)) (clear : x.testBit n = false) :
    x < 2 ^ n := by
  apply Nat.lt_pow_two_of_testBit x
  intro i le
  by_cases at_n : i = n
  · rw [at_n]
    exact clear
  · exact Nat.testBit_eq_false_of_lt
      (Nat.lt_of_lt_of_le lt (Nat.pow_le_pow_right (by decide) (by omega)))

/-- Bit `t` of a word shifted up by `r < 32`. -/
theorem testBit_shiftLeft_word (x : UInt32) {r t : Nat} (hr : r < 32) (ht : t < 32) :
    (x <<< r.toUInt32).toNat.testBit t = (decide (r ≤ t) && x.toNat.testBit (t - r)) := by
  rw [UInt32.toNat_shiftLeft, Nat.toUInt32, UInt32.toNat_ofNat', Nat.mod_eq_of_lt (by omega : r < 2 ^ 32),
    Nat.mod_eq_of_lt hr, Nat.testBit_mod_two_pow, Nat.testBit_shiftLeft]
  simp [ht]

/-- Bit `t` of a word shifted down by `r < 32`. -/
theorem testBit_shiftRight_word (x : UInt32) {r : Nat} (hr : r < 32) (t : Nat) :
    (x >>> r.toUInt32).toNat.testBit t = x.toNat.testBit (r + t) := by
  rw [UInt32.toNat_shiftRight, Nat.toUInt32, UInt32.toNat_ofNat', Nat.mod_eq_of_lt (by omega : r < 2 ^ 32),
    Nat.mod_eq_of_lt hr, Nat.testBit_shiftRight]

/-- No bit of a word is set from bit `32` on. -/
theorem testBit_word_of_le (x : UInt32) {t : Nat} (le : 32 ≤ t) : x.toNat.testBit t = false :=
  Nat.testBit_eq_false_of_lt (Nat.lt_of_lt_of_le x.toNat_lt (Nat.pow_le_pow_right (by decide) le))

/-- Word `j` after `modify n f`. -/
theorem getD_modify {α : Type} (l : List α) (n j : Nat) (f : α → α) (d : α) :
    (l.modify n f).getD j d = if n = j ∧ j < l.length then f (l.getD j d) else l.getD j d := by
  rw [List.getD_eq_getElem?_getD, List.getElem?_modify, List.getD_eq_getElem?_getD]
  by_cases inside : j < l.length
  · rw [List.getElem?_eq_getElem inside]
    by_cases here : n = j <;> simp [here, inside]
  · rw [List.getElem?_eq_none (Nat.le_of_not_lt inside)]
    simp [inside]

/-- A loop whose every round keeps the number of words keeps it. -/
theorem length_foldl {α β : Type} {f : List α → β → List α} (keeps : ∀ l b, (f l b).length = l.length)
    (bs : List β) (l : List α) : (bs.foldl f l).length = l.length := by
  induction bs generalizing l with
  | nil => rfl
  | cons b bs ih => rw [List.foldl_cons, ih, keeps]

/-- A loop over the inputs, one word each, least significant first: `n` is computed in 64
bits from the carry and the input, the word `n & 0xffffffff` is kept and `n >> 32` carried.
The last carry is dropped. -/
def carryLoop {α : Type} (step : UInt64 → α → UInt64) : UInt64 → List α → List UInt32
  | _, [] => []
  | carry, x :: xs =>
    let n := step carry x
    (n &&& 0xffffffff).toUInt32 :: carryLoop step (n >>> 32) xs

/-- What a loop adds to its carry: `g` of each input at the place of its word. -/
def weighted {α : Type} (g : α → Nat) : List α → Nat
  | [] => 0
  | x :: xs => g x + 2 ^ 32 * weighted g xs

@[simp] theorem length_carryLoop {α : Type} (step : UInt64 → α → UInt64) (carry : UInt64) (xs : List α) :
    (carryLoop step carry xs).length = xs.length := by
  induction xs generalizing carry with
  | nil => rfl
  | cons x xs ih => simp [carryLoop, ih]

/-- The low word and the carry of a 64-bit `n`. -/
theorem toNat_low_word (n : UInt64) : (n &&& 0xffffffff).toUInt32.toNat = n.toNat % 2 ^ 32 := by
  rw [UInt64.toNat_toUInt32, UInt64.toNat_and]
  simp only [UInt64.reduceToNat]
  rw [show (4294967295 : Nat) = 2 ^ 32 - 1 by rfl, Nat.and_two_pow_sub_one_eq_mod, Nat.mod_mod]

theorem toNat_high_word (n : UInt64) : (n >>> 32).toNat = n.toNat / 2 ^ 32 := by
  rw [UInt64.toNat_shiftRight, Nat.shiftRight_eq_div_pow]
  rfl

/-- A carry loop whose every step adds `g` of its input to the carry without overflow keeps
the sum of the carry and the weighted inputs, modulo the words it writes. -/
theorem val_carryLoop {α : Type} {step : UInt64 → α → UInt64} {g : α → Nat}
    (exact : ∀ carry x, carry.toNat < 2 ^ 32 → (step carry x).toNat = carry.toNat + g x) :
    ∀ (carry : UInt64) (xs : List α), carry.toNat < 2 ^ 32 →
      val (carryLoop step carry xs) = (carry.toNat + weighted g xs) % 2 ^ (32 * xs.length)
  | _, [], _ => by simp [carryLoop, Nat.mod_one]
  | carry, x :: xs, small => by
    have n_eq := exact carry x small
    have high : (step carry x >>> 32).toNat < 2 ^ 32 := by
      rw [toNat_high_word]
      have := (step carry x).toNat_lt
      omega
    rw [carryLoop, val_cons, val_carryLoop exact _ xs high, toNat_low_word, toNat_high_word, n_eq,
      weighted, List.length_cons, ← Nat.add_assoc, add_mul_mod_words]

end Words
