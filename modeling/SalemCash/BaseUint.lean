import Mathlib.Data.Nat.Bitwise
import SalemCash.ArithUint256
import SalemCash.Words

/-!
# `base_uint` in 32-bit words

`base_uint<BITS>` of `arith_uint256.h` keeps its number in `WIDTH = BITS / 32` words `pn`,
least significant first, and each operator is a loop over them: carry loops for `+=`, for
`*=(uint32_t)` and for the rows of the schoolbook `*=`, which stops at `WIDTH` words; `~` and
`++` for `-`; loops that OR each word into one or two places for the shifts; a comparison from
the most significant word; and `bits()` from the highest non-zero word. This module models the
loops as the source writes them and proves that each computes the operation on numbers modulo
`2 ^ (32 * WIDTH)`, which is the operation `ArithUint256` models it by on `BitVec`: the words
refine the vector. `operator/=` then has its quotient from `base_uint.div_eq`.

Where the source shifts the `int` `1` by `31`, the bit it sets is taken to be bit `31` of the
word, as compilers make it.
-/
namespace SalemCash

namespace Limbs

open Words

/-- The loop of prefix `operator++`: add one to a word, and go on to the next while it wraps
to `0`. -/
def incLoop : List UInt32 → List UInt32
  | [] => []
  | x :: xs =>
    let x := x + 1
    if x = 0 then x :: incLoop xs else x :: xs

/-- The loop of prefix `operator--`: subtract one from a word, and go on to the next while it
wraps to `0xffffffff`. -/
def decLoop : List UInt32 → List UInt32
  | [] => []
  | x :: xs =>
    let x := x - 1
    if x = 0xffffffff then x :: decLoop xs else x :: xs

/-- Row `j` of `operator*=`: `a.pn[j]` times the words of `b`, added into the words of the
product from `j` on, as many of them as are left. -/
def mulRow (x : UInt32) (acc b : List UInt32) : List UInt32 :=
  carryLoop (fun carry (p, y) => carry + p.toUInt64 + x.toUInt64 * y.toUInt64) 0 (acc.zip b)

/-- The rows of `operator*=` from row `j` on, `acc` the words of the product from `j` on:
after its row, word `j` is not written again. -/
def mulRows (b : List UInt32) : List UInt32 → List UInt32 → List UInt32
  | [], acc => acc
  | x :: xs, acc =>
    match mulRow x acc b with
    | [] => []
    | low :: high => low :: mulRows b xs high

/-- The loop of `CompareTo`, from the most significant word. -/
def compareLoop : List UInt32 → List UInt32 → Int
  | x :: xs, y :: ys => if x < y then -1 else if x > y then 1 else compareLoop xs ys
  | _, _ => 0

/-- The inner loop of `bits()` on a non-zero word: the first `nbits` from the top down to `1`
whose bit is set, plus one, and `1` if there is none. -/
def wordBits (x : UInt32) : Nat → Nat
  | 0 => 1
  | nbits + 1 => if x &&& (1 <<< (nbits + 1).toUInt32) ≠ 0 then nbits + 2 else wordBits x nbits

/-- The outer loop of `bits()`, from the most significant word, `xs.length` the position of
the word after `x`. -/
def bitsLoop : List UInt32 → Nat
  | [] => 0
  | x :: xs => if x ≠ 0 then 32 * xs.length + wordBits x 31 else bitsLoop xs

/-- Round `i` of the loop of `operator<<=`: word `i` of the old value `a`, moved `k` words
and `shift` bits up, ORed into the one or two words it reaches. -/
def shiftLeftRound (WIDTH k shift : Nat) (a pn : List UInt32) (i : Nat) : List UInt32 :=
  let pn := if i + k + 1 < WIDTH ∧ shift ≠ 0 then pn.modify (i + k + 1) (· ||| a.getD i 0 >>> (32 - shift).toUInt32)
    else pn
  if i + k < WIDTH then pn.modify (i + k) (· ||| a.getD i 0 <<< shift.toUInt32) else pn

/-- Round `i` of the loop of `operator>>=`: word `i` of the old value `a`, moved `k` words
and `shift` bits down, ORed into the one or two words it reaches. -/
def shiftRightRound (k shift : Nat) (a pn : List UInt32) (i : Nat) : List UInt32 :=
  let pn := if k + 1 ≤ i ∧ shift ≠ 0 then pn.modify (i - k - 1) (· ||| a.getD i 0 <<< (32 - shift).toUInt32)
    else pn
  if k ≤ i then pn.modify (i - k) (· ||| a.getD i 0 >>> shift.toUInt32) else pn

theorem length_shiftLeftRound (WIDTH k shift : Nat) (a pn : List UInt32) (i : Nat) :
    (shiftLeftRound WIDTH k shift a pn i).length = pn.length := by
  simp only [shiftLeftRound]
  split_ifs <;> simp

theorem length_shiftRightRound (k shift : Nat) (a pn : List UInt32) (i : Nat) :
    (shiftRightRound k shift a pn i).length = pn.length := by
  simp only [shiftRightRound]
  split_ifs <;> simp

@[simp] theorem length_incLoop (xs : List UInt32) : (incLoop xs).length = xs.length := by
  induction xs with
  | nil => rfl
  | cons x xs ih =>
    simp only [incLoop]
    split <;> simp [ih]

@[simp] theorem length_decLoop (xs : List UInt32) : (decLoop xs).length = xs.length := by
  induction xs with
  | nil => rfl
  | cons x xs ih =>
    simp only [decLoop]
    split <;> simp [ih]

theorem length_mulRow (x : UInt32) (acc b : List UInt32) (short : acc.length ≤ b.length) :
    (mulRow x acc b).length = acc.length := by
  simp [mulRow, short]

theorem length_mulRows (b : List UInt32) :
    ∀ (xs acc : List UInt32), acc.length ≤ b.length → (mulRows b xs acc).length = acc.length
  | [], _, _ => rfl
  | x :: xs, acc, short => by
    have row := length_mulRow x acc b short
    rw [mulRows]
    split
    · next empty => rw [empty] at row; exact row
    · next low high split =>
      rw [split, List.length_cons] at row
      rw [List.length_cons, length_mulRows b xs high (by omega), row]

/-- `base_uint<BITS>`: its `WIDTH` words `pn`, least significant first. -/
structure base_uint (WIDTH : Nat) where
  pn : List UInt32
  length : pn.length = WIDTH

namespace base_uint

variable {WIDTH : Nat}

/-- The number the words stand for. -/
def toNat (a : base_uint WIDTH) : Nat := val a.pn

/-- `base_uint()`: every word zero. -/
def zero : base_uint WIDTH := ⟨List.replicate WIDTH 0, List.length_replicate⟩

/-- `operator+=`. -/
def add (a b : base_uint WIDTH) : base_uint WIDTH where
  pn := carryLoop (fun carry (x, y) => carry + x.toUInt64 + y.toUInt64) 0 (a.pn.zip b.pn)
  length := by simp [a.length, b.length]

/-- `operator~`. -/
def complement (a : base_uint WIDTH) : base_uint WIDTH := ⟨a.pn.map (~~~ ·), by simp [a.length]⟩

/-- Prefix `operator++`. -/
def inc (a : base_uint WIDTH) : base_uint WIDTH := ⟨incLoop a.pn, by simp [a.length]⟩

/-- Prefix `operator--`. -/
def dec (a : base_uint WIDTH) : base_uint WIDTH := ⟨decLoop a.pn, by simp [a.length]⟩

/-- `operator-()`: the complement, plus one. -/
def neg (a : base_uint WIDTH) : base_uint WIDTH := a.complement.inc

/-- `operator-=`: `*this += -b`. -/
def sub (a b : base_uint WIDTH) : base_uint WIDTH := a.add b.neg

/-- `operator*=(uint32_t)`. -/
def mulUInt32 (a : base_uint WIDTH) (b32 : UInt32) : base_uint WIDTH where
  pn := carryLoop (fun carry x => carry + b32.toUInt64 * x.toUInt64) 0 a.pn
  length := by simp [a.length]

/-- `operator*=`: the product starts at zero and takes the rows of `a.pn[j]` times `b`. -/
def mul (a b : base_uint WIDTH) : base_uint WIDTH where
  pn := mulRows b.pn a.pn (List.replicate WIDTH 0)
  length := by rw [length_mulRows _ _ _ (by simp [b.length]), List.length_replicate]

/-- `CompareTo`: `-1`, `0` or `1`. -/
def CompareTo (a b : base_uint WIDTH) : Int := compareLoop a.pn.reverse b.pn.reverse

/-- `bits()`: the position of the highest set bit plus one, or zero if the value is zero. -/
def bits (a : base_uint WIDTH) : Nat := bitsLoop a.pn.reverse

/-- `operator<<=`: every word cleared, then each word of the old value ORed into place. The
shift is `shift / 32` words and `shift % 32` bits. -/
def shiftLeft (a : base_uint WIDTH) (shift : Nat) : base_uint WIDTH where
  pn := (List.range WIDTH).foldl (shiftLeftRound WIDTH (shift / 32) (shift % 32) a.pn) (List.replicate WIDTH 0)
  length := by rw [length_foldl (length_shiftLeftRound _ _ _ _), List.length_replicate]

/-- `operator>>=`. -/
def shiftRight (a : base_uint WIDTH) (shift : Nat) : base_uint WIDTH where
  pn := (List.range WIDTH).foldl (shiftRightRound (shift / 32) (shift % 32) a.pn) (List.replicate WIDTH 0)
  length := by rw [length_foldl (length_shiftRightRound _ _ _), List.length_replicate]

/-- `pn[shift / 32] |= (1 << (shift & 31))` of `operator/=`: set a bit of the result. -/
def setBit (q : base_uint WIDTH) (shift : Nat) : base_uint WIDTH :=
  ⟨q.pn.modify (shift / 32) (· ||| 1 <<< (shift &&& 31).toUInt32), by simp [q.length]⟩

/-- The body of the loop of `operator/=` at position `shift`: the remainder and the
quotient after it. -/
def divRound (num div quot : base_uint WIDTH) (shift : Nat) : base_uint WIDTH × base_uint WIDTH :=
  if num.CompareTo div ≥ 0 then (num.sub div, quot.setBit shift) else (num, quot)

/-- The loop of `operator/=`, from `shift` down to `0`, shifting `div` back after each round;
the quotient. -/
def divLoop (num div quot : base_uint WIDTH) : Nat → base_uint WIDTH
  | 0 => (divRound num div quot 0).2
  | shift + 1 =>
    let r := divRound num div quot (shift + 1)
    divLoop r.1 (div.shiftRight 1) r.2 shift

/-- `operator/=`. -/
def div (a b : base_uint WIDTH) : Except uint_error (base_uint WIDTH) :=
  let num_bits := a.bits
  let div_bits := b.bits
  if div_bits = 0 then .error ⟨"Division by zero"⟩
  -- the result is certainly 0.
  else if div_bits > num_bits then .ok zero
  else
    let shift := num_bits - div_bits
    -- shift so that div and num align.
    .ok (divLoop a (b.shiftLeft shift) zero shift)

theorem toNat_lt (a : base_uint WIDTH) : a.toNat < 2 ^ (32 * WIDTH) := by
  have := val_lt a.pn
  rw [a.length] at this
  exact this

@[simp] theorem toNat_zero : (zero : base_uint WIDTH).toNat = 0 := val_replicate_zero WIDTH

/-- The carry of a word sum is at most one word, so `carry + x + y` does not overflow. -/
theorem toNat_add_step (carry : UInt64) (x y : UInt32) (small : carry.toNat < 2 ^ 32) :
    (carry + x.toUInt64 + y.toUInt64).toNat = carry.toNat + (x.toNat + y.toNat) := by
  have := x.toNat_lt
  have := y.toNat_lt
  simp only [UInt64.toNat_add, UInt32.toNat_toUInt64]
  omega

theorem weighted_add (xs ys : List UInt32) (same : xs.length = ys.length) :
    weighted (fun p : UInt32 × UInt32 => p.1.toNat + p.2.toNat) (xs.zip ys) = val xs + val ys := by
  induction xs generalizing ys with
  | nil =>
    cases ys with
    | nil => rfl
    | cons y ys => cases same
  | cons x xs ih =>
    cases ys with
    | nil => cases same
    | cons y ys =>
      rw [List.zip_cons_cons, weighted, ih ys (by simpa using same), val_cons, val_cons]
      dsimp only
      omega

theorem toNat_add (a b : base_uint WIDTH) : (a.add b).toNat = (a.toNat + b.toNat) % 2 ^ (32 * WIDTH) := by
  have loop := val_carryLoop (g := fun p : UInt32 × UInt32 => p.1.toNat + p.2.toNat)
    (fun carry p small => toNat_add_step carry p.1 p.2 small) 0 (a.pn.zip b.pn) (by decide)
  rw [weighted_add a.pn b.pn (by rw [a.length, b.length])] at loop
  simp only [List.length_zip, a.length, b.length, Nat.min_self, UInt64.reduceToNat, Nat.zero_add] at loop
  exact loop

theorem val_incLoop (xs : List UInt32) : val (incLoop xs) = (val xs + 1) % 2 ^ (32 * xs.length) := by
  induction xs with
  | nil => simp [incLoop]
  | cons x xs ih =>
    have := x.toNat_lt
    simp only [incLoop]
    by_cases wraps : x + 1 = 0
    · have top : x.toNat = 2 ^ 32 - 1 := by
        have := congrArg UInt32.toNat wraps
        rw [UInt32.toNat_add, UInt32.toNat_one] at this
        simp at this
        omega
      rw [if_pos wraps, val_cons, val_cons, wraps, ih, List.length_cons, pow_succ_words, top,
        UInt32.toNat_zero]
      rw [show 2 ^ 32 - 1 + 2 ^ 32 * val xs + 1 = 2 ^ 32 * (val xs + 1) by omega, Nat.mul_mod_mul_left,
        Nat.zero_add]
    · have below : x.toNat + 1 < 2 ^ 32 := by
        have : x.toNat ≠ 2 ^ 32 - 1 := fun top => wraps (by
          apply UInt32.toNat_inj.mp
          rw [UInt32.toNat_add, UInt32.toNat_one, top]
          rfl)
        omega
      have step : (x + 1).toNat = x.toNat + 1 := by
        rw [UInt32.toNat_add, UInt32.toNat_one, Nat.mod_eq_of_lt below]
      rw [if_neg wraps, val_cons, val_cons, step]
      have := val_lt (x :: xs)
      rw [val_cons, List.length_cons] at this
      rw [Nat.mod_eq_of_lt (by rw [List.length_cons, pow_succ_words] at *; omega)]
      omega

theorem val_decLoop (xs : List UInt32) :
    val (decLoop xs) = (val xs + (2 ^ (32 * xs.length) - 1)) % 2 ^ (32 * xs.length) := by
  induction xs with
  | nil => simp [decLoop, Nat.mod_one]
  | cons x xs ih =>
    have := x.toNat_lt
    have whole := val_lt xs
    simp only [decLoop]
    by_cases wraps : x - 1 = 0xffffffff
    · have zero : x.toNat = 0 := by
        have := congrArg UInt32.toNat wraps
        rw [UInt32.toNat_sub, UInt32.toNat_one] at this
        simp at this
        omega
      rw [if_pos wraps, val_cons, val_cons, wraps, ih, List.length_cons, zero, Nat.zero_add,
        show 2 ^ 32 * val xs + (2 ^ (32 * (xs.length + 1)) - 1) =
          (2 ^ 32 - 1) + 2 ^ 32 * (val xs + (2 ^ (32 * xs.length) - 1)) by
            rw [pow_succ_words]
            have := Nat.one_le_two_pow (n := 32 * xs.length)
            rw [Nat.mul_add, Nat.mul_sub, Nat.mul_one]
            omega,
        add_mul_mod_words, Nat.div_eq_of_lt (by decide : 2 ^ 32 - 1 < 2 ^ 32),
        Nat.mod_eq_of_lt (by decide : 2 ^ 32 - 1 < 2 ^ 32), Nat.zero_add]
      rfl
    · have pos : 1 ≤ x.toNat := by
        have : x.toNat ≠ 0 := fun zero => wraps (by
          apply UInt32.toNat_inj.mp
          rw [UInt32.toNat_sub, UInt32.toNat_one, zero]
          rfl)
        omega
      have step : (x - 1).toNat = x.toNat - 1 := by
        rw [UInt32.toNat_sub, UInt32.toNat_one]
        omega
      rw [if_neg wraps, val_cons, val_cons, step, List.length_cons, pow_succ_words]
      have below : x.toNat - 1 + 2 ^ 32 * val xs < 2 ^ 32 * 2 ^ (32 * xs.length) := by
        calc x.toNat - 1 + 2 ^ 32 * val xs < 2 ^ 32 * (val xs + 1) := by rw [Nat.mul_succ]; omega
          _ ≤ 2 ^ 32 * 2 ^ (32 * xs.length) := Nat.mul_le_mul_left _ whole
      rw [show x.toNat + 2 ^ 32 * val xs + (2 ^ 32 * 2 ^ (32 * xs.length) - 1) =
          (x.toNat - 1 + 2 ^ 32 * val xs) + 2 ^ 32 * 2 ^ (32 * xs.length) by omega,
        Nat.add_mod_right, Nat.mod_eq_of_lt below]

theorem toNat_inc (a : base_uint WIDTH) : a.inc.toNat = (a.toNat + 1) % 2 ^ (32 * WIDTH) := by
  rw [inc, toNat, val_incLoop, a.length]
  rfl

theorem toNat_dec (a : base_uint WIDTH) : a.dec.toNat = (a.toNat + (2 ^ (32 * WIDTH) - 1)) % 2 ^ (32 * WIDTH) := by
  rw [dec, toNat, val_decLoop, a.length]
  rfl

theorem toNat_complement (a : base_uint WIDTH) : a.complement.toNat + a.toNat + 1 = 2 ^ (32 * WIDTH) := by
  have := val_map_not a.pn
  rw [a.length] at this
  exact this

/-- `-b` is `2 ^ (32 * WIDTH) - b`, and `0` for `0`. -/
theorem toNat_neg (b : base_uint WIDTH) : b.neg.toNat = (2 ^ (32 * WIDTH) - b.toNat) % 2 ^ (32 * WIDTH) := by
  have complement := toNat_complement b
  rw [neg, toNat_inc, show b.complement.toNat + 1 = 2 ^ (32 * WIDTH) - b.toNat by omega]

theorem toNat_sub (a b : base_uint WIDTH) :
    (a.sub b).toNat = (a.toNat + (2 ^ (32 * WIDTH) - b.toNat)) % 2 ^ (32 * WIDTH) := by
  rw [sub, toNat_add, toNat_neg, Nat.add_mod_mod]

/-- A word product fits in 64 bits with room for a word and a carry. -/
theorem word_mul_le (x y : UInt32) : x.toNat * y.toNat ≤ (2 ^ 32 - 1) * (2 ^ 32 - 1) := by
  have := x.toNat_lt
  have := y.toNat_lt
  exact Nat.mul_le_mul (by omega) (by omega)

theorem toNat_mulUInt32_step (b32 : UInt32) (carry : UInt64) (x : UInt32) (small : carry.toNat < 2 ^ 32) :
    (carry + b32.toUInt64 * x.toUInt64).toNat = carry.toNat + b32.toNat * x.toNat := by
  have := word_mul_le b32 x
  simp only [UInt64.toNat_add, UInt64.toNat_mul, UInt32.toNat_toUInt64]
  rw [Nat.mod_eq_of_lt (by omega : b32.toNat * x.toNat < 2 ^ 64)]
  omega

theorem weighted_mul (b32 : Nat) (xs : List UInt32) :
    weighted (fun x : UInt32 => b32 * x.toNat) xs = b32 * val xs := by
  induction xs with
  | nil => rfl
  | cons x xs ih => rw [weighted, ih, val_cons, Nat.mul_add, Nat.mul_left_comm]

theorem toNat_mulUInt32 (a : base_uint WIDTH) (b32 : UInt32) :
    (a.mulUInt32 b32).toNat = a.toNat * b32.toNat % 2 ^ (32 * WIDTH) := by
  have loop := val_carryLoop (g := fun x : UInt32 => b32.toNat * x.toNat)
    (toNat_mulUInt32_step b32) 0 a.pn (by decide)
  rw [weighted_mul, a.length] at loop
  simp only [UInt64.reduceToNat, Nat.zero_add] at loop
  rw [Nat.mul_comm]
  exact loop

theorem toNat_mulRow_step (x : UInt32) (carry : UInt64) (p y : UInt32) (small : carry.toNat < 2 ^ 32) :
    (carry + p.toUInt64 + x.toUInt64 * y.toUInt64).toNat = carry.toNat + (p.toNat + x.toNat * y.toNat) := by
  have := word_mul_le x y
  have := p.toNat_lt
  simp only [UInt64.toNat_add, UInt64.toNat_mul, UInt32.toNat_toUInt64]
  rw [Nat.mod_eq_of_lt (by omega : x.toNat * y.toNat < 2 ^ 64)]
  omega

theorem weighted_mulRow (x : Nat) :
    ∀ (acc b : List UInt32), acc.length ≤ b.length →
      weighted (fun q : UInt32 × UInt32 => q.1.toNat + x * q.2.toNat) (acc.zip b) =
        val acc + x * val (b.take acc.length)
  | [], _, _ => by simp [weighted]
  | _ :: _, [], short => by cases short
  | p :: ps, y :: ys, short => by
    rw [List.zip_cons_cons, weighted, weighted_mulRow x ps ys (by simpa using short), List.length_cons,
      List.take_succ_cons, val_cons, val_cons]
    dsimp only
    rw [Nat.mul_add (2 ^ 32), Nat.mul_add x, Nat.mul_left_comm x]
    omega

/-- A row adds `x` times the words of `b` it reaches. -/
theorem val_mulRow (x : UInt32) (acc b : List UInt32) (short : acc.length ≤ b.length) :
    val (mulRow x acc b) = (val acc + x.toNat * val b) % 2 ^ (32 * acc.length) := by
  have loop := val_carryLoop (g := fun q : UInt32 × UInt32 => q.1.toNat + x.toNat * q.2.toNat)
    (fun carry q small => toNat_mulRow_step x carry q.1 q.2 small) 0 (acc.zip b) (by decide)
  rw [weighted_mulRow x.toNat acc b short, List.length_zip, Nat.min_eq_left short, val_take] at loop
  simp only [UInt64.reduceToNat, Nat.zero_add] at loop
  rw [mulRow, loop]
  rw [Nat.add_mod, Nat.mul_mod, Nat.mod_mod, ← Nat.mul_mod, ← Nat.add_mod]

/-- The rows from `j` on add the words of `a` from `j` on times `b`. The induction is on the
rows; after each, its lowest word is final and the rest go to the next row. -/
theorem val_mulRows (b : List UInt32) :
    ∀ (xs acc : List UInt32), xs.length = acc.length → acc.length ≤ b.length →
      val (mulRows b xs acc) = (val acc + val xs * val b) % 2 ^ (32 * acc.length)
  | [], acc, same, _ => by
    rw [List.eq_nil_of_length_eq_zero same.symm]
    simp [mulRows, Nat.mod_one]
  | x :: xs, acc, same, short => by
    have row := val_mulRow x acc b short
    have rowLength := length_mulRow x acc b short
    rw [mulRows]
    split
    · next empty =>
      rw [empty, List.length_nil] at rowLength
      rw [List.length_cons] at same
      omega
    · next low high split =>
      rw [split, List.length_cons] at rowLength
      rw [split, val_cons] at row
      have low_lt := low.toNat_lt
      rw [val_cons, val_mulRows b xs high (by rw [List.length_cons] at same; omega) (by omega)]
      calc low.toNat + 2 ^ 32 * ((val high + val xs * val b) % 2 ^ (32 * high.length))
          = (low.toNat + 2 ^ 32 * val high + 2 ^ 32 * (val xs * val b)) % 2 ^ (32 * acc.length) := by
            rw [← rowLength, Nat.add_assoc, ← Nat.mul_add, add_mul_mod_words, Nat.mod_eq_of_lt low_lt,
              Nat.div_eq_of_lt low_lt, Nat.zero_add]
        _ = ((val acc + x.toNat * val b) % 2 ^ (32 * acc.length) + 2 ^ 32 * (val xs * val b)) %
              2 ^ (32 * acc.length) := by rw [row]
        _ = (val acc + val (x :: xs) * val b) % 2 ^ (32 * acc.length) := by
            rw [Nat.mod_add_mod, val_cons, Nat.add_mul, Nat.mul_assoc]
            congr 1
            omega

theorem toNat_mul (a b : base_uint WIDTH) : (a.mul b).toNat = a.toNat * b.toNat % 2 ^ (32 * WIDTH) := by
  have rows := val_mulRows b.pn a.pn (List.replicate WIDTH 0) (by simp [a.length]) (by simp [b.length])
  rw [val_replicate_zero, Nat.zero_add, List.length_replicate] at rows
  exact rows

/-- `compareLoop` compares the numbers of two lists of words as long as each other, most
significant word first. -/
theorem compareLoop_eq :
    ∀ (xs ys : List UInt32), xs.length = ys.length →
      compareLoop xs ys =
        if val xs.reverse < val ys.reverse then -1 else if val xs.reverse = val ys.reverse then 0 else 1
  | [], [], _ => rfl
  | [], _ :: _, same => by cases same
  | _ :: _, [], same => by cases same
  | x :: xs, y :: ys, same => by
    have same' : xs.length = ys.length := by simpa using same
    have low := val_lt xs.reverse
    have low' := val_lt ys.reverse
    rw [List.length_reverse] at low low'
    rw [same'] at low
    rw [compareLoop, compareLoop_eq xs ys same', val_reverse_cons, val_reverse_cons, same']
    by_cases lt : x < y
    · rw [if_pos lt, if_pos (add_mul_lt_add_mul low (UInt32.lt_iff_toNat_lt.mp lt))]
    by_cases gt : x > y
    · have above := add_mul_lt_add_mul (Y := val xs.reverse) low' (UInt32.lt_iff_toNat_lt.mp gt)
      rw [if_neg lt, if_pos gt, if_neg (by omega), if_neg (by omega)]
    have eq : x = y := by
      have : ¬ x.toNat < y.toNat := fun below => lt (UInt32.lt_iff_toNat_lt.mpr below)
      have : ¬ y.toNat < x.toNat := fun above => gt (UInt32.lt_iff_toNat_lt.mpr above)
      apply UInt32.toNat_inj.mp
      omega
    subst eq
    rw [if_neg lt, if_neg gt]
    simp only [Nat.add_lt_add_iff_right, Nat.add_right_cancel_iff]

theorem CompareTo_eq (a b : base_uint WIDTH) :
    a.CompareTo b = if a.toNat < b.toNat then -1 else if a.toNat = b.toNat then 0 else 1 := by
  rw [CompareTo, compareLoop_eq _ _ (by simp [a.length, b.length]), List.reverse_reverse, List.reverse_reverse]
  rfl

/-- The inner loop of `bits()` is the bit length of a non-zero word. The induction is on
`nbits`, the word staying below `2 ^ (nbits + 1)`. -/
theorem wordBits_eq (x : UInt32) (pos : 0 < x.toNat) :
    ∀ nbits, nbits < 32 → x.toNat < 2 ^ (nbits + 1) → wordBits x nbits = Nat.size x.toNat
  | 0, _, lt => by
    have one : x.toNat = 1 := by omega
    rw [wordBits, one]
    rfl
  | nbits + 1, small, lt => by
    rw [wordBits]
    by_cases set : x.toNat.testBit (nbits + 1) = true
    · rw [if_pos ((and_one_shiftLeft_ne_zero x small).mpr set)]
      have above := Nat.ge_two_pow_of_testBit set
      apply Nat.le_antisymm
      · exact Nat.lt_size.mpr above
      · exact Nat.size_le.mpr lt
    · rw [if_neg (fun ne => set ((and_one_shiftLeft_ne_zero x small).mp ne))]
      exact wordBits_eq x pos nbits (by omega) (lt_two_pow_of_testBit_false lt (by simpa using set))

theorem bitsLoop_eq : ∀ xs : List UInt32, bitsLoop xs = Nat.size (val xs.reverse)
  | [] => rfl
  | x :: xs => by
    rw [bitsLoop, val_reverse_cons]
    by_cases zero : x = 0
    · rw [if_neg (not_not.mpr zero), bitsLoop_eq xs, zero, UInt32.toNat_zero, Nat.mul_zero, Nat.add_zero]
    · have pos : 0 < x.toNat := Nat.pos_of_ne_zero fun eq => zero (UInt32.toNat_inj.mp eq)
      have low := val_lt xs.reverse
      rw [List.length_reverse] at low
      rw [if_pos zero, wordBits_eq x pos 31 (by decide) x.toNat_lt, size_add_two_pow_mul low pos]

theorem bits_eq (a : base_uint WIDTH) : a.bits = Nat.size a.toNat := by
  rw [bits, bitsLoop_eq, List.reverse_reverse]
  rfl

/-- What the loop of `operator<<=` has put in word `j` after its rounds below `m`: word
`j - k` of the old value moved `shift` bits up, and the bits that word `j - k - 1` pushes
out of its top. -/
def shiftLeftWord (WIDTH k shift : Nat) (a : List UInt32) (m j : Nat) : UInt32 :=
  if j < WIDTH then
    (if k ≤ j ∧ j - k < m then a.getD (j - k) 0 <<< shift.toUInt32 else 0) |||
      (if shift ≠ 0 ∧ k + 1 ≤ j ∧ j - k - 1 < m then a.getD (j - k - 1) 0 >>> (32 - shift).toUInt32 else 0)
  else 0

theorem getD_shiftLeftRound {WIDTH k shift : Nat} {a pn : List UInt32} (length : pn.length = WIDTH) (i j : Nat) :
    (shiftLeftRound WIDTH k shift a pn i).getD j 0 =
      if j = i + k ∧ j < WIDTH then pn.getD j 0 ||| a.getD i 0 <<< shift.toUInt32
      else if j = i + k + 1 ∧ j < WIDTH ∧ shift ≠ 0 then pn.getD j 0 ||| a.getD i 0 >>> (32 - shift).toUInt32
      else pn.getD j 0 := by
  simp only [shiftLeftRound]
  split_ifs <;> (try simp only [getD_modify, List.length_modify, length]) <;>
    first | rfl | omega | (split_ifs <;> first | rfl | omega)

/-- The rounds below `m` of `operator<<=` leave `shiftLeftWord` in each word. The induction
is on `m`; round `m` adds to words `m + k` and `m + k + 1` only. -/
theorem getD_shiftLeftLoop (WIDTH k shift : Nat) (a : List UInt32) (m j : Nat) :
    ((List.range m).foldl (shiftLeftRound WIDTH k shift a) (List.replicate WIDTH 0)).getD j 0 =
      shiftLeftWord WIDTH k shift a m j := by
  induction m with
  | zero => simp [shiftLeftWord]
  | succ m ih =>
    have length : ((List.range m).foldl (shiftLeftRound WIDTH k shift a) (List.replicate WIDTH 0)).length = WIDTH := by
      rw [length_foldl (length_shiftLeftRound _ _ _ _), List.length_replicate]
    rw [List.range_succ, List.foldl_append, List.foldl_cons, List.foldl_nil, getD_shiftLeftRound length, ih]
    by_cases low : j = m + k ∧ j < WIDTH
    · obtain ⟨rfl, inside⟩ := low
      rw [if_pos ⟨rfl, inside⟩]
      simp only [shiftLeftWord, if_pos inside, Nat.add_sub_cancel, Nat.le_add_left, true_and, Nat.lt_irrefl,
        if_false, Nat.lt_succ_self, if_true, UInt32.zero_or]
      have same : (shift ≠ 0 ∧ k + 1 ≤ m + k ∧ m - 1 < m) ↔ (shift ≠ 0 ∧ k + 1 ≤ m + k ∧ m - 1 < m + 1) := by omega
      simp only [same]
      exact UInt32.or_comm _ _
    rw [if_neg low]
    by_cases high : j = m + k + 1 ∧ j < WIDTH ∧ shift ≠ 0
    · obtain ⟨rfl, inside, moved⟩ := high
      rw [if_pos ⟨rfl, inside, moved⟩]
      simp only [shiftLeftWord, if_pos inside, show m + k + 1 - k = m + 1 by omega, Nat.add_sub_cancel,
        show ¬ m + 1 < m by omega, show ¬ m + 1 < m + 1 by omega, Nat.lt_irrefl, and_false, if_false, UInt32.zero_or,
        Nat.lt_succ_self, show k ≤ m + k + 1 by omega, show k + 1 ≤ m + k + 1 by omega, ne_eq, moved,
        not_false_eq_true, true_and, if_true]
    · rw [if_neg high]
      unfold shiftLeftWord
      by_cases inside : j < WIDTH
      · have first : (k ≤ j ∧ j - k < m) ↔ (k ≤ j ∧ j - k < m + 1) := by omega
        have second : (shift ≠ 0 ∧ k + 1 ≤ j ∧ j - k - 1 < m) ↔ (shift ≠ 0 ∧ k + 1 ≤ j ∧ j - k - 1 < m + 1) := by omega
        rw [if_pos inside, if_pos inside]
        simp only [first, second]
      · rw [if_neg inside, if_neg inside]

/-- What the loop of `operator>>=` has put in word `j` after its rounds below `m`: word
`j + k` of the old value moved `shift` bits down, and the bits that word `j + k + 1` pushes
out of its bottom. -/
def shiftRightWord (WIDTH k shift : Nat) (a : List UInt32) (m j : Nat) : UInt32 :=
  if j < WIDTH then
    (if j + k < m then a.getD (j + k) 0 >>> shift.toUInt32 else 0) |||
      (if shift ≠ 0 ∧ j + k + 1 < m then a.getD (j + k + 1) 0 <<< (32 - shift).toUInt32 else 0)
  else 0

theorem getD_shiftRightRound {WIDTH k shift : Nat} {a pn : List UInt32} (length : pn.length = WIDTH) (i j : Nat) :
    (shiftRightRound k shift a pn i).getD j 0 =
      if k ≤ i ∧ j = i - k ∧ j < WIDTH then pn.getD j 0 ||| a.getD i 0 >>> shift.toUInt32
      else if k + 1 ≤ i ∧ shift ≠ 0 ∧ j = i - k - 1 ∧ j < WIDTH then pn.getD j 0 ||| a.getD i 0 <<< (32 - shift).toUInt32
      else pn.getD j 0 := by
  simp only [shiftRightRound]
  split_ifs <;> (try simp only [getD_modify, List.length_modify, length]) <;>
    first | rfl | omega | (split_ifs <;> first | rfl | omega)

/-- The rounds below `m` of `operator>>=` leave `shiftRightWord` in each word. The induction
is on `m`; round `m` adds to words `m - k` and `m - k - 1` only. -/
theorem getD_shiftRightLoop (WIDTH k shift : Nat) (a : List UInt32) (m j : Nat) :
    ((List.range m).foldl (shiftRightRound k shift a) (List.replicate WIDTH 0)).getD j 0 =
      shiftRightWord WIDTH k shift a m j := by
  induction m with
  | zero => simp [shiftRightWord]
  | succ m ih =>
    have length : ((List.range m).foldl (shiftRightRound k shift a) (List.replicate WIDTH 0)).length = WIDTH := by
      rw [length_foldl (length_shiftRightRound _ _ _), List.length_replicate]
    rw [List.range_succ, List.foldl_append, List.foldl_cons, List.foldl_nil, getD_shiftRightRound length, ih]
    by_cases low : k ≤ m ∧ j = m - k ∧ j < WIDTH
    · obtain ⟨le, rfl, inside⟩ := low
      rw [if_pos ⟨le, rfl, inside⟩]
      simp only [shiftRightWord, if_pos inside, Nat.sub_add_cancel le, Nat.lt_irrefl, if_false, Nat.lt_succ_self,
        if_true, UInt32.zero_or]
      simp only [show ¬ m + 1 < m by omega, and_false, if_false]
      exact UInt32.or_comm _ _
    rw [if_neg low]
    by_cases high : k + 1 ≤ m ∧ shift ≠ 0 ∧ j = m - k - 1 ∧ j < WIDTH
    · obtain ⟨le, moved, rfl, inside⟩ := high
      rw [if_pos ⟨le, moved, rfl, inside⟩]
      simp only [shiftRightWord, if_pos inside, show m - k - 1 + k = m - 1 by omega, show m - 1 + 1 = m by omega,
        show m - 1 < m by omega, show m - 1 < m + 1 by omega, Nat.lt_irrefl, and_false, if_false, UInt32.or_zero,
        Nat.lt_succ_self, ne_eq, moved,
        not_false_eq_true, true_and, if_true]
    · rw [if_neg high]
      unfold shiftRightWord
      by_cases inside : j < WIDTH
      · have first : (j + k < m) ↔ (j + k < m + 1) := by omega
        have second : (shift ≠ 0 ∧ j + k + 1 < m) ↔ (shift ≠ 0 ∧ j + k + 1 < m + 1) := by omega
        rw [if_pos inside, if_pos inside]
        simp only [first, second]
      · rw [if_neg inside, if_neg inside]

/-- Bit `p` is bit `p % 32` of word `p / 32`, and the shift is `shift / 32` words and
`shift % 32` bits. -/
theorem word_bit_split (p : Nat) : ∃ j t, p = 32 * j + t ∧ t < 32 :=
  ⟨p / 32, p % 32, by omega, Nat.mod_lt _ (by decide)⟩

@[simp] theorem testBit_toNat_zero (t : Nat) : (0 : UInt32).toNat.testBit t = false := Nat.zero_testBit t

/-- `operator<<=` moves the number up by `shift` bits and drops what passes the top. -/
theorem toNat_shiftLeft (a : base_uint WIDTH) (shift : Nat) :
    (a.shiftLeft shift).toNat = a.toNat * 2 ^ shift % 2 ^ (32 * WIDTH) := by
  apply Nat.eq_of_testBit_eq
  intro p
  obtain ⟨j, t, rfl, ht⟩ := word_bit_split p
  rw [toNat, shiftLeft, testBit_val, getD_shiftLeftLoop, Nat.testBit_mod_two_pow, Nat.testBit_mul_two_pow, toNat,
    testBit_val, show (32 * j + t) / 32 = j by omega, show (32 * j + t) % 32 = t by omega]
  obtain ⟨k, r, split, hr⟩ := word_bit_split shift
  rw [show shift / 32 = k by omega, show shift % 32 = r by omega]
  unfold shiftLeftWord
  by_cases inside : j < WIDTH
  · rw [if_pos inside, UInt32.toNat_or, Nat.testBit_or, decide_eq_true (by omega : 32 * j + t < 32 * WIDTH),
      Bool.true_and]
    by_cases up : r ≤ t
    · have high : (if r ≠ 0 ∧ k + 1 ≤ j ∧ j - k - 1 < WIDTH then a.pn.getD (j - k - 1) 0 >>> (32 - r).toUInt32
          else 0).toNat.testBit t = false := by
        split_ifs with moved
        · rw [testBit_shiftRight_word _ (by omega), testBit_word_of_le _ (by omega)]
        · exact testBit_toNat_zero t
      rw [high, Bool.or_false]
      by_cases below : k ≤ j
      · rw [if_pos ⟨below, by omega⟩, testBit_shiftLeft_word _ hr ht, decide_eq_true up, Bool.true_and,
          decide_eq_true (by omega : shift ≤ 32 * j + t), Bool.true_and,
          show (32 * j + t - shift) / 32 = j - k by omega, show (32 * j + t - shift) % 32 = t - r by omega]
      · rw [if_neg (fun h => below h.1), decide_eq_false (by omega : ¬ shift ≤ 32 * j + t)]
        exact testBit_toNat_zero t
    · have low : (if k ≤ j ∧ j - k < WIDTH then a.pn.getD (j - k) 0 <<< r.toUInt32 else 0).toNat.testBit t = false := by
        split_ifs
        · rw [testBit_shiftLeft_word _ hr ht, decide_eq_false up, Bool.false_and]
        · exact testBit_toNat_zero t
      rw [low, Bool.false_or]
      by_cases below : k + 1 ≤ j
      · rw [if_pos ⟨by omega, below, by omega⟩, testBit_shiftRight_word _ (by omega),
          decide_eq_true (by omega : shift ≤ 32 * j + t), Bool.true_and,
          show (32 * j + t - shift) / 32 = j - k - 1 by omega, show (32 * j + t - shift) % 32 = 32 - r + t by omega]
      · rw [if_neg (fun h => below h.2.1), decide_eq_false (by omega : ¬ shift ≤ 32 * j + t)]
        exact testBit_toNat_zero t
  · rw [if_neg inside, decide_eq_false (by omega : ¬ 32 * j + t < 32 * WIDTH), Bool.false_and]
    exact testBit_toNat_zero t

/-- `operator>>=` moves the number down by `shift` bits. -/
theorem toNat_shiftRight (a : base_uint WIDTH) (shift : Nat) : (a.shiftRight shift).toNat = a.toNat / 2 ^ shift := by
  apply Nat.eq_of_testBit_eq
  intro p
  obtain ⟨j, t, rfl, ht⟩ := word_bit_split p
  rw [toNat, shiftRight, testBit_val, getD_shiftRightLoop, Nat.testBit_div_two_pow, toNat, testBit_val,
    show (32 * j + t) / 32 = j by omega, show (32 * j + t) % 32 = t by omega]
  obtain ⟨k, r, split, hr⟩ := word_bit_split shift
  rw [show shift / 32 = k by omega, show shift % 32 = r by omega]
  have beyond : ∀ i, WIDTH ≤ i → a.pn.getD i 0 = 0 := fun i le => List.getD_eq_default _ _ (by rw [a.length]; exact le)
  unfold shiftRightWord
  by_cases inside : j < WIDTH
  · rw [if_pos inside, UInt32.toNat_or, Nat.testBit_or]
    by_cases within : r + t < 32
    · have high : (if r ≠ 0 ∧ j + k + 1 < WIDTH then a.pn.getD (j + k + 1) 0 <<< (32 - r).toUInt32
          else 0).toNat.testBit t = false := by
        split_ifs with moved
        · rw [testBit_shiftLeft_word _ (by omega) ht, decide_eq_false (by omega), Bool.false_and]
        · exact testBit_toNat_zero t
      rw [high, Bool.or_false, show (32 * j + t + shift) / 32 = j + k by omega,
        show (32 * j + t + shift) % 32 = r + t by omega]
      by_cases read : j + k < WIDTH
      · rw [if_pos read, testBit_shiftRight_word _ hr]
      · rw [if_neg read, beyond (j + k) (by omega), testBit_toNat_zero, testBit_toNat_zero]
    · have low : (if j + k < WIDTH then a.pn.getD (j + k) 0 >>> r.toUInt32 else 0).toNat.testBit t = false := by
        split_ifs
        · rw [testBit_shiftRight_word _ hr, testBit_word_of_le _ (by omega)]
        · exact testBit_toNat_zero t
      rw [low, Bool.false_or, show (32 * j + t + shift) / 32 = j + k + 1 by omega,
        show (32 * j + t + shift) % 32 = r + t - 32 by omega]
      by_cases read : j + k + 1 < WIDTH
      · rw [if_pos ⟨by omega, read⟩, testBit_shiftLeft_word _ (by omega) ht, decide_eq_true (by omega), Bool.true_and,
          show t - (32 - r) = r + t - 32 by omega]
      · rw [if_neg (fun h => read h.2), beyond (j + k + 1) (by omega), testBit_toNat_zero, testBit_toNat_zero]
  · rw [if_neg inside, beyond _ (by omega), testBit_toNat_zero, testBit_toNat_zero]

/-- The mask `1 << (shift & 31)` of `operator/=` is bit `shift % 32` of a word. -/
theorem toNat_one_shiftLeft_and (shift : Nat) :
    ((1 : UInt32) <<< (shift &&& 31).toUInt32).toNat = 2 ^ (shift % 32) := by
  have and31 : shift &&& 31 = shift % 32 := Nat.and_two_pow_sub_one_eq_mod shift 5
  have lt : shift % 32 < 32 := Nat.mod_lt _ (by decide)
  simp only [UInt32.toNat_shiftLeft, Nat.toUInt32, UInt32.toNat_ofNat', and31,
    Nat.mod_eq_of_lt (show shift % 32 < 2 ^ 32 by omega), Nat.mod_eq_of_lt lt]
  rw [UInt32.toNat_one, Nat.one_shiftLeft]
  exact Nat.mod_eq_of_lt (Nat.pow_lt_pow_right (show 1 < 2 by decide) lt)

/-- Setting bit `shift` in word `shift / 32` sets bit `shift` of the number. -/
theorem toNat_setBit (q : base_uint WIDTH) {shift : Nat} (small : shift < 32 * WIDTH) :
    (q.setBit shift).toNat = q.toNat ||| 2 ^ shift := by
  apply Nat.eq_of_testBit_eq
  intro p
  obtain ⟨j, t, rfl, ht⟩ := word_bit_split p
  rw [toNat, setBit, testBit_val, Nat.testBit_or, Nat.testBit_two_pow, toNat, testBit_val,
    show (32 * j + t) / 32 = j by omega, show (32 * j + t) % 32 = t by omega, getD_modify]
  by_cases word : shift / 32 = j
  · have same : shift % 32 = t ↔ shift = 32 * j + t := by omega
    rw [if_pos ⟨word, by rw [q.length]; omega⟩, UInt32.toNat_or, Nat.testBit_or, toNat_one_shiftLeft_and,
      Nat.testBit_two_pow]
    simp only [same]
  · have other : ¬ shift = 32 * j + t := by omega
    rw [if_neg (fun h => word h.1)]
    simp [other]

/-- The number as a vector of `32 * WIDTH` bits, the model of `ArithUint256`. -/
def toBitVec (a : base_uint WIDTH) : BitVec (32 * WIDTH) := BitVec.ofNatLT a.toNat a.toNat_lt

@[simp] theorem toNat_toBitVec (a : base_uint WIDTH) : a.toBitVec.toNat = a.toNat := rfl

theorem toBitVec_zero : (zero : base_uint WIDTH).toBitVec = 0 := by
  apply BitVec.eq_of_toNat_eq
  rw [toNat_toBitVec, toNat_zero]
  rfl

theorem toBitVec_add (a b : base_uint WIDTH) : (a.add b).toBitVec = a.toBitVec + b.toBitVec := by
  apply BitVec.eq_of_toNat_eq
  rw [toNat_toBitVec, toNat_add, BitVec.toNat_add, toNat_toBitVec, toNat_toBitVec]

theorem toBitVec_sub (a b : base_uint WIDTH) : (a.sub b).toBitVec = a.toBitVec - b.toBitVec := by
  apply BitVec.eq_of_toNat_eq
  rw [toNat_toBitVec, toNat_sub, BitVec.toNat_sub, toNat_toBitVec, toNat_toBitVec, Nat.add_comm]

theorem toBitVec_mul (a b : base_uint WIDTH) : (a.mul b).toBitVec = a.toBitVec * b.toBitVec := by
  apply BitVec.eq_of_toNat_eq
  rw [toNat_toBitVec, toNat_mul, BitVec.toNat_mul, toNat_toBitVec, toNat_toBitVec]

theorem toBitVec_mulUInt32 (a : base_uint WIDTH) (b32 : UInt32) :
    (a.mulUInt32 b32).toBitVec = SalemCash.base_uint.mulUInt32 a.toBitVec b32 := by
  apply BitVec.eq_of_toNat_eq
  rw [toNat_toBitVec, toNat_mulUInt32, SalemCash.base_uint.mulUInt32, BitVec.toNat_mul, toNat_toBitVec,
    BitVec.toNat_ofNat, Nat.mul_mod_mod]

theorem toBitVec_shiftLeft (a : base_uint WIDTH) (shift : Nat) :
    (a.shiftLeft shift).toBitVec = a.toBitVec <<< shift := by
  apply BitVec.eq_of_toNat_eq
  rw [toNat_toBitVec, toNat_shiftLeft, BitVec.toNat_shiftLeft, toNat_toBitVec, Nat.shiftLeft_eq]

theorem toBitVec_shiftRight (a : base_uint WIDTH) (shift : Nat) :
    (a.shiftRight shift).toBitVec = a.toBitVec >>> shift := by
  apply BitVec.eq_of_toNat_eq
  rw [toNat_toBitVec, toNat_shiftRight, BitVec.toNat_ushiftRight, toNat_toBitVec, Nat.shiftRight_eq_div_pow]

theorem toBitVec_setBit (q : base_uint WIDTH) {shift : Nat} (small : shift < 32 * WIDTH) :
    (q.setBit shift).toBitVec = q.toBitVec ||| (1 : BitVec (32 * WIDTH)) <<< shift := by
  apply BitVec.eq_of_toNat_eq
  rw [toNat_toBitVec, toNat_setBit q small, SalemCash.base_uint.toNat_or_one_shiftLeft _ small, toNat_toBitVec]

theorem bits_toBitVec (a : base_uint WIDTH) : SalemCash.base_uint.bits a.toBitVec = a.bits := by
  rw [SalemCash.base_uint.bits, toNat_toBitVec, bits_eq]

/-- `CompareTo(b) >= 0` is the order of the vectors. -/
theorem CompareTo_nonneg_iff (a b : base_uint WIDTH) : a.CompareTo b ≥ 0 ↔ a.toBitVec ≥ b.toBitVec := by
  rw [GE.ge, GE.ge, BitVec.le_def, toNat_toBitVec, toNat_toBitVec, CompareTo_eq]
  by_cases below : a.toNat < b.toNat
  · simp only [if_pos below]
    omega
  · by_cases equal : a.toNat = b.toNat
    · simp only [if_neg below, if_pos equal]
      omega
    · simp only [if_neg below, if_neg equal]
      omega

theorem toBitVec_divRound (num div quot : base_uint WIDTH) {shift : Nat} (small : shift < 32 * WIDTH) :
    Prod.map toBitVec toBitVec (divRound num div quot shift) =
      SalemCash.base_uint.divRound num.toBitVec div.toBitVec quot.toBitVec shift := by
  unfold divRound SalemCash.base_uint.divRound
  by_cases fits : num.CompareTo div ≥ 0
  · rw [if_pos fits, if_pos ((CompareTo_nonneg_iff num div).mp fits), Prod.map_apply, toBitVec_sub,
      toBitVec_setBit _ small]
  · rw [if_neg fits, if_neg (fun h => fits ((CompareTo_nonneg_iff num div).mpr h))]
    rfl

/-- The loop of `operator/=` on words is the loop on vectors. The induction is on `shift`,
which stays below the width in every round. -/
theorem toBitVec_divLoop (num div quot : base_uint WIDTH) {shift : Nat} (small : shift < 32 * WIDTH) :
    (divLoop num div quot shift).toBitVec =
      SalemCash.base_uint.divLoop num.toBitVec div.toBitVec quot.toBitVec shift := by
  induction shift generalizing num div quot with
  | zero =>
    rw [divLoop, SalemCash.base_uint.divLoop, ← toBitVec_divRound num div quot small]
    rfl
  | succ shift ih =>
    rw [divLoop, SalemCash.base_uint.divLoop]
    rw [ih _ _ _ (by omega), toBitVec_shiftRight, ← toBitVec_divRound num div quot small]
    rfl

/-- `operator/=` on words is `operator/=` on vectors, the exception included. -/
theorem div_map_toBitVec (a b : base_uint WIDTH) :
    (a.div b).map toBitVec = SalemCash.base_uint.div a.toBitVec b.toBitVec := by
  unfold div SalemCash.base_uint.div
  simp only [bits_toBitVec]
  by_cases zero_bits : b.bits = 0
  · rw [if_pos zero_bits, if_pos zero_bits]
    rfl
  · rw [if_neg zero_bits, if_neg zero_bits]
    by_cases more : b.bits > a.bits
    · rw [if_pos more, if_pos more, ← toBitVec_zero]
      rfl
    · have small : a.bits - b.bits < 32 * WIDTH := by
        have := Nat.size_le.mpr a.toNat_lt
        have := bits_eq a
        omega
      rw [if_neg more, if_neg more, ← toBitVec_zero, ← toBitVec_shiftLeft, ← toBitVec_divLoop _ _ _ small]
      rfl

/-- A divisor that is not zero gives the quotient of the numbers. -/
theorem div_eq_ok (a b : base_uint WIDTH) (nonzero : b.toNat ≠ 0) :
    ∃ q, a.div b = .ok q ∧ q.toNat = a.toNat / b.toNat := by
  have model := div_map_toBitVec a b
  rw [SalemCash.base_uint.div_eq _ _ (fun h => nonzero (by rw [← toNat_toBitVec, h]; rfl))]
    at model
  cases result : a.div b with
  | error e =>
    rw [result] at model
    cases model
  | ok q =>
    rw [result] at model
    refine ⟨q, rfl, ?_⟩
    have quotient := congrArg BitVec.toNat (Except.ok.inj model)
    rwa [toNat_toBitVec, BitVec.toNat_udiv, toNat_toBitVec, toNat_toBitVec] at quotient

/-- A zero divisor throws. -/
theorem div_eq_error (a b : base_uint WIDTH) (zero : b.toNat = 0) : a.div b = .error ⟨"Division by zero"⟩ := by
  have no_bits : b.bits = 0 := by rw [bits_eq, zero, Nat.size_zero]
  simp only [div, no_bits, if_true]

/-- A shift by the whole width or more leaves nothing. -/
theorem toNat_shiftLeft_of_le (a : base_uint WIDTH) {shift : Nat} (big : 32 * WIDTH ≤ shift) :
    (a.shiftLeft shift).toNat = 0 := by
  rw [toNat_shiftLeft]
  exact Nat.mod_eq_zero_of_dvd (Dvd.dvd.mul_left (Nat.pow_dvd_pow 2 big) a.toNat)

theorem toNat_shiftRight_of_le (a : base_uint WIDTH) {shift : Nat} (big : 32 * WIDTH ≤ shift) :
    (a.shiftRight shift).toNat = 0 := by
  rw [toNat_shiftRight]
  exact Nat.div_eq_of_lt (lt_of_lt_of_le a.toNat_lt (Nat.pow_le_pow_right (by decide) big))

end base_uint

/-- `base_uint<256>` on its eight words computes every operator on numbers modulo `2 ^ 256`. -/
theorem base_uint256_exact (a b : base_uint 8) :
    (a.add b).toNat = (a.toNat + b.toNat) % 2 ^ 256 ∧
    ((a.sub b).toNat : Int) = ((a.toNat : Int) - b.toNat) % 2 ^ 256 ∧
    (a.mul b).toNat = a.toNat * b.toNat % 2 ^ 256 ∧
    (∀ b32 : UInt32, (a.mulUInt32 b32).toNat = a.toNat * b32.toNat % 2 ^ 256) ∧
    a.inc.toNat = (a.toNat + 1) % 2 ^ 256 ∧
    (a.dec.toNat : Int) = ((a.toNat : Int) - 1) % 2 ^ 256 ∧
    (∀ shift, (a.shiftLeft shift).toNat = a.toNat * 2 ^ shift % 2 ^ 256 ∧
      (a.shiftRight shift).toNat = a.toNat / 2 ^ shift) ∧
    (∀ shift, 256 ≤ shift → (a.shiftLeft shift).toNat = 0 ∧ (a.shiftRight shift).toNat = 0) ∧
    (b.toNat ≠ 0 → ∃ q, a.div b = .ok q ∧ q.toNat = a.toNat / b.toNat) ∧
    (b.toNat = 0 → a.div b = .error ⟨"Division by zero"⟩) ∧
    a.CompareTo b = (if a.toNat < b.toNat then -1 else if a.toNat = b.toNat then 0 else 1) ∧
    a.bits = Nat.size a.toNat := by
  have ha := a.toNat_lt
  have hb := b.toNat_lt
  simp only [show 32 * 8 = 256 from rfl] at ha hb
  have sub := a.toNat_sub b
  have dec := a.toNat_dec
  simp only [show 32 * 8 = 256 from rfl] at sub dec
  refine ⟨a.toNat_add b, ?_, a.toNat_mul b, a.toNat_mulUInt32, a.toNat_inc, ?_,
    fun shift => ⟨a.toNat_shiftLeft shift, a.toNat_shiftRight shift⟩,
    fun shift big => ⟨a.toNat_shiftLeft_of_le big, a.toNat_shiftRight_of_le big⟩,
    a.div_eq_ok b, a.div_eq_error b, a.CompareTo_eq b, a.bits_eq⟩
  · rw [sub]
    omega
  · rw [dec]
    omega

/-- `5 * 2^64` divided by `3 * 2^32`: the divisor is shifted up 33 places and the quotient
`⌊5 * 2^32 / 3⌋`, of 33 bits, spans two limbs. -/
theorem base_uint256_exact_multi_limb_div :
    (⟨[0, 3, 0, 0, 0, 0, 0, 0], rfl⟩ : base_uint 8).toNat ≠ 0 ∧
      ∃ q, (⟨[0, 0, 5, 0, 0, 0, 0, 0], rfl⟩ : base_uint 8).div ⟨[0, 3, 0, 0, 0, 0, 0, 0], rfl⟩ = .ok q ∧
        q.toNat = 7158278826 := by
  have hb : (⟨[0, 3, 0, 0, 0, 0, 0, 0], rfl⟩ : base_uint 8).toNat ≠ 0 := by decide
  obtain ⟨q, hq, hval⟩ :=
    (base_uint256_exact ⟨[0, 0, 5, 0, 0, 0, 0, 0], rfl⟩ ⟨[0, 3, 0, 0, 0, 0, 0, 0], rfl⟩).2.2.2.2.2.2.2.2.1 hb
  exact ⟨hb, q, hq, hval.trans (by decide)⟩

end Limbs

end SalemCash
