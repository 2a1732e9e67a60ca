import Mathlib

/-!
# Bech32

`bech32.cpp`: the checksum register `PolyMod`, the expansion of the human-readable part, the
checksum and the encoder and decoder of Bech32 strings. A `std::string` is its bytes and a
`data` vector its `uint8_t` values.

The register holds six 5-bit digits, the coefficients of a remainder, the lowest digit for
`x ^ 0` (`digit`). One round moves every digit up one place, puts the new value in digit `0`
and adds, for each set bit `n` of the digit that left, the register constant for `{2 ^ n}`
(`digit_polyModStep`). What this computes over GF(32) is in `Bech32Checksum`.
-/
set_option autoImplicit false

namespace SalemCash

namespace Bech32

/-- The Bech32 character set for encoding. -/
def CHARSET : List UInt8 := "qpzry9x8gf2tvdw0s3jn54khce6mua7l".toList.map fun c => c.toNat.toUInt8

/-- The Bech32 character set for decoding. -/
def CHARSET_REV : List Int8 := [
  -1, -1, -1, -1, -1, -1, -1, -1, -1, -1, -1, -1, -1, -1, -1, -1,
  -1, -1, -1, -1, -1, -1, -1, -1, -1, -1, -1, -1, -1, -1, -1, -1,
  -1, -1, -1, -1, -1, -1, -1, -1, -1, -1, -1, -1, -1, -1, -1, -1,
  15, -1, 10, 17, 21, 20, 26, 30,  7,  5, -1, -1, -1, -1, -1, -1,
  -1, 29, -1, 24, 13, 25,  9,  8, 23, -1, 18, 22, 31, 27, 19, -1,
   1,  0,  3, 16, 11, 28, 12, 14,  6,  4,  2, -1, -1, -1, -1, -1,
  -1, 29, -1, 24, 13, 25,  9,  8, 23, -1, 18, 22, 31, 27, 19, -1,
   1,  0,  3, 16, 11, 28, 12, 14,  6,  4,  2, -1, -1, -1, -1, -1]

/-- Concatenate two byte arrays. -/
def Cat (x y : List UInt8) : List UInt8 := x ++ y

/-- One round of the loop of `PolyMod` on the value `v_i`. -/
def polyModStep (c : UInt32) (v_i : UInt8) : UInt32 :=
  let c0 : UInt8 := (c >>> 25).toUInt8
  let c := ((c &&& 0x1ffffff) <<< 5) ^^^ v_i.toUInt32
  let c := if c0 &&& 1 ≠ 0 then c ^^^ 0x3b6a57b2 else c
  let c := if c0 &&& 2 ≠ 0 then c ^^^ 0x26508e6d else c
  let c := if c0 &&& 4 ≠ 0 then c ^^^ 0x1ea119fa else c
  let c := if c0 &&& 8 ≠ 0 then c ^^^ 0x3d4233dd else c
  if c0 &&& 16 ≠ 0 then c ^^^ 0x2a1462b3 else c

/-- What 6 5-bit values to XOR into the last 6 input values to make the checksum 0, packed in
one 30-bit integer. -/
def PolyMod (v : List UInt8) : UInt32 := v.foldl polyModStep 1

/-- Convert to lower case. -/
def LowerCase (c : UInt8) : UInt8 := if c ≥ 65 ∧ c ≤ 90 then (c - 65) + 97 else c

/-- Expand a HRP for use in checksum computation: the high bits of each character, a zero and
the low five bits of each character. -/
def ExpandHRP (hrp : List UInt8) : List UInt8 :=
  hrp.map (fun c : UInt8 => c >>> 5) ++ [0] ++ hrp.map (fun c : UInt8 => c &&& 0x1f)

def VerifyChecksum (hrp values : List UInt8) : Bool := PolyMod (Cat (ExpandHRP hrp) values) == 1

def CreateChecksum (hrp values : List UInt8) : List UInt8 :=
  -- append 6 zeroes
  let enc := Cat (ExpandHRP hrp) values ++ List.replicate 6 0
  -- what to XOR into those 6 zeroes
  let mod := PolyMod enc ^^^ 1
  (List.range 6).map fun i => ((mod >>> (5 * (5 - i)).toUInt32) &&& 31).toUInt8

/-- `bech32::Encode`. A value of `32` or more would read past `CHARSET`; it is read as `0`. -/
def Encode (hrp values : List UInt8) : List UInt8 :=
  let checksum := CreateChecksum hrp values
  let combined := Cat values checksum
  hrp ++ [49] ++ combined.map fun c => CHARSET.getD c.toNat 0

/-- The first loop of `bech32::Decode`: no character outside `33 ..= 126`, and whether a lower
and an upper case letter were seen. -/
def scanCase : List UInt8 → Bool → Bool → Option (Bool × Bool)
  | [], lower, upper => some (lower, upper)
  | c :: str, lower, upper =>
    if c < 33 ∨ c > 126 then none
    else scanCase str (lower || (c ≥ 97 && c ≤ 122)) (upper || (c ≥ 65 && c ≤ 90))

/-- `std::string::rfind`: the position of the last occurrence of `ch`. -/
def rfind (ch : UInt8) : List UInt8 → Option Nat
  | [] => none
  | c :: str =>
    match rfind ch str with
    | some pos => some (pos + 1)
    | none => if c = ch then some 0 else none

/-- The value of a data character through `CHARSET_REV`, or nothing for `-1`. -/
def charValue (c : UInt8) : Option UInt8 :=
  let rev : Int8 := if c < 33 ∨ c > 126 then -1 else CHARSET_REV.getD c.toNat (-1)
  if rev = -1 then none else some rev.toUInt8

/-- `bech32::Decode`: the human-readable part and the values, or two empty ones (`{}`). -/
def Decode (str : List UInt8) : List UInt8 × List UInt8 :=
  match scanCase str false false with
  | none => ([], [])
  | some (lower, upper) =>
    if lower ∧ upper then ([], [])
    else
      match rfind 49 str with
      | none => ([], [])
      | some pos =>
        if str.length > 90 ∨ pos = 0 ∨ pos + 7 > str.length then ([], [])
        else
          match (str.drop (pos + 1)).mapM charValue with
          | none => ([], [])
          | some values =>
            let hrp := (str.take pos).map LowerCase
            if !VerifyChecksum hrp values then ([], [])
            else (hrp, values.take (values.length - 6))

/-- Digit `j` of the register in base `32`. -/
def digit (j c : Nat) : Nat := c / 32 ^ j % 32

/-- The constants added for the bits of the digit that leaves the register, as one number. -/
def mix (t : Nat) : Nat :=
  (if t.testBit 0 then 0x3b6a57b2 else 0) ^^^ (if t.testBit 1 then 0x26508e6d else 0) ^^^
    (if t.testBit 2 then 0x1ea119fa else 0) ^^^ (if t.testBit 3 then 0x3d4233dd else 0) ^^^
    (if t.testBit 4 then 0x2a1462b3 else 0)

theorem testBit_digit (j c t : Nat) : (digit j c).testBit t = (decide (t < 5) && c.testBit (5 * j + t)) := by
  rw [digit, show (32 : Nat) ^ j = 2 ^ (5 * j) by rw [pow_mul]; rfl, show (32 : Nat) = 2 ^ 5 from rfl,
    Nat.testBit_mod_two_pow, Nat.testBit_div_two_pow, Nat.add_comm]

theorem digit_lt (j c : Nat) : digit j c < 32 := Nat.mod_lt _ (by decide)

theorem digit_xor (j x y : Nat) : digit j (x ^^^ y) = digit j x ^^^ digit j y := by
  apply Nat.eq_of_testBit_eq
  intro t
  rw [Nat.testBit_xor, testBit_digit, testBit_digit, testBit_digit, Nat.testBit_xor]
  cases decide (t < 5) <;> rfl

theorem digit_ite (j : Nat) (p : Prop) [Decidable p] (x : Nat) :
    digit j (if p then x else 0) = if p then digit j x else 0 := by
  split <;> simp [digit]

/-- A value below `32` is digit `0`. -/
theorem digit_small {a : Nat} (small : a < 32) (j : Nat) : digit j a = if j = 0 then a else 0 := by
  unfold digit
  split
  · subst_vars
    simpa using small
  · rw [Nat.div_eq_of_lt (lt_of_lt_of_le small (Nat.le_self_pow (by assumption) 32))]

/-- The low 25 bits moved up five places: every digit one place up, `0` in digit `0`. -/
theorem digit_shift (c : Nat) {j : Nat} (low : j ≤ 5) :
    digit j (c % 2 ^ 25 * 32) = if j = 0 then 0 else digit (j - 1) c := by
  apply Nat.eq_of_testBit_eq
  intro t
  rw [testBit_digit, show (32 : Nat) = 2 ^ 5 from rfl, Nat.testBit_mul_two_pow, Nat.testBit_mod_two_pow]
  split
  · subst_vars
    by_cases small : t < 5
    · simp [small]
    · simp [small]
  · rw [testBit_digit, show 5 * j + t - 5 = 5 * (j - 1) + t by omega]
    by_cases small : t < 5
    · simp [small, show 5 ≤ 5 * j + t by omega, show 5 * (j - 1) + t < 25 by omega]
    · simp [small]

/-- The top digit of a 30-bit register is what `c >> 25` reads. -/
theorem digit_five {c : Nat} (small : c < 2 ^ 30) : digit 5 c = c / 2 ^ 25 := by
  rw [digit, show (32 : Nat) ^ 5 = 2 ^ 25 from rfl, Nat.mod_eq_of_lt (by omega)]

/-- Six digits make a 30-bit register. -/
theorem eq_of_digits {c c' : Nat} (small : c < 2 ^ 30) (small' : c' < 2 ^ 30)
    (same : ∀ j < 6, digit j c = digit j c') : c = c' := by
  apply Nat.eq_of_testBit_eq
  intro i
  by_cases inside : i < 30
  · have bit := congrArg (Nat.testBit · (i % 5)) (same (i / 5) (by omega))
    simp only [testBit_digit, show i % 5 < 5 from Nat.mod_lt _ (by decide), decide_true, Bool.true_and,
      show 5 * (i / 5) + i % 5 = i by omega] at bit
    exact bit
  · rw [Nat.testBit_eq_false_of_lt (lt_of_lt_of_le small (Nat.pow_le_pow_right (by decide) (by omega))),
      Nat.testBit_eq_false_of_lt (lt_of_lt_of_le small' (Nat.pow_le_pow_right (by decide) (by omega)))]

theorem toNat_ite_xor (p : Prop) [Decidable p] (x k : UInt32) :
    (if p then x ^^^ k else x).toNat = x.toNat ^^^ (if p then k.toNat else 0) := by
  split <;> simp

/-- A test `c0 & b` of one bit `b = 2 ^ k` of the digit that leaves. -/
theorem and_bit_ne_zero (x b : UInt8) {k : Nat} (bit : b.toNat = 2 ^ k) : x &&& b ≠ 0 ↔ x.toNat.testBit k := by
  rw [ne_eq, ← UInt8.toNat_inj, UInt8.toNat_and, bit, Nat.and_two_pow, UInt8.toNat_zero]
  cases x.toNat.testBit k <;> simp

theorem testBit_toUInt8_shiftRight (c : UInt32) {k : Nat} (low : k < 8) :
    ((c >>> 25).toUInt8).toNat.testBit k = (c.toNat / 2 ^ 25).testBit k := by
  rw [UInt32.toNat_toUInt8, UInt32.toNat_shiftRight, Nat.testBit_mod_two_pow, decide_eq_true low, Bool.true_and,
    show (25 : UInt32).toNat % 32 = 25 from rfl, Nat.shiftRight_eq_div_pow]

/-- One round on numbers: the low 25 bits moved up, the value, and the constants of the top
digit. -/
theorem toNat_polyModStep (c : UInt32) (v_i : UInt8) :
    (polyModStep c v_i).toNat = c.toNat % 2 ^ 25 * 32 ^^^ v_i.toNat ^^^ mix (c.toNat / 2 ^ 25) := by
  have shifted : ((c &&& 0x1ffffff) <<< 5).toNat = c.toNat % 2 ^ 25 * 32 := by
    rw [UInt32.toNat_shiftLeft, UInt32.toNat_and, show (0x1ffffff : UInt32).toNat = 2 ^ 25 - 1 from rfl,
      Nat.and_two_pow_sub_one_eq_mod, show (5 : UInt32).toNat % 32 = 5 from rfl, Nat.shiftLeft_eq,
      Nat.mod_eq_of_lt (by omega)]
  unfold polyModStep
  simp only [toNat_ite_xor, UInt32.toNat_xor, shifted, UInt8.toNat_toUInt32,
    and_bit_ne_zero _ 1 (show (1 : UInt8).toNat = 2 ^ 0 from rfl),
    and_bit_ne_zero _ 2 (show (2 : UInt8).toNat = 2 ^ 1 from rfl),
    and_bit_ne_zero _ 4 (show (4 : UInt8).toNat = 2 ^ 2 from rfl),
    and_bit_ne_zero _ 8 (show (8 : UInt8).toNat = 2 ^ 3 from rfl),
    and_bit_ne_zero _ 16 (show (16 : UInt8).toNat = 2 ^ 4 from rfl),
    testBit_toUInt8_shiftRight c (show 0 < 8 by decide), testBit_toUInt8_shiftRight c (show 1 < 8 by decide),
    testBit_toUInt8_shiftRight c (show 2 < 8 by decide), testBit_toUInt8_shiftRight c (show 3 < 8 by decide),
    testBit_toUInt8_shiftRight c (show 4 < 8 by decide), mix, Nat.xor_assoc]
  rfl

/-- One round on digits: digit `j` is the digit below it (the value for digit `0`) plus digit
`j` of the constants of the digit that left. -/
theorem digit_polyModStep {c : UInt32} {v_i : UInt8} (small : c.toNat < 2 ^ 30) (value : v_i.toNat < 32)
    {j : Nat} (low : j < 6) :
    digit j (polyModStep c v_i).toNat =
      (if j = 0 then v_i.toNat else digit (j - 1) c.toNat) ^^^ digit j (mix (digit 5 c.toNat)) := by
  rw [toNat_polyModStep, digit_xor, digit_xor, digit_shift _ (by omega), digit_small value, digit_five small]
  by_cases bottom : j = 0 <;> simp [bottom]

theorem mix_lt (t : Nat) : mix t < 2 ^ 30 := by
  unfold mix
  repeat' apply Nat.xor_lt_two_pow
  all_goals split <;> decide

/-- The register stays within 30 bits. -/
theorem polyModStep_lt (c : UInt32) {v_i : UInt8} (value : v_i.toNat < 32) :
    (polyModStep c v_i).toNat < 2 ^ 30 := by
  rw [toNat_polyModStep]
  have shifted : c.toNat % 2 ^ 25 * 32 < 2 ^ 30 := by omega
  exact Nat.xor_lt_two_pow (Nat.xor_lt_two_pow shifted (by omega)) (mix_lt _)

/-- The first loop of `Decode` accepts exactly the strings within `33 ..= 126`, and finds a lower
and an upper case letter if one is there. -/
theorem scanCase_eq (str : List UInt8) (lower upper : Bool) :
    scanCase str lower upper =
      if ∀ c ∈ str, 33 ≤ c ∧ c ≤ 126 then
        some (lower || str.any (fun c => c ≥ 97 && c ≤ 122), upper || str.any (fun c => c ≥ 65 && c ≤ 90))
      else none := by
  induction str generalizing lower upper with
  | nil => simp [scanCase]
  | cons c str ih =>
    rw [scanCase]
    by_cases outside : c < 33 ∨ c > 126
    · rw [if_pos outside, if_neg]
      intro all
      obtain ⟨above, below⟩ := all c List.mem_cons_self
      rcases outside with low | high
      · exact absurd above (UInt8.not_le.mpr low)
      · exact absurd below (UInt8.not_le.mpr high)
    · have inside : 33 ≤ c ∧ c ≤ 126 := by
        rw [not_or, UInt8.not_lt, UInt8.not_lt] at outside
        exact outside
      rw [if_neg outside, ih]
      by_cases rest : ∀ c ∈ str, 33 ≤ c ∧ c ≤ 126
      · rw [if_pos rest, if_pos ((List.forall_mem_cons (p := fun c => 33 ≤ c ∧ c ≤ 126)).mpr ⟨inside, rest⟩)]
        simp only [List.any_cons, Bool.or_assoc]
      · rw [if_neg rest, if_neg fun all => rest (List.forall_mem_cons.mp all).2]

theorem rfind_eq_none {ch : UInt8} {str : List UInt8} (absent : ch ∉ str) : rfind ch str = none := by
  induction str with
  | nil => rfl
  | cons c str ih =>
    rw [List.mem_cons, not_or] at absent
    rw [rfind, ih absent.2, if_neg (Ne.symm absent.1)]

/-- The separator found is the one that no later character repeats. -/
theorem rfind_append_cons {ch : UInt8} (pre : List UInt8) {post : List UInt8} (absent : ch ∉ post) :
    rfind ch (pre ++ ch :: post) = some pre.length := by
  induction pre with
  | nil => rw [List.nil_append, rfind, rfind_eq_none absent, if_pos rfl, List.length_nil]
  | cons c pre ih => rw [List.cons_append, rfind, ih, List.length_cons]

theorem LowerCase_of_not_upper {c : UInt8} (notUpper : ¬(c ≥ 65 ∧ c ≤ 90)) : LowerCase c = c := if_neg notUpper

theorem length_CHARSET : CHARSET.length = 32 := by decide

set_option maxRecDepth 4000 in
/-- The characters of `CHARSET` are printable, none is upper case and none is the separator. -/
theorem CHARSET_mem : ∀ c ∈ CHARSET, (33 ≤ c ∧ c ≤ 126) ∧ ¬(c ≥ 65 ∧ c ≤ 90) ∧ c ≠ 49 := by decide

theorem getD_CHARSET_mem {v : Nat} (low : v < 32) : CHARSET.getD v 0 ∈ CHARSET := by
  rw [List.getD_eq_getElem _ _ (length_CHARSET ▸ low)]
  exact List.getElem_mem _

/-- `CHARSET_REV` inverts `CHARSET`. -/
theorem charValue_CHARSET : ∀ v < 32, charValue (CHARSET.getD v 0) = some v.toUInt8 := by decide

set_option maxRecDepth 4000 in
/-- `CHARSET_REV` and `CHARSET` agree on every byte, up to case. -/
theorem charValue_table : ∀ n < 256, (charValue n.toUInt8).all
    (fun v => decide (v.toNat < 32 ∧ LowerCase n.toUInt8 = CHARSET.getD v.toNat 0)) = true := by decide

/-- A character with a value is, in lower case, the `CHARSET` character of that value. -/
theorem charValue_eq_some {c v : UInt8} (value : charValue c = some v) :
    v.toNat < 32 ∧ LowerCase c = CHARSET.getD v.toNat 0 := by
  have entry := charValue_table c.toNat c.toNat_lt
  rw [show c.toNat.toUInt8 = c by simp, value, Option.all_some, decide_eq_true_iff] at entry
  exact entry

section MapM

variable {α β : Type} {f : α → Option β}

theorem mapM_map_eq_some {g : β → α} {xs : List β} (inverse : ∀ x ∈ xs, f (g x) = some x) :
    (xs.map g).mapM f = some xs := by
  induction xs with
  | nil => rfl
  | cons x xs ih =>
    rw [List.forall_mem_cons] at inverse
    rw [List.map_cons, List.mapM_cons, inverse.1, ih inverse.2]
    rfl

theorem mapM_cons_eq_some {x : α} {xs : List α} {ys : List β} (mapped : (x :: xs).mapM f = some ys) :
    ∃ y rest, f x = some y ∧ xs.mapM f = some rest ∧ ys = y :: rest := by
  rw [List.mapM_cons] at mapped
  cases head : f x with
  | none => simp [head] at mapped
  | some y =>
    cases tail : xs.mapM f with
    | none => simp [head, tail] at mapped
    | some rest =>
      simp only [head, tail, Option.bind_eq_bind, Option.bind_some, Option.pure_def, Option.some.injEq] at mapped
      exact ⟨y, rest, rfl, rfl, mapped.symm⟩

theorem length_of_mapM_eq_some {xs : List α} {ys : List β} (mapped : xs.mapM f = some ys) :
    ys.length = xs.length := by
  induction xs generalizing ys with
  | nil => simpa using mapped.symm
  | cons x xs ih =>
    obtain ⟨y, rest, -, tail, rfl⟩ := mapM_cons_eq_some mapped
    rw [List.length_cons, List.length_cons, ih tail]

theorem getElem_of_mapM_eq_some {xs : List α} {ys : List β} (mapped : xs.mapM f = some ys) {k : Nat}
    (hk : k < xs.length) (hk' : k < ys.length) : f xs[k] = some ys[k] := by
  induction xs generalizing ys k with
  | nil => exact absurd hk (Nat.not_lt_zero k)
  | cons x xs ih =>
    obtain ⟨y, rest, head, tail, rfl⟩ := mapM_cons_eq_some mapped
    cases k with
    | zero => exact head
    | succ k => exact ih tail _ _

theorem forall_of_mapM_eq_some {P : β → Prop} (each : ∀ x y, f x = some y → P y) {xs : List α} {ys : List β}
    (mapped : xs.mapM f = some ys) : ∀ y ∈ ys, P y := by
  induction xs generalizing ys with
  | nil =>
    obtain rfl : [] = ys := Option.some.inj mapped
    simp
  | cons x xs ih =>
    obtain ⟨y, rest, head, tail, rfl⟩ := mapM_cons_eq_some mapped
    rw [List.forall_mem_cons]
    exact ⟨each x y head, ih tail⟩

theorem map_of_mapM_eq_some {γ : Type} {g : β → γ} {h : α → γ} (each : ∀ x y, f x = some y → g y = h x)
    {xs : List α} {ys : List β} (mapped : xs.mapM f = some ys) : ys.map g = xs.map h := by
  induction xs generalizing ys with
  | nil =>
    obtain rfl : [] = ys := Option.some.inj mapped
    rfl
  | cons x xs ih =>
    obtain ⟨y, rest, head, tail, rfl⟩ := mapM_cons_eq_some mapped
    rw [List.map_cons, List.map_cons, each x y head, ih tail]

/-- Changing one element changes one result. -/
theorem mapM_set_eq_some {xs : List α} {ys : List β} (mapped : xs.mapM f = some ys) {a : α} {b : β}
    (changed : f a = some b) (k : Nat) : (xs.set k a).mapM f = some (ys.set k b) := by
  induction xs generalizing ys k with
  | nil => simpa using mapped
  | cons x xs ih =>
    obtain ⟨y, rest, head, tail, rfl⟩ := mapM_cons_eq_some mapped
    cases k with
    | zero => rw [List.set_cons_zero, List.set_cons_zero, List.mapM_cons, changed, tail]; rfl
    | succ k => rw [List.set_cons_succ, List.set_cons_succ, List.mapM_cons, head, ih tail k]; rfl

end MapM

theorem take_append_cons (pre post : List UInt8) (ch : UInt8) : (pre ++ ch :: post).take pre.length = pre := by
  simp

theorem drop_append_cons (pre post : List UInt8) (ch : UInt8) : (pre ++ ch :: post).drop (pre.length + 1) = post := by
  simp

/-- A string of printable characters without upper case letters passes the first loop, with
no upper case letter seen. -/
theorem scanCase_of_noUpper {str : List UInt8} (printable : ∀ c ∈ str, 33 ≤ c ∧ c ≤ 126)
    (noUpper : ∀ c ∈ str, ¬(c ≥ 65 ∧ c ≤ 90)) :
    scanCase str false false = some (str.any (fun c => c ≥ 97 && c ≤ 122), false) := by
  have upper : str.any (fun c => c ≥ 65 && c ≤ 90) = false := by
    rw [List.any_eq_false]
    intro c inside both
    exact noUpper c inside (by simpa using both)
  rw [scanCase_eq, if_pos printable, upper, Bool.false_or, Bool.false_or]

theorem printable_of_scanCase {str : List UInt8} {lower upper : Bool} {result : Bool × Bool}
    (scan : scanCase str lower upper = some result) : ∀ c ∈ str, 33 ≤ c ∧ c ≤ 126 := by
  rw [scanCase_eq] at scan
  split at scan
  · assumption
  · exact absurd scan (by simp)

/-- `Decode` of a string split at its last `1`, once the first loop has passed with one case,
the lengths fit and the checksum verifies: the lowered human-readable part and the values less
their six checksum values. -/
theorem Decode_eq_of_valid {pre post values : List UInt8} {lower upper : Bool}
    (scan : scanCase (pre ++ 49 :: post) false false = some (lower, upper)) (oneCase : ¬(lower = true ∧ upper = true))
    (sep : 49 ∉ post) (named : pre ≠ []) (room : 6 ≤ post.length) (short : pre.length + post.length + 1 ≤ 90)
    (mapped : post.mapM charValue = some values) (verify : VerifyChecksum (pre.map LowerCase) values = true) :
    Decode (pre ++ 49 :: post) = (pre.map LowerCase, values.take (values.length - 6)) := by
  have length : (pre ++ 49 :: post).length = pre.length + post.length + 1 := by simp; omega
  have notEmpty : pre.length ≠ 0 := fun zero => named (List.length_eq_zero_iff.mp zero)
  unfold Decode
  rw [scan, rfind_append_cons pre sep]
  dsimp only
  rw [if_neg oneCase, drop_append_cons, mapped, take_append_cons]
  dsimp only
  rw [verify, if_neg (by omega)]
  rfl

/-- What a `Decode` that does not fail has checked, for a string split at its last `1`: the
first loop, the lengths, a value for each character after the `1`, and the checksum of the
lowered part before it. -/
theorem exists_of_Decode_ne_nil {pre post : List UInt8} (sep : 49 ∉ post) (ok : Decode (pre ++ 49 :: post) ≠ ([], [])) :
    ∃ values, post.mapM charValue = some values ∧ VerifyChecksum (pre.map LowerCase) values = true ∧
      (∀ c ∈ pre ++ 49 :: post, 33 ≤ c ∧ c ≤ 126) ∧ pre ≠ [] ∧ 6 ≤ post.length ∧
      pre.length + post.length + 1 ≤ 90 ∧ Decode (pre ++ 49 :: post) = (pre.map LowerCase, values.take (values.length - 6)) := by
  have length : (pre ++ 49 :: post).length = pre.length + post.length + 1 := by simp; omega
  unfold Decode at ok
  rw [rfind_append_cons pre sep] at ok
  dsimp only at ok
  rw [drop_append_cons, take_append_cons] at ok
  split at ok
  · exact absurd rfl ok
  · rename_i lower upper scan
    split at ok
    · exact absurd rfl ok
    · rename_i oneCase
      split at ok
      · exact absurd rfl ok
      · rename_i fits
        split at ok
        · exact absurd rfl ok
        · rename_i values mapped
          split at ok
          · exact absurd rfl ok
          · rename_i verify
            have checked : VerifyChecksum (pre.map LowerCase) values = true := by simpa using verify
            have named : pre ≠ [] := fun empty => fits (Or.inr (Or.inl (by rw [empty, List.length_nil])))
            exact ⟨values, mapped, checked, printable_of_scanCase scan, named, by omega, by omega,
              Decode_eq_of_valid scan oneCase sep named (by omega) (by omega) mapped checked⟩

theorem rfind_eq_none_iff {ch : UInt8} {str : List UInt8} : rfind ch str = none ↔ ch ∉ str := by
  refine ⟨fun missing inside => ?_, rfind_eq_none⟩
  induction str with
  | nil => exact absurd inside List.not_mem_nil
  | cons c str ih =>
    unfold rfind at missing
    split at missing
    · simp at missing
    · rename_i later
      rcases List.mem_cons.mp inside with same | rest
      · rw [if_pos same.symm] at missing
        simp at missing
      · exact ih later rest

/-- The position `rfind` returns splits the string at its last `ch`. -/
theorem rfind_eq_some {ch : UInt8} {str : List UInt8} {pos : Nat} (found : rfind ch str = some pos) :
    ∃ pre post, str = pre ++ ch :: post ∧ ch ∉ post ∧ pre.length = pos := by
  induction str generalizing pos with
  | nil => simp [rfind] at found
  | cons c str ih =>
    unfold rfind at found
    split at found
    · rename_i later laterFound
      obtain ⟨pre, post, rfl, sep, length⟩ := ih laterFound
      refine ⟨c :: pre, post, rfl, sep, ?_⟩
      rw [List.length_cons, length]
      exact Option.some.inj found
    · rename_i missing
      split at found
      · rename_i same
        exact ⟨[], str, by rw [same, List.nil_append], rfind_eq_none_iff.mp missing, Option.some.inj found⟩
      · simp at found

/-- A string that `Decode` accepts has a last `1`. -/
theorem split_of_Decode_ne_nil {str : List UInt8} (ok : Decode str ≠ ([], [])) :
    ∃ pre post, str = pre ++ 49 :: post ∧ 49 ∉ post := by
  unfold Decode at ok
  split at ok
  · exact absurd rfl ok
  · split at ok
    · exact absurd rfl ok
    · split at ok
      · exact absurd rfl ok
      · rename_i pos found
        obtain ⟨pre, post, split, sep, -⟩ := rfind_eq_some found
        exact ⟨pre, post, split, sep⟩

set_option maxRecDepth 4000 in
/-- `LowerCase` keeps a printable character printable and leaves no upper case letter. -/
theorem LowerCase_table : ∀ n < 256, (33 ≤ n.toUInt8 ∧ n.toUInt8 ≤ 126) →
    (33 ≤ LowerCase n.toUInt8 ∧ LowerCase n.toUInt8 ≤ 126) ∧ ¬(LowerCase n.toUInt8 ≥ 65 ∧ LowerCase n.toUInt8 ≤ 90) := by
  decide

theorem LowerCase_printable {c : UInt8} (printable : 33 ≤ c ∧ c ≤ 126) :
    (33 ≤ LowerCase c ∧ LowerCase c ≤ 126) ∧ ¬(LowerCase c ≥ 65 ∧ LowerCase c ≤ 90) := by
  have entry := LowerCase_table c.toNat c.toNat_lt
  rw [show c.toNat.toUInt8 = c by simp] at entry
  exact entry printable

end Bech32

end SalemCash
