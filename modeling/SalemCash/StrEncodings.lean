import Mathlib.Data.List.GetD
import Mathlib.Data.List.TakeWhile
import SalemCash.BitGroups

/-!
# Base64 and Base32

`ConvertBits` and the Base64 and Base32 codecs of `utilstrencodings`. `ConvertBits`
regroups digits of `frombits` bits into digits of `tobits` bits through a masked
accumulator. With `pad` it adds zero bits to a last partial digit; without, it fails on
a remainder of `frombits` bits or more, or on one that is not zero. The encoders regroup
bytes and pad the text with '=' to a whole block; the decoders read digits up to the
first other character, regroup them into bytes and accept when only '=' follow, the text
fills whole blocks, and less than one block of '=' was read.

The round trip of the regrouping holds when the padded conversion goes to digits no
wider than its input (`ConvertBits_false_true`), and a valid unpadded conversion is
always undone by the padded one (`ConvertBits_true_false`). So decoding undoes encoding,
and a text the decoder accepts is the encoding of what it returned, up to what the
decoding table identifies: `decode32_table` reads upper- and lowercase letters alike.

`acc` is a `size_t`. For the widths used it stays below `2 ^ 16`, so the model keeps it
as a `Nat`.
-/

namespace SalemCash

open BitGroups

/-- `while (bits >= tobits) { bits -= tobits; outfn((acc >> bits) & maxv); }`. The C loop
does not end for `tobits = 0`, which no instantiation uses. -/
def emitLoop (tobits acc : Nat) (out : List Nat) (bits : Nat) : List Nat × Nat :=
  if 0 < tobits ∧ tobits ≤ bits then
    emitLoop tobits acc (out ++ [(acc >>> (bits - tobits)) &&& ((1 <<< tobits) - 1)]) (bits - tobits)
  else (out, bits)
termination_by bits

/-- The loop over the input: the values passed to `outfn`, `acc` and `bits`. -/
def convertLoop (frombits tobits : Nat) : List Nat → List Nat → Nat → Nat → List Nat × Nat × Nat
  | [], out, acc, bits => (out, acc, bits)
  | x :: xs, out, acc, bits =>
    let acc := ((acc <<< frombits) ||| x) &&& ((1 <<< (frombits + tobits - 1)) - 1)
    let emitted := emitLoop tobits acc out (bits + frombits)
    convertLoop frombits tobits xs emitted.1 acc emitted.2

/-- `ConvertBits<frombits, tobits, pad>(outfn, it, end)`: the values passed to `outfn`, and
the result. -/
def ConvertBits (frombits tobits : Nat) (pad : Bool) (input : List Nat) : List Nat × Bool :=
  let maxv := (1 <<< tobits) - 1
  let r := convertLoop frombits tobits input [] 0 0
  if pad then
    ((if r.2.2 ≠ 0 then r.1 ++ [(r.2.1 <<< (tobits - r.2.2)) &&& maxv] else r.1), true)
  else if r.2.2 ≥ frombits ∨ (r.2.1 <<< (tobits - r.2.2)) &&& maxv ≠ 0 then (r.1, false)
  else (r.1, true)

section ConvertBits

variable {f t : Nat}

/-- The inner loop emits the whole digits of the pending bits. -/
theorem emitLoop_spec (positive : 0 < t) (V : Nat) {acc bits : Nat} {out : List Nat} :
    Pending t V out acc bits →
      Pending t V (emitLoop t acc out bits).1 acc (emitLoop t acc out bits).2 ∧
        (emitLoop t acc out bits).2 < t ∧
        t * (emitLoop t acc out bits).1.length + (emitLoop t acc out bits).2 = t * out.length + bits := by
  fun_induction emitLoop t acc out bits with
  | case1 out bits guard ih =>
    intro pending
    have digit : (acc >>> (bits - t)) &&& ((1 <<< t) - 1) = acc / 2 ^ (bits - t) % 2 ^ t := by
      rw [and_mask, Nat.shiftRight_eq_div_pow]
    rw [digit] at ih ⊢
    obtain ⟨rest, lt, length⟩ := ih (pending.emit guard.2)
    refine ⟨rest, lt, ?_⟩
    rw [length, List.length_append, List.length_singleton]
    have := guard.2
    rw [Nat.mul_add, Nat.mul_one]
    omega
  | case2 out bits guard =>
    intro pending
    exact ⟨pending, by omega, rfl⟩

/-- The outer loop reads every digit into the accumulator and emits what is whole. -/
theorem convertLoop_spec (positive : 0 < t) : ∀ (xs : List Nat) {V acc bits : Nat} {out : List Nat},
    (∀ x ∈ xs, x < 2 ^ f) → Pending t V out acc bits → bits < t →
    Pending t (V * 2 ^ (f * xs.length) + value f xs) (convertLoop f t xs out acc bits).1
        (convertLoop f t xs out acc bits).2.1 (convertLoop f t xs out acc bits).2.2 ∧
      (convertLoop f t xs out acc bits).2.2 < t ∧
      t * (convertLoop f t xs out acc bits).1.length + (convertLoop f t xs out acc bits).2.2 =
        t * out.length + bits + f * xs.length
  | [], V, acc, bits, out, _, pending, lt => by
    simpa [convertLoop] using And.intro pending lt
  | x :: xs, V, acc, bits, out, digits, pending, lt => by
    have small := digits x List.mem_cons_self
    have masked : ((acc <<< f) ||| x) &&& ((1 <<< (f + t - 1)) - 1) = (acc * 2 ^ f + x) % 2 ^ (f + t - 1) := by
      rw [shiftLeft_or small, and_mask]
    have read := pending.read small (show bits + f ≤ f + t - 1 by omega)
    obtain ⟨emitted, emittedLt, emittedLength⟩ := emitLoop_spec positive _ read
    obtain ⟨rest, restLt, restLength⟩ :=
      convertLoop_spec positive xs (fun y mem => digits y (List.mem_cons_of_mem x mem)) emitted emittedLt
    have number : (V * 2 ^ f + x) * 2 ^ (f * xs.length) + value f xs =
        V * 2 ^ (f * (x :: xs).length) + value f (x :: xs) := by
      rw [value_cons, List.length_cons, Nat.mul_add, Nat.mul_one, pow_add]
      ring
    simp only [convertLoop, masked]
    rw [← number]
    refine ⟨rest, restLt, ?_⟩
    rw [restLength, emittedLength, List.length_cons]
    ring

/-- With `pad`, the output spells the input followed by fewer than `tobits` zero bits. -/
theorem ConvertBits_true_spec (positive : 0 < t) {xs : List Nat} (digits : ∀ x ∈ xs, x < 2 ^ f) :
    (ConvertBits f t true xs).2 = true ∧ (∀ y ∈ (ConvertBits f t true xs).1, y < 2 ^ t) ∧
      ∃ p < t, t * (ConvertBits f t true xs).1.length = f * xs.length + p ∧
        value t (ConvertBits f t true xs).1 = value f xs * 2 ^ p := by
  obtain ⟨pending, lt, length⟩ := convertLoop_spec positive xs digits (Pending.start t 0) positive
  simp only [zero_mul, zero_add, List.length_nil, Nat.mul_zero] at pending length
  simp only [ConvertBits, ↓reduceIte]
  generalize convertLoop f t xs [] 0 0 = r at pending lt length
  obtain ⟨out, acc, bits⟩ := r
  simp only at pending lt length
  by_cases empty : bits = 0
  · subst empty
    refine ⟨trivial, pending.lt, 0, positive, by simpa using length, ?_⟩
    simpa using pending.value
  · have last : (acc <<< (t - bits)) &&& ((1 <<< t) - 1) = acc * 2 ^ (t - bits) % 2 ^ t := by
      rw [and_mask, Nat.shiftLeft_eq]
    simp only [if_pos empty, last]
    refine ⟨trivial, ?_, t - bits, by omega, ?_, pending.pad lt.le⟩
    · intro y mem
      rcases List.mem_append.mp mem with mem | mem
      · exact pending.lt y mem
      · rw [List.mem_singleton.mp mem]
        exact Nat.mod_lt _ (Nat.two_pow_pos t)
    · rw [List.length_append, List.length_singleton, Nat.mul_add, Nat.mul_one]
      omega

/-- Without `pad`, the output spells the input without its last `b < tobits` bits, and the
result says whether those are fewer than `frombits` and zero. -/
theorem ConvertBits_false_spec (positive : 0 < t) {xs : List Nat} (digits : ∀ x ∈ xs, x < 2 ^ f) :
    ∃ b < t, t * (ConvertBits f t false xs).1.length + b = f * xs.length ∧
      (∀ y ∈ (ConvertBits f t false xs).1, y < 2 ^ t) ∧
      value t (ConvertBits f t false xs).1 = value f xs / 2 ^ b ∧
      ((ConvertBits f t false xs).2 = true ↔ b < f ∧ value f xs % 2 ^ b = 0) := by
  obtain ⟨pending, lt, length⟩ := convertLoop_spec positive xs digits (Pending.start t 0) positive
  simp only [zero_mul, zero_add, List.length_nil, Nat.mul_zero] at pending length
  simp only [ConvertBits, Bool.false_eq_true, ↓reduceIte]
  generalize convertLoop f t xs [] 0 0 = r at pending lt length
  obtain ⟨out, acc, bits⟩ := r
  simp only at pending lt length
  have last : (acc <<< (t - bits)) &&& ((1 <<< t) - 1) = acc * 2 ^ (t - bits) % 2 ^ t := by
    rw [and_mask, Nat.shiftLeft_eq]
  have check : (bits ≥ f ∨ acc * 2 ^ (t - bits) % 2 ^ t ≠ 0) ↔ ¬(bits < f ∧ value f xs % 2 ^ bits = 0) := by
    rw [ne_eq, pending.pad_eq_zero_iff lt.le]
    omega
  rw [last]
  refine ⟨bits, lt, ?_⟩
  by_cases bad : bits ≥ f ∨ acc * 2 ^ (t - bits) % 2 ^ t ≠ 0
  · rw [if_pos bad]
    exact ⟨length, pending.lt, pending.value, iff_of_false Bool.false_ne_true (check.mp bad)⟩
  · rw [if_neg bad]
    exact ⟨length, pending.lt, pending.value, iff_of_true rfl (not_not.mp ((not_congr check).mp bad))⟩

/-- Padding into digits no wider than the input's, then converting back without padding,
gives the input again. -/
theorem ConvertBits_false_true (positive : 0 < f) (le : f ≤ t) {xs : List Nat}
    (digits : ∀ x ∈ xs, x < 2 ^ t) : ConvertBits f t false (ConvertBits t f true xs).1 = (xs, true) := by
  obtain ⟨-, padded, p, hp, paddedLength, paddedValue⟩ := ConvertBits_true_spec positive digits
  obtain ⟨b, hb, length, lt, number, valid⟩ := ConvertBits_false_spec (t := t) (by omega) padded
  obtain ⟨sameLength, rfl⟩ := mul_add_eq_mul_add hb (by omega : p < t) (by omega :
    t * (ConvertBits f t false (ConvertBits t f true xs).1).1.length + b = t * xs.length + p)
  have sameValue : value t (ConvertBits f t false (ConvertBits t f true xs).1).1 = value t xs := by
    rw [number, paddedValue, Nat.mul_div_cancel _ (Nat.two_pow_pos b)]
  refine Prod.ext (value_inj (by omega) sameLength lt digits sameValue) ?_
  exact valid.mpr ⟨by omega, by rw [paddedValue]; exact Nat.mul_mod_left _ _⟩

/-- A conversion without padding that succeeds is undone by the padded one. -/
theorem ConvertBits_true_false (positive_f : 0 < f) (positive_t : 0 < t) {xs : List Nat}
    (digits : ∀ x ∈ xs, x < 2 ^ f) (valid : (ConvertBits f t false xs).2 = true) :
    ConvertBits t f true (ConvertBits f t false xs).1 = (xs, true) := by
  obtain ⟨b, hb, length, lt, number, iff⟩ := ConvertBits_false_spec positive_t digits
  obtain ⟨short, zero⟩ := iff.mp valid
  obtain ⟨flag, padded, p, hp, paddedLength, paddedValue⟩ := ConvertBits_true_spec positive_f lt
  obtain ⟨sameLength, rfl⟩ := mul_add_eq_mul_add short hp (by omega :
    f * (ConvertBits t f true (ConvertBits f t false xs).1).1.length + b = f * xs.length + p)
  have sameValue : value f (ConvertBits t f true (ConvertBits f t false xs).1).1 = value f xs := by
    rw [paddedValue, number, Nat.div_mul_cancel (Nat.dvd_of_mod_eq_zero zero)]
  exact Prod.ext (value_inj positive_f sameLength padded digits sameValue) flag

end ConvertBits

/-- `alphabet[v]`; past the last character is the C string's NUL. -/
def alphabetAt (alphabet : List Char) (v : Nat) : Char := alphabet.getD v '\x00'

/-- `table[(unsigned char)c]`. A character past 255, which a C string cannot hold, reads
as -1. -/
def tableAt (table : List Int) (c : Char) : Int := table.getD c.toNat (-1)

/-- The body of `EncodeBase64` and `EncodeBase32`: the bytes as `tobits`-bit digits
written with `alphabet`, then '=' up to a multiple of `block` characters. -/
def encodeGroups (alphabet : List Char) (tobits block : Nat) (bytes : List UInt8) : List Char :=
  let str := (ConvertBits 8 tobits true (bytes.map UInt8.toNat)).1.map (alphabetAt alphabet)
  -- `while (str.size() % block) str += '='`
  str ++ List.replicate ((block - str.length % block) % block) '='

/-- `while (valid && *p != 0) { if (*p != '=') { valid = false; break; } ++p; }`: the flag
after the loop, and how far `p` moved. -/
def padLoop : Bool → List Char → Bool × Nat
  | false, _ => (false, 0)
  | true, [] => (true, 0)
  | true, c :: cs =>
    if c = '\x00' then (true, 0)
    else if c ≠ '=' then (false, 0)
    else ((padLoop true cs).1, (padLoop true cs).2 + 1)

/-- The condition of `while (*p != 0) { int x = table[(unsigned char)*p]; if (x == -1) break; ... }`. -/
def tableDigit (table : List Int) (c : Char) : Bool := c != '\x00' && tableAt table c != -1

/-- The body of `DecodeBase64` and `DecodeBase32` on the characters from `p` on: the bytes,
and `*pfInvalid`. -/
def decodeGroups (table : List Int) (frombits block : Nat) (p : List Char) : List UInt8 × Bool :=
  let val := (p.takeWhile (tableDigit table)).map fun c => (tableAt table c).toNat
  let converted := ConvertBits frombits 8 false val
  let skipped := padLoop converted.2 (p.dropWhile (tableDigit table))
  -- `p - e` counts both loops' characters, `p - q` the second's
  let valid := skipped.1 && (val.length + skipped.2) % block == 0 && decide (skipped.2 < block)
  (converted.1.map Nat.toUInt8, !valid)

def pbase64 : List Char :=
  ['A', 'B', 'C', 'D', 'E', 'F', 'G', 'H', 'I', 'J', 'K', 'L', 'M', 'N', 'O', 'P', 'Q', 'R',
    'S', 'T', 'U', 'V', 'W', 'X', 'Y', 'Z', 'a', 'b', 'c', 'd', 'e', 'f', 'g', 'h', 'i', 'j',
    'k', 'l', 'm', 'n', 'o', 'p', 'q', 'r', 's', 't', 'u', 'v', 'w', 'x', 'y', 'z', '0', '1',
    '2', '3', '4', '5', '6', '7', '8', '9', '+', '/']

def decode64_table : List Int := [
  -1, -1, -1, -1, -1, -1, -1, -1, -1, -1, -1, -1, -1, -1, -1, -1, -1, -1, -1, -1,
  -1, -1, -1, -1, -1, -1, -1, -1, -1, -1, -1, -1, -1, -1, -1, -1, -1, -1, -1, -1,
  -1, -1, -1, 62, -1, -1, -1, 63, 52, 53, 54, 55, 56, 57, 58, 59, 60, 61, -1, -1,
  -1, -1, -1, -1, -1, 0, 1, 2, 3, 4, 5, 6, 7, 8, 9, 10, 11, 12, 13, 14,
  15, 16, 17, 18, 19, 20, 21, 22, 23, 24, 25, -1, -1, -1, -1, -1, -1, 26, 27, 28,
  29, 30, 31, 32, 33, 34, 35, 36, 37, 38, 39, 40, 41, 42, 43, 44, 45, 46, 47, 48,
  49, 50, 51, -1, -1, -1, -1, -1, -1, -1, -1, -1, -1, -1, -1, -1, -1, -1, -1, -1,
  -1, -1, -1, -1, -1, -1, -1, -1, -1, -1, -1, -1, -1, -1, -1, -1, -1, -1, -1, -1,
  -1, -1, -1, -1, -1, -1, -1, -1, -1, -1, -1, -1, -1, -1, -1, -1, -1, -1, -1, -1,
  -1, -1, -1, -1, -1, -1, -1, -1, -1, -1, -1, -1, -1, -1, -1, -1, -1, -1, -1, -1,
  -1, -1, -1, -1, -1, -1, -1, -1, -1, -1, -1, -1, -1, -1, -1, -1, -1, -1, -1, -1,
  -1, -1, -1, -1, -1, -1, -1, -1, -1, -1, -1, -1, -1, -1, -1, -1, -1, -1, -1, -1,
  -1, -1, -1, -1, -1, -1, -1, -1, -1, -1, -1, -1, -1, -1, -1, -1]

/-- `EncodeBase64(pch, len)`. -/
def EncodeBase64 (bytes : List UInt8) : List Char := encodeGroups pbase64 6 4 bytes

/-- `DecodeBase64(p, pfInvalid)`. -/
def DecodeBase64 (p : List Char) : List UInt8 × Bool := decodeGroups decode64_table 6 4 p

def pbase32 : List Char :=
  ['a', 'b', 'c', 'd', 'e', 'f', 'g', 'h', 'i', 'j', 'k', 'l', 'm', 'n', 'o', 'p', 'q', 'r',
    's', 't', 'u', 'v', 'w', 'x', 'y', 'z', '2', '3', '4', '5', '6', '7']

def decode32_table : List Int := [
  -1, -1, -1, -1, -1, -1, -1, -1, -1, -1, -1, -1, -1, -1, -1, -1, -1, -1, -1, -1,
  -1, -1, -1, -1, -1, -1, -1, -1, -1, -1, -1, -1, -1, -1, -1, -1, -1, -1, -1, -1,
  -1, -1, -1, -1, -1, -1, -1, -1, -1, -1, 26, 27, 28, 29, 30, 31, -1, -1, -1, -1,
  -1, -1, -1, -1, -1, 0, 1, 2, 3, 4, 5, 6, 7, 8, 9, 10, 11, 12, 13, 14,
  15, 16, 17, 18, 19, 20, 21, 22, 23, 24, 25, -1, -1, -1, -1, -1, -1, 0, 1, 2,
  3, 4, 5, 6, 7, 8, 9, 10, 11, 12, 13, 14, 15, 16, 17, 18, 19, 20, 21, 22,
  23, 24, 25, -1, -1, -1, -1, -1, -1, -1, -1, -1, -1, -1, -1, -1, -1, -1, -1, -1,
  -1, -1, -1, -1, -1, -1, -1, -1, -1, -1, -1, -1, -1, -1, -1, -1, -1, -1, -1, -1,
  -1, -1, -1, -1, -1, -1, -1, -1, -1, -1, -1, -1, -1, -1, -1, -1, -1, -1, -1, -1,
  -1, -1, -1, -1, -1, -1, -1, -1, -1, -1, -1, -1, -1, -1, -1, -1, -1, -1, -1, -1,
  -1, -1, -1, -1, -1, -1, -1, -1, -1, -1, -1, -1, -1, -1, -1, -1, -1, -1, -1, -1,
  -1, -1, -1, -1, -1, -1, -1, -1, -1, -1, -1, -1, -1, -1, -1, -1, -1, -1, -1, -1,
  -1, -1, -1, -1, -1, -1, -1, -1, -1, -1, -1, -1, -1, -1, -1, -1]

/-- `EncodeBase32(pch, len)`. -/
def EncodeBase32 (bytes : List UInt8) : List Char := encodeGroups pbase32 5 8 bytes

/-- `DecodeBase32(p, pfInvalid)`. -/
def DecodeBase32 (p : List Char) : List UInt8 × Bool := decodeGroups decode32_table 5 8 p

/-- The '=' characters the encoders add fill the last block. -/
theorem add_padding_mod {m : Nat} (positive : 0 < m) (n : Nat) : (n + (m - n % m) % m) % m = 0 := by
  have lt := Nat.mod_lt n positive
  rw [Nat.add_mod, Nat.mod_mod]
  rcases Nat.eq_zero_or_pos (n % m) with zero | pos
  · rw [zero, Nat.sub_zero, Nat.mod_self, Nat.zero_add, Nat.zero_mod]
  · rw [Nat.mod_eq_of_lt (by omega : m - n % m < m), Nat.add_sub_cancel' lt.le, Nat.mod_self]

/-- Fewer than `m` characters that fill the last block are the encoders' padding. -/
theorem padding_unique {m n k : Nat} (small : k < m) (fills : (n + k) % m = 0) : k = (m - n % m) % m := by
  have lt := Nat.mod_lt n (by omega : 0 < m)
  rw [Nat.add_mod, Nat.mod_eq_of_lt small] at fills
  by_cases wraps : m ≤ n % m + k
  · rw [Nat.mod_eq_sub_mod wraps, Nat.mod_eq_of_lt (by omega)] at fills
    rw [Nat.mod_eq_of_lt (by omega)]
    omega
  · rw [Nat.mod_eq_of_lt (by omega)] at fills
    rw [show n % m = 0 by omega, Nat.sub_zero, Nat.mod_self]
    omega

@[simp] theorem padLoop_false (cs : List Char) : padLoop false cs = (false, 0) := by
  cases cs <;> rfl

theorem padLoop_replicate (k : Nat) : padLoop true (List.replicate k '=') = (true, k) := by
  induction k with
  | zero => rfl
  | succ k ih => simp [List.replicate_succ, padLoop, ih]

/-- The loop accepts the rest of a C string only when it is all '='. -/
theorem eq_replicate_of_padLoop : ∀ {cs : List Char} {k : Nat}, '\x00' ∉ cs →
    padLoop true cs = (true, k) → cs = List.replicate k '='
  | [], k, _, loop => by
    obtain rfl : 0 = k := (Prod.mk.inj loop).2
    rfl
  | c :: cs, k, noNul, loop => by
    have notNul : c ≠ '\x00' := fun nul => noNul (nul ▸ List.mem_cons_self)
    by_cases pad : c = '='
    · subst pad
      simp only [padLoop, if_neg notNul, ne_eq, not_true_eq_false, if_false, Prod.mk.injEq] at loop
      obtain ⟨flag, count⟩ := loop
      have rest : cs = List.replicate (padLoop true cs).2 '=' :=
        eq_replicate_of_padLoop (fun mem => noNul (List.mem_cons_of_mem _ mem)) (Prod.ext flag rfl)
      rw [← count, List.replicate_succ, ← rest]
    · simp [padLoop, notNul, pad] at loop

/-- What the codec needs of an alphabet and its decoding table: the table reads each
digit's character as the digit, reads each character it does not reject as the digit whose
character is `norm c`, and rejects '=' and NUL. -/
structure TableInverse (alphabet : List Char) (table : List Int) (w : Nat) (norm : Char → Char) :
    Prop where
  table_alphabet : ∀ v < 2 ^ w, tableAt table (alphabetAt alphabet v) = v
  alphabet_table : ∀ c, tableAt table c ≠ -1 →
    (tableAt table c).toNat < 2 ^ w ∧ alphabetAt alphabet (tableAt table c).toNat = norm c
  pad : tableAt table '=' = -1
  nul : tableAt table '\x00' = -1
  norm_pad : norm '=' = '='

/-- A table of 256 entries is checked byte by byte. -/
theorem TableInverse.of_bytes {alphabet : List Char} {table : List Int} {w : Nat} {norm : Char → Char}
    (length : table.length = 256) (table_alphabet : ∀ v < 2 ^ w, tableAt table (alphabetAt alphabet v) = v)
    (bytes : ∀ n < 256, table.getD n (-1) ≠ -1 →
      (table.getD n (-1)).toNat < 2 ^ w ∧ alphabetAt alphabet (table.getD n (-1)).toNat = norm (Char.ofNat n))
    (pad : tableAt table '=' = -1) (nul : tableAt table '\x00' = -1) (norm_pad : norm '=' = '=') :
    TableInverse alphabet table w norm where
  table_alphabet := table_alphabet
  alphabet_table c valid := by
    have inRange : c.toNat < 256 := by
      by_contra outside
      exact valid (List.getD_eq_default _ _ (by omega))
    have read := bytes c.toNat inRange valid
    rw [Char.ofNat_toNat] at read
    exact read
  pad := pad
  nul := nul
  norm_pad := norm_pad

set_option maxRecDepth 4000 in
theorem pbase64_inverse : TableInverse pbase64 decode64_table 6 id :=
  TableInverse.of_bytes (by decide) (by decide) (by decide) (by decide) (by decide) rfl

set_option maxRecDepth 4000 in
theorem pbase32_inverse : TableInverse pbase32 decode32_table 5 Char.toLower :=
  TableInverse.of_bytes (by decide) (by decide) (by decide) (by decide) (by decide)
    (by decide)

theorem bytes_lt_two_pow (bytes : List UInt8) : ∀ x ∈ bytes.map UInt8.toNat, x < 2 ^ 8 := by
  intro x mem
  obtain ⟨b, -, rfl⟩ := List.mem_map.mp mem
  exact b.toNat_lt

theorem map_toUInt8_toNat (bytes : List UInt8) : (bytes.map UInt8.toNat).map Nat.toUInt8 = bytes := by
  rw [List.map_map]
  conv_rhs => rw [← List.map_id bytes]
  exact List.map_congr_left fun b _ => by simp

theorem map_toNat_toUInt8 {xs : List Nat} (lt : ∀ x ∈ xs, x < 2 ^ 8) :
    (xs.map Nat.toUInt8).map UInt8.toNat = xs := by
  rw [List.map_map]
  conv_rhs => rw [← List.map_id xs]
  exact List.map_congr_left fun x mem => by simpa using Nat.mod_eq_of_lt (lt x mem)

section Codec

variable {alphabet : List Char} {table : List Int} {w block : Nat} {norm : Char → Char}

theorem TableInverse.tableDigit_alphabetAt (inverse : TableInverse alphabet table w norm) {v : Nat}
    (lt : v < 2 ^ w) : tableDigit table (alphabetAt alphabet v) = true := by
  have read := inverse.table_alphabet v lt
  have notNul : alphabetAt alphabet v ≠ '\x00' := by
    intro nul
    rw [nul, inverse.nul] at read
    omega
  simp [tableDigit, notNul, read]

/-- Decoding undoes encoding, for digits no wider than a byte. -/
theorem decodeGroups_encodeGroups (inverse : TableInverse alphabet table w norm) (positive : 0 < w)
    (le : w ≤ 8) (filled : 0 < block) (bytes : List UInt8) :
    decodeGroups table w block (encodeGroups alphabet w block bytes) = (bytes, false) := by
  obtain ⟨-, digits, -⟩ := ConvertBits_true_spec positive (bytes_lt_two_pow bytes)
  have converted := ConvertBits_false_true positive le (bytes_lt_two_pow bytes)
  simp only [encodeGroups]
  generalize (ConvertBits 8 w true (bytes.map UInt8.toNat)).1 = ys at digits converted ⊢
  have written : ∀ c ∈ ys.map (alphabetAt alphabet), tableDigit table c = true := by
    intro c mem
    obtain ⟨y, member, rfl⟩ := List.mem_map.mp mem
    exact inverse.tableDigit_alphabetAt (digits y member)
  have padChar : tableDigit table '=' = false := by simp [tableDigit, inverse.pad]
  have read : (ys.map (alphabetAt alphabet)).map (fun c => (tableAt table c).toNat) = ys := by
    rw [List.map_map]
    conv_rhs => rw [← List.map_id ys]
    exact List.map_congr_left fun y mem => by simp [inverse.table_alphabet y (digits y mem)]
  simp only [decodeGroups, List.takeWhile_append_of_pos written, List.takeWhile_replicate,
    List.dropWhile_append_of_pos written, List.dropWhile_replicate, padChar, Bool.false_eq_true, if_false,
    List.append_nil, read, converted, padLoop_replicate, List.length_map, map_toUInt8_toNat]
  simp [add_padding_mod filled, Nat.mod_lt _ filled]

/-- A C string the decoder accepts is, up to `norm`, the encoding of what it returned. -/
theorem encodeGroups_decodeGroups (inverse : TableInverse alphabet table w norm) (positive : 0 < w)
    {p : List Char} (noNul : '\x00' ∉ p) (valid : (decodeGroups table w block p).2 = false) :
    p.map norm = encodeGroups alphabet w block (decodeGroups table w block p).1 := by
  have taken : ∀ c ∈ p.takeWhile (tableDigit table), tableAt table c ≠ -1 := by
    intro c mem
    have digit := List.mem_takeWhile_imp mem
    simp only [tableDigit, Bool.and_eq_true, bne_iff_ne] at digit
    exact digit.2
  have digits : ∀ x ∈ (p.takeWhile (tableDigit table)).map (fun c => (tableAt table c).toNat), x < 2 ^ w := by
    intro x mem
    obtain ⟨c, member, rfl⟩ := List.mem_map.mp mem
    exact (inverse.alphabet_table c (taken c member)).1
  have written : ((p.takeWhile (tableDigit table)).map (fun c => (tableAt table c).toNat)).map
      (alphabetAt alphabet) = (p.takeWhile (tableDigit table)).map norm := by
    rw [List.map_map]
    exact List.map_congr_left fun c mem => (inverse.alphabet_table c (taken c mem)).2
  have restNoNul : '\x00' ∉ p.dropWhile (tableDigit table) :=
    fun mem => noNul ((List.dropWhile_sublist _).subset mem)
  simp only [decodeGroups] at valid ⊢
  generalize (p.takeWhile (tableDigit table)).map (fun c => (tableAt table c).toNat) = val
    at digits written valid ⊢
  obtain ⟨_, _, _, bytesLt, _, _⟩ := ConvertBits_false_spec (f := w) (by norm_num : 0 < 8) digits
  generalize hconv : ConvertBits w 8 false val = converted at valid bytesLt ⊢
  obtain ⟨bytes, ok⟩ := converted
  generalize hskip : padLoop ok (p.dropWhile (tableDigit table)) = skipped at valid
  obtain ⟨flag, k⟩ := skipped
  simp only [Bool.not_eq_false', Bool.and_eq_true, beq_iff_eq, decide_eq_true_eq] at valid
  obtain ⟨⟨rfl, fills⟩, small⟩ := valid
  obtain rfl : ok = true := by
    cases ok
    · simp at hskip
    · rfl
  have rest := eq_replicate_of_padLoop restNoNul hskip
  have encoded := ConvertBits_true_false (t := 8) positive (by norm_num) digits (by rw [hconv])
  rw [hconv] at encoded
  simp only at bytesLt encoded
  conv_lhs => rw [← List.takeWhile_append_dropWhile (p := tableDigit table) (l := p), rest]
  simp only [encodeGroups, map_toNat_toUInt8 bytesLt, encoded, written, List.map_append, List.map_replicate,
    inverse.norm_pad, List.length_map]
  have sameLength : val.length = (p.takeWhile (tableDigit table)).length := by
    simpa using congrArg List.length written
  rw [← sameLength, ← padding_unique small fills]

end Codec

theorem DecodeBase64_EncodeBase64 (bytes : List UInt8) : DecodeBase64 (EncodeBase64 bytes) = (bytes, false) :=
  decodeGroups_encodeGroups pbase64_inverse (by norm_num) (by norm_num) (by norm_num) bytes

theorem DecodeBase32_EncodeBase32 (bytes : List UInt8) : DecodeBase32 (EncodeBase32 bytes) = (bytes, false) :=
  decodeGroups_encodeGroups pbase32_inverse (by norm_num) (by norm_num) (by norm_num) bytes

/-- A C string `DecodeBase64` accepts is the encoding of its result. -/
theorem EncodeBase64_DecodeBase64 {p : List Char} (noNul : '\x00' ∉ p) (valid : (DecodeBase64 p).2 = false) :
    p = EncodeBase64 (DecodeBase64 p).1 := by
  have encoded := encodeGroups_decodeGroups pbase64_inverse (by norm_num) noNul valid
  rwa [List.map_id] at encoded

/-- A C string `DecodeBase32` accepts is, in lowercase, the encoding of its result. -/
theorem EncodeBase32_DecodeBase32 {p : List Char} (noNul : '\x00' ∉ p) (valid : (DecodeBase32 p).2 = false) :
    p.map Char.toLower = EncodeBase32 (DecodeBase32 p).1 :=
  encodeGroups_decodeGroups pbase32_inverse (by norm_num) noNul valid

theorem Base64_Base32_canonical :
    (∀ bytes : List UInt8, DecodeBase64 (EncodeBase64 bytes) = (bytes, false)) ∧
    (∀ bytes : List UInt8, DecodeBase32 (EncodeBase32 bytes) = (bytes, false)) ∧
    (∀ p : List Char, '\x00' ∉ p → (DecodeBase64 p).2 = false → p = EncodeBase64 (DecodeBase64 p).1) ∧
    (∀ p : List Char, '\x00' ∉ p → (DecodeBase32 p).2 = false →
      p.map Char.toLower = EncodeBase32 (DecodeBase32 p).1) ∧
    (∀ frombits tobits : Nat, 0 < frombits → frombits ≤ tobits → ∀ xs : List Nat, (∀ x ∈ xs, x < 2 ^ tobits) →
      ConvertBits frombits tobits false (ConvertBits tobits frombits true xs).1 = (xs, true)) :=
  ⟨DecodeBase64_EncodeBase64, DecodeBase32_EncodeBase32, fun _ noNul valid => EncodeBase64_DecodeBase64 noNul valid,
    fun _ noNul valid => EncodeBase32_DecodeBase32 noNul valid,
    fun _ _ positive le _ digits => ConvertBits_false_true positive le digits⟩

unseal emitLoop in
/-- "TQ==" is the Base64 of "M", "mfra====" the Base32 of "ab", and the bytes 1, 2, 3 go to
6-bit digits and back. -/
theorem Base64_Base32_canonical_at_M :
    ('\x00' ∉ ['T', 'Q', '=', '='] ∧ (DecodeBase64 ['T', 'Q', '=', '=']).2 = false ∧
      ['T', 'Q', '=', '='] = EncodeBase64 (DecodeBase64 ['T', 'Q', '=', '=']).1) ∧
    ('\x00' ∉ ['m', 'f', 'r', 'a', '=', '=', '=', '='] ∧
      (DecodeBase32 ['m', 'f', 'r', 'a', '=', '=', '=', '=']).2 = false ∧
      ['m', 'f', 'r', 'a', '=', '=', '=', '='].map Char.toLower =
        EncodeBase32 (DecodeBase32 ['m', 'f', 'r', 'a', '=', '=', '=', '=']).1) ∧
    (0 < 6 ∧ 6 ≤ 8 ∧ (∀ x ∈ [1, 2, 3], x < 2 ^ 8) ∧
      ConvertBits 6 8 false (ConvertBits 8 6 true [1, 2, 3]).1 = ([1, 2, 3], true)) :=
  ⟨⟨by decide, by decide, Base64_Base32_canonical.2.2.1 _ (by decide) (by decide)⟩,
    ⟨by decide, by decide, Base64_Base32_canonical.2.2.2.1 _ (by decide) (by decide)⟩,
    ⟨by norm_num, by norm_num, by decide, Base64_Base32_canonical.2.2.2.2 6 8 (by norm_num) (by norm_num) _ (by decide)⟩⟩

unseal emitLoop in
/-- `decode32_table` reads 'A'..'Z' as 'a'..'z', so an uppercase Base32 text is accepted and
is not the encoding of its result. And the round trip of `ConvertBits` into wider digits
does not hold: three 6-bit digits padded into bytes take 24 bits, which read back as four
6-bit digits. -/
theorem Base32_uppercase_and_wider_round_trip :
    DecodeBase32 ['A', 'A', '=', '=', '=', '=', '=', '='] = ([0], false) ∧
      EncodeBase32 [0] = ['a', 'a', '=', '=', '=', '=', '=', '='] ∧
      ConvertBits 8 6 false (ConvertBits 6 8 true [0, 0, 0]).1 = ([0, 0, 0, 0], true) ∧
      ConvertBits 8 5 false (ConvertBits 5 8 true [0, 0]).1 = ([0, 0, 0], true) :=
  ⟨by decide, by decide, by decide, by decide⟩

end SalemCash
