import Mathlib.Tactic.IntervalCases
import SalemCash.Bits
import SalemCash.Unserialize

/-!
# Variable-length integers

`WriteVarInt<I>` writes a number in base 128, most significant digit first, with bit `0x80`
on every byte but the last. One is subtracted from every digit but the last, so that every
number has exactly one encoding: the bytes `a[0..len)` encode
`(a[len-1] & 0x7F) + sum(i=1..len-1, 128^i*((a[len-i-1] & 0x7F)+1))` (the comment above
`GetSizeOfVarInt` in `serialize.h`). `ReadVarInt<I>` reads the digits back and throws when the
value does not fit in `I`.

An unsigned `I` of `bits` bits is `BitVec bits`. The number a stream encodes, with no bound,
is `encodedValue`, and `varIntBytes` writes it: the two are inverse on all of `Nat`. The code
refines them. `ReadVarInt` returns the encoded value when it fits in `I` and throws
`"ReadVarInt(): size too large"` when it does not (`loop_of_encodedValue`,
`encodedValue_of_loop`); `WriteVarInt` writes `varIntBytes` and never stores past its `tmp`
buffer (`WriteVarInt_eq`), and `GetSizeOfVarInt` counts those bytes.
-/
set_option autoImplicit false

namespace SalemCash

namespace VarInt

variable {bits : Nat}

/-- `std::numeric_limits<I>::max()`. -/
def numericLimitsMax (bits : Nat) : BitVec bits := BitVec.allOnes bits

/-- A value above `0x7F` is at least `128`: below seven bits `0x7F` is the largest value. -/
theorem le_toNat_of_not_le {n : BitVec bits} (big : ¬n ≤ 0x7F) : 128 ≤ n.toNat := by
  simp only [BitVec.le_def, BitVec.ofNat_eq_ofNat, BitVec.toNat_ofNat] at big
  have lt := n.isLt
  by_cases wide : 7 ≤ bits
  · have atLeast : 2 ^ 7 ≤ 2 ^ bits := Nat.pow_le_pow_right (by norm_num) wide
    rw [Nat.mod_eq_of_lt (by omega)] at big
    omega
  · interval_cases bits <;> simp at big lt <;> omega

/-- The step `n = (n >> 7) - 1` of `GetSizeOfVarInt` and `WriteVarInt`, above `0x7F`. -/
theorem toNat_next {n : BitVec bits} (big : ¬n ≤ 0x7F) : ((n >>> 7) - 1).toNat = n.toNat / 128 - 1 := by
  have atLeast := le_toNat_of_not_le big
  have lt := n.isLt
  have one : 1 % 2 ^ bits = 1 := Nat.mod_eq_of_lt (by omega)
  simp only [BitVec.toNat_sub, BitVec.toNat_ushiftRight, Nat.shiftRight_eq_div_pow, BitVec.ofNat_eq_ofNat,
    BitVec.toNat_ofNat, one]
  have wrap : 2 ^ bits - 1 + n.toNat / 2 ^ 7 = (n.toNat / 128 - 1) + 2 ^ bits := by
    have : n.toNat / 2 ^ 7 = n.toNat / 128 := rfl
    omega
  rw [wrap, Nat.add_mod_right, Nat.mod_eq_of_lt (by omega)]

theorem next_lt {n : BitVec bits} (big : ¬n ≤ 0x7F) : ((n >>> 7) - 1).toNat < n.toNat := by
  rw [toNat_next big]
  have := le_toNat_of_not_le big
  omega

def GetSizeOfVarInt (n : BitVec bits) : Nat :=
  if n ≤ 0x7F then 1 else GetSizeOfVarInt ((n >>> 7) - 1) + 1
termination_by n.toNat
decreasing_by exact next_lt ‹_›

/-- `sizeof(tmp)`: `(sizeof(n)*8+6)/7` bytes. -/
def tmpSize (bits : Nat) : Nat := (bits + 6) / 7

/-- The first loop of `WriteVarInt`: `tmp[len] = (n & 0x7F) | (len ? 0x80 : 0x00)`, then while
`n > 0x7F`, `n = (n >> 7) - 1` and `len++`. It returns the last `len` and `tmp`, or `none` for a
store past the end of `tmp`. -/
def WriteVarInt.fill (n : BitVec bits) (len : Nat) (tmp : List UInt8) : Option (Nat × List UInt8) :=
  if len < tmp.length then
    let tmp := tmp.set len ((n &&& 0x7F).toNat ||| if len ≠ 0 then 0x80 else 0x00).toUInt8
    if n ≤ 0x7F then some (len, tmp) else WriteVarInt.fill ((n >>> 7) - 1) (len + 1) tmp
  else none
termination_by n.toNat
decreasing_by exact next_lt ‹_›

/-- `WriteVarInt`: after the first loop, `tmp[len], tmp[len - 1], ..., tmp[0]`. -/
def WriteVarInt (n : BitVec bits) : Option (List UInt8) :=
  (WriteVarInt.fill n 0 (List.replicate (tmpSize bits) 0)).map fun written =>
    (written.2.take (written.1 + 1)).reverse

/-- The loop of `ReadVarInt` from the value `n` read so far. Each round reads one byte, so it
recurses on the unread stream; at its end `ser_readdata8` fails. -/
def ReadVarInt.loop (n : BitVec bits) : List UInt8 → Except ios_failure (BitVec bits × List UInt8)
  | [] => .error ⟨"CDataStream::read(): end of data"⟩
  | chData :: s =>
    if numericLimitsMax bits >>> 7 < n then .error ⟨"ReadVarInt(): size too large"⟩
    else
      let n := (n <<< 7) ||| BitVec.ofNat bits (chData &&& 0x7F).toNat
      if chData &&& 0x80 ≠ 0 then
        if n = numericLimitsMax bits then .error ⟨"ReadVarInt(): size too large"⟩
        else ReadVarInt.loop (n + 1) s
      else .ok (n, s)

def ReadVarInt : Unserializer (BitVec bits) := ReadVarInt.loop 0

/-- The number encoded from the front of a stream up to the first byte without bit `0x80`,
after digits worth `acc`: each byte adds its low seven bits as the next digit, and each byte
with bit `0x80` one more. `none` when the stream ends first. -/
def encodedValue (acc : Nat) : List UInt8 → Option (Nat × List UInt8)
  | [] => none
  | chData :: s =>
    if chData &&& 0x80 ≠ 0 then encodedValue (acc * 128 + (chData &&& 0x7F).toNat + 1) s
    else some (acc * 128 + (chData &&& 0x7F).toNat, s)

/-- The encoding of `x`, most significant digit first: bit `0x80` on every byte but the last,
and on the last too when `more`. -/
def varIntBytes (more : Bool) (x : Nat) : List UInt8 :=
  let last := (x % 128 ||| if more then 0x80 else 0x00).toUInt8
  if x ≤ 127 then [last] else varIntBytes true (x / 128 - 1) ++ [last]
termination_by x
decreasing_by omega

/-- A number below 128 is its own single byte. -/
theorem varIntBytes_of_le {x : Nat} (small : x ≤ 127) : varIntBytes false x = [x.toUInt8] := by
  rw [varIntBytes, if_pos small, Nat.mod_eq_of_lt (by omega), if_neg Bool.false_ne_true, Nat.or_zero]

/-- The byte of a digit `d < 128`, with bit `0x80` when `p`. -/
theorem toNat_digitByte (p : Prop) [Decidable p] {d : Nat} (small : d < 128) :
    (d ||| if p then 0x80 else 0x00).toUInt8.toNat = d + if p then 128 else 0 := by
  by_cases flag : p
  · have or : d ||| 0x80 = d + 128 := by
      rw [Nat.or_comm, show (0x80 : Nat) = 2 ^ 7 * 1 from rfl, ← Nat.two_pow_add_eq_or_of_lt small]
      omega
    rw [if_pos flag, or, Nat.toUInt8, UInt8.toNat_ofNat', Nat.mod_eq_of_lt (by omega)]
  · rw [if_neg flag, Nat.or_zero, Nat.toUInt8, UInt8.toNat_ofNat', Nat.mod_eq_of_lt (by omega), Nat.add_zero]

theorem low_digitByte (p : Prop) [Decidable p] {d : Nat} (small : d < 128) :
    ((d ||| if p then 0x80 else 0x00).toUInt8 &&& 0x7F).toNat = d := by
  rw [Bits.toNat_low, toNat_digitByte p small]
  split <;> omega

theorem flag_digitByte (p : Prop) [Decidable p] {d : Nat} (small : d < 128) :
    (d ||| if p then 0x80 else 0x00).toUInt8 &&& 0x80 ≠ 0 ↔ p := by
  rw [ne_eq, ← UInt8.toNat_inj, Bits.toNat_sign, toNat_digitByte p small, UInt8.toNat_zero]
  by_cases flag : p <;> simp [flag, small]

/-- Every byte is the byte of its low seven bits, with bit `0x80` as it has it. -/
theorem digitByte_eq (c : UInt8) :
    ((c &&& 0x7F).toNat ||| if c &&& 0x80 ≠ 0 then 0x80 else 0x00).toUInt8 = c := by
  have small : (c &&& 0x7F).toNat < 128 := by
    rw [Bits.toNat_low]
    omega
  apply UInt8.toNat_inj.mp
  rw [toNat_digitByte _ small, Bits.toNat_low]
  have sign := Bits.toNat_sign c
  have lt := c.toNat_lt
  by_cases flag : c &&& 0x80 ≠ 0
  · rw [if_pos flag]
    rw [ne_eq, ← UInt8.toNat_inj, sign, UInt8.toNat_zero] at flag
    split at flag <;> omega
  · rw [if_neg flag]
    rw [ne_eq, not_not, ← UInt8.toNat_inj, sign, UInt8.toNat_zero] at flag
    split at flag <;> omega

/-- `encodedValue` reading the byte of a digit. -/
theorem encodedValue_digitByte (acc : Nat) (more : Bool) {d : Nat} (small : d < 128) (rest : List UInt8) :
    encodedValue acc ((d ||| if more then 0x80 else 0x00).toUInt8 :: rest) =
      if more then encodedValue (acc * 128 + d + 1) rest else some (acc * 128 + d, rest) := by
  rw [encodedValue, low_digitByte _ small]
  by_cases flag : more = true
  · rw [if_pos ((flag_digitByte _ small).mpr flag), if_pos flag]
  · rw [if_neg (fun h => flag ((flag_digitByte _ small).mp h)), if_neg flag]

/-- Reading `varIntBytes` from the start gives back the number; when its last byte has bit
`0x80`, the reading goes on from one more. -/
theorem encodedValue_varIntBytes (more : Bool) (x : Nat) (rest : List UInt8) :
    encodedValue 0 (varIntBytes more x ++ rest) = if more then encodedValue (x + 1) rest else some (x, rest) := by
  induction x using Nat.strongRecOn generalizing more rest with
  | ind x ih =>
    rw [varIntBytes]
    by_cases small : x ≤ 127
    · rw [if_pos small, List.singleton_append, encodedValue_digitByte 0 more (Nat.mod_lt x (by norm_num)),
        Nat.mod_eq_of_lt (by omega), Nat.zero_mul, Nat.zero_add]
    · rw [if_neg small, List.append_assoc, ih (x / 128 - 1) (by omega) true, if_pos rfl, List.singleton_append,
        encodedValue_digitByte _ more (Nat.mod_lt x (by norm_num))]
      have split : (x / 128 - 1 + 1) * 128 + x % 128 = x := by omega
      rw [split]

/-- The bytes that take `encodedValue` from `0` to `acc`. -/
def varIntPrefix (acc : Nat) : List UInt8 := if acc = 0 then [] else varIntBytes true (acc - 1)

theorem varIntBytes_digit (more : Bool) (acc : Nat) {d : Nat} (small : d < 128) :
    varIntBytes more (acc * 128 + d) = varIntPrefix acc ++ [(d ||| if more then 0x80 else 0x00).toUInt8] := by
  have low : (acc * 128 + d) % 128 = d := by omega
  rw [varIntBytes, low, varIntPrefix]
  by_cases zero : acc = 0
  · rw [if_pos (by omega), if_pos zero]
    rfl
  · rw [if_neg (by omega), if_neg zero, show (acc * 128 + d) / 128 - 1 = acc - 1 by omega]

/-- Whatever `encodedValue` reads is `varIntBytes` of the number it returns: every number
has one encoding. -/
theorem varIntBytes_of_encodedValue {acc v : Nat} {s rest : List UInt8}
    (decoded : encodedValue acc s = some (v, rest)) : varIntPrefix acc ++ s = varIntBytes false v ++ rest := by
  induction s generalizing acc with
  | nil => cases decoded
  | cons c s ih =>
    have small : (c &&& 0x7F).toNat < 128 := by
      rw [Bits.toNat_low]
      omega
    have byte := digitByte_eq c
    rw [encodedValue] at decoded
    by_cases flag : c &&& 0x80 ≠ 0
    · rw [if_pos flag] at decoded byte
      have read := ih decoded
      rw [varIntPrefix, if_neg (by omega), Nat.add_sub_cancel, varIntBytes_digit true acc small, if_pos rfl,
        byte] at read
      rw [← read, List.append_assoc, List.singleton_append]
    · rw [if_neg flag] at decoded byte
      obtain ⟨rfl, rfl⟩ := Prod.mk.inj (Option.some.inj decoded)
      rw [varIntBytes_digit false acc small, if_neg Bool.false_ne_true, byte, List.append_assoc,
        List.singleton_append]

/-- `encodedValue` only grows from its start. -/
theorem le_encodedValue {acc v : Nat} {s rest : List UInt8} (decoded : encodedValue acc s = some (v, rest)) :
    acc ≤ v := by
  induction s generalizing acc with
  | nil => cases decoded
  | cons c s ih =>
    rw [encodedValue] at decoded
    split at decoded
    · have := ih decoded
      nlinarith
    · obtain ⟨rfl, -⟩ := Prod.mk.inj (Option.some.inj decoded)
      nlinarith

theorem toNat_max_shift : (numericLimitsMax bits >>> 7).toNat = (2 ^ bits - 1) / 128 := by
  rw [BitVec.toNat_ushiftRight, numericLimitsMax, BitVec.toNat_allOnes, Nat.shiftRight_eq_div_pow]

/-- A round of `ReadVarInt` past the guard throws. -/
theorem loop_cons_of_above {n : BitVec bits} (above : (2 ^ bits - 1) / 128 < n.toNat) (c : UInt8)
    (s : List UInt8) : ReadVarInt.loop n (c :: s) = .error ⟨"ReadVarInt(): size too large"⟩ := by
  rw [ReadVarInt.loop, if_pos (by rw [BitVec.lt_def, toNat_max_shift]; exact above)]

section Read

variable (wide : 7 ≤ bits)
include wide

theorem two_pow_seven_le : 2 ^ 7 ≤ 2 ^ bits := Nat.pow_le_pow_right (by norm_num) wide

theorem toNat_0x7F : (0x7F : BitVec bits).toNat = 127 := by
  have := two_pow_seven_le wide
  rw [BitVec.ofNat_eq_ofNat, BitVec.toNat_ofNat, Nat.mod_eq_of_lt (show 127 < 2 ^ bits by omega)]

/-- Below the guard of `ReadVarInt`, `(n << 7) | d` is `n * 128 + d`. -/
theorem toNat_shift_or {n : BitVec bits} (fits : n.toNat ≤ (2 ^ bits - 1) / 128) {d : Nat} (small : d < 128) :
    ((n <<< 7) ||| BitVec.ofNat bits d).toNat = n.toNat * 128 + d := by
  have big := two_pow_seven_le wide
  rw [BitVec.toNat_or, BitVec.toNat_shiftLeft, BitVec.toNat_ofNat, Nat.shiftLeft_eq,
    Nat.mod_eq_of_lt (show n.toNat * 2 ^ 7 < 2 ^ bits by omega), Nat.mod_eq_of_lt (show d < 2 ^ bits by omega),
    Nat.mul_comm, ← Nat.two_pow_add_eq_or_of_lt (show d < 2 ^ 7 from small)]
  omega

/-- A round of `ReadVarInt` within the guard, in numbers: the next digit, and one more when
another byte follows, unless that passes `max`. -/
theorem loop_cons_of_fits {n : BitVec bits} (fits : n.toNat ≤ (2 ^ bits - 1) / 128) (c : UInt8)
    (s : List UInt8) :
    ReadVarInt.loop n (c :: s) =
      if c &&& 0x80 ≠ 0 then
        if n.toNat * 128 + (c &&& 0x7F).toNat = 2 ^ bits - 1 then .error ⟨"ReadVarInt(): size too large"⟩
        else ReadVarInt.loop (BitVec.ofNat bits (n.toNat * 128 + (c &&& 0x7F).toNat + 1)) s
      else .ok (BitVec.ofNat bits (n.toNat * 128 + (c &&& 0x7F).toNat), s) := by
  have small : (c &&& 0x7F).toNat < 128 := by
    rw [Bits.toNat_low]
    omega
  have value := toNat_shift_or wide fits small
  have lt := (n <<< 7 ||| BitVec.ofNat bits (c &&& 0x7F).toNat).isLt
  have shifted : (n <<< 7 ||| BitVec.ofNat bits (c &&& 0x7F).toNat) =
      BitVec.ofNat bits (n.toNat * 128 + (c &&& 0x7F).toNat) := by
    apply BitVec.eq_of_toNat_eq
    rw [value, BitVec.toNat_ofNat, Nat.mod_eq_of_lt (by omega)]
  have atMax : BitVec.ofNat bits (n.toNat * 128 + (c &&& 0x7F).toNat) = numericLimitsMax bits ↔
      n.toNat * 128 + (c &&& 0x7F).toNat = 2 ^ bits - 1 := by
    rw [← BitVec.toNat_inj, BitVec.toNat_ofNat, numericLimitsMax, BitVec.toNat_allOnes, Nat.mod_eq_of_lt (by omega)]
  have succ : BitVec.ofNat bits (n.toNat * 128 + (c &&& 0x7F).toNat) + 1 =
      BitVec.ofNat bits (n.toNat * 128 + (c &&& 0x7F).toNat + 1) := by
    apply BitVec.eq_of_toNat_eq
    rw [BitVec.toNat_add, BitVec.toNat_ofNat, BitVec.toNat_ofNat, BitVec.ofNat_eq_ofNat, BitVec.toNat_ofNat,
      ← Nat.add_mod]
  rw [ReadVarInt.loop, if_neg (by rw [BitVec.lt_def, toNat_max_shift]; omega)]
  dsimp only
  rw [shifted, succ]
  simp only [atMax]

/-- Where the encoded value fits in `I`, `ReadVarInt` returns it; where it does not, it throws. -/
theorem loop_of_encodedValue : ∀ (s : List UInt8) (n : BitVec bits) {v : Nat} {rest : List UInt8},
    encodedValue n.toNat s = some (v, rest) →
      ReadVarInt.loop n s =
        if v < 2 ^ bits then .ok (BitVec.ofNat bits v, rest) else .error ⟨"ReadVarInt(): size too large"⟩
  | [], _, _, _, decoded => by cases decoded
  | c :: s, n, v, rest, decoded => by
    have grown : n.toNat * 128 + (c &&& 0x7F).toNat ≤ v := by
      rw [encodedValue] at decoded
      split at decoded
      · have := le_encodedValue decoded
        omega
      · obtain ⟨rfl, -⟩ := Prod.mk.inj (Option.some.inj decoded)
        exact le_refl _
    have big := two_pow_seven_le wide
    by_cases fits : n.toNat ≤ (2 ^ bits - 1) / 128
    · rw [loop_cons_of_fits wide fits]
      rw [encodedValue] at decoded
      by_cases flag : c &&& 0x80 ≠ 0
      · rw [if_pos flag] at decoded ⊢
        by_cases top : n.toNat * 128 + (c &&& 0x7F).toNat = 2 ^ bits - 1
        · have := le_encodedValue decoded
          rw [if_pos top, if_neg (by omega)]
        · have lt := (n <<< 7 ||| BitVec.ofNat bits (c &&& 0x7F).toNat).isLt
          rw [toNat_shift_or wide fits (by rw [Bits.toNat_low]; omega)] at lt
          rw [if_neg top]
          apply loop_of_encodedValue s
          rwa [BitVec.toNat_ofNat, Nat.mod_eq_of_lt (by omega)]
      · rw [if_neg flag] at decoded ⊢
        obtain ⟨rfl, rfl⟩ := Prod.mk.inj (Option.some.inj decoded)
        have lt := (n <<< 7 ||| BitVec.ofNat bits (c &&& 0x7F).toNat).isLt
        rw [toNat_shift_or wide fits (by rw [Bits.toNat_low]; omega)] at lt
        rw [if_pos lt]
    · rw [loop_cons_of_above (by omega), if_neg (by omega)]

/-- Whatever `ReadVarInt` returns is the encoded value. -/
theorem encodedValue_of_loop : ∀ (s : List UInt8) (n : BitVec bits) {m : BitVec bits} {rest : List UInt8},
    ReadVarInt.loop n s = .ok (m, rest) → encodedValue n.toNat s = some (m.toNat, rest)
  | [], _, _, _, run => by cases run
  | c :: s, n, m, rest, run => by
    by_cases fits : n.toNat ≤ (2 ^ bits - 1) / 128
    · have lt := (n <<< 7 ||| BitVec.ofNat bits (c &&& 0x7F).toNat).isLt
      rw [toNat_shift_or wide fits (by rw [Bits.toNat_low]; omega)] at lt
      rw [loop_cons_of_fits wide fits] at run
      rw [encodedValue]
      by_cases flag : c &&& 0x80 ≠ 0
      · rw [if_pos flag] at run ⊢
        by_cases top : n.toNat * 128 + (c &&& 0x7F).toNat = 2 ^ bits - 1
        · rw [if_pos top] at run
          cases run
        · rw [if_neg top] at run
          have read := encodedValue_of_loop s _ run
          rwa [BitVec.toNat_ofNat, Nat.mod_eq_of_lt (by omega)] at read
      · rw [if_neg flag] at run ⊢
        obtain ⟨rfl, rfl⟩ := Prod.mk.inj (Except.ok.inj run)
        rw [BitVec.toNat_ofNat, Nat.mod_eq_of_lt lt]
    · rw [loop_cons_of_above (by omega)] at run
      cases run

theorem ReadVarInt_eq_ok_iff (s : List UInt8) (m : BitVec bits) (rest : List UInt8) :
    ReadVarInt.run s = .ok (m, rest) ↔ encodedValue 0 s = some (m.toNat, rest) := by
  constructor
  · exact encodedValue_of_loop wide s 0
  · intro decoded
    have read := loop_of_encodedValue wide s 0 decoded
    rw [if_pos m.isLt, BitVec.ofNat_toNat, BitVec.setWidth_eq] at read
    exact read

theorem ReadVarInt_too_large {s : List UInt8} {v : Nat} {rest : List UInt8}
    (decoded : encodedValue 0 s = some (v, rest)) (large : 2 ^ bits ≤ v) :
    (ReadVarInt : Unserializer (BitVec bits)).run s = .error ⟨"ReadVarInt(): size too large"⟩ := by
  have read := loop_of_encodedValue wide s 0 decoded
  rw [if_neg (by omega)] at read
  exact read

/-- `ReadVarInt` takes back what `varIntBytes` writes of every value of the type. -/
theorem ReadVarInt_varIntBytes (n : BitVec bits) (rest : List UInt8) :
    (ReadVarInt : Unserializer (BitVec bits)).run (varIntBytes false n.toNat ++ rest) = .ok (n, rest) := by
  rw [ReadVarInt_eq_ok_iff wide, encodedValue_varIntBytes, if_neg Bool.false_ne_true]

theorem ReadVarInt_ofNat {n : Nat} (small : n < 2 ^ bits) (rest : List UInt8) :
    (ReadVarInt : Unserializer (BitVec bits)).run (varIntBytes false n ++ rest) = .ok (BitVec.ofNat bits n, rest) := by
  have read := ReadVarInt_varIntBytes wide (BitVec.ofNat bits n) rest
  rwa [BitVec.toNat_ofNat, Nat.mod_eq_of_lt small] at read

end Read

theorem length_varIntBytes_pos (more : Bool) (x : Nat) : 0 < (varIntBytes more x).length := by
  rw [varIntBytes]
  split <;> simp

/-- `m + 1` digits hold every number below `128 ^ (m + 1)`. -/
theorem length_varIntBytes_le (more : Bool) : ∀ (m x : Nat), x < 128 ^ (m + 1) → (varIntBytes more x).length ≤ m + 1
  | 0, x, lt => by
    rw [varIntBytes, if_pos (by norm_num at lt; omega)]
    simp
  | m + 1, x, lt => by
    rw [varIntBytes]
    split
    · simp
    · rw [pow_succ] at lt
      have := length_varIntBytes_le true m (x / 128 - 1) (by omega)
      rw [List.length_append, List.length_singleton]
      omega

section Write

variable (wide : 7 ≤ bits)
include wide

theorem le_0x7F_iff (n : BitVec bits) : n ≤ 0x7F ↔ n.toNat ≤ 127 := by
  rw [BitVec.le_def, toNat_0x7F wide]

theorem toNat_and_0x7F (n : BitVec bits) : (n &&& 0x7F).toNat = n.toNat % 128 := by
  rw [BitVec.toNat_and, toNat_0x7F wide, show (127 : Nat) = 2 ^ 7 - 1 from rfl, Nat.and_two_pow_sub_one_eq_mod]

theorem GetSizeOfVarInt_eq (more : Bool) (n : BitVec bits) :
    GetSizeOfVarInt n = (varIntBytes more n.toNat).length := by
  induction n using GetSizeOfVarInt.induct generalizing more with
  | case1 n small =>
    rw [GetSizeOfVarInt, if_pos small, varIntBytes, if_pos ((le_0x7F_iff wide n).mp small)]
    rfl
  | case2 n big ih =>
    rw [GetSizeOfVarInt, if_neg big, varIntBytes, if_neg (fun h => big ((le_0x7F_iff wide n).mpr h)),
      List.length_append, ih true, toNat_next big]
    rfl

/-- `m + 1` digits fit in `tmp`. -/
theorem length_varIntBytes_le_tmpSize (more : Bool) (n : BitVec bits) :
    (varIntBytes more n.toNat).length ≤ tmpSize bits := by
  obtain ⟨m, size⟩ : ∃ m, tmpSize bits = m + 1 := ⟨tmpSize bits - 1, by unfold tmpSize; omega⟩
  rw [size]
  apply length_varIntBytes_le
  calc n.toNat < 2 ^ bits := n.isLt
    _ ≤ 2 ^ (7 * (m + 1)) := Nat.pow_le_pow_right (by norm_num) (by unfold tmpSize at size; omega)
    _ = 128 ^ (m + 1) := by rw [pow_mul]; norm_num

/-- The first loop of `WriteVarInt` stores the bytes of `varIntBytes` from `tmp[len]` on,
lowest digit first, when they fit. -/
theorem fill_eq (n : BitVec bits) (len : Nat) (tmp : List UInt8)
    (room : len + (varIntBytes (len ≠ 0) n.toNat).length ≤ tmp.length) :
    WriteVarInt.fill n len tmp = some (len + (varIntBytes (len ≠ 0) n.toNat).length - 1,
      tmp.take len ++ (varIntBytes (len ≠ 0) n.toNat).reverse ++
        tmp.drop (len + (varIntBytes (len ≠ 0) n.toNat).length)) := by
  induction n, len, tmp using WriteVarInt.fill.induct with
  | case1 n len tmp inside small =>
    have digits : varIntBytes (len ≠ 0) n.toNat =
        [((n &&& 0x7F).toNat ||| if len ≠ 0 then 0x80 else 0x00).toUInt8] := by
      rw [varIntBytes, if_pos ((le_0x7F_iff wide n).mp small), toNat_and_0x7F wide]
      simp only [decide_eq_true_eq]
    rw [WriteVarInt.fill, if_pos inside]
    dsimp only
    rw [if_pos small, digits, List.set_eq_take_cons_drop _ inside]
    simp
  | case2 n len tmp inside written big ih =>
    have digits : varIntBytes (len ≠ 0) n.toNat = varIntBytes true ((n >>> 7) - 1).toNat ++
        [((n &&& 0x7F).toNat ||| if len ≠ 0 then 0x80 else 0x00).toUInt8] := by
      rw [varIntBytes, if_neg (fun h => big ((le_0x7F_iff wide n).mpr h)), toNat_next big, toNat_and_0x7F wide]
      simp only [decide_eq_true_eq]
    rw [digits, List.length_append, List.length_singleton] at room
    have stored : written = tmp.take len ++
        ((n &&& 0x7F).toNat ||| if len ≠ 0 then 0x80 else 0x00).toUInt8 :: tmp.drop (len + 1) := by
      simp only [written, dite_eq_ite]
      exact List.set_eq_take_cons_drop _ inside
    simp only [ne_eq, Nat.add_one_ne_zero, not_false_eq_true, decide_true] at ih
    rw [stored] at ih
    have later := ih (by simp only [List.length_append, List.length_cons, List.length_take, List.length_drop]; omega)
    rw [WriteVarInt.fill, if_pos inside]
    dsimp only
    have short : (tmp.take len).length = len := by simp; omega
    have front : (tmp.take len ++ ((n &&& 0x7F).toNat ||| if len ≠ 0 then 0x80 else 0x00).toUInt8 ::
        tmp.drop (len + 1)).take (len + 1) =
          tmp.take len ++ [((n &&& 0x7F).toNat ||| if len ≠ 0 then 0x80 else 0x00).toUInt8] := by
      rw [List.take_append, short, List.take_of_length_le (by omega), Nat.add_sub_cancel_left]
      rfl
    have back : ∀ k, (tmp.take len ++ ((n &&& 0x7F).toNat ||| if len ≠ 0 then 0x80 else 0x00).toUInt8 ::
        tmp.drop (len + 1)).drop (len + 1 + k) = tmp.drop (len + (k + 1)) := by
      intro k
      rw [List.drop_append, short, List.drop_of_length_le (by omega), List.nil_append,
        show len + 1 + k - len = k + 1 by omega, List.drop_succ_cons, List.drop_drop]
      congr 1
      omega
    rw [if_neg big, List.set_eq_take_cons_drop _ inside, later, digits, front, back, List.length_append,
      List.length_singleton, List.reverse_append]
    simp only [List.reverse_singleton, List.append_assoc, List.singleton_append, Option.some.injEq, Prod.mk.injEq,
      and_true]
    omega
  | case3 n len tmp outside =>
    have := length_varIntBytes_pos (len ≠ 0) n.toNat
    omega

/-- `WriteVarInt` never stores past `tmp`, and writes `varIntBytes`. -/
theorem WriteVarInt_eq (n : BitVec bits) : WriteVarInt n = some (varIntBytes false n.toNat) := by
  have room := length_varIntBytes_le_tmpSize wide false n
  have positive := length_varIntBytes_pos false n.toNat
  have filled := fill_eq wide n 0 (List.replicate (tmpSize bits) 0) (by simpa using room)
  simp only [ne_eq, not_true_eq_false, decide_false] at filled
  rw [WriteVarInt, filled, Option.map_some]
  simp [Nat.sub_add_cancel positive]

theorem WriteVarInt_ofNat {n : Nat} (small : n < 2 ^ bits) :
    WriteVarInt (BitVec.ofNat bits n) = some (varIntBytes false n) := by
  rw [WriteVarInt_eq wide, BitVec.toNat_ofNat, Nat.mod_eq_of_lt small]

end Write

-- The table of encodings in the comment above the source's `GetSizeOfVarInt`.
unseal varIntBytes in
example : varIntBytes false 127 = [0x7F] ∧ varIntBytes false 128 = [0x80, 0x00] ∧
    varIntBytes false 16511 = [0xFF, 0x7F] ∧ varIntBytes false 65535 = [0x82, 0xFE, 0x7F] ∧
    varIntBytes false (2 ^ 32) = [0x8E, 0xFE, 0xFE, 0xFF, 0x00] := by
  decide

example : encodedValue 0 [0x8E, 0xFE, 0xFE, 0xFF, 0x00] = some (2 ^ 32, []) := by decide

theorem VarInt_bijection (bits : Nat) (wide : 7 ≤ bits) :
    (∀ n : BitVec bits, ∃ bytes, WriteVarInt n = some bytes ∧ bytes.length = GetSizeOfVarInt n ∧
      bytes.length ≤ tmpSize bits ∧ ∀ rest, ReadVarInt.run (bytes ++ rest) = .ok (n, rest)) ∧
    (∀ (s : List UInt8) (m : BitVec bits) (rest : List UInt8), ReadVarInt.run s = .ok (m, rest) →
      ∃ bytes, WriteVarInt m = some bytes ∧ s = bytes ++ rest) ∧
    (∀ (s : List UInt8) (v : Nat) (rest : List UInt8), encodedValue 0 s = some (v, rest) → 2 ^ bits ≤ v →
      (ReadVarInt : Unserializer (BitVec bits)).run s = .error ⟨"ReadVarInt(): size too large"⟩) := by
  refine ⟨fun n => ⟨varIntBytes false n.toNat, WriteVarInt_eq wide n, (GetSizeOfVarInt_eq wide false n).symm,
    length_varIntBytes_le_tmpSize wide false n, fun rest => ?_⟩, fun s m rest run => ?_,
    fun s v rest decoded large => ReadVarInt_too_large wide decoded large⟩
  · exact ReadVarInt_varIntBytes wide n rest
  · have written := varIntBytes_of_encodedValue ((ReadVarInt_eq_ok_iff wide s m rest).mp run)
    rw [varIntPrefix, if_pos rfl, List.nil_append] at written
    exact ⟨varIntBytes false m.toNat, WriteVarInt_eq wide m, written⟩

/-- A `uint64_t` of `255`. -/
theorem VarInt_bijection_at_255 :
    7 ≤ 64 ∧ ∃ bytes, WriteVarInt (255 : BitVec 64) = some bytes ∧
      bytes.length = GetSizeOfVarInt (255 : BitVec 64) ∧ bytes.length ≤ tmpSize 64 ∧
        ∀ rest, ReadVarInt.run (bytes ++ rest) = .ok ((255 : BitVec 64), rest) :=
  have wide : 7 ≤ 64 := by decide
  ⟨wide, (VarInt_bijection 64 wide).1 255⟩

end VarInt

end SalemCash
