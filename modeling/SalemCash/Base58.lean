import Mathlib.Data.List.GetD
import Mathlib.Data.List.TakeWhile
import SalemCash.Radix
import SalemCash.Transaction

/-!
# Base58

`EncodeBase58` and `DecodeBase58` of `base58.cpp`. Leading zero bytes and leading '1'
characters stand for each other one for one. The rest is a number, converted with one
`Radix` pass per byte or character: to base 58 in a buffer of `n * 138 / 100 + 1` digits
for `n` bytes, and to base 256 in a buffer of `n * 733 / 1000 + 1` bytes for `n`
characters. Each pass is followed by `assert(carry == 0)`.

Both sizes are computed in 64 bits and stored in an `int`, which keeps them modulo
`2 ^ 32` (`toCInt`). Below `2 ^ 31` the buffers are large enough (`pow_256_le_pow_58`,
`pow_58_le_pow_256`), and then encoding and decoding are inverse to each other and the
asserts hold. Past that the stored size wraps, to a negative number, for which the
vector constructor throws, or to a small one, for which an assert fails.

The `std::string` overloads read their argument through `c_str()`, so decoding stops at
the first NUL character.
-/

namespace SalemCash

/-- `pszBase58`: all alphanumeric characters except for "0", "I", "O", and "l". -/
def pszBase58 : List Char :=
  ['1', '2', '3', '4', '5', '6', '7', '8', '9', 'A', 'B', 'C', 'D', 'E', 'F', 'G', 'H', 'J',
    'K', 'L', 'M', 'N', 'P', 'Q', 'R', 'S', 'T', 'U', 'V', 'W', 'X', 'Y', 'Z', 'a', 'b', 'c',
    'd', 'e', 'f', 'g', 'h', 'i', 'j', 'k', 'm', 'n', 'o', 'p', 'q', 'r', 's', 't', 'u', 'v',
    'w', 'x', 'y', 'z']

/-- `pszBase58[d]`, with the C string's NUL past the last digit. -/
def pszBase58At (d : Nat) : Char := pszBase58.getD d '\x00'

/-- `mapBase58`: the digit of each byte value, -1 for the others. -/
def mapBase58 : List Int := [
  -1, -1, -1, -1, -1, -1, -1, -1, -1, -1, -1, -1, -1, -1, -1, -1,
  -1, -1, -1, -1, -1, -1, -1, -1, -1, -1, -1, -1, -1, -1, -1, -1,
  -1, -1, -1, -1, -1, -1, -1, -1, -1, -1, -1, -1, -1, -1, -1, -1,
  -1, 0, 1, 2, 3, 4, 5, 6, 7, 8, -1, -1, -1, -1, -1, -1,
  -1, 9, 10, 11, 12, 13, 14, 15, 16, -1, 17, 18, 19, 20, 21, -1,
  22, 23, 24, 25, 26, 27, 28, 29, 30, 31, 32, -1, -1, -1, -1, -1,
  -1, 33, 34, 35, 36, 37, 38, 39, 40, 41, 42, 43, -1, 44, 45, 46,
  47, 48, 49, 50, 51, 52, 53, 54, 55, 56, 57, -1, -1, -1, -1, -1,
  -1, -1, -1, -1, -1, -1, -1, -1, -1, -1, -1, -1, -1, -1, -1, -1,
  -1, -1, -1, -1, -1, -1, -1, -1, -1, -1, -1, -1, -1, -1, -1, -1,
  -1, -1, -1, -1, -1, -1, -1, -1, -1, -1, -1, -1, -1, -1, -1, -1,
  -1, -1, -1, -1, -1, -1, -1, -1, -1, -1, -1, -1, -1, -1, -1, -1,
  -1, -1, -1, -1, -1, -1, -1, -1, -1, -1, -1, -1, -1, -1, -1, -1,
  -1, -1, -1, -1, -1, -1, -1, -1, -1, -1, -1, -1, -1, -1, -1, -1,
  -1, -1, -1, -1, -1, -1, -1, -1, -1, -1, -1, -1, -1, -1, -1, -1,
  -1, -1, -1, -1, -1, -1, -1, -1, -1, -1, -1, -1, -1, -1, -1, -1]

/-- `mapBase58[(uint8_t)c]`. A `std::string` holds bytes; a character past 255, which
cannot occur there, reads as -1. -/
def mapBase58At (c : Char) : Int := mapBase58.getD c.toNat (-1)

/-- `isspace` in the C locale, where no byte past 127 is a space. -/
def isspace (c : Char) : Bool :=
  c == ' ' || c == '\t' || c == '\n' || c == '\x0b' || c == '\x0c' || c == '\r'

/-- A length computed in 64 bits and stored in an `int`: GCC keeps it modulo `2 ^ 32`. -/
def toCInt (x : Nat) : Int :=
  if x % 2 ^ 32 < 2 ^ 31 then ((x % 2 ^ 32 : Nat) : Int) else ((x % 2 ^ 32 : Nat) : Int) - 2 ^ 32

/-- `EncodeBase58` up to its output: the number of leading zero bytes, `size`, and the
base-58 buffer after the other bytes are processed. -/
def encodeMain (vch : List UInt8) : Nat × Int × Radix.Buffer :=
  -- Skip & count leading zeroes.
  let zeroes := (vch.takeWhile (· == 0)).length
  let bytes := vch.dropWhile (· == 0)
  -- Allocate enough space in big-endian base58 representation.
  let size := toCInt (bytes.length * 138 / 100 + 1)
  -- Process the bytes.
  (zeroes, size, Radix.run 256 58 size.toNat (bytes.map UInt8.toNat))

/-- `EncodeBase58(vch)`: `none` when `std::vector<unsigned char> b58(size)` throws for a
negative size, or an `assert(carry == 0)` fails. -/
def EncodeBase58 (vch : List UInt8) : Option (List Char) :=
  let (zeroes, size, b58) := encodeMain vch
  if size < 0 ∨ b58.carryFree = false then none
  -- Skip leading zeroes in base58 result, and translate it into a string.
  else some (List.replicate zeroes '1' ++ b58.result.map pszBase58At)

/-- The loop over the characters after the leading '1's: the buffer, and what is left from
the first space or the end on, `none` at a character that is not a digit. -/
def decodeLoop : List Char → Radix.Buffer → Radix.Buffer × Option (List Char)
  | [], b256 => (b256, some [])
  | c :: cs, b256 =>
    if isspace c then (b256, some (c :: cs))
    else
      -- Decode base58 character
      let carry := mapBase58At c
      -- Invalid b58 character
      if carry = -1 then (b256, none)
      else decodeLoop cs (b256.push 58 256 carry.toNat)

/-- `DecodeBase58` up to its result: the number of leading '1's, `size`, and what
`decodeLoop` returns. -/
def decodeMain (psz : List Char) : Nat × Int × Radix.Buffer × Option (List Char) :=
  -- Skip leading spaces.
  let psz := psz.dropWhile isspace
  -- Skip and count leading '1's.
  let zeroes := (psz.takeWhile (· == '1')).length
  let psz := psz.dropWhile (· == '1')
  -- Allocate enough space in big-endian base256 representation.
  let size := toCInt (psz.length * 733 / 1000 + 1)
  let (b256, rest) := decodeLoop psz (Radix.Buffer.empty size.toNat)
  (zeroes, size, b256, rest)

/-- The end of `DecodeBase58`: `none` when the vector constructor threw, an
`assert(carry == 0)` failed, the loop met a character that is not a digit, or something
other than spaces follows the digits. -/
def decodeFinish (zeroes : Nat) (size : Int) (b256 : Radix.Buffer) (rest : Option (List Char)) :
    Option (List UInt8) :=
  if size < 0 ∨ b256.carryFree = false then none
  else match rest with
    | none => none
    | some rest =>
      -- Skip trailing spaces.
      if (rest.dropWhile isspace).isEmpty then
        -- Skip leading zeroes in b256, and copy the result into the output vector.
        some (List.replicate zeroes 0 ++ b256.result.map Nat.toUInt8)
      else none

/-- `DecodeBase58(psz, vch)` on the characters of a C string. -/
def DecodeBase58CStr (psz : List Char) : Option (List UInt8) :=
  let (zeroes, size, b256, rest) := decodeMain psz
  decodeFinish zeroes size b256 rest

/-- `DecodeBase58(str, vchRet)`, through `str.c_str()`. -/
def DecodeBase58 (str : List Char) : Option (List UInt8) :=
  DecodeBase58CStr (str.takeWhile (· != '\x00'))

/-- `EncodeBase58Check(vchIn)`. `Hash` is the double SHA-256 of `hash.h`; the first four
bytes of its `uint256` are the checksum. -/
def EncodeBase58Check (Hash : List UInt8 → uint256) (vchIn : List UInt8) : Option (List Char) :=
  -- add 4-byte hash check to the end
  EncodeBase58 (vchIn ++ (Hash vchIn).data.toList.take 4)

/-- `DecodeBase58Check(psz, vchRet)` on the characters of a C string. -/
def DecodeBase58CheckCStr (Hash : List UInt8 → uint256) (psz : List Char) : Option (List UInt8) :=
  match DecodeBase58CStr psz with
  | none => none
  | some vchRet =>
    if vchRet.length < 4 then none
    -- re-calculate the checksum, ensure it matches the included 4-byte checksum
    else if (Hash (vchRet.take (vchRet.length - 4))).data.toList.take 4 ≠
        vchRet.drop (vchRet.length - 4) then none
    else some (vchRet.take (vchRet.length - 4))

/-- `DecodeBase58Check(str, vchRet)`, through `str.c_str()`. -/
def DecodeBase58Check (Hash : List UInt8 → uint256) (str : List Char) : Option (List UInt8) :=
  DecodeBase58CheckCStr Hash (str.takeWhile (· != '\x00'))

/-- The canonical form of a string that decodes to `vch`: spaces, the encoding of `vch`,
spaces. -/
def Base58Form (str : List Char) (vch : List UInt8) : Prop :=
  ∃ ws enc ws', (∀ c ∈ ws, isspace c = true) ∧ EncodeBase58 vch = some enc ∧
    (∀ c ∈ ws', isspace c = true) ∧ str = ws ++ enc ++ ws'

theorem mapBase58At_pszBase58At : ∀ d < 58, mapBase58At (pszBase58At d) = d := by decide

set_option maxRecDepth 4000 in
theorem mapBase58_length : mapBase58.length = 256 := by decide

set_option maxRecDepth 4000 in
theorem mapBase58_inverse : ∀ n < 256, mapBase58.getD n (-1) ≠ -1 →
    (mapBase58.getD n (-1)).toNat < 58 ∧ (pszBase58At (mapBase58.getD n (-1)).toNat).toNat = n := by
  decide

/-- A character the table maps to a digit is that digit's character. -/
theorem mapBase58At_digit {c : Char} (valid : mapBase58At c ≠ -1) :
    (mapBase58At c).toNat < 58 ∧ pszBase58At (mapBase58At c).toNat = c := by
  have inRange : c.toNat < 256 := by
    by_contra outside
    exact valid (List.getD_eq_default _ _ (by rw [mapBase58_length]; omega))
  obtain ⟨lt, same⟩ := mapBase58_inverse c.toNat inRange valid
  exact ⟨lt, Char.toNat_inj.mp same⟩

theorem pszBase58At_zero : pszBase58At 0 = '1' := rfl

theorem pszBase58At_ne_one : ∀ d < 58, d ≠ 0 → pszBase58At d ≠ '1' := by decide

theorem isspace_pszBase58At : ∀ d < 58, isspace (pszBase58At d) = false := by decide

theorem pszBase58At_ne_nul : ∀ d < 58, pszBase58At d ≠ '\x00' := by decide

theorem toCInt_of_lt {x : Nat} (small : x < 2 ^ 31) : toCInt x = x := by
  have : x % 2 ^ 32 = x := Nat.mod_eq_of_lt (by omega)
  rw [toCInt, this, if_pos small]

/-- `138 / 100` bounds `log 256 / log 58` from above, as `11 / 8` does. -/
theorem pow_256_le_pow_58 (n : Nat) : 256 ^ n ≤ 58 ^ (n * 138 / 100 + 1) :=
  calc 256 ^ n ≤ 58 ^ (n * 11 / 8 + 1) := Radix.pow_le_pow_size (by norm_num) (by norm_num) (by decide) n
    _ ≤ 58 ^ (n * 138 / 100 + 1) := Nat.pow_le_pow_right (by norm_num) (by omega)

/-- `733 / 1000` bounds `log 58 / log 256` from above, as `52 / 71` does. -/
theorem pow_58_le_pow_256 (n : Nat) : 58 ^ n ≤ 256 ^ (n * 733 / 1000 + 1) :=
  calc 58 ^ n ≤ 256 ^ (n * 52 / 71 + 1) := Radix.pow_le_pow_size (by norm_num) (by norm_num) (by decide) n
    _ ≤ 256 ^ (n * 733 / 1000 + 1) := Nat.pow_le_pow_right (by norm_num) (by omega)

theorem takeWhile_dropWhile_of_head {α : Type} {p : α → Bool} {l : List α}
    (stop : ∀ a ∈ l.head?, p a = false) : l.takeWhile p = [] ∧ l.dropWhile p = l := by
  cases l with
  | nil => simp
  | cons a l => simp [List.takeWhile_cons_of_neg, List.dropWhile_cons_of_neg, stop a rfl]

/-- A run of `x`, which `p` takes, before a list that does not start with one. -/
theorem takeWhile_dropWhile_replicate_append {α : Type} {p : α → Bool} {x : α} {rest : List α}
    (taken : p x = true) (stop : ∀ a ∈ rest.head?, p a = false) (n : Nat) :
    (List.replicate n x ++ rest).takeWhile p = List.replicate n x ∧
      (List.replicate n x ++ rest).dropWhile p = rest := by
  have all : ∀ a ∈ List.replicate n x, p a = true := fun a mem => List.eq_of_mem_replicate mem ▸ taken
  obtain ⟨none, same⟩ := takeWhile_dropWhile_of_head stop
  rw [List.takeWhile_append_of_pos all, List.dropWhile_append_of_pos all, none, same, List.append_nil]
  exact ⟨rfl, rfl⟩

/-- What `dropWhile (· == x)` leaves does not start with `x`. -/
theorem head_dropWhile_beq {α : Type} [BEq α] [LawfulBEq α] (x : α) (l : List α) :
    ∀ a ∈ (l.dropWhile (· == x)).head?, (a == x) = false := by
  intro a mem
  have first := List.head?_dropWhile_not (· == x) l
  rw [Option.mem_def] at mem
  rw [mem] at first
  exact first

/-- A prefix that `p` takes throughout is a run of one value. -/
theorem takeWhile_beq_eq_replicate {α : Type} [BEq α] [LawfulBEq α] (x : α) (l : List α) :
    l.takeWhile (· == x) = List.replicate (l.takeWhile (· == x)).length x :=
  List.eq_replicate_iff.mpr ⟨rfl, fun a mem => by simpa using List.mem_takeWhile_imp mem⟩

/-- On digit characters followed by a space or the end, the loop pushes each digit. -/
theorem decodeLoop_digits {rest : List Char} (stop : ∀ c ∈ rest.head?, isspace c = true) :
    ∀ (ds : List Nat) (b256 : Radix.Buffer), (∀ d ∈ ds, d < 58) →
      decodeLoop (ds.map pszBase58At ++ rest) b256 = (ds.foldl (Radix.Buffer.push 58 256) b256, some rest)
  | [], b256, _ => by
    cases rest with
    | nil => rfl
    | cons c cs => simp [decodeLoop, stop c rfl]
  | d :: ds, b256, digits => by
    have hd := digits d List.mem_cons_self
    have valid : mapBase58At (pszBase58At d) ≠ -1 := by rw [mapBase58At_pszBase58At d hd]; omega
    simp only [List.map_cons, List.cons_append, decodeLoop, isspace_pszBase58At d hd, if_neg valid,
      Bool.false_eq_true, if_false, List.foldl_cons]
    rw [mapBase58At_pszBase58At d hd, Int.toNat_natCast]
    exact decodeLoop_digits stop ds _ (fun x mem => digits x (List.mem_cons_of_mem d mem))

/-- One character the loop decodes as a digit. -/
theorem decodeLoop_cons_digit {c : Char} (cs : List Char) (b256 : Radix.Buffer)
    (space : ¬isspace c = true) (valid : mapBase58At c ≠ -1) :
    decodeLoop (c :: cs) b256 = decodeLoop cs (b256.push 58 256 (mapBase58At c).toNat) := by
  simp [decodeLoop, space, valid]

/-- Where the loop stops at a space or at the end, it has pushed the digits before. -/
theorem decodeLoop_eq_some : ∀ (cs : List Char) (b256 : Radix.Buffer) {rest : List Char},
    (decodeLoop cs b256).2 = some rest →
    ∃ ds : List Nat, (∀ d ∈ ds, d < 58) ∧ cs = ds.map pszBase58At ++ rest ∧
      (decodeLoop cs b256).1 = ds.foldl (Radix.Buffer.push 58 256) b256 ∧
      ∀ c ∈ rest.head?, isspace c = true
  | [], b256, rest, stopped => by
    simp only [decodeLoop, Option.some.injEq] at stopped
    subst stopped
    exact ⟨[], by simp, by simp, rfl, by simp⟩
  | c :: cs, b256, rest, stopped => by
    by_cases space : isspace c = true
    · simp only [decodeLoop, if_pos space, Option.some.injEq] at stopped ⊢
      subst stopped
      exact ⟨[], by simp, by simp, rfl, by simpa using space⟩
    by_cases invalid : mapBase58At c = -1
    · simp [decodeLoop, space, invalid] at stopped
    rw [decodeLoop_cons_digit cs b256 space invalid] at stopped ⊢
    obtain ⟨ds, digits, split, pushed, stop⟩ := decodeLoop_eq_some cs _ stopped
    obtain ⟨lt, char⟩ := mapBase58At_digit invalid
    refine ⟨(mapBase58At c).toNat :: ds, ?_, by rw [List.map_cons, char, split]; rfl, pushed, stop⟩
    intro d mem
    rcases List.mem_cons.mp mem with rfl | mem
    · exact lt
    · exact digits d mem

/-- However the loop stops, it has pushed the digits of a prefix. -/
theorem decodeLoop_fst : ∀ (cs : List Char) (b256 : Radix.Buffer), ∃ ds : List Nat,
    (∀ d ∈ ds, d < 58) ∧ ds.length ≤ cs.length ∧
      (decodeLoop cs b256).1 = ds.foldl (Radix.Buffer.push 58 256) b256
  | [], _ => ⟨[], by simp, by simp, rfl⟩
  | c :: cs, b256 => by
    by_cases space : isspace c = true
    · exact ⟨[], by simp, by simp, by simp [decodeLoop, space]⟩
    by_cases invalid : mapBase58At c = -1
    · exact ⟨[], by simp, by simp, by simp [decodeLoop, space, invalid]⟩
    obtain ⟨ds, digits, shorter, pushed⟩ := decodeLoop_fst cs (b256.push 58 256 (mapBase58At c).toNat)
    refine ⟨(mapBase58At c).toNat :: ds, ?_, by simpa using shorter, ?_⟩
    · intro d mem
      rcases List.mem_cons.mp mem with rfl | mem
      · exact (mapBase58At_digit invalid).1
      · exact digits d mem
    · rw [decodeLoop_cons_digit cs b256 space invalid, pushed, List.foldl_cons]

/-- The decoding size is monotone in the length. -/
theorem decodeSize_lt_of_le {a b : Nat} (le : a ≤ b) (fits : b * 733 / 1000 + 1 < 2 ^ 31) :
    a * 733 / 1000 + 1 < 2 ^ 31 :=
  lt_of_le_of_lt (Nat.add_le_add_right (Nat.div_le_div_right (Nat.mul_le_mul_right 733 le)) 1) fits

theorem bytes_lt (bytes : List UInt8) : ∀ d ∈ bytes.map UInt8.toNat, d < 256 := by
  intro d mem
  obtain ⟨b, -, rfl⟩ := List.mem_map.mp mem
  exact b.toNat_lt

/-- The bytes after the leading zeros give a size that fits an `int` too. -/
theorem encodeSize_lt {vch : List UInt8} (fits : vch.length * 138 / 100 + 1 < 2 ^ 31) :
    (vch.dropWhile (· == 0)).length * 138 / 100 + 1 < 2 ^ 31 := by
  have shorter := (List.dropWhile_sublist (· == 0) (l := vch)).length_le
  omega

/-- For bytes whose buffer size fits an `int`, no `assert(carry == 0)` of `EncodeBase58`
fails. -/
theorem encodeMain_carryFree (vch : List UInt8) (fits : vch.length * 138 / 100 + 1 < 2 ^ 31) :
    (encodeMain vch).2.2.carryFree = true := by
  simp only [encodeMain, toCInt_of_lt (encodeSize_lt fits), Int.toNat_natCast]
  exact Radix.run_carryFree (by norm_num) (bytes_lt _) (by simpa using pow_256_le_pow_58 _)

/-- The buffer `DecodeBase58` ends with, seen without unfolding the loop. -/
theorem decodeMain_buffer (psz : List Char) :
    (decodeMain psz).2.2.1 = (decodeLoop ((psz.dropWhile isspace).dropWhile (· == '1'))
      (Radix.Buffer.empty (toCInt (((psz.dropWhile isspace).dropWhile (· == '1')).length * 733 / 1000 + 1)).toNat)).1 :=
  rfl

/-- For a C string whose buffer size fits an `int`, no `assert(carry == 0)` of
`DecodeBase58` fails, whether the string is valid or not. -/
theorem decodeMain_carryFree (psz : List Char) (fits : psz.length * 733 / 1000 + 1 < 2 ^ 31) :
    (decodeMain psz).2.2.1.carryFree = true := by
  have shorter := ((List.dropWhile_sublist (· == '1')).trans
    (List.dropWhile_sublist isspace (l := psz))).length_le
  rw [decodeMain_buffer]
  generalize (psz.dropWhile isspace).dropWhile (· == '1') = chars at shorter ⊢
  have small := decodeSize_lt_of_le shorter fits
  rw [toCInt_of_lt small, Int.toNat_natCast]
  obtain ⟨ds, digits, fewer, pushed⟩ :=
    decodeLoop_fst chars (Radix.Buffer.empty (chars.length * 733 / 1000 + 1))
  rw [pushed]
  have fitsBuffer : 58 ^ (0 + ds.length) ≤
      256 ^ (Radix.Buffer.empty (chars.length * 733 / 1000 + 1)).digits.length := by
    rw [Radix.Buffer.empty_digits, List.length_replicate, Nat.zero_add]
    exact le_trans (Nat.pow_le_pow_right (by norm_num) fewer) (pow_58_le_pow_256 _)
  exact Radix.foldl_push_carryFree (by norm_num) ds _ 0 0 digits
    (Radix.Buffer.empty_holds (by norm_num) _) (by simp) fitsBuffer

/-- Bytes whose buffer size fits an `int` encode to a '1' for each leading zero byte and
the base-58 digits of the number the other bytes stand for. -/
theorem EncodeBase58_eq (vch : List UInt8) (fits : vch.length * 138 / 100 + 1 < 2 ^ 31) :
    EncodeBase58 vch = some (List.replicate (vch.takeWhile (· == 0)).length '1' ++
      (Nat.digits 58 (Nat.ofDigits 256 ((vch.dropWhile (· == 0)).map UInt8.toNat).reverse)).reverse.map
        pszBase58At) := by
  have free := encodeMain_carryFree vch fits
  simp only [encodeMain, toCInt_of_lt (encodeSize_lt fits), Int.toNat_natCast] at free
  simp only [EncodeBase58, encodeMain, toCInt_of_lt (encodeSize_lt fits), Int.toNat_natCast, free,
    Radix.run_result (by norm_num) free]
  rw [if_neg (by simp; omega)]

theorem isspace_one : isspace '1' = false := by decide

/-- What follows the leading '1's starts with neither a space nor a '1'. -/
theorem digits_head {ds : List Nat} {rest : List Char} (digits : ∀ d ∈ ds, d < 58)
    (leading : ∀ d ∈ ds.head?, d ≠ 0) (trailing : ∀ c ∈ rest, isspace c = true) :
    ∀ c ∈ (ds.map pszBase58At ++ rest).head?, (c == '1') = false := by
  intro c mem
  cases ds with
  | nil =>
    cases rest with
    | nil => simp at mem
    | cons a rest =>
      obtain rfl : a = c := by simpa using mem
      have space := trailing a List.mem_cons_self
      simp only [beq_eq_false_iff_ne, ne_eq]
      rintro rfl
      exact absurd space (by decide)
  | cons d ds =>
    obtain rfl : pszBase58At d = c := by simpa using mem
    simpa using pszBase58At_ne_one d (digits d List.mem_cons_self) (leading d rfl)

/-- Spaces, '1's, digits with no leading zero, spaces: `DecodeBase58` reads a zero byte for
each '1' and the base-256 digits of the number the digits stand for. -/
theorem DecodeBase58CStr_eq (ws : List Char) (z : Nat) (ds : List Nat) (rest : List Char)
    (spaces : ∀ c ∈ ws, isspace c = true) (digits : ∀ d ∈ ds, d < 58)
    (leading : ∀ d ∈ ds.head?, d ≠ 0) (trailing : ∀ c ∈ rest, isspace c = true)
    (fits : (ds.length + rest.length) * 733 / 1000 + 1 < 2 ^ 31) :
    DecodeBase58CStr (ws ++ (List.replicate z '1' ++ (ds.map pszBase58At ++ rest))) =
      some (List.replicate z 0 ++ (Nat.digits 256 (Nat.ofDigits 58 ds.reverse)).reverse.map Nat.toUInt8) := by
  have stop : ∀ c ∈ rest.head?, isspace c = true := fun c mem => trailing c (List.mem_of_mem_head? mem)
  by_cases blank : z = 0 ∧ ds = []
  · obtain ⟨rfl, rfl⟩ := blank
    have gone : (ws ++ rest).dropWhile isspace = [] := by
      rw [List.dropWhile_eq_nil_iff]
      intro c mem
      rcases List.mem_append.mp mem with mem | mem
      · exact spaces c mem
      · exact trailing c mem
    simp only [List.replicate_zero, List.map_nil, List.nil_append]
    simp [DecodeBase58CStr, decodeMain, decodeFinish, gone, decodeLoop, toCInt, Radix.Buffer.result]
  have first : ∀ c ∈ (List.replicate z '1' ++ (ds.map pszBase58At ++ rest)).head?, isspace c = false := by
    intro c mem
    rcases Nat.eq_zero_or_pos z with rfl | positive
    · obtain ⟨d, ds, rfl⟩ := List.exists_cons_of_ne_nil (by simpa using blank)
      obtain rfl : pszBase58At d = c := by simpa using mem
      exact isspace_pszBase58At d (digits d List.mem_cons_self)
    · obtain ⟨z, rfl⟩ := Nat.exists_eq_add_of_lt positive
      obtain rfl : '1' = c := by simpa [List.replicate_succ] using mem
      exact isspace_one
  obtain ⟨-, noSpaces⟩ := takeWhile_dropWhile_of_head first
  obtain ⟨ones, afterOnes⟩ := takeWhile_dropWhile_replicate_append (p := (· == '1')) (x := '1')
    (by decide) (digits_head digits leading trailing) z
  have size : toCInt ((ds.map pszBase58At ++ rest).length * 733 / 1000 + 1) =
      ((ds.length + rest.length) * 733 / 1000 + 1 : Nat) := by
    rw [List.length_append, List.length_map]
    exact toCInt_of_lt fits
  have loop := decodeLoop_digits stop ds
    (Radix.Buffer.empty ((ds.length + rest.length) * 733 / 1000 + 1)) digits
  have fitsBuffer : 58 ^ ds.length ≤ 256 ^ ((ds.length + rest.length) * 733 / 1000 + 1) :=
    le_trans (Nat.pow_le_pow_right (by norm_num) (Nat.le_add_right _ _)) (pow_58_le_pow_256 _)
  have free : (Radix.run 58 256 ((ds.length + rest.length) * 733 / 1000 + 1) ds).carryFree = true :=
    Radix.run_carryFree (by norm_num) digits fitsBuffer
  have gone : rest.dropWhile isspace = [] := List.dropWhile_eq_nil_iff.mpr trailing
  simp only [DecodeBase58CStr, decodeMain, decodeFinish, List.dropWhile_append_of_pos spaces, noSpaces, ones,
    afterOnes,
    size, Int.toNat_natCast, loop, List.length_replicate]
  have result : (ds.foldl (Radix.Buffer.push 58 256)
      (Radix.Buffer.empty ((ds.length + rest.length) * 733 / 1000 + 1))).result =
      (Nat.digits 256 (Nat.ofDigits 58 ds.reverse)).reverse :=
    Radix.run_result (by norm_num) free
  have free' : (ds.foldl (Radix.Buffer.push 58 256)
      (Radix.Buffer.empty ((ds.length + rest.length) * 733 / 1000 + 1))).carryFree = true := free
  rw [if_neg (by rw [free']; simp; omega), gone, List.isEmpty_nil, if_pos rfl, result]

theorem decodeFinish_eq_some {zeroes : Nat} {size : Int} {b256 : Radix.Buffer}
    {rest : Option (List Char)} {vch : List UInt8} (finished : decodeFinish zeroes size b256 rest = some vch) :
    b256.carryFree = true ∧ ∃ spaces : List Char, rest = some spaces ∧ (∀ c ∈ spaces, isspace c = true) ∧
      vch = List.replicate zeroes 0 ++ b256.result.map Nat.toUInt8 := by
  unfold decodeFinish at finished
  split_ifs at finished with bad
  obtain _ | spaces := rest
  · cases finished
  simp only at finished
  split_ifs at finished with trailing
  refine ⟨by simpa using (not_or.mp bad).2, spaces, rfl, ?_, (Option.some.inj finished).symm⟩
  simpa [List.dropWhile_eq_nil_iff] using trailing

/-- What `DecodeBase58` accepts: spaces, '1's, digits with no leading zero, spaces; and the
bytes it returns are those of `DecodeBase58CStr_eq`. -/
theorem DecodeBase58CStr_eq_some {psz : List Char} {vch : List UInt8}
    (decoded : DecodeBase58CStr psz = some vch) :
    ∃ (ws : List Char) (z : Nat) (ds : List Nat) (rest : List Char), (∀ c ∈ ws, isspace c = true) ∧
      (∀ d ∈ ds, d < 58) ∧ (∀ d ∈ ds.head?, d ≠ 0) ∧ (∀ c ∈ rest, isspace c = true) ∧
      psz = ws ++ (List.replicate z '1' ++ (ds.map pszBase58At ++ rest)) ∧
      vch = List.replicate z 0 ++ (Nat.digits 256 (Nat.ofDigits 58 ds.reverse)).reverse.map Nat.toUInt8 := by
  obtain ⟨free, rest, stopped, trailing, rfl⟩ := decodeFinish_eq_some decoded
  obtain ⟨ds, digits, split, pushed, -⟩ := decodeLoop_eq_some _ _ stopped
  have leading : ∀ d ∈ ds.head?, d ≠ 0 := by
    intro d mem zero
    have noOne := head_dropWhile_beq '1' (psz.dropWhile isspace)
    rw [split] at noOne
    cases ds with
    | nil => simp at mem
    | cons d' ds =>
      obtain rfl : d' = d := by simpa using mem
      subst zero
      simp [pszBase58At_zero] at noOne
  have whole : psz = psz.takeWhile isspace ++ (List.replicate
      ((psz.dropWhile isspace).takeWhile (· == '1')).length '1' ++ (ds.map pszBase58At ++ rest)) := by
    rw [← split, ← takeWhile_beq_eq_replicate, List.takeWhile_append_dropWhile, List.takeWhile_append_dropWhile]
  rw [pushed] at free
  refine ⟨_, _, ds, rest, fun c mem => List.mem_takeWhile_imp mem, digits, leading, trailing, whole, ?_⟩
  rw [pushed]
  exact congrArg (_ ++ ·) (congrArg (List.map Nat.toUInt8) (Radix.run_result (by norm_num) free))

/-- Bytes without a leading zero are the base-256 digits of the number they stand for. -/
theorem bytes_eq_digits {w : List UInt8} (leading : ∀ b ∈ w.head?, (b == 0) = false) :
    (Nat.digits 256 (Nat.ofDigits 256 (w.map UInt8.toNat).reverse)).reverse.map Nat.toUInt8 = w := by
  have nonzero : ∀ d ∈ (w.map UInt8.toNat).head?, d ≠ 0 := by
    intro d mem
    cases w with
    | nil => simp at mem
    | cons b w =>
      obtain rfl : b.toNat = d := by simpa using mem
      have := leading b rfl
      simpa [← UInt8.toNat_inj] using this
  rw [Radix.digits_ofDigits_reverse (by norm_num) (bytes_lt w) nonzero, List.map_map]
  conv_rhs => rw [← List.map_id w]
  exact List.map_congr_left (fun b _ => by simp)

/-- The base-256 digits of a number, as bytes, start with no zero byte and read back as the
digits. -/
theorem digits_bytes (n : Nat) :
    (∀ b ∈ ((Nat.digits 256 n).reverse.map Nat.toUInt8).head?, (b == 0) = false) ∧
      ((Nat.digits 256 n).reverse.map Nat.toUInt8).map UInt8.toNat = (Nat.digits 256 n).reverse := by
  have lt : ∀ d ∈ (Nat.digits 256 n).reverse, d < 256 :=
    fun d mem => Nat.digits_lt_base (by norm_num) (List.mem_reverse.mp mem)
  refine ⟨?_, ?_⟩
  · intro b mem
    obtain ⟨d, first, rfl⟩ : ∃ d ∈ (Nat.digits 256 n).reverse.head?, d.toUInt8 = b := by
      cases h : (Nat.digits 256 n).reverse with
      | nil => simp [h] at mem
      | cons d ds => exact ⟨d, rfl, by simpa [h] using mem⟩
    have small := lt d (List.mem_of_mem_head? first)
    have nonzero := Radix.head_digits_reverse_ne_zero 256 n d first
    simp only [beq_eq_false_iff_ne, ne_eq, ← UInt8.toNat_inj, Nat.toUInt8_eq, UInt8.toNat_ofNat',
      UInt8.toNat_zero]
    rw [Nat.mod_eq_of_lt small]
    exact nonzero
  · rw [List.map_map]
    conv_rhs => rw [← List.map_id (Nat.digits 256 n).reverse]
    exact List.map_congr_left (fun d mem => by simpa using Nat.mod_eq_of_lt (lt d mem))

/-- A C string holds no NUL. -/
theorem takeWhile_ne_nul {str : List Char} (noNul : '\x00' ∉ str) : str.takeWhile (· != '\x00') = str :=
  List.takeWhile_eq_self_iff.mpr fun c mem => by
    simp only [bne_iff_ne, ne_eq]
    rintro rfl
    exact noNul mem

/-- For bytes whose buffer size fits an `int`, the encoding decodes back to them. -/
theorem DecodeBase58_EncodeBase58 (vch : List UInt8) (fits : vch.length * 138 / 100 + 1 < 2 ^ 31) :
    ∃ str, EncodeBase58 vch = some str ∧ DecodeBase58 str = some vch := by
  have shorter := (List.dropWhile_sublist (· == 0) (l := vch)).length_le
  refine ⟨_, EncodeBase58_eq vch fits, ?_⟩
  generalize hn : Nat.ofDigits 256 ((vch.dropWhile (· == 0)).map UInt8.toNat).reverse = n
  have digits : ∀ d ∈ (Nat.digits 58 n).reverse, d < 58 :=
    fun d mem => Nat.digits_lt_base (by norm_num) (List.mem_reverse.mp mem)
  have noNul : '\x00' ∉ List.replicate (vch.takeWhile (· == 0)).length '1' ++
      (Nat.digits 58 n).reverse.map pszBase58At := by
    simp only [List.mem_append, List.mem_replicate, List.mem_map, not_or, not_exists, not_and]
    exact ⟨fun _ => by decide, fun d mem => pszBase58At_ne_nul d (digits d mem)⟩
  have fewer : (Nat.digits 58 n).reverse.length ≤ (vch.dropWhile (· == 0)).length * 138 / 100 + 1 := by
    rw [List.length_reverse, Nat.digits_length_le_iff (by norm_num), ← hn]
    calc Nat.ofDigits 256 ((vch.dropWhile (· == 0)).map UInt8.toNat).reverse
        < 256 ^ ((vch.dropWhile (· == 0)).map UInt8.toNat).reverse.length :=
          Nat.ofDigits_lt_base_pow_length (by norm_num)
            (fun d mem => bytes_lt _ d (List.mem_reverse.mp mem))
      _ ≤ 58 ^ ((vch.dropWhile (· == 0)).length * 138 / 100 + 1) := by
          simpa using pow_256_le_pow_58 _
  have decodeFits : ((Nat.digits 58 n).reverse.length + ([] : List Char).length) * 733 / 1000 + 1 < 2 ^ 31 := by
    rw [List.length_nil, Nat.add_zero]
    have small : (Nat.digits 58 n).reverse.length * 733 < (2 ^ 31 - 1) * 1000 := by omega
    have := (Nat.div_lt_iff_lt_mul (by norm_num)).mpr small
    omega
  have decoded := DecodeBase58CStr_eq [] (vch.takeWhile (· == 0)).length (Nat.digits 58 n).reverse []
    (by simp) digits (Radix.head_digits_reverse_ne_zero 58 n) (by simp) decodeFits
  have bytes : (Nat.digits 256 n).reverse.map Nat.toUInt8 = vch.dropWhile (· == 0) := by
    rw [← hn]
    exact bytes_eq_digits (head_dropWhile_beq 0 vch)
  rw [List.nil_append, List.append_nil, List.reverse_reverse, Nat.ofDigits_digits, bytes,
    ← takeWhile_beq_eq_replicate, List.takeWhile_append_dropWhile] at decoded
  rw [DecodeBase58, takeWhile_ne_nul noNul, decoded]

/-- A string `DecodeBase58` accepts, with no NUL and with a result small enough to encode,
is spaces, the encoding of the result, and spaces. -/
theorem DecodeBase58_canonical {str : List Char} {vch : List UInt8} (noNul : '\x00' ∉ str)
    (decoded : DecodeBase58 str = some vch) (fits : vch.length * 138 / 100 + 1 < 2 ^ 31) :
    Base58Form str vch := by
  rw [DecodeBase58, takeWhile_ne_nul noNul] at decoded
  obtain ⟨ws, z, ds, rest, spaces, digits, leading, trailing, rfl, rfl⟩ := DecodeBase58CStr_eq_some decoded
  refine ⟨ws, List.replicate z '1' ++ ds.map pszBase58At, rest, spaces, ?_, trailing, by simp⟩
  obtain ⟨nonzero, asDigits⟩ := digits_bytes (Nat.ofDigits 58 ds.reverse)
  obtain ⟨zeros, bytes⟩ := takeWhile_dropWhile_replicate_append (p := (· == 0)) (x := 0)
    (by decide) nonzero z
  rw [EncodeBase58_eq _ fits, zeros, bytes, asDigits, List.length_replicate, List.reverse_reverse,
    Nat.ofDigits_digits, Radix.digits_ofDigits_reverse (by norm_num) digits leading]

/-- `DecodeBase58Check` returns what `EncodeBase58Check` was given, for every hash. -/
theorem DecodeBase58Check_EncodeBase58Check (Hash : List UInt8 → uint256) (vch : List UInt8)
    (fits : (vch.length + 4) * 138 / 100 + 1 < 2 ^ 31) :
    ∃ str, EncodeBase58Check Hash vch = some str ∧ DecodeBase58Check Hash str = some vch := by
  have four : ((Hash vch).data.toList.take 4).length = 4 := by simp
  obtain ⟨str, encoded, decoded⟩ :=
    DecodeBase58_EncodeBase58 (vch ++ (Hash vch).data.toList.take 4) (by rwa [List.length_append, four])
  refine ⟨str, encoded, ?_⟩
  rw [DecodeBase58] at decoded
  simp [DecodeBase58Check, DecodeBase58CheckCStr, decoded, four]

theorem Base58_canonical_bijection :
    (∀ vch : List UInt8, vch.length * 138 / 100 + 1 < 2 ^ 31 →
      (encodeMain vch).2.2.carryFree = true ∧
        ∃ str, EncodeBase58 vch = some str ∧ DecodeBase58 str = some vch) ∧
    (∀ str : List Char, str.length * 733 / 1000 + 1 < 2 ^ 31 →
      (decodeMain (str.takeWhile (· != '\x00'))).2.2.1.carryFree = true) ∧
    (∀ (str : List Char) (vch : List UInt8), '\x00' ∉ str → DecodeBase58 str = some vch →
      vch.length * 138 / 100 + 1 < 2 ^ 31 → Base58Form str vch) ∧
    (∀ (Hash : List UInt8 → uint256) (vch : List UInt8), (vch.length + 4) * 138 / 100 + 1 < 2 ^ 31 →
      ∃ str, EncodeBase58Check Hash vch = some str ∧ DecodeBase58Check Hash str = some vch) :=
  ⟨fun vch fits => ⟨encodeMain_carryFree vch fits, DecodeBase58_EncodeBase58 vch fits⟩,
    fun _ fits => decodeMain_carryFree _ (decodeSize_lt_of_le (List.takeWhile_sublist _).length_le fits),
    fun _ _ noNul decoded fits => DecodeBase58_canonical noNul decoded fits,
    fun Hash vch fits => DecodeBase58Check_EncodeBase58Check Hash vch fits⟩

/-- "12" is the encoding of the bytes 0, 1. -/
theorem Base58_canonical_bijection_at_12 :
    (([0, 1] : List UInt8).length * 138 / 100 + 1 < 2 ^ 31 ∧
      ∃ str, EncodeBase58 [0, 1] = some str ∧ DecodeBase58 str = some [0, 1]) ∧
    ((['1', '2'] : List Char).length * 733 / 1000 + 1 < 2 ^ 31 ∧
      (decodeMain ((['1', '2'] : List Char).takeWhile (· != '\x00'))).2.2.1.carryFree = true) ∧
    ('\x00' ∉ ['1', '2'] ∧ DecodeBase58 ['1', '2'] = some [0, 1] ∧
      ([0, 1] : List UInt8).length * 138 / 100 + 1 < 2 ^ 31 ∧ Base58Form ['1', '2'] [0, 1]) ∧
    (([] : List UInt8).length + 4) * 138 / 100 + 1 < 2 ^ 31 ∧
      ∃ str, EncodeBase58Check (fun _ => uint256.zero) [] = some str ∧
        DecodeBase58Check (fun _ => uint256.zero) str = some [] :=
  ⟨⟨by decide, (Base58_canonical_bijection.1 [0, 1] (by decide)).2⟩,
    ⟨by decide, Base58_canonical_bijection.2.1 _ (by decide)⟩,
    ⟨by decide, by decide, by decide,
      Base58_canonical_bijection.2.2.1 _ _ (by decide) (by decide) (by decide)⟩,
    ⟨by decide, Base58_canonical_bijection.2.2.2 _ _ (by decide)⟩⟩

/-- A `std::string` with a NUL decodes as its characters before the NUL, so the rest is
ignored. And the `int` sizes wrap: 3112295142 bytes give `3112295142 * 138 / 100 + 1 = 2 ^ 32`,
stored as 0, and 5859436965 characters give `2 ^ 32` too; the first pass into the empty
buffer then leaves its whole carry. -/
theorem Base58_nul_and_wrapped_size :
    (DecodeBase58 ['1', '\x00', 'A'] = some [0] ∧ ¬ Base58Form ['1', '\x00', 'A'] [0]) ∧
      (encodeMain (List.replicate 3112295142 0xff)).2.2.carryFree = false ∧
      (decodeMain (List.replicate 5859436965 'z')).2.2.1.carryFree = false := by
  refine ⟨⟨by decide, ?_⟩, ?_, ?_⟩
  · rintro ⟨ws, enc, ws', leading, encoded, trailing, split⟩
    rw [show EncodeBase58 [0] = some ['1'] by decide, Option.some.injEq] at encoded
    subst encoded
    have mem : 'A' ∈ ws ++ ['1'] ++ ws' := split ▸ (by decide)
    simp only [List.mem_append, List.mem_singleton] at mem
    rcases mem with (mem | mem) | mem
    · exact absurd (leading 'A' mem) (by decide)
    · exact absurd mem (by decide)
    · exact absurd (trailing 'A' mem) (by decide)
  · have size : toCInt (3112295142 * 138 / 100 + 1) = 0 := by decide
    simp only [encodeMain, List.takeWhile_replicate, List.dropWhile_replicate, List.length_replicate,
      show ((0xff : UInt8) == 0) = false by decide, size, Bool.false_eq_true, if_false, Int.toNat_zero,
      List.map_replicate, Radix.run]
    rw [show 3112295142 = 3112295141 + 1 from rfl, List.replicate_succ, List.foldl_cons, Bool.eq_false_iff]
    intro free
    exact absurd (Radix.carryFree_of_foldl _ _ free) (by decide)
  · have size : toCInt (5859436965 * 733 / 1000 + 1) = 0 := by decide
    rw [decodeMain_buffer]
    simp only [List.dropWhile_replicate, List.length_replicate, show isspace 'z' = false by decide,
      show ('z' == '1') = false by decide, size, Bool.false_eq_true, if_false, Int.toNat_zero]
    rw [show 5859436965 = 5859436964 + 1 from rfl, List.replicate_succ,
      decodeLoop_cons_digit _ _ (by decide) (by decide), Bool.eq_false_iff]
    obtain ⟨ds, -, -, pushed⟩ := decodeLoop_fst (List.replicate 5859436964 'z')
      ((Radix.Buffer.empty 0).push 58 256 (mapBase58At 'z').toNat)
    rw [pushed]
    intro free
    exact absurd (Radix.carryFree_of_foldl _ _ free) (by decide)

end SalemCash
