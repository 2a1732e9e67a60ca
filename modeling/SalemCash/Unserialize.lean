import Mathlib.Data.Nat.Digits.Defs
import SalemCash.Codec
import SalemCash.Serialize

/-!
# Reading a stream

The reading half of `serialize.h`. A `CDataStream` being read is the list of its unread
bytes, and each reader takes bytes from its front or throws `std::ios_base::failure`
(`Codec.Reader`). `ser_readdata16`, `ser_readdata32` and `ser_readdata64` read their bytes
little endian; `ReadCompactSize` rejects a size written in more bytes than it needs and a
size above `MAX_SIZE`.

Each reader reads back what its writer writes (`Codec.Reads`) and accepts nothing else
(`Codec.Accepts`): `ReadCompactSize` and `WriteCompactSize` are a bijection between the sizes
up to `MAX_SIZE` and the inputs `ReadCompactSize` accepts.
-/
set_option autoImplicit false

namespace SalemCash

/-- `std::ios_base::failure`, with its message. -/
structure ios_failure where
  what : String
  deriving DecidableEq, Repr

/-- A reader of a `CDataStream`. -/
abbrev Unserializer (α : Type) := Codec.Reader UInt8 ios_failure α

/-- `CDataStream::read`: the next `n` bytes, or a failure at the end of the data. -/
def CDataStream.read (n : Nat) : Unserializer (List UInt8) := fun s =>
  if s.length < n then .error ⟨"CDataStream::read(): end of data"⟩ else .ok (s.take n, s.drop n)

/-- `CDataStream::ignore(int nSize)`: skip `nSize` bytes. The stream keeps no read position
here, so the `unsigned int` sum `nReadPos + nSize` is not modelled. -/
def CDataStream.ignore (nSize : Int) : Unserializer Unit := fun s =>
  if nSize < 0 then .error ⟨"CDataStream::ignore(): nSize negative"⟩
  else if s.length < nSize.toNat then .error ⟨"CDataStream::ignore(): end of data"⟩
  else .ok ((), s.drop nSize.toNat)

/-- `le16toh`, `le32toh` and `le64toh` on the bytes read: their little-endian value. -/
def leToNat (bytes : List UInt8) : Nat := Nat.ofDigits 256 (bytes.map UInt8.toNat)

def ser_readdata8 : Unserializer UInt8 := do
  let bytes ← CDataStream.read 1
  pure (leToNat bytes).toUInt8

def ser_readdata16 : Unserializer UInt16 := do
  let bytes ← CDataStream.read 2
  pure (leToNat bytes).toUInt16

def ser_readdata32 : Unserializer UInt32 := do
  let bytes ← CDataStream.read 4
  pure (leToNat bytes).toUInt32

def ser_readdata64 : Unserializer UInt64 := do
  let bytes ← CDataStream.read 8
  pure (leToNat bytes).toUInt64

/-- `base_blob::Unserialize`: the 32 bytes of a hash, which `read` has returned in full. -/
def uint256.unserialize : Unserializer uint256 := do
  let bytes ← CDataStream.read 32
  pure ⟨Vector.ofFn fun i => bytes.getD i 0⟩

def MAX_SIZE : Nat := 0x02000000

def ReadCompactSize : Unserializer UInt64 := do
  let chSize ← ser_readdata8
  let nSizeRet ←
    if chSize < 253 then pure chSize.toUInt64
    else if chSize = 253 then do
      let nSizeRet := (← ser_readdata16).toUInt64
      if nSizeRet < 253 then throw ⟨"non-canonical ReadCompactSize()"⟩
      pure nSizeRet
    else if chSize = 254 then do
      let nSizeRet := (← ser_readdata32).toUInt64
      if nSizeRet < 0x10000 then throw ⟨"non-canonical ReadCompactSize()"⟩
      pure nSizeRet
    else do
      let nSizeRet ← ser_readdata64
      if nSizeRet < 0x100000000 then throw ⟨"non-canonical ReadCompactSize()"⟩
      pure nSizeRet
  if MAX_SIZE < nSizeRet.toNat then throw ⟨"ReadCompactSize(): size too large"⟩
  pure nSizeRet

theorem CDataStream.read_append (bytes rest : List UInt8) :
    (CDataStream.read bytes.length).run (bytes ++ rest) = .ok (bytes, rest) := by
  change (if (bytes ++ rest).length < bytes.length then _ else _) = _
  rw [if_neg (by simp)]
  simp

/-- `read n` takes `n` bytes off the front of the stream. -/
theorem CDataStream.read_accepts (n : Nat) :
    Codec.Accepts (CDataStream.read n) id (fun bytes => bytes.length = n) := by
  intro s bytes rest run
  change (if s.length < n then _ else _) = _ at run
  split at run
  · cases run
  · cases run
    exact ⟨by simp; omega, (List.take_append_drop n s).symm⟩

@[simp] theorem leToNat_nil : leToNat [] = 0 := rfl

@[simp] theorem leToNat_cons (b : UInt8) (bytes : List UInt8) :
    leToNat (b :: bytes) = b.toNat + 256 * leToNat bytes := by
  rw [leToNat, List.map_cons, Nat.ofDigits_cons]
  rfl

theorem leToNat_append (xs ys : List UInt8) : leToNat (xs ++ ys) = leToNat xs + 256 ^ xs.length * leToNat ys := by
  induction xs with
  | nil => simp
  | cons b xs ih =>
    rw [List.cons_append, leToNat_cons, leToNat_cons, ih, List.length_cons, pow_succ]
    ring

theorem leToNat_lt (bytes : List UInt8) : leToNat bytes < 256 ^ bytes.length := by
  have lt := Nat.ofDigits_lt_base_pow_length (b := 256) (l := bytes.map UInt8.toNat) (by decide)
    (fun d mem => by obtain ⟨b, -, rfl⟩ := List.mem_map.mp mem; exact b.toNat_lt)
  rwa [List.length_map] at lt

/-- Byte strings of one length are determined by their little-endian value. -/
theorem leToNat_inj {xs ys : List UInt8} (length : xs.length = ys.length) (same : leToNat xs = leToNat ys) :
    xs = ys := by
  have digits := Nat.ofDigits_inj_of_len_eq (b := 256) (by decide) (by simpa using length)
    (fun d mem => by obtain ⟨b, -, rfl⟩ := List.mem_map.mp mem; exact b.toNat_lt)
    (fun d mem => by obtain ⟨b, -, rfl⟩ := List.mem_map.mp mem; exact b.toNat_lt) same
  exact List.map_injective_iff.mpr (fun a b eq => UInt8.toNat_inj.mp eq) digits

section Words

variable {α : Type} {n : Nat} (f : List UInt8 → α) (write : α → List UInt8)

/-- A reader of `n` bytes converted by `f` reads back a writer of `n` bytes that `f` inverts. -/
theorem reads_of_read_map (length : ∀ a, (write a).length = n) (left : ∀ a, f (write a) = a) :
    Codec.Reads (do let bytes ← CDataStream.read n; pure (f bytes)) write (fun _ => True) := by
  intro a _ rest
  have read := CDataStream.read_append (write a) rest
  rw [length] at read
  rw [Codec.run_bind_of_run read, left]
  rfl

/-- It accepts only that writer's bytes when the writer inverts `f` on every `n` bytes. -/
theorem accepts_of_read_map (right : ∀ bytes : List UInt8, bytes.length = n → write (f bytes) = bytes) :
    Codec.Accepts (do let bytes ← CDataStream.read n; pure (f bytes)) write (fun _ => True) := by
  intro s a rest run
  rw [Codec.run_bind_eq_ok] at run
  obtain ⟨bytes, s', readBytes, done⟩ := run
  cases done
  obtain ⟨length, rfl⟩ := CDataStream.read_accepts n s bytes rest readBytes
  exact ⟨trivial, by rw [right bytes length]; rfl⟩

end Words

theorem leToNat_ser_writedata16 (x : UInt16) : leToNat (ser_writedata16 x) = x.toNat := by
  have lt := x.toNat_lt
  simp only [ser_writedata16, leToNat_cons, leToNat_nil, UInt16.toNat_toUInt8, UInt16.toNat_shiftRight]
  simp
  omega

theorem leToNat_ser_writedata32 (x : UInt32) : leToNat (ser_writedata32 x) = x.toNat := by
  have lt := x.toNat_lt
  simp only [ser_writedata32, leToNat_cons, leToNat_nil, UInt32.toNat_toUInt8, UInt32.toNat_shiftRight]
  simp
  omega

theorem length_ser_writedata32 (x : UInt32) : (ser_writedata32 x).length = 4 := rfl

theorem leToNat_ser_writedata64 (x : UInt64) : leToNat (ser_writedata64 x) = x.toNat := by
  have lt := x.toNat_lt
  rw [ser_writedata64, leToNat_append, leToNat_ser_writedata32, leToNat_ser_writedata32, length_ser_writedata32,
    UInt64.toNat_toUInt32, UInt64.toNat_toUInt32, UInt64.toNat_shiftRight]
  simp
  omega

theorem ser_readdata8_reads : Codec.Reads ser_readdata8 ser_writedata8 (fun _ => True) :=
  reads_of_read_map _ _ (fun _ => rfl) fun x => by simp [ser_writedata8]

theorem ser_readdata8_accepts : Codec.Accepts ser_readdata8 ser_writedata8 (fun _ => True) := by
  refine accepts_of_read_map _ _ fun bytes length => ?_
  obtain ⟨b, rfl⟩ := List.length_eq_one_iff.mp length
  simp [ser_writedata8]

theorem ser_readdata16_reads : Codec.Reads ser_readdata16 ser_writedata16 (fun _ => True) :=
  reads_of_read_map _ _ (fun _ => rfl) fun x => by rw [leToNat_ser_writedata16]; simp

theorem ser_readdata16_accepts : Codec.Accepts ser_readdata16 ser_writedata16 (fun _ => True) := by
  refine accepts_of_read_map _ _ fun bytes length => leToNat_inj (by rw [length]; rfl) ?_
  have lt := leToNat_lt bytes
  rw [length] at lt
  rw [leToNat_ser_writedata16, Nat.toUInt16, UInt16.toNat_ofNat',
    Nat.mod_eq_of_lt (Nat.lt_of_lt_of_le lt (by decide))]

theorem ser_readdata32_reads : Codec.Reads ser_readdata32 ser_writedata32 (fun _ => True) :=
  reads_of_read_map _ _ (fun _ => rfl) fun x => by rw [leToNat_ser_writedata32]; simp

theorem ser_readdata32_accepts : Codec.Accepts ser_readdata32 ser_writedata32 (fun _ => True) := by
  refine accepts_of_read_map _ _ fun bytes length => leToNat_inj (by rw [length]; rfl) ?_
  have lt := leToNat_lt bytes
  rw [length] at lt
  rw [leToNat_ser_writedata32, Nat.toUInt32, UInt32.toNat_ofNat',
    Nat.mod_eq_of_lt (Nat.lt_of_lt_of_le lt (by decide))]

theorem ser_readdata64_reads : Codec.Reads ser_readdata64 ser_writedata64 (fun _ => True) :=
  reads_of_read_map _ _ (fun _ => rfl) fun x => by rw [leToNat_ser_writedata64]; simp

theorem ser_readdata64_accepts : Codec.Accepts ser_readdata64 ser_writedata64 (fun _ => True) := by
  refine accepts_of_read_map _ _ fun bytes length => leToNat_inj (by rw [length]; rfl) ?_
  have lt := leToNat_lt bytes
  rw [length] at lt
  rw [leToNat_ser_writedata64, Nat.toUInt64, UInt64.toNat_ofNat',
    Nat.mod_eq_of_lt (Nat.lt_of_lt_of_le lt (by decide))]

theorem uint256.unserialize_reads : Codec.Reads uint256.unserialize uint256.serialize (fun _ => True) :=
  reads_of_read_map _ _ (fun h => h.data.length_toList) fun ⟨data⟩ => by
    rw [uint256.mk.injEq]
    ext i lt
    simp [uint256.serialize]

theorem uint256.unserialize_accepts : Codec.Accepts uint256.unserialize uint256.serialize (fun _ => True) :=
  accepts_of_read_map _ _ fun bytes length => by
    apply List.ext_getElem (by simp [uint256.serialize, length])
    intro i _ inside
    simp [uint256.serialize, List.getElem?_eq_getElem inside]

/-- The last check of `ReadCompactSize`, on a size within `MAX_SIZE`. -/
theorem sizeCheck_run {v : UInt64} (small : v.toNat ≤ MAX_SIZE) (s : List UInt8) :
    (do if MAX_SIZE < v.toNat then throw (⟨"ReadCompactSize(): size too large"⟩ : ios_failure)
        pure v : Unserializer UInt64).run s = .ok (v, s) := by
  rw [if_neg (Nat.not_lt.mpr small)]
  rfl

theorem ReadCompactSize_reads :
    Codec.Reads ReadCompactSize (fun v => WriteCompactSize v.toNat) (fun v => v.toNat ≤ MAX_SIZE) := by
  intro v small rest
  have max : MAX_SIZE = 0x02000000 := rfl
  dsimp only
  unfold WriteCompactSize ReadCompactSize
  by_cases one : v.toNat < 253
  · rw [if_pos one, Codec.run_bind_of_run (ser_readdata8_reads v.toNat.toUInt8 trivial rest)]
    have byte : v.toNat.toUInt8.toNat = v.toNat := by simp; omega
    rw [if_pos (by rw [UInt8.lt_iff_toNat_lt, byte]; exact one)]
    have back : v.toNat.toUInt8.toUInt64 = v := by
      apply UInt64.toNat_inj.mp
      rw [UInt8.toNat_toUInt64, byte]
    rw [back, pure_bind, sizeCheck_run small]
  rw [if_neg one]
  by_cases two : v.toNat ≤ 0xffff
  · rw [if_pos two, List.append_assoc, Codec.run_bind_of_run (ser_readdata8_reads 253 trivial _)]
    rw [if_neg (by decide), if_pos rfl, Codec.run_bind_of_run (ser_readdata16_reads _ trivial rest)]
    have word : v.toNat.toUInt16.toUInt64 = v := by
      apply UInt64.toNat_inj.mp
      simp
      omega
    dsimp only
    rw [word, if_neg (by rw [UInt64.lt_iff_toNat_lt]; simp; omega)]
    simp only [pure_bind]
    exact sizeCheck_run small rest
  · rw [if_neg two, if_pos (by omega), List.append_assoc, Codec.run_bind_of_run (ser_readdata8_reads 254 trivial _)]
    rw [if_neg (by decide), if_neg (by decide), if_pos rfl,
      Codec.run_bind_of_run (ser_readdata32_reads _ trivial rest)]
    have word : v.toNat.toUInt32.toUInt64 = v := by
      apply UInt64.toNat_inj.mp
      simp
      omega
    dsimp only
    rw [word, if_neg (by rw [UInt64.lt_iff_toNat_lt]; simp; omega)]
    simp only [pure_bind]
    exact sizeCheck_run small rest

/-- The last check of `ReadCompactSize` passes only for a size within `MAX_SIZE`, and then
returns it and reads nothing. -/
theorem sizeCheck_eq_ok {v w : UInt64} {s rest : List UInt8}
    (run : (do
        if MAX_SIZE < v.toNat then throw (⟨"ReadCompactSize(): size too large"⟩ : ios_failure)
        pure v : Unserializer UInt64).run s = .ok (w, rest)) :
    v.toNat ≤ MAX_SIZE ∧ w = v ∧ rest = s := by
  by_cases big : MAX_SIZE < v.toNat
  · rw [if_pos big, Codec.run_throw_bind] at run
    cases run
  · rw [if_neg big] at run
    cases run
    exact ⟨Nat.le_of_not_lt big, rfl, rfl⟩

/-- `ReadCompactSize` accepts only the shortest encoding of a size within `MAX_SIZE`. -/
theorem ReadCompactSize_accepts :
    Codec.Accepts ReadCompactSize (fun v => WriteCompactSize v.toNat) (fun v => v.toNat ≤ MAX_SIZE) := by
  intro s v rest run
  have max : MAX_SIZE = 0x02000000 := rfl
  unfold ReadCompactSize at run
  rw [Codec.run_bind_eq_ok] at run
  obtain ⟨chSize, s₁, first, run⟩ := run
  obtain ⟨-, rfl⟩ := ser_readdata8_accepts s chSize s₁ first
  dsimp only at run ⊢
  by_cases one : chSize < 253
  · rw [if_pos one] at run
    simp only [pure_bind] at run
    obtain ⟨small, rfl, rfl⟩ := sizeCheck_eq_ok run
    have byte : chSize.toUInt64.toNat = chSize.toNat := UInt8.toNat_toUInt64 chSize
    have below : chSize.toNat < 253 := by simpa [UInt8.lt_iff_toNat_lt] using one
    refine ⟨small, ?_⟩
    rw [byte, WriteCompactSize, if_pos below]
    simp
  rw [if_neg one] at run
  by_cases three : chSize = 253
  · rw [if_pos three, Codec.run_bind_eq_ok] at run
    obtain ⟨word, s₂, second, run⟩ := run
    obtain ⟨-, rfl⟩ := ser_readdata16_accepts s₁ word s₂ second
    have value : word.toUInt64.toNat = word.toNat := UInt16.toNat_toUInt64 word
    by_cases low : word.toUInt64 < 253
    · rw [if_pos low, Codec.run_throw_bind] at run
      cases run
    rw [if_neg low] at run
    simp only [pure_bind] at run
    obtain ⟨small, rfl, rfl⟩ := sizeCheck_eq_ok run
    have atLeast : 253 ≤ word.toNat := by
      rw [UInt64.lt_iff_toNat_lt, value] at low
      simpa using low
    refine ⟨small, ?_⟩
    rw [value, WriteCompactSize, if_neg (by omega), if_pos (by have := word.toNat_lt; simp at this ⊢; omega), three]
    simp
  rw [if_neg three] at run
  by_cases four : chSize = 254
  · rw [if_pos four, Codec.run_bind_eq_ok] at run
    obtain ⟨word, s₂, second, run⟩ := run
    obtain ⟨-, rfl⟩ := ser_readdata32_accepts s₁ word s₂ second
    have value : word.toUInt64.toNat = word.toNat := UInt32.toNat_toUInt64 word
    by_cases low : word.toUInt64 < 0x10000
    · rw [if_pos low, Codec.run_throw_bind] at run
      cases run
    rw [if_neg low] at run
    simp only [pure_bind] at run
    obtain ⟨small, rfl, rfl⟩ := sizeCheck_eq_ok run
    have atLeast : 0x10000 ≤ word.toNat := by
      rw [UInt64.lt_iff_toNat_lt, value] at low
      simpa using low
    refine ⟨small, ?_⟩
    rw [value, WriteCompactSize, if_neg (by omega), if_neg (by omega),
      if_pos (by have := word.toNat_lt; simp at this ⊢; omega), four]
    simp
  · rw [if_neg four, Codec.run_bind_eq_ok] at run
    obtain ⟨word, s₂, -, run⟩ := run
    by_cases low : word < 0x100000000
    · rw [if_pos low, Codec.run_throw_bind] at run
      cases run
    rw [if_neg low] at run
    simp only [pure_bind] at run
    obtain ⟨small, -, -⟩ := sizeCheck_eq_ok run
    rw [UInt64.lt_iff_toNat_lt] at low
    simp at low
    omega

theorem ReadCompactSize_canonical :
    (∀ n : UInt64, n.toNat ≤ MAX_SIZE → ∀ rest : List UInt8,
      ReadCompactSize.run (WriteCompactSize n.toNat ++ rest) = .ok (n, rest) ∧
        (WriteCompactSize n.toNat).length = GetSizeOfCompactSize n.toNat) ∧
    (∀ (s : List UInt8) (n : UInt64) (rest : List UInt8), ReadCompactSize.run s = .ok (n, rest) →
      n.toNat ≤ MAX_SIZE ∧ s = WriteCompactSize n.toNat ++ rest) :=
  ⟨fun n small rest => ⟨ReadCompactSize_reads n small rest, length_WriteCompactSize n.toNat⟩,
    ReadCompactSize_accepts⟩

/-- `253` takes the three bytes `253, 253, 0`, and they are read back. -/
theorem ReadCompactSize_canonical_at_253 :
    ((253 : UInt64).toNat ≤ MAX_SIZE ∧
      ReadCompactSize.run (WriteCompactSize (253 : UInt64).toNat ++ [7]) = .ok (253, [7]) ∧
        (WriteCompactSize (253 : UInt64).toNat).length = GetSizeOfCompactSize (253 : UInt64).toNat) ∧
    ReadCompactSize.run [253, 253, 0, 7] = .ok (253, [7]) ∧
      (253 : UInt64).toNat ≤ MAX_SIZE ∧ [253, 253, 0, 7] = WriteCompactSize (253 : UInt64).toNat ++ [7] :=
  have small : (253 : UInt64).toNat ≤ MAX_SIZE := by decide
  have read : ReadCompactSize.run [253, 253, 0, 7] = .ok (253, [7]) := rfl
  ⟨⟨small, ReadCompactSize_canonical.1 253 small [7]⟩, read, ReadCompactSize_canonical.2 _ _ _ read⟩

end SalemCash
