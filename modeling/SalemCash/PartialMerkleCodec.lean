import SalemCash.PartialMerkle
import SalemCash.TxCodec
import SalemCash.Bits

/-!
# The wire format of a partial Merkle tree

`SerializationOp` of `CPartialMerkleTree` writes `nTransactions`, the hashes, and the bits
packed eight to a byte, the first bit the lowest, with the last byte padded by zeros. Reading
unpacks every bit of every byte, so the bits come back padded to whole bytes, and `fBad` is
cleared. Bit `p` of the packed bytes is bit `p % 8` of byte `p / 8` both ways
(`testBit_packBits`, `getD_unpackBits`), so packing and unpacking are inverse up to the padding.
`ExtractMatches` accepts the padding: it only compares how many bytes the bits it used fill.
-/
namespace SalemCash.PartialMerkle

open MerkleTree

/-- One round of the packing loop: `vBytes[p / 8] |= vBits[p] << (p % 8)`. -/
def packBit (vBits : List Bool) (vBytes : List UInt8) (p : Nat) : List UInt8 :=
  vBytes.set (p / 8) (vBytes.getD (p / 8) 0 ||| (vBits.getD p false).toUInt8 <<< (p % 8).toUInt8)

/-- The bytes `SerializationOp` writes for `vBits`: `(vBits.size() + 7) / 8` zero bytes, with
every bit or-ed into its byte in turn. -/
def packBits (vBits : List Bool) : List UInt8 :=
  (List.range vBits.length).foldl (packBit vBits) (List.replicate ((vBits.length + 7) / 8) 0)

/-- The bits `SerializationOp` reads from `vBytes`: `vBits` resized to `vBytes.size() * 8`, and
`vBits[p] = (vBytes[p / 8] & (1 << (p % 8))) != 0` for every `p`. -/
def unpackBits (vBytes : List UInt8) : List Bool :=
  (List.range (vBytes.length * 8)).map fun p => vBytes.getD (p / 8) 0 &&& (1 : UInt8) <<< (p % 8).toUInt8 != 0

/-- `sizeof(uint256)`: it sets how many hashes one round of reading the vector takes. -/
def sizeof_uint256 : Nat := 32

/-- `SerializationOp` when writing. -/
def CPartialMerkleTree.serialize (t : CPartialMerkleTree uint256) : List UInt8 :=
  ser_writedata32 t.nTransactions ++ serializeVector uint256.serialize t.vHash ++ serializeBytes (packBits t.vBits)

/-- `SerializationOp` when reading. Every field is read or set, so what the object held before
does not matter. -/
def CPartialMerkleTree.unserialize : Unserializer (CPartialMerkleTree uint256) := do
  let nTransactions ← ser_readdata32
  let vHash ← unserializeVector sizeof_uint256 uint256.unserialize
  let vBytes ← unserializeBytes
  pure ⟨nTransactions, unpackBits vBytes, vHash, false⟩

section Lists

variable {β : Type}

theorem getD_set_of_ne (l : List β) {k i : Nat} (a d : β) (h : k ≠ i) : (l.set k a).getD i d = l.getD i d := by
  rw [List.getD_eq_getElem?_getD, List.getD_eq_getElem?_getD, List.getElem?_set, if_neg h]

theorem getD_set_self (l : List β) {k : Nat} (a d : β) (h : k < l.length) : (l.set k a).getD k d = a := by
  rw [List.getD_eq_getElem?_getD, List.getElem?_set, if_pos rfl, if_pos h]
  rfl

/-- Lists of one length with the same entries, read with one default, are equal. -/
theorem ext_getD {l l' : List β} (d : β) (length : l.length = l'.length) (same : ∀ i, l.getD i d = l'.getD i d) :
    l = l' := by
  apply List.ext_getElem length
  intro i h h'
  rw [← List.getD_eq_getElem l d h, ← List.getD_eq_getElem l' d h', same]

end Lists

/-- What the bytes hold after the packing loop has or-ed in the bits below `p`: bit `j` of byte
`i` is bit `8 * i + j` of `vBits` if that is below `p`, and clear otherwise. -/
structure Packed (vBits : List Bool) (p : Nat) (vBytes : List UInt8) : Prop where
  length : vBytes.length = (vBits.length + 7) / 8
  bits : ∀ i, ∀ j < 8, (vBytes.getD i 0).toNat.testBit j = (decide (8 * i + j < p) && vBits.getD (8 * i + j) false)

theorem packed_zero (vBits : List Bool) : Packed vBits 0 (List.replicate ((vBits.length + 7) / 8) 0) where
  length := List.length_replicate
  bits i j _ := by
    by_cases inside : i < (vBits.length + 7) / 8
    · rw [List.getD_replicate _ inside]
      simp
    · rw [List.getD_eq_default _ _ (by rw [List.length_replicate]; omega)]
      simp

/-- One round of the loop or-s bit `p` into byte `p / 8` and leaves the other bytes. -/
theorem Packed.packBit {vBits : List Bool} {p : Nat} {vBytes : List UInt8} (h : Packed vBits p vBytes)
    (hp : p < vBits.length) : Packed vBits (p + 1) (packBit vBits vBytes p) where
  length := by rw [PartialMerkle.packBit, List.length_set, h.length]
  bits i j hj := by
    rw [PartialMerkle.packBit]
    by_cases hi : i = p / 8
    · subst hi
      have hbyte : p / 8 < vBytes.length := by
        rw [h.length]
        omega
      rw [getD_set_self _ _ _ hbyte, Bits.testBit_or_shiftLeft _ _ (Nat.mod_lt p (by decide)), h.bits _ j hj]
      by_cases hj' : j = p % 8
      · subst hj'
        rw [Nat.div_add_mod]
        simp
      · have below : 8 * (p / 8) + j < p + 1 ↔ 8 * (p / 8) + j < p := by omega
        rw [decide_eq_decide.mpr below, decide_eq_false hj', Bool.and_false, Bool.or_false]
    · have below : 8 * i + j < p + 1 ↔ 8 * i + j < p := by omega
      rw [getD_set_of_ne _ _ _ (Ne.symm hi), h.bits i j hj, decide_eq_decide.mpr below]

/-- The loop over the bits below `p`. -/
theorem packed_foldl (vBits : List Bool) {p : Nat} (hp : p ≤ vBits.length) :
    Packed vBits p ((List.range p).foldl (packBit vBits) (List.replicate ((vBits.length + 7) / 8) 0)) := by
  induction p with
  | zero => exact packed_zero vBits
  | succ p ih =>
    rw [List.range_succ, List.foldl_append, List.foldl_cons, List.foldl_nil]
    exact (ih (by omega)).packBit (by omega)

theorem length_packBits (vBits : List Bool) : (packBits vBits).length = (vBits.length + 7) / 8 :=
  (packed_foldl vBits le_rfl).length

/-- Bit `j` of byte `i` of the packed bits is bit `8 * i + j`. -/
theorem testBit_packBits (vBits : List Bool) (i : Nat) {j : Nat} (hj : j < 8) :
    ((packBits vBits).getD i 0).toNat.testBit j = vBits.getD (8 * i + j) false := by
  rw [packBits, (packed_foldl vBits le_rfl).bits i j hj]
  by_cases inside : 8 * i + j < vBits.length <;> simp [inside]

theorem length_unpackBits (vBytes : List UInt8) : (unpackBits vBytes).length = vBytes.length * 8 := by
  rw [unpackBits, List.length_map, List.length_range]

/-- Bit `p` of the unpacked bytes is bit `p % 8` of byte `p / 8`. -/
theorem getD_unpackBits (vBytes : List UInt8) (p : Nat) :
    (unpackBits vBytes).getD p false = (vBytes.getD (p / 8) 0).toNat.testBit (p % 8) := by
  by_cases inside : p < vBytes.length * 8
  · rw [List.getD_eq_getElem _ _ (by rw [length_unpackBits]; exact inside)]
    simp only [unpackBits, List.getElem_map, List.getElem_range]
    exact Bits.and_one_shiftLeft_ne_zero _ (Nat.mod_lt p (by decide))
  · rw [List.getD_eq_default _ _ (by rw [length_unpackBits]; omega), List.getD_eq_default _ _ (by omega)]
    simp

/-- Unpacking what was packed gives the bits back, followed by the zeros that fill the last
byte. -/
theorem unpackBits_packBits (vBits : List Bool) :
    unpackBits (packBits vBits) = vBits ++ List.replicate ((vBits.length + 7) / 8 * 8 - vBits.length) false := by
  apply ext_getD false
  · rw [length_unpackBits, length_packBits, List.length_append, List.length_replicate]
    omega
  · intro p
    rw [getD_unpackBits, testBit_packBits _ _ (Nat.mod_lt p (by decide)), Nat.div_add_mod]
    by_cases inside : p < vBits.length
    · rw [List.getD_append _ _ _ _ inside]
    · rw [List.getD_append_right _ _ _ _ (by omega), List.getD_eq_default _ _ (by omega)]
      by_cases pad : p - vBits.length < (vBits.length + 7) / 8 * 8 - vBits.length
      · rw [List.getD_replicate _ pad]
      · rw [List.getD_eq_default _ _ (by rw [List.length_replicate]; omega)]

/-- Packing what was unpacked gives the bytes back. -/
theorem packBits_unpackBits (vBytes : List UInt8) : packBits (unpackBits vBytes) = vBytes := by
  apply ext_getD 0
  · rw [length_packBits, length_unpackBits]
    omega
  · intro i
    apply Bits.byte_eq_of_testBit
    intro j hj
    rw [testBit_packBits _ _ hj, getD_unpackBits, show (8 * i + j) / 8 = i by omega, show (8 * i + j) % 8 = j by omega]

theorem CPartialMerkleTree.unserialize_eq :
    CPartialMerkleTree.unserialize =
      ser_readdata32 >>= fun nTransactions =>
        unserializeVector sizeof_uint256 uint256.unserialize >>= fun vHash =>
          unserializeBytes >>= fun vBytes => pure ⟨nTransactions, unpackBits vBytes, vHash, false⟩ :=
  rfl

/-- `SerializationOp` reads back what it wrote, with the bits padded to whole bytes and `fBad`
cleared. -/
theorem CPartialMerkleTree.unserialize_serialize (t : CPartialMerkleTree uint256) (hHash : t.vHash.length ≤ MAX_SIZE)
    (hBits : (t.vBits.length + 7) / 8 ≤ MAX_SIZE) (rest : List UInt8) :
    CPartialMerkleTree.unserialize.run (t.serialize ++ rest) =
      .ok (⟨t.nTransactions, unpackBits (packBits t.vBits), t.vHash, false⟩, rest) := by
  have hashes := unserializeVector_reads (show 0 < 5000000 / sizeof_uint256 by decide) uint256.unserialize_reads
    t.vHash ⟨hHash, fun _ _ => trivial⟩ (serializeBytes (packBits t.vBits) ++ rest)
  have bytes := unserializeBytes_reads (packBits t.vBits)
    (show (packBits t.vBits).length ≤ MAX_SIZE by rw [length_packBits]; exact hBits) rest
  rw [CPartialMerkleTree.unserialize_eq, CPartialMerkleTree.serialize, List.append_assoc, List.append_assoc,
    Codec.run_bind_of_run (ser_readdata32_reads _ trivial _), Codec.run_bind_of_run hashes, Codec.run_bind_of_run bytes]
  rfl

/-- Whatever `SerializationOp` reads was written by it from the tree read, whose bits fill whole
bytes and whose `fBad` is clear. -/
theorem CPartialMerkleTree.unserialize_accepts {s rest : List UInt8} {t : CPartialMerkleTree uint256}
    (run : CPartialMerkleTree.unserialize.run s = .ok (t, rest)) :
    s = t.serialize ++ rest ∧ t.vBits.length % 8 = 0 ∧ t.vBits.length ≤ 8 * MAX_SIZE ∧ t.vHash.length ≤ MAX_SIZE ∧
      t.fBad = false := by
  rw [CPartialMerkleTree.unserialize_eq, Codec.run_bind_eq_ok] at run
  obtain ⟨nTransactions, s₁, hn, run⟩ := run
  rw [Codec.run_bind_eq_ok] at run
  obtain ⟨vHash, s₂, hhash, run⟩ := run
  rw [Codec.run_bind_eq_ok] at run
  obtain ⟨vBytes, s₃, hbytes, done⟩ := run
  cases done
  obtain ⟨-, rfl⟩ := ser_readdata32_accepts _ _ _ hn
  obtain ⟨⟨hHash, -⟩, rfl⟩ :=
    unserializeVector_accepts (show 0 < 5000000 / sizeof_uint256 by decide) uint256.unserialize_accepts _ _ _ hhash
  obtain ⟨hBytes, rfl⟩ := unserializeBytes_accepts _ _ _ hbytes
  refine ⟨?_, by rw [length_unpackBits]; omega, by rw [length_unpackBits]; omega, hHash, rfl⟩
  rw [CPartialMerkleTree.serialize, packBits_unpackBits, List.append_assoc, List.append_assoc]

/-- `SerializationOp` reads back every tree it writes, with the bits padded by zeros to whole
bytes and `fBad` cleared, when the hashes and the bytes of the bits stay within `MAX_SIZE`.
Whatever it reads was written by it from the tree it returns, whose bits fill whole bytes and
whose `fBad` is clear: on such trees reading and writing are inverse. -/
theorem CPartialMerkleTree_serialize_round_trip :
    (∀ t : CPartialMerkleTree uint256, t.vHash.length ≤ MAX_SIZE → (t.vBits.length + 7) / 8 ≤ MAX_SIZE →
      ∀ rest : List UInt8, CPartialMerkleTree.unserialize.run (t.serialize ++ rest) =
        .ok (⟨t.nTransactions, t.vBits ++ List.replicate ((t.vBits.length + 7) / 8 * 8 - t.vBits.length) false,
          t.vHash, false⟩, rest)) ∧
    (∀ (s : List UInt8) (t : CPartialMerkleTree uint256) (rest : List UInt8),
      CPartialMerkleTree.unserialize.run s = .ok (t, rest) →
        s = t.serialize ++ rest ∧ t.vBits.length % 8 = 0 ∧ t.vBits.length ≤ 8 * MAX_SIZE ∧
          t.vHash.length ≤ MAX_SIZE ∧ t.fBad = false) := by
  constructor
  · intro t hHash hBits rest
    rw [CPartialMerkleTree.unserialize_serialize t hHash hBits rest, unpackBits_packBits]
  · intro s t rest run
    exact CPartialMerkleTree.unserialize_accepts run

/-- Three bits and one hash, with `fBad` set: the bits come back padded to a byte, `fBad` clear. -/
theorem CPartialMerkleTree_serialize_round_trip_three_bits :
    CPartialMerkleTree.unserialize.run
        ((⟨1, [true, false, true], [uint256.zero], true⟩ : CPartialMerkleTree uint256).serialize ++ []) =
      .ok (⟨1, [true, false, true] ++ List.replicate (([true, false, true].length + 7) / 8 * 8 -
        [true, false, true].length) false, [uint256.zero], false⟩, []) :=
  CPartialMerkleTree_serialize_round_trip.1 ⟨1, [true, false, true], [uint256.zero], true⟩ (by decide) (by decide) []

/-- A partial Merkle tree built from at least one and at most `MAX_TRANSACTIONS` transaction
ids, with a flag for each, sent through `SerializationOp` and read back on the other side, gives
`ExtractMatches` the root `ComputeMerkleRoot` returns for the block, the matched ids in block
order with their positions, and `fBad` unset, when no two sibling nodes have one hash. -/
theorem CPartialMerkleTree_wire_round_trip (P : Primitives) (vTxid : List uint256) (vMatch : List Bool)
    (hne : vTxid ≠ []) (hmax : vTxid.length ≤ MAX_TRANSACTIONS) (hmatch : vMatch.length = vTxid.length)
    (hsib : DistinctSiblings P.Hash vTxid.length (fun i => vTxid.getD i uint256.zero)) :
    ∃ t t' hash mutated, CPartialMerkleTree.create P.Hash vTxid vMatch = .ok t ∧
      CPartialMerkleTree.unserialize.run t.serialize = .ok (t', []) ∧
      Merkle.ComputeMerkleRoot P vTxid = .ok (hash, mutated) ∧
      ExtractMatches P.Hash uint256.zero t' [] =
        (hash, ((List.range vTxid.length).filter (vMatch.getD · false)).map (vTxid.getD · uint256.zero),
          ((List.range vTxid.length).filter (vMatch.getD · false)).map Nat.toUInt32, false) := by
  have hclog := clog_block_le hmax
  obtain ⟨hlen2, hlen1, -⟩ := length_prunedBlock_le P.Hash uint256.zero vMatch hne
  rw [MAX_TRANSACTIONS_eq] at hmax
  obtain ⟨mutated, hroot⟩ := Merkle.ComputeMerkleRoot_eq_root P (show vTxid.length ≤ 2 ^ 31 by omega)
  set bits := (prunedBlock P.Hash uint256.zero vTxid vMatch).1
  set hashes := (prunedBlock P.Hash uint256.zero vTxid vMatch).2
  have hMAX : MAX_SIZE = 33554432 := rfl
  have hbits : bits.length ≤ 32 * 16666 := hlen1.trans (Nat.mul_le_mul (by omega) hmax)
  have hread := CPartialMerkleTree.unserialize_serialize ⟨vTxid.length.toUInt32, bits, hashes, false⟩
    (by dsimp only; omega) (by dsimp only; omega) []
  rw [List.append_nil, unpackBits_packBits] at hread
  dsimp only at hread
  have hext := ExtractMatches_prunedBlock P.Hash uint256.zero vMatch [] hne (by rw [MAX_TRANSACTIONS_eq]; exact hmax)
    hsib (List.replicate ((bits.length + 7) / 8 * 8 - bits.length) false)
    (show (bits.length + (List.replicate _ false).length + 7) / 8 = (bits.length + 7) / 8 by
      rw [List.length_replicate]; omega)
  rw [List.nil_append] at hext
  exact ⟨_, _, _, mutated, create_eq P.Hash uint256.zero vMatch (by rw [MAX_TRANSACTIONS_eq]; exact hmax) hne hmatch,
    hread, hroot, hext⟩

/-- The two transactions of `CPartialMerkleTree_round_trip_two`, relayed. -/
theorem CPartialMerkleTree_wire_round_trip_two :
    [uint256.zero, ⟨Vector.replicate 32 1⟩] ≠ [] ∧
      [uint256.zero, ⟨Vector.replicate 32 1⟩].length ≤ MAX_TRANSACTIONS ∧
      [false, true].length = [uint256.zero, ⟨Vector.replicate 32 1⟩].length ∧
      DistinctSiblings zeroPrimitives.Hash 2 (fun i => [uint256.zero, ⟨Vector.replicate 32 1⟩].getD i uint256.zero) ∧
      ∃ t t' hash mutated,
        CPartialMerkleTree.create zeroPrimitives.Hash [uint256.zero, ⟨Vector.replicate 32 1⟩] [false, true] = .ok t ∧
        CPartialMerkleTree.unserialize.run t.serialize = .ok (t', []) ∧
        Merkle.ComputeMerkleRoot zeroPrimitives [uint256.zero, ⟨Vector.replicate 32 1⟩] = .ok (hash, mutated) ∧
        ExtractMatches zeroPrimitives.Hash uint256.zero t' [] =
          (hash, ((List.range 2).filter ([false, true].getD · false)).map
              ([uint256.zero, ⟨Vector.replicate 32 1⟩].getD · uint256.zero),
            ((List.range 2).filter ([false, true].getD · false)).map Nat.toUInt32, false) :=
  ⟨by simp, by decide, rfl, distinctSiblings_two,
    CPartialMerkleTree_wire_round_trip zeroPrimitives _ _ (by simp) (by decide) rfl distinctSiblings_two⟩

end SalemCash.PartialMerkle
