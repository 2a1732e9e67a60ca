import SalemCash.Transaction

/-!
# Serialization

The writing half of `serialize.h` and the `SerializationOp`s of `transaction.h`. A
stream is the list of bytes written to it, so `s << a << b` is the bytes of `a`
followed by the bytes of `b`. Integers are written little endian; a byte vector or a
script is its `CompactSize` length and then its bytes.
-/
namespace SalemCash

def ser_writedata8 (obj : UInt8) : List UInt8 := [obj]

def ser_writedata16 (obj : UInt16) : List UInt8 := [obj.toUInt8, (obj >>> 8).toUInt8]

def ser_writedata32 (obj : UInt32) : List UInt8 :=
  [obj.toUInt8, (obj >>> 8).toUInt8, (obj >>> 16).toUInt8, (obj >>> 24).toUInt8]

def ser_writedata64 (obj : UInt64) : List UInt8 :=
  ser_writedata32 obj.toUInt32 ++ ser_writedata32 (obj >>> 32).toUInt32

def WriteCompactSize (nSize : Nat) : List UInt8 :=
  if nSize < 253 then ser_writedata8 nSize.toUInt8
  else if nSize ≤ 0xffff then ser_writedata8 253 ++ ser_writedata16 nSize.toUInt16
  else if nSize ≤ 0xffffffff then ser_writedata8 254 ++ ser_writedata32 nSize.toUInt32
  else ser_writedata8 255 ++ ser_writedata64 nSize.toUInt64

def GetSizeOfCompactSize (nSize : Nat) : Nat :=
  if nSize < 253 then 1
  else if nSize ≤ 0xffff then 1 + 2
  else if nSize ≤ 0xffffffff then 1 + 4
  else 1 + 8

theorem length_WriteCompactSize (nSize : Nat) :
    (WriteCompactSize nSize).length = GetSizeOfCompactSize nSize := by
  unfold WriteCompactSize GetSizeOfCompactSize
  split_ifs <;> rfl

/-- A `prevector` or `std::vector` of bytes, such as a `CScript`: one opaque blob. -/
def serializeBytes (v : List UInt8) : List UInt8 := WriteCompactSize v.length ++ v

/-- A `std::vector` of objects, each written by `ser`. -/
def serializeVector {α : Type} (ser : α → List UInt8) (v : List α) : List UInt8 :=
  WriteCompactSize v.length ++ v.flatMap ser

def uint256.serialize (h : uint256) : List UInt8 := h.data.toList

def COutPoint.serialize (o : COutPoint) : List UInt8 := o.hash.serialize ++ ser_writedata32 o.n

def CTxIn.serialize (txin : CTxIn) : List UInt8 :=
  txin.prevout.serialize ++ serializeBytes txin.scriptSig ++ ser_writedata32 txin.nSequence

/-- `CAmount` is written as the 64 bits of its two's complement. -/
def CTxOut.serialize (txout : CTxOut) : List UInt8 :=
  ser_writedata64 (Int.toInt64 txout.nValue).toUInt64 ++ serializeBytes txout.scriptPubKey

def CTransaction.HasWitness (tx : CTransaction) : Bool :=
  tx.vin.any fun txin => !txin.scriptWitness.stack.isEmpty

/-- `SerializeTransaction`: the extended format, with the marker, the flag and the
witnesses, only when the stream allows witnesses and the transaction has one. -/
def SerializeTransaction (fAllowWitness : Bool) (tx : CTransaction) : List UInt8 :=
  let flags : UInt8 := if fAllowWitness ∧ tx.HasWitness then 1 else 0
  ser_writedata32 tx.nVersion.toUInt32 ++
    (if flags ≠ 0 then serializeVector CTxIn.serialize [] ++ ser_writedata8 flags else []) ++
    serializeVector CTxIn.serialize tx.vin ++ serializeVector CTxOut.serialize tx.vout ++
    (if flags &&& 1 ≠ 0 then
      tx.vin.flatMap fun txin => serializeVector serializeBytes txin.scriptWitness.stack
    else []) ++
    ser_writedata32 tx.nLockTime

/-- Without a witness to write, or on a stream that does not allow them, a transaction
is written in the basic format. -/
theorem SerializeTransaction_basic {fAllowWitness : Bool} {tx : CTransaction}
    (h : fAllowWitness = false ∨ tx.HasWitness = false) :
    SerializeTransaction fAllowWitness tx =
      ser_writedata32 tx.nVersion.toUInt32 ++ serializeVector CTxIn.serialize tx.vin ++
        serializeVector CTxOut.serialize tx.vout ++ ser_writedata32 tx.nLockTime := by
  have hflags : ¬(fAllowWitness = true ∧ tx.HasWitness = true) := by
    rcases h with h | h <;> simp [h]
  simp only [SerializeTransaction, hflags, if_false]
  simp

end SalemCash
