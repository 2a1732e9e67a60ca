import SalemCash.Amount
import SalemCash.Script

/-!
# Transactions

The data of `primitives/transaction.h`: outpoints, inputs, outputs and the
transaction itself, with the fields as the source declares them. A `uint256` is
its 32 bytes in the order the serializer writes them.
-/
namespace SalemCash

structure uint256 where
  data : Vector UInt8 32
  deriving DecidableEq, Repr

/-- `uint256()`: every byte zero. -/
def uint256.zero : uint256 := ⟨Vector.replicate 32 0⟩

structure COutPoint where
  hash : uint256
  n : UInt32
  deriving DecidableEq, Repr

/-- `COutPoint()`, the null outpoint. -/
instance : Inhabited COutPoint := ⟨⟨uint256.zero, 0xffffffff⟩⟩

/-- `CScriptWitness`: the data elements, not a script that pushes them. -/
structure CScriptWitness where
  stack : List valtype
  deriving DecidableEq, Repr

structure CTxIn where
  prevout : COutPoint
  scriptSig : CScript
  nSequence : UInt32
  scriptWitness : CScriptWitness
  deriving DecidableEq, Repr

namespace CTxIn

/-- Setting `nSequence` to this value for every input disables `nLockTime`. -/
def SEQUENCE_FINAL : UInt32 := 0xffffffff

/-- With this bit set, `nSequence` is not a relative lock time. -/
def SEQUENCE_LOCKTIME_DISABLE_FLAG : UInt32 := (1 : UInt32) <<< 31

/-- With this bit set, a relative lock time counts units of 512 seconds, else blocks. -/
def SEQUENCE_LOCKTIME_TYPE_FLAG : UInt32 := (1 : UInt32) <<< 22

def SEQUENCE_LOCKTIME_MASK : UInt32 := 0x0000ffff

def SEQUENCE_LOCKTIME_GRANULARITY : Nat := 9

end CTxIn

/-- `CTxIn()`: a null prevout, an empty script and a final sequence number. -/
instance : Inhabited CTxIn := ⟨⟨default, [], CTxIn.SEQUENCE_FINAL, ⟨[]⟩⟩⟩

structure CTxOut where
  nValue : CAmount
  scriptPubKey : CScript
  deriving DecidableEq, Repr

/-- `CTxOut()`, which is `SetNull`: the value -1 and an empty script. -/
def CTxOut.null : CTxOut := ⟨-1, []⟩

instance : Inhabited CTxOut := ⟨CTxOut.null⟩

structure CTransaction where
  vin : List CTxIn
  vout : List CTxOut
  nVersion : Int32
  nLockTime : UInt32
  deriving DecidableEq, Repr

/-- `LOCKTIME_THRESHOLD` of `script.h`: lock times below it are heights, the others
UNIX times. -/
def LOCKTIME_THRESHOLD : Nat := 500000000

end SalemCash
