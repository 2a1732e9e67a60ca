import SalemCash.ScriptNum

/-!
# Verification flags, encoding checks and the signature checker

The flags are the `unsigned int` bit set of `interpreter.h`. The encoding checks of
`interpreter.cpp` (`CheckSignatureEncoding`, `CheckPubKeyEncoding`,
`CheckMinimalPush`) return `pure ()` where the source returns `true`, and the
error it stores in `serror` where it returns `false`.

What the interpreter takes from outside this file is a parameter: the hash
functions of `crypto/` and `CPubKey::CheckLowS` (which parses the signature with
the vendored secp256k1 code) in `Primitives`, and the virtual methods of
`BaseSignatureChecker` in `SignatureChecker`.
-/
namespace SalemCash

def SCRIPT_VERIFY_NONE : UInt32 := 0
def SCRIPT_VERIFY_P2SH : UInt32 := (1 : UInt32) <<< 0
def SCRIPT_VERIFY_STRICTENC : UInt32 := (1 : UInt32) <<< 1
def SCRIPT_VERIFY_DERSIG : UInt32 := (1 : UInt32) <<< 2
def SCRIPT_VERIFY_LOW_S : UInt32 := (1 : UInt32) <<< 3
def SCRIPT_VERIFY_NULLDUMMY : UInt32 := (1 : UInt32) <<< 4
def SCRIPT_VERIFY_SIGPUSHONLY : UInt32 := (1 : UInt32) <<< 5
def SCRIPT_VERIFY_MINIMALDATA : UInt32 := (1 : UInt32) <<< 6
def SCRIPT_VERIFY_DISCOURAGE_UPGRADABLE_NOPS : UInt32 := (1 : UInt32) <<< 7
def SCRIPT_VERIFY_CLEANSTACK : UInt32 := (1 : UInt32) <<< 8
def SCRIPT_VERIFY_CHECKLOCKTIMEVERIFY : UInt32 := (1 : UInt32) <<< 9
def SCRIPT_VERIFY_CHECKSEQUENCEVERIFY : UInt32 := (1 : UInt32) <<< 10
def SCRIPT_VERIFY_WITNESS : UInt32 := (1 : UInt32) <<< 11
def SCRIPT_VERIFY_DISCOURAGE_UPGRADABLE_WITNESS_PROGRAM : UInt32 := (1 : UInt32) <<< 12
def SCRIPT_VERIFY_MINIMALIF : UInt32 := (1 : UInt32) <<< 13
def SCRIPT_VERIFY_NULLFAIL : UInt32 := (1 : UInt32) <<< 14
def SCRIPT_VERIFY_WITNESS_PUBKEYTYPE : UInt32 := (1 : UInt32) <<< 15

/-- `(flags & mask) != 0`. -/
def hasFlag (flags mask : UInt32) : Bool := flags &&& mask != 0

/-- `flags` is a subset of `flags'`. -/
def FlagSubset (flags flags' : UInt32) : Prop := flags &&& flags' = flags

instance (flags flags' : UInt32) : Decidable (FlagSubset flags flags') :=
  inferInstanceAs (Decidable (flags &&& flags' = flags))

theorem hasFlag_mono {flags flags' : UInt32} (mask : UInt32) (h : FlagSubset flags flags')
    (hf : hasFlag flags mask = true) : hasFlag flags' mask = true := by
  simp only [hasFlag, bne_iff_ne, ne_eq] at hf ⊢
  intro hm
  apply hf
  rw [← h, UInt32.and_assoc, hm, UInt32.and_zero]

inductive SigVersion where
  | SIGVERSION_BASE
  | SIGVERSION_WITNESS_V0
  deriving DecidableEq, Repr

def SIGHASH_ALL : UInt8 := 1
def SIGHASH_NONE : UInt8 := 2
def SIGHASH_SINGLE : UInt8 := 3
def SIGHASH_ANYONECANPAY : UInt8 := 0x80

/-- The code the interpreter calls but that lives outside `interpreter.cpp`. Each hash
writes a fixed number of bytes into the buffer the interpreter allocates. -/
structure Primitives where
  RIPEMD160 : valtype → valtype
  SHA1 : valtype → valtype
  SHA256 : valtype → valtype
  CheckLowS : valtype → Bool
  RIPEMD160_length : ∀ v, (RIPEMD160 v).length = 20
  SHA1_length : ∀ v, (SHA1 v).length = 20
  SHA256_length : ∀ v, (SHA256 v).length = 32

/-- `CHash160`: RIPEMD-160 of SHA-256. -/
def Primitives.Hash160 (P : Primitives) (v : valtype) : valtype := P.RIPEMD160 (P.SHA256 v)

/-- `CHash256`: SHA-256 applied twice. -/
def Primitives.Hash256 (P : Primitives) (v : valtype) : valtype := P.SHA256 (P.SHA256 v)

/-- The virtual methods of `BaseSignatureChecker`. -/
structure SignatureChecker where
  CheckSig : valtype → valtype → CScript → SigVersion → Bool
  CheckLockTime : CScriptNum → Bool
  CheckSequence : CScriptNum → Bool

/-- BIP66 strict DER, followed by one hash-type byte. -/
def IsValidSignatureEncoding (sig : valtype) : Bool :=
  let at_ (i : Nat) : Nat := (sig.getD i 0).toNat
  let lenR := at_ 3
  let lenS := at_ (5 + lenR)
  9 ≤ sig.length && sig.length ≤ 73 &&
    at_ 0 == 0x30 &&
    at_ 1 == sig.length - 3 &&
    5 + lenR < sig.length &&
    lenR + lenS + 7 == sig.length &&
    at_ 2 == 0x02 &&
    lenR != 0 &&
    at_ 4 &&& 0x80 == 0 &&
    !(1 < lenR && at_ 4 == 0 && at_ 5 &&& 0x80 == 0) &&
    at_ (lenR + 4) == 0x02 &&
    lenS != 0 &&
    at_ (lenR + 6) &&& 0x80 == 0 &&
    !(1 < lenS && at_ (lenR + 6) == 0 && at_ (lenR + 7) &&& 0x80 == 0)

def IsLowDERSignature (P : Primitives) (vchSig : valtype) : Except Fault Unit :=
  if !IsValidSignatureEncoding vchSig then throw (.error .SCRIPT_ERR_SIG_DER)
  else if !P.CheckLowS vchSig.dropLast then throw (.error .SCRIPT_ERR_SIG_HIGH_S)
  else pure ()

def IsDefinedHashtypeSignature (vchSig : valtype) : Bool :=
  match vchSig.getLast? with
  | none => false
  | some last =>
    let nHashType := last &&& ~~~SIGHASH_ANYONECANPAY
    !(nHashType < SIGHASH_ALL || SIGHASH_SINGLE < nHashType)

def CheckSignatureEncoding (P : Primitives) (vchSig : valtype) (flags : UInt32) :
    Except Fault Unit :=
  if vchSig.length = 0 then pure ()
  else if hasFlag flags (SCRIPT_VERIFY_DERSIG ||| SCRIPT_VERIFY_LOW_S ||| SCRIPT_VERIFY_STRICTENC)
      && !IsValidSignatureEncoding vchSig then throw (.error .SCRIPT_ERR_SIG_DER)
  else do
    -- a low-S signature falls through to the hash-type test of the next `else if`
    if hasFlag flags SCRIPT_VERIFY_LOW_S then IsLowDERSignature P vchSig
    if hasFlag flags SCRIPT_VERIFY_STRICTENC && !IsDefinedHashtypeSignature vchSig then
      throw (.error .SCRIPT_ERR_SIG_HASHTYPE)

def IsCompressedOrUncompressedPubKey (vchPubKey : valtype) : Bool :=
  if vchPubKey.length < 33 then false
  else if vchPubKey.getD 0 0 = 0x04 then vchPubKey.length == 65
  else if vchPubKey.getD 0 0 = 0x02 ∨ vchPubKey.getD 0 0 = 0x03 then vchPubKey.length == 33
  else false

def IsCompressedPubKey (vchPubKey : valtype) : Bool :=
  vchPubKey.length == 33 && (vchPubKey.getD 0 0 == 0x02 || vchPubKey.getD 0 0 == 0x03)

def CheckPubKeyEncoding (vchPubKey : valtype) (flags : UInt32) (sigversion : SigVersion) :
    Except Fault Unit :=
  if hasFlag flags SCRIPT_VERIFY_STRICTENC && !IsCompressedOrUncompressedPubKey vchPubKey then
    throw (.error .SCRIPT_ERR_PUBKEYTYPE)
  else if hasFlag flags SCRIPT_VERIFY_WITNESS_PUBKEYTYPE &&
      sigversion == .SIGVERSION_WITNESS_V0 && !IsCompressedPubKey vchPubKey then
    throw (.error .SCRIPT_ERR_WITNESS_PUBKEYTYPE)
  else pure ()

/-- `CheckMinimalPush`, with its `assert` that the opcode is a data push. -/
def CheckMinimalPush (data : valtype) (opcode : UInt8) : Except Fault Bool :=
  if OP_PUSHDATA4 < opcode then throw .abort
  else pure <|
    if data.length = 0 then opcode == OP_0
    else if data.length = 1 ∧ 1 ≤ data.getD 0 0 ∧ data.getD 0 0 ≤ 16 then false
    else if data.length = 1 ∧ data.getD 0 0 = 0x81 then false
    else if data.length ≤ 75 then opcode.toNat == data.length
    else if data.length ≤ 255 then opcode == OP_PUSHDATA1
    else if data.length ≤ 65535 then opcode == OP_PUSHDATA2
    else true

end SalemCash
