import Mathlib.Data.Int.Bitwise
import SalemCash.Script

/-!
# How an evaluation stops, and script numbers

`ScriptError` is `script_error.h`. A step of the interpreter stops in one of three
ways, kept apart in `Fault`: a `return set_error(...)`, an exception that the
`catch (...)` of `EvalScript` turns into `SCRIPT_ERR_UNKNOWN_ERROR`, or a failed
`assert`, which ends the process and is caught by nothing.

`CScriptNum` keeps its `int64_t` value as an integer. The asserting operators
(`+=`, `-=`, unary minus) check their `assert` conditions against the `int64_t`
bounds and fail with `Fault.abort`; the operators without an assert compute over
the integers, and the safety theorems show that their results stay in range.
-/
namespace SalemCash

inductive ScriptError where
  | SCRIPT_ERR_OK
  | SCRIPT_ERR_UNKNOWN_ERROR
  | SCRIPT_ERR_EVAL_FALSE
  | SCRIPT_ERR_OP_RETURN
  | SCRIPT_ERR_SCRIPT_SIZE
  | SCRIPT_ERR_PUSH_SIZE
  | SCRIPT_ERR_OP_COUNT
  | SCRIPT_ERR_STACK_SIZE
  | SCRIPT_ERR_SIG_COUNT
  | SCRIPT_ERR_PUBKEY_COUNT
  | SCRIPT_ERR_VERIFY
  | SCRIPT_ERR_EQUALVERIFY
  | SCRIPT_ERR_CHECKMULTISIGVERIFY
  | SCRIPT_ERR_CHECKSIGVERIFY
  | SCRIPT_ERR_NUMEQUALVERIFY
  | SCRIPT_ERR_BAD_OPCODE
  | SCRIPT_ERR_DISABLED_OPCODE
  | SCRIPT_ERR_INVALID_STACK_OPERATION
  | SCRIPT_ERR_INVALID_ALTSTACK_OPERATION
  | SCRIPT_ERR_UNBALANCED_CONDITIONAL
  | SCRIPT_ERR_NEGATIVE_LOCKTIME
  | SCRIPT_ERR_UNSATISFIED_LOCKTIME
  | SCRIPT_ERR_SIG_HASHTYPE
  | SCRIPT_ERR_SIG_DER
  | SCRIPT_ERR_MINIMALDATA
  | SCRIPT_ERR_SIG_PUSHONLY
  | SCRIPT_ERR_SIG_HIGH_S
  | SCRIPT_ERR_SIG_NULLDUMMY
  | SCRIPT_ERR_PUBKEYTYPE
  | SCRIPT_ERR_CLEANSTACK
  | SCRIPT_ERR_MINIMALIF
  | SCRIPT_ERR_SIG_NULLFAIL
  | SCRIPT_ERR_DISCOURAGE_UPGRADABLE_NOPS
  | SCRIPT_ERR_DISCOURAGE_UPGRADABLE_WITNESS_PROGRAM
  | SCRIPT_ERR_WITNESS_PROGRAM_WRONG_LENGTH
  | SCRIPT_ERR_WITNESS_PROGRAM_WITNESS_EMPTY
  | SCRIPT_ERR_WITNESS_PROGRAM_MISMATCH
  | SCRIPT_ERR_WITNESS_MALLEATED
  | SCRIPT_ERR_WITNESS_MALLEATED_P2SH
  | SCRIPT_ERR_WITNESS_UNEXPECTED
  | SCRIPT_ERR_WITNESS_PUBKEYTYPE
  deriving DecidableEq, Repr

/-- The exceptions that the interpreter's callees can throw. -/
inductive CppException where
  /-- `scriptnum_error`, from decoding an over-long or non-minimal number. -/
  | scriptnum_error
  /-- `std::out_of_range`, from `stack.at` in `stacktop` and `altstacktop`. -/
  | out_of_range
  /-- `std::runtime_error`, from `popstack` on an empty stack. -/
  | runtime_error
  deriving DecidableEq, Repr

inductive Fault where
  | error (serror : ScriptError)
  | thrown (e : CppException)
  | abort
  deriving DecidableEq, Repr

def INT64_MAX : Int := 2 ^ 63 - 1
def INT64_MIN : Int := -2 ^ 63
def INT_MAX : Int := 2 ^ 31 - 1
def INT_MIN : Int := -2 ^ 31

/-- An `int64_t` that is not negative, as an unsigned number. -/
theorem toUInt64_toNat_of_nonneg (x : Int64) (nonneg : 0 ≤ x.toInt) : x.toUInt64.toNat = x.toInt.toNat := by
  have read := BitVec.toInt_eq_toNat_cond x.toBitVec
  have small := x.toBitVec.isLt
  change x.toBitVec.toNat = x.toInt.toNat
  change x.toInt = _ at read
  split at read
  · rw [read, Int.toNat_natCast]
  · omega

/-- An `Int` in the range of `int64_t` is its own `bmod (2 ^ 64)`. -/
theorem bmod_of_range {n : Int} (lower : -2 ^ 63 ≤ n) (upper : n < 2 ^ 63) : n.bmod (2 ^ 64) = n :=
  Int.bmod_eq_of_le (by omega) (by omega)

/-- `CastToBool`: false exactly for zero bytes, possibly ending in a negative-zero `0x80`. -/
def CastToBool : valtype → Bool
  | [] => false
  | [b] => b != 0 && b != 0x80
  | b :: bs => b != 0 || CastToBool bs

structure CScriptNum where
  m_value : Int
  deriving DecidableEq, Repr

namespace CScriptNum

def nDefaultMaxNumSize : Nat := 4

/-- The little-endian magnitude `Σ vch[i] << 8*i` accumulated by `set_vch`. -/
def leValue : List UInt8 → Nat
  | [] => 0
  | b :: bs => b.toNat + 256 * leValue bs

/-- `set_vch`: the magnitude with the sign bit of the last byte cleared, negated when that
bit was set. -/
def set_vch (vch : valtype) : Int :=
  match vch.getLast? with
  | none => 0
  | some last =>
    if last &&& 0x80 ≠ 0 then -((leValue (vch.dropLast ++ [last &&& 0x7f]) : Nat) : Int)
    else (leValue vch : Int)

/-- The decoding constructor `CScriptNum(vch, fRequireMinimal, nMaxNumSize)`. -/
def decode (vch : valtype) (fRequireMinimal : Bool) (nMaxNumSize : Nat) : Except Fault CScriptNum :=
  if nMaxNumSize < vch.length then throw (.thrown .scriptnum_error)
  else if fRequireMinimal ∧ 0 < vch.length ∧ vch.getLastD 0 &&& 0x7f = 0 ∧
      (vch.length ≤ 1 ∨ vch.getD (vch.length - 2) 0 &&& 0x80 = 0) then
    throw (.thrown .scriptnum_error)
  else pure ⟨set_vch vch⟩

/-- `operator+=(const int64_t&)`, with its overflow `assert`. -/
def addAssign (a : CScriptNum) (rhs : Int) : Except Fault CScriptNum :=
  if rhs = 0 ∨ (0 < rhs ∧ a.m_value ≤ INT64_MAX - rhs) ∨ (rhs < 0 ∧ INT64_MIN - rhs ≤ a.m_value)
  then pure ⟨a.m_value + rhs⟩ else throw .abort

/-- `operator-=(const int64_t&)`, with its overflow `assert`. -/
def subAssign (a : CScriptNum) (rhs : Int) : Except Fault CScriptNum :=
  if rhs = 0 ∨ (0 < rhs ∧ INT64_MIN + rhs ≤ a.m_value) ∨ (rhs < 0 ∧ a.m_value ≤ INT64_MAX + rhs)
  then pure ⟨a.m_value - rhs⟩ else throw .abort

/-- Unary `operator-`, which asserts that the value is not `INT64_MIN`. -/
def neg (a : CScriptNum) : Except Fault CScriptNum :=
  if a.m_value = INT64_MIN then throw .abort else pure ⟨-a.m_value⟩

/-- `getint`: the value clamped to the range of `int`. -/
def getint (a : CScriptNum) : Int :=
  if INT_MAX < a.m_value then INT_MAX
  else if a.m_value < INT_MIN then INT_MIN
  else a.m_value

/-- The `while (absvalue)` loop of `serialize`: the magnitude's bytes, least significant
first. The first argument bounds the iterations; the magnitude itself is enough. -/
def magnitudeBytes : Nat → Nat → List UInt8
  | 0, _ => []
  | fuel + 1, n => if n = 0 then [] else (n % 256).toUInt8 :: magnitudeBytes fuel (n / 256)

/-- `CScriptNum::serialize`: sign-magnitude little endian, with an extra `0x00` or `0x80`
byte when the top byte already uses the sign bit. -/
def serialize (value : Int) : valtype :=
  if value = 0 then []
  else
    let neg := decide (value < 0)
    let result := magnitudeBytes value.natAbs value.natAbs
    if result.getLastD 0 &&& 0x80 ≠ 0 then result ++ [if neg then 0x80 else 0]
    else if neg then result.dropLast ++ [result.getLastD 0 ||| 0x80]
    else result

def getvch (a : CScriptNum) : valtype := serialize a.m_value

/-- The `CScriptNum(bool)` results of comparisons, built from `int64_t` 0 or 1. -/
def ofBool (b : Bool) : CScriptNum := ⟨if b then 1 else 0⟩

end CScriptNum

end SalemCash
