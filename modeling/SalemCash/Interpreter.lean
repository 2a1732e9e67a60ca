import SalemCash.ExceptLogic
import SalemCash.SigChecks

/-!
# `EvalScript`

The interpreter of `interpreter.cpp`. One turn of its `while (pc < pend)` loop is
`step`: read an instruction with `GetOp2`, apply the size, operation-count and
disabled-opcode checks, then either push the data or run the `switch (opcode)`,
which is `execOp`. `classify` maps an opcode to the group of `case` labels it
belongs to, so that each branch of `execOp` is one block of the `switch`; inside a
block the opcode is still tested as the source tests it, and the `default:
assert(...)` of the numeric blocks stays an `abort`.

The stack is kept in the source's order, top last, and `stacktop i` is
`stack.at(stack.size() + i)`: it throws `out_of_range` outside the stack. Each
guard `stack.size() < k` of the source precedes the accesses it protects.
-/
namespace SalemCash

open ExceptLogic

/-- `return set_error(serror, e)`. -/
def set_error {α : Type} (e : ScriptError) : Except Fault α := throw (.error e)

@[simp] theorem set_error_eq {α : Type} (e : ScriptError) :
    (set_error e : Except Fault α) = .error (.error e) := rfl

/-- `stacktop(i)`, that is `stack.at(stack.size() + i)`. -/
def stacktop (stack : List valtype) (i : Int) : Except Fault valtype :=
  let idx := (stack.length : Int) + i
  if 0 ≤ idx ∧ idx < stack.length then pure (stack.getD idx.toNat [])
  else throw (.thrown .out_of_range)

/-- `popstack`, which throws `runtime_error` on an empty stack. -/
def popstack (stack : List valtype) : Except Fault (List valtype) :=
  if stack = [] then throw (.thrown .runtime_error) else pure stack.dropLast

/-- `swap(stacktop(i), stacktop(j))`. -/
def swapTop (stack : List valtype) (i j : Int) : Except Fault (List valtype) := do
  let a ← stacktop stack i
  let b ← stacktop stack j
  pure ((stack.set ((stack.length : Int) + i).toNat b).set ((stack.length : Int) + j).toNat a)

def vchTrue : valtype := [1]
def vchFalse : valtype := []

def SEQUENCE_LOCKTIME_DISABLE_FLAG : Nat := 2 ^ 31

/-- The groups of `case` labels of the `switch (opcode)` in `EvalScript`. -/
inductive OpKind where
  | pushNumber | nop | checkLockTimeVerify | checkSequenceVerify | upgradableNop
  | ifOp | elseOp | endifOp | verify | returnOp
  | toAltStack | fromAltStack | drop2 | dup2 | dup3 | over2 | rot2 | swap2 | ifDup | depth
  | drop | dup | nip | over | pickRoll | rot | swap | tuck | size
  | equal | unaryNum | binaryNum | within | hash | codeSeparator | checkSig | checkMultiSig
  | badOpcode
  deriving DecidableEq, Repr

def classify (opcode : UInt8) : OpKind :=
  if opcode = OP_1NEGATE ∨ (OP_1 ≤ opcode ∧ opcode ≤ OP_16) then .pushNumber
  else if opcode = OP_NOP then .nop
  else if opcode = OP_CHECKLOCKTIMEVERIFY then .checkLockTimeVerify
  else if opcode = OP_CHECKSEQUENCEVERIFY then .checkSequenceVerify
  else if opcode = OP_NOP1 ∨ (OP_NOP4 ≤ opcode ∧ opcode ≤ OP_NOP10) then .upgradableNop
  else if opcode = OP_IF ∨ opcode = OP_NOTIF then .ifOp
  else if opcode = OP_ELSE then .elseOp
  else if opcode = OP_ENDIF then .endifOp
  else if opcode = OP_VERIFY then .verify
  else if opcode = OP_RETURN then .returnOp
  else if opcode = OP_TOALTSTACK then .toAltStack
  else if opcode = OP_FROMALTSTACK then .fromAltStack
  else if opcode = OP_2DROP then .drop2
  else if opcode = OP_2DUP then .dup2
  else if opcode = OP_3DUP then .dup3
  else if opcode = OP_2OVER then .over2
  else if opcode = OP_2ROT then .rot2
  else if opcode = OP_2SWAP then .swap2
  else if opcode = OP_IFDUP then .ifDup
  else if opcode = OP_DEPTH then .depth
  else if opcode = OP_DROP then .drop
  else if opcode = OP_DUP then .dup
  else if opcode = OP_NIP then .nip
  else if opcode = OP_OVER then .over
  else if opcode = OP_PICK ∨ opcode = OP_ROLL then .pickRoll
  else if opcode = OP_ROT then .rot
  else if opcode = OP_SWAP then .swap
  else if opcode = OP_TUCK then .tuck
  else if opcode = OP_SIZE then .size
  else if opcode = OP_EQUAL ∨ opcode = OP_EQUALVERIFY then .equal
  else if opcode = OP_1ADD ∨ opcode = OP_1SUB ∨ opcode = OP_NEGATE ∨ opcode = OP_ABS ∨
      opcode = OP_NOT ∨ opcode = OP_0NOTEQUAL then .unaryNum
  else if opcode = OP_ADD ∨ opcode = OP_SUB ∨ opcode = OP_BOOLAND ∨ opcode = OP_BOOLOR ∨
      opcode = OP_NUMEQUAL ∨ opcode = OP_NUMEQUALVERIFY ∨ opcode = OP_NUMNOTEQUAL ∨
      opcode = OP_LESSTHAN ∨ opcode = OP_GREATERTHAN ∨ opcode = OP_LESSTHANOREQUAL ∨
      opcode = OP_GREATERTHANOREQUAL ∨ opcode = OP_MIN ∨ opcode = OP_MAX then .binaryNum
  else if opcode = OP_WITHIN then .within
  else if OP_RIPEMD160 ≤ opcode ∧ opcode ≤ OP_HASH256 then .hash
  else if opcode = OP_CODESEPARATOR then .codeSeparator
  else if opcode = OP_CHECKSIG ∨ opcode = OP_CHECKSIGVERIFY then .checkSig
  else if opcode = OP_CHECKMULTISIG ∨ opcode = OP_CHECKMULTISIGVERIFY then .checkMultiSig
  else .badOpcode

/-- The opcodes rejected before the `switch` as disabled. -/
def IsDisabledOpcode (opcode : UInt8) : Bool :=
  opcode == OP_CAT || opcode == OP_SUBSTR || opcode == OP_LEFT || opcode == OP_RIGHT ||
    opcode == OP_INVERT || opcode == OP_AND || opcode == OP_OR || opcode == OP_XOR ||
    opcode == OP_2MUL || opcode == OP_2DIV || opcode == OP_MUL || opcode == OP_DIV ||
    opcode == OP_MOD || opcode == OP_LSHIFT || opcode == OP_RSHIFT

/-- The interpreter's local variables that live across instructions. -/
structure EvalState where
  stack : List valtype
  altstack : List valtype
  vfExec : List Bool
  pc : Nat
  pbegincodehash : Nat
  nOpCount : Nat
  deriving DecidableEq, Repr

/-- The inner `switch` of the one-operand numeric block. -/
def unaryNumOp (opcode : UInt8) (bn : CScriptNum) : Except Fault CScriptNum :=
  if opcode = OP_1ADD then bn.addAssign 1
  else if opcode = OP_1SUB then bn.subAssign 1
  else if opcode = OP_NEGATE then bn.neg
  else if opcode = OP_ABS then (if bn.m_value < 0 then bn.neg else pure bn)
  else if opcode = OP_NOT then pure (.ofBool (bn.m_value = 0))
  else if opcode = OP_0NOTEQUAL then pure (.ofBool (bn.m_value ≠ 0))
  else throw .abort

/-- The inner `switch` of the two-operand numeric block. `+` and `-` are the operators
without an overflow assert. -/
def binaryNumOp (opcode : UInt8) (bn1 bn2 : CScriptNum) : Except Fault CScriptNum :=
  if opcode = OP_ADD then pure ⟨bn1.m_value + bn2.m_value⟩
  else if opcode = OP_SUB then pure ⟨bn1.m_value - bn2.m_value⟩
  else if opcode = OP_BOOLAND then pure (.ofBool (bn1.m_value ≠ 0 ∧ bn2.m_value ≠ 0))
  else if opcode = OP_BOOLOR then pure (.ofBool (bn1.m_value ≠ 0 ∨ bn2.m_value ≠ 0))
  else if opcode = OP_NUMEQUAL then pure (.ofBool (bn1.m_value = bn2.m_value))
  else if opcode = OP_NUMEQUALVERIFY then pure (.ofBool (bn1.m_value = bn2.m_value))
  else if opcode = OP_NUMNOTEQUAL then pure (.ofBool (bn1.m_value ≠ bn2.m_value))
  else if opcode = OP_LESSTHAN then pure (.ofBool (bn1.m_value < bn2.m_value))
  else if opcode = OP_GREATERTHAN then pure (.ofBool (bn1.m_value > bn2.m_value))
  else if opcode = OP_LESSTHANOREQUAL then pure (.ofBool (bn1.m_value ≤ bn2.m_value))
  else if opcode = OP_GREATERTHANOREQUAL then pure (.ofBool (bn1.m_value ≥ bn2.m_value))
  else if opcode = OP_MIN then pure (if bn1.m_value < bn2.m_value then bn1 else bn2)
  else if opcode = OP_MAX then pure (if bn1.m_value > bn2.m_value then bn1 else bn2)
  else throw .abort

/-- The hash block: the digest that `Finalize` writes into `vchHash`. -/
def hashOp (P : Primitives) (opcode : UInt8) (vch : valtype) : valtype :=
  if opcode = OP_RIPEMD160 then P.RIPEMD160 vch
  else if opcode = OP_SHA1 then P.SHA1 vch
  else if opcode = OP_SHA256 then P.SHA256 vch
  else if opcode = OP_HASH160 then P.Hash160 vch
  else if opcode = OP_HASH256 then P.Hash256 vch
  else List.replicate 32 0

section Eval

variable (P : Primitives) (script : CScript) (flags : UInt32) (checker : SignatureChecker)
  (sigversion : SigVersion)

/-- `flags & SCRIPT_VERIFY_MINIMALDATA`. -/
def fRequireMinimal : Bool := hasFlag flags SCRIPT_VERIFY_MINIMALDATA

/-- The test of `OP_IF`/`OP_NOTIF` under `SCRIPT_VERIFY_MINIMALIF` in witness scripts. -/
def minimalIfCheck (vch : valtype) : Except Fault Unit :=
  if sigversion = .SIGVERSION_WITNESS_V0 ∧ hasFlag flags SCRIPT_VERIFY_MINIMALIF then
    if 1 < vch.length then set_error .SCRIPT_ERR_MINIMALIF
    else if vch.length = 1 ∧ vch.getD 0 0 ≠ 1 then set_error .SCRIPT_ERR_MINIMALIF
    else pure ()
  else pure ()

/-- The `OP_IF`/`OP_NOTIF` block: the branch value and the stack after it. -/
def ifValue (opcode : UInt8) (fExec : Bool) (stack : List valtype) :
    Except Fault (Bool × List valtype) :=
  if fExec then
    if stack.length < 1 then set_error .SCRIPT_ERR_UNBALANCED_CONDITIONAL
    else do
      let vch ← stacktop stack (-1)
      minimalIfCheck flags sigversion vch
      let fValue := CastToBool vch
      let stack ← popstack stack
      pure (if opcode = OP_NOTIF then !fValue else fValue, stack)
  else pure (false, stack)

/-- The first loop of `OP_CHECKMULTISIG`: delete each signature from the script code. -/
def deleteSignatures (stack : List valtype) (isig : Int) :
    List Nat → CScript → Except Fault CScript
  | [], scriptCode => pure scriptCode
  | k :: ks, scriptCode => do
    let vchSig ← stacktop stack (-isig - k)
    let scriptCode :=
      if sigversion = .SIGVERSION_BASE then (FindAndDelete scriptCode (pushVector vchSig)).1
      else scriptCode
    deleteSignatures stack isig ks scriptCode

/-- The `while (fSuccess && nSigsCount > 0)` loop of `OP_CHECKMULTISIG`. -/
def sigLoop (stack : List valtype) (scriptCode : CScript) (nSigsCount nKeysCount isig ikey : Int) :
    Except Fault Bool :=
  if h : 0 < nSigsCount then do
    let vchSig ← stacktop stack (-isig)
    let vchPubKey ← stacktop stack (-ikey)
    CheckSignatureEncoding P vchSig flags
    CheckPubKeyEncoding vchPubKey flags sigversion
    let fOk := checker.CheckSig vchSig vchPubKey scriptCode sigversion
    let isig' := if fOk then isig + 1 else isig
    let nSigs' := if fOk then nSigsCount - 1 else nSigsCount
    -- more signatures left than keys: too many have failed
    if h' : nKeysCount - 1 < nSigs' then pure false
    else sigLoop stack scriptCode nSigs' (nKeysCount - 1) isig' (ikey + 1)
  else pure true
termination_by nKeysCount.toNat
decreasing_by
  simp only [nSigs'] at h'
  split at h' <;> omega

/-- The `while (i-- > 1)` clean-up of `OP_CHECKMULTISIG`, with its `SCRIPT_VERIFY_NULLFAIL`
test on the signatures. -/
def cleanupLoop (fSuccess : Bool) (stack : List valtype) (i ikey2 : Int) :
    Except Fault (List valtype) :=
  if h : 1 < i then do
    if !fSuccess && hasFlag flags SCRIPT_VERIFY_NULLFAIL && ikey2 == 0 then
      let top ← stacktop stack (-1)
      if top.length ≠ 0 then set_error .SCRIPT_ERR_SIG_NULLFAIL
    let stack ← popstack stack
    cleanupLoop fSuccess stack (i - 1) (if 0 < ikey2 then ikey2 - 1 else ikey2)
  else pure stack
termination_by i.toNat

/-- The end of `OP_CHECKMULTISIG` after the clean-up: the `SCRIPT_VERIFY_NULLDUMMY` test
on the extra argument, its removal, and the result. -/
def multisigResult (opcode : UInt8) (fSuccess : Bool) (stack : List valtype) :
    Except Fault (List valtype) := do
  if stack.length < 1 then set_error .SCRIPT_ERR_INVALID_STACK_OPERATION
  if hasFlag flags SCRIPT_VERIFY_NULLDUMMY then
    let dummy ← stacktop stack (-1)
    if dummy.length ≠ 0 then set_error .SCRIPT_ERR_SIG_NULLDUMMY
  let stack ← popstack stack
  let stack := stack ++ [if fSuccess then vchTrue else vchFalse]
  if opcode = OP_CHECKMULTISIGVERIFY then
    if fSuccess then popstack stack else set_error .SCRIPT_ERR_CHECKMULTISIGVERIFY
  else pure stack

/-- The `OP_CHECKMULTISIG` block: its counters are `int`s of the source. -/
def checkMultiSig (opcode : UInt8) (st : EvalState) : Except Fault EvalState := do
  let i : Int := 1
  if (st.stack.length : Int) < i then set_error .SCRIPT_ERR_INVALID_STACK_OPERATION
  let nKeysCount := (← CScriptNum.decode (← stacktop st.stack (-i)) (fRequireMinimal flags)
    CScriptNum.nDefaultMaxNumSize).getint
  if nKeysCount < 0 ∨ MAX_PUBKEYS_PER_MULTISIG < nKeysCount then
    set_error .SCRIPT_ERR_PUBKEY_COUNT
  let nOpCount := st.nOpCount + nKeysCount.toNat
  if MAX_OPS_PER_SCRIPT < nOpCount then set_error .SCRIPT_ERR_OP_COUNT
  let ikey := i + 1
  -- the position of the last non-signature item, for the clean-up under NULLFAIL
  let ikey2 := nKeysCount + 2
  let i := ikey + nKeysCount
  if (st.stack.length : Int) < i then set_error .SCRIPT_ERR_INVALID_STACK_OPERATION
  let nSigsCount := (← CScriptNum.decode (← stacktop st.stack (-i)) (fRequireMinimal flags)
    CScriptNum.nDefaultMaxNumSize).getint
  if nSigsCount < 0 ∨ nKeysCount < nSigsCount then set_error .SCRIPT_ERR_SIG_COUNT
  let isig := i + 1
  let i := isig + nSigsCount
  if (st.stack.length : Int) < i then set_error .SCRIPT_ERR_INVALID_STACK_OPERATION
  let scriptCode ← deleteSignatures sigversion st.stack isig (List.range nSigsCount.toNat)
    (script.drop st.pbegincodehash)
  let fSuccess ← sigLoop P flags checker sigversion st.stack scriptCode nSigsCount nKeysCount
    isig ikey
  let stack ← cleanupLoop flags fSuccess st.stack i ikey2
  let stack ← multisigResult flags opcode fSuccess stack
  pure { st with stack, nOpCount }

/-- The `OP_CHECKSIG` block. -/
def checkSig (opcode : UInt8) (st : EvalState) : Except Fault EvalState := do
  if st.stack.length < 2 then set_error .SCRIPT_ERR_INVALID_STACK_OPERATION
  let vchSig ← stacktop st.stack (-2)
  let vchPubKey ← stacktop st.stack (-1)
  -- the script from the most recent `OP_CODESEPARATOR`, without the signature in base scripts
  let scriptCode := script.drop st.pbegincodehash
  let scriptCode :=
    if sigversion = .SIGVERSION_BASE then (FindAndDelete scriptCode (pushVector vchSig)).1
    else scriptCode
  CheckSignatureEncoding P vchSig flags
  CheckPubKeyEncoding vchPubKey flags sigversion
  let fSuccess := checker.CheckSig vchSig vchPubKey scriptCode sigversion
  if !fSuccess && hasFlag flags SCRIPT_VERIFY_NULLFAIL && vchSig.length ≠ 0 then
    set_error .SCRIPT_ERR_SIG_NULLFAIL
  let stack ← popstack st.stack
  let stack ← popstack stack
  let stack := stack ++ [if fSuccess then vchTrue else vchFalse]
  if opcode = OP_CHECKSIGVERIFY then
    if fSuccess then pure { st with stack := ← popstack stack }
    else set_error .SCRIPT_ERR_CHECKSIGVERIFY
  else pure { st with stack }

/-- The `OP_CHECKLOCKTIMEVERIFY` block; without its flag, a NOP2. -/
def checkLockTimeVerify (st : EvalState) : Except Fault EvalState :=
  if !hasFlag flags SCRIPT_VERIFY_CHECKLOCKTIMEVERIFY then pure st
  else if st.stack.length < 1 then set_error .SCRIPT_ERR_INVALID_STACK_OPERATION
  else do
    -- five-byte operands, so that lock times beyond 2038 can be written
    let nLockTime ← CScriptNum.decode (← stacktop st.stack (-1)) (fRequireMinimal flags) 5
    if nLockTime.m_value < 0 then set_error .SCRIPT_ERR_NEGATIVE_LOCKTIME
    else if !checker.CheckLockTime nLockTime then set_error .SCRIPT_ERR_UNSATISFIED_LOCKTIME
    else pure st

/-- `OP_CHECKLOCKTIMEVERIFY` either fails or leaves the state as it is. -/
theorem checkLockTimeVerify_eq_ok {st st' : EvalState}
    (h : checkLockTimeVerify flags checker st = .ok st') : st' = st := by
  unfold checkLockTimeVerify at h
  split_ifs at h with hflag hlen
  · exact (Except.ok.inj h).symm
  · simp at h
  · obtain ⟨vch, -, hv⟩ := bind_eq_ok.mp h
    obtain ⟨n, -, hn⟩ := bind_eq_ok.mp hv
    split_ifs at hn <;> simp_all

/-- The `OP_CHECKSEQUENCEVERIFY` block; without its flag, a NOP3. -/
def checkSequenceVerify (st : EvalState) : Except Fault EvalState :=
  if !hasFlag flags SCRIPT_VERIFY_CHECKSEQUENCEVERIFY then pure st
  else if st.stack.length < 1 then set_error .SCRIPT_ERR_INVALID_STACK_OPERATION
  else do
    let nSequence ← CScriptNum.decode (← stacktop st.stack (-1)) (fRequireMinimal flags) 5
    if nSequence.m_value < 0 then set_error .SCRIPT_ERR_NEGATIVE_LOCKTIME
    -- the disable bit makes the operation a NOP, for future soft forks
    else if Int.land nSequence.m_value SEQUENCE_LOCKTIME_DISABLE_FLAG ≠ 0 then pure st
    else if !checker.CheckSequence nSequence then set_error .SCRIPT_ERR_UNSATISFIED_LOCKTIME
    else pure st

/-- `OP_CHECKSEQUENCEVERIFY` either fails or leaves the state as it is. -/
theorem checkSequenceVerify_eq_ok {st st' : EvalState}
    (h : checkSequenceVerify flags checker st = .ok st') : st' = st := by
  unfold checkSequenceVerify at h
  split_ifs at h with hflag hlen
  · exact (Except.ok.inj h).symm
  · simp at h
  · obtain ⟨vch, -, hv⟩ := bind_eq_ok.mp h
    obtain ⟨n, -, hn⟩ := bind_eq_ok.mp hv
    split_ifs at hn <;> simp_all

/-- The block of `OP_NOP1` and `OP_NOP4` to `OP_NOP10`. -/
def upgradableNop (st : EvalState) : Except Fault EvalState :=
  if hasFlag flags SCRIPT_VERIFY_DISCOURAGE_UPGRADABLE_NOPS then
    set_error .SCRIPT_ERR_DISCOURAGE_UPGRADABLE_NOPS
  else pure st

/-- The `switch (opcode)` of `EvalScript`, for an opcode that is not a data push. -/
def execOp (opcode : UInt8) (fExec : Bool) (st : EvalState) : Except Fault EvalState :=
  let fRequireMinimal := fRequireMinimal flags
  match classify opcode with
  | .pushNumber =>
    pure { st with stack := st.stack ++ [(CScriptNum.mk ((opcode.toNat : Int) - (OP_1.toNat - 1))).getvch] }
  | .nop => pure st
  | .checkLockTimeVerify => checkLockTimeVerify flags checker st
  | .checkSequenceVerify => checkSequenceVerify flags checker st
  | .upgradableNop => upgradableNop flags st
  | .ifOp => do
    let r ← ifValue flags sigversion opcode fExec st.stack
    pure { st with stack := r.2, vfExec := st.vfExec ++ [r.1] }
  | .elseOp =>
    if st.vfExec = [] then set_error .SCRIPT_ERR_UNBALANCED_CONDITIONAL
    else pure { st with vfExec := st.vfExec.dropLast ++ [!st.vfExec.getLastD false] }
  | .endifOp =>
    if st.vfExec = [] then set_error .SCRIPT_ERR_UNBALANCED_CONDITIONAL
    else pure { st with vfExec := st.vfExec.dropLast }
  | .verify =>
    if st.stack.length < 1 then set_error .SCRIPT_ERR_INVALID_STACK_OPERATION
    else do
      let fValue := CastToBool (← stacktop st.stack (-1))
      if fValue then pure { st with stack := ← popstack st.stack }
      else set_error .SCRIPT_ERR_VERIFY
  | .returnOp => set_error .SCRIPT_ERR_OP_RETURN
  | .toAltStack =>
    if st.stack.length < 1 then set_error .SCRIPT_ERR_INVALID_STACK_OPERATION
    else do
      let vch ← stacktop st.stack (-1)
      pure { st with altstack := st.altstack ++ [vch], stack := ← popstack st.stack }
  | .fromAltStack =>
    if st.altstack.length < 1 then set_error .SCRIPT_ERR_INVALID_ALTSTACK_OPERATION
    else do
      let vch ← stacktop st.altstack (-1)
      pure { st with stack := st.stack ++ [vch], altstack := ← popstack st.altstack }
  | .drop2 =>
    if st.stack.length < 2 then set_error .SCRIPT_ERR_INVALID_STACK_OPERATION
    else do
      let stack ← popstack st.stack
      pure { st with stack := ← popstack stack }
  | .dup2 =>
    if st.stack.length < 2 then set_error .SCRIPT_ERR_INVALID_STACK_OPERATION
    else do
      let vch1 ← stacktop st.stack (-2)
      let vch2 ← stacktop st.stack (-1)
      pure { st with stack := st.stack ++ [vch1, vch2] }
  | .dup3 =>
    if st.stack.length < 3 then set_error .SCRIPT_ERR_INVALID_STACK_OPERATION
    else do
      let vch1 ← stacktop st.stack (-3)
      let vch2 ← stacktop st.stack (-2)
      let vch3 ← stacktop st.stack (-1)
      pure { st with stack := st.stack ++ [vch1, vch2, vch3] }
  | .over2 =>
    if st.stack.length < 4 then set_error .SCRIPT_ERR_INVALID_STACK_OPERATION
    else do
      let vch1 ← stacktop st.stack (-4)
      let vch2 ← stacktop st.stack (-3)
      pure { st with stack := st.stack ++ [vch1, vch2] }
  | .rot2 =>
    if st.stack.length < 6 then set_error .SCRIPT_ERR_INVALID_STACK_OPERATION
    else do
      let vch1 ← stacktop st.stack (-6)
      let vch2 ← stacktop st.stack (-5)
      -- `stack.erase(stack.end()-6, stack.end()-4)`
      let stack := st.stack.take (st.stack.length - 6) ++ st.stack.drop (st.stack.length - 4)
      pure { st with stack := stack ++ [vch1, vch2] }
  | .swap2 =>
    if st.stack.length < 4 then set_error .SCRIPT_ERR_INVALID_STACK_OPERATION
    else do
      let stack ← swapTop st.stack (-4) (-2)
      pure { st with stack := ← swapTop stack (-3) (-1) }
  | .ifDup =>
    if st.stack.length < 1 then set_error .SCRIPT_ERR_INVALID_STACK_OPERATION
    else do
      let vch ← stacktop st.stack (-1)
      pure { st with stack := if CastToBool vch then st.stack ++ [vch] else st.stack }
  | .depth => pure { st with stack := st.stack ++ [(CScriptNum.mk st.stack.length).getvch] }
  | .drop =>
    if st.stack.length < 1 then set_error .SCRIPT_ERR_INVALID_STACK_OPERATION
    else do pure { st with stack := ← popstack st.stack }
  | .dup =>
    if st.stack.length < 1 then set_error .SCRIPT_ERR_INVALID_STACK_OPERATION
    else do
      let vch ← stacktop st.stack (-1)
      pure { st with stack := st.stack ++ [vch] }
  | .nip =>
    if st.stack.length < 2 then set_error .SCRIPT_ERR_INVALID_STACK_OPERATION
    else pure { st with stack := st.stack.eraseIdx (st.stack.length - 2) }
  | .over =>
    if st.stack.length < 2 then set_error .SCRIPT_ERR_INVALID_STACK_OPERATION
    else do
      let vch ← stacktop st.stack (-2)
      pure { st with stack := st.stack ++ [vch] }
  | .pickRoll =>
    if st.stack.length < 2 then set_error .SCRIPT_ERR_INVALID_STACK_OPERATION
    else do
      let n := (← CScriptNum.decode (← stacktop st.stack (-1)) fRequireMinimal
        CScriptNum.nDefaultMaxNumSize).getint
      let stack ← popstack st.stack
      if n < 0 ∨ (stack.length : Int) ≤ n then set_error .SCRIPT_ERR_INVALID_STACK_OPERATION
      else do
        let vch ← stacktop stack (-n - 1)
        let stack :=
          if opcode = OP_ROLL then stack.eraseIdx (stack.length - n.toNat - 1) else stack
        pure { st with stack := stack ++ [vch] }
  | .rot =>
    if st.stack.length < 3 then set_error .SCRIPT_ERR_INVALID_STACK_OPERATION
    else do
      let stack ← swapTop st.stack (-3) (-2)
      pure { st with stack := ← swapTop stack (-2) (-1) }
  | .swap =>
    if st.stack.length < 2 then set_error .SCRIPT_ERR_INVALID_STACK_OPERATION
    else do pure { st with stack := ← swapTop st.stack (-2) (-1) }
  | .tuck =>
    if st.stack.length < 2 then set_error .SCRIPT_ERR_INVALID_STACK_OPERATION
    else do
      let vch ← stacktop st.stack (-1)
      -- `stack.insert(stack.end()-2, vch)`
      pure { st with stack := st.stack.take (st.stack.length - 2) ++ vch ::
        st.stack.drop (st.stack.length - 2) }
  | .size =>
    if st.stack.length < 1 then set_error .SCRIPT_ERR_INVALID_STACK_OPERATION
    else do
      let vch ← stacktop st.stack (-1)
      pure { st with stack := st.stack ++ [(CScriptNum.mk vch.length).getvch] }
  | .equal =>
    if st.stack.length < 2 then set_error .SCRIPT_ERR_INVALID_STACK_OPERATION
    else do
      let vch1 ← stacktop st.stack (-2)
      let vch2 ← stacktop st.stack (-1)
      let fEqual := vch1 == vch2
      let stack ← popstack st.stack
      let stack ← popstack stack
      let stack := stack ++ [if fEqual then vchTrue else vchFalse]
      if opcode = OP_EQUALVERIFY then
        if fEqual then pure { st with stack := ← popstack stack }
        else set_error .SCRIPT_ERR_EQUALVERIFY
      else pure { st with stack }
  | .unaryNum =>
    if st.stack.length < 1 then set_error .SCRIPT_ERR_INVALID_STACK_OPERATION
    else do
      let bn ← CScriptNum.decode (← stacktop st.stack (-1)) fRequireMinimal
        CScriptNum.nDefaultMaxNumSize
      let bn ← unaryNumOp opcode bn
      let stack ← popstack st.stack
      pure { st with stack := stack ++ [bn.getvch] }
  | .binaryNum =>
    if st.stack.length < 2 then set_error .SCRIPT_ERR_INVALID_STACK_OPERATION
    else do
      let bn1 ← CScriptNum.decode (← stacktop st.stack (-2)) fRequireMinimal
        CScriptNum.nDefaultMaxNumSize
      let bn2 ← CScriptNum.decode (← stacktop st.stack (-1)) fRequireMinimal
        CScriptNum.nDefaultMaxNumSize
      let bn ← binaryNumOp opcode bn1 bn2
      let stack ← popstack st.stack
      let stack ← popstack stack
      let stack := stack ++ [bn.getvch]
      if opcode = OP_NUMEQUALVERIFY then
        if CastToBool (← stacktop stack (-1)) then pure { st with stack := ← popstack stack }
        else set_error .SCRIPT_ERR_NUMEQUALVERIFY
      else pure { st with stack }
  | .within =>
    if st.stack.length < 3 then set_error .SCRIPT_ERR_INVALID_STACK_OPERATION
    else do
      let bn1 ← CScriptNum.decode (← stacktop st.stack (-3)) fRequireMinimal
        CScriptNum.nDefaultMaxNumSize
      let bn2 ← CScriptNum.decode (← stacktop st.stack (-2)) fRequireMinimal
        CScriptNum.nDefaultMaxNumSize
      let bn3 ← CScriptNum.decode (← stacktop st.stack (-1)) fRequireMinimal
        CScriptNum.nDefaultMaxNumSize
      let fValue := decide (bn2.m_value ≤ bn1.m_value ∧ bn1.m_value < bn3.m_value)
      let stack ← popstack st.stack
      let stack ← popstack stack
      let stack ← popstack stack
      pure { st with stack := stack ++ [if fValue then vchTrue else vchFalse] }
  | .hash =>
    if st.stack.length < 1 then set_error .SCRIPT_ERR_INVALID_STACK_OPERATION
    else do
      let vch ← stacktop st.stack (-1)
      let stack ← popstack st.stack
      pure { st with stack := stack ++ [hashOp P opcode vch] }
  | .codeSeparator => pure { st with pbegincodehash := st.pc }
  | .checkSig => checkSig P script flags checker sigversion opcode st
  | .checkMultiSig => checkMultiSig P script flags checker sigversion opcode st
  | .badOpcode => set_error .SCRIPT_ERR_BAD_OPCODE

/-- The data-push branch: under `SCRIPT_VERIFY_MINIMALDATA` the push must be minimal. -/
def pushValue (opcode : UInt8) (vchPushValue : valtype) (st : EvalState) :
    Except Fault EvalState := do
  if fRequireMinimal flags then
    if !(← CheckMinimalPush vchPushValue opcode) then set_error .SCRIPT_ERR_MINIMALDATA
  pure { st with stack := st.stack ++ [vchPushValue] }

/-- One turn of the `while (pc < pend)` loop of `EvalScript`. -/
def step (st : EvalState) : Except Fault EvalState := do
  let fExec := !st.vfExec.contains false
  let r := GetOp2 script st.pc
  if !r.fRet then set_error .SCRIPT_ERR_BAD_OPCODE
  if MAX_SCRIPT_ELEMENT_SIZE < r.vchRet.length then set_error .SCRIPT_ERR_PUSH_SIZE
  let opcode := r.opcodeRet
  -- `OP_RESERVED` and the pushes do not count towards the limit
  let nOpCount := if OP_16 < opcode then st.nOpCount + 1 else st.nOpCount
  if OP_16 < opcode ∧ MAX_OPS_PER_SCRIPT < nOpCount then set_error .SCRIPT_ERR_OP_COUNT
  if IsDisabledOpcode opcode then set_error .SCRIPT_ERR_DISABLED_OPCODE
  let st := { st with pc := r.pc, nOpCount }
  let st ←
    if fExec ∧ opcode ≤ OP_PUSHDATA4 then pushValue flags opcode r.vchRet st
    else if fExec ∨ (OP_IF ≤ opcode ∧ opcode ≤ OP_ENDIF) then
      execOp P script flags checker sigversion opcode fExec st
    else pure st
  if MAX_STACK_SIZE < st.stack.length + st.altstack.length then set_error .SCRIPT_ERR_STACK_SIZE
  pure st

/-- The loop, run for at most `fuel` instructions. `EvalScript` gives it the script's
length, as every instruction consumes at least one byte. -/
def evalLoop : Nat → EvalState → Except Fault EvalState
  | 0, st => pure st
  | fuel + 1, st =>
    if st.pc < script.length then do
      let st' ← step P script flags checker sigversion st
      evalLoop fuel st'
    else pure st

/-- `EvalScript`: the exceptions of the loop are caught and reported as
`SCRIPT_ERR_UNKNOWN_ERROR`; a failed assert is not caught. -/
def EvalScript (stack : List valtype) : Except Fault (List valtype) :=
  if MAX_SCRIPT_SIZE < script.length then set_error .SCRIPT_ERR_SCRIPT_SIZE
  else
    match evalLoop P script flags checker sigversion script.length ⟨stack, [], [], 0, 0, 0⟩ with
    | .ok st =>
      if st.vfExec ≠ [] then set_error .SCRIPT_ERR_UNBALANCED_CONDITIONAL else pure st.stack
    | .error (.thrown _) => set_error .SCRIPT_ERR_UNKNOWN_ERROR
    | .error e => throw e

end Eval

end SalemCash
