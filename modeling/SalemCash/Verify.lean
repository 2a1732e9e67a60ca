import SalemCash.Interpreter

/-!
# `VerifyWitnessProgram` and `VerifyScript`

`VerifyScript` runs the scriptSig, then the scriptPubKey on the resulting stack, and
adds the checks of the flags: a bare witness program (`SCRIPT_VERIFY_WITNESS`), a
pay-to-script-hash redeem script run on the saved stack (`SCRIPT_VERIFY_P2SH`), a
P2SH-wrapped witness program, the clean-stack rule and unexpected witness data. A
verification that returns `true` is `pure ()`; the asserts on the flag combination
are `Fault.abort`.
-/
namespace SalemCash

section Verify

variable (P : Primitives) (flags : UInt32) (checker : SignatureChecker)

/-- The common tail of the witness program versions: the element-size limit on the
witness stack, then a clean-stack run of the witness script. -/
def runWitnessScript (stack : List valtype) (scriptPubKey : CScript) : Except Fault Unit := do
  if stack.any (fun e => MAX_SCRIPT_ELEMENT_SIZE < e.length) then
    set_error .SCRIPT_ERR_PUSH_SIZE
  let stack ← EvalScript P scriptPubKey flags checker .SIGVERSION_WITNESS_V0 stack
  -- scripts inside witness implicitly require clean-stack behaviour
  if stack.length ≠ 1 then set_error .SCRIPT_ERR_EVAL_FALSE
  if !CastToBool (stack.getLastD []) then set_error .SCRIPT_ERR_EVAL_FALSE

/-- The pay-to-witness-key-hash script `OP_DUP OP_HASH160 <program> OP_EQUALVERIFY OP_CHECKSIG`. -/
def keyHashScript (program : valtype) : CScript :=
  [OP_DUP, OP_HASH160] ++ pushVector program ++ [OP_EQUALVERIFY, OP_CHECKSIG]

def VerifyWitnessProgram (witness : List valtype) (witversion : Nat) (program : valtype) :
    Except Fault Unit :=
  if witversion = 0 then
    if program.length = 32 then
      -- the program is the SHA-256 of the script, which is the last witness item
      if witness.length = 0 then set_error .SCRIPT_ERR_WITNESS_PROGRAM_WITNESS_EMPTY
      else
        let scriptPubKey := witness.getLastD []
        if P.SHA256 scriptPubKey ≠ program then set_error .SCRIPT_ERR_WITNESS_PROGRAM_MISMATCH
        else runWitnessScript P flags checker witness.dropLast scriptPubKey
    else if program.length = 20 then
      if witness.length ≠ 2 then set_error .SCRIPT_ERR_WITNESS_PROGRAM_MISMATCH
      else runWitnessScript P flags checker witness (keyHashScript program)
    else set_error .SCRIPT_ERR_WITNESS_PROGRAM_WRONG_LENGTH
  else if hasFlag flags SCRIPT_VERIFY_DISCOURAGE_UPGRADABLE_WITNESS_PROGRAM then
    set_error .SCRIPT_ERR_DISCOURAGE_UPGRADABLE_WITNESS_PROGRAM
  -- higher versions succeed, for future soft forks
  else pure ()

/-- The bare witness program branch: whether a witness program was verified, and the stack,
cut to one element so that the clean-stack check is bypassed. -/
def bareWitness (scriptSig scriptPubKey : CScript) (witness : List valtype)
    (stack : List valtype) : Except Fault (Bool × List valtype) :=
  if hasFlag flags SCRIPT_VERIFY_WITNESS then
    match IsWitnessProgram scriptPubKey with
    | some (witnessversion, witnessprogram) =>
      -- the scriptSig must be exactly empty, or malleability comes back
      if scriptSig.length ≠ 0 then set_error .SCRIPT_ERR_WITNESS_MALLEATED
      else do
        VerifyWitnessProgram P flags checker witness witnessversion witnessprogram
        pure (true, stack.take 1)
    | none => pure (false, stack)
  else pure (false, stack)

/-- The P2SH-wrapped witness program branch, on the redeem script `pubKey2`. -/
def p2shWitness (scriptSig pubKey2 : CScript) (witness : List valtype) (hadWitness : Bool)
    (stack : List valtype) : Except Fault (Bool × List valtype) :=
  if hasFlag flags SCRIPT_VERIFY_WITNESS then
    match IsWitnessProgram pubKey2 with
    | some (witnessversion, witnessprogram) =>
      -- the scriptSig must be exactly one push of the redeem script
      if scriptSig ≠ pushVector pubKey2 then set_error .SCRIPT_ERR_WITNESS_MALLEATED_P2SH
      else do
        VerifyWitnessProgram P flags checker witness witnessversion witnessprogram
        pure (true, stack.take 1)
    | none => pure (hadWitness, stack)
  else pure (hadWitness, stack)

/-- The pay-to-script-hash branch: the redeem script, the last item of the stack the
scriptSig left, is run on the rest of that stack. -/
def p2shSpend (scriptSig : CScript) (witness : List valtype) (hadWitness : Bool)
    (stackCopy : List valtype) : Except Fault (Bool × List valtype) := do
  -- scriptSig must be literals-only
  if !IsPushOnly scriptSig then set_error .SCRIPT_ERR_SIG_PUSHONLY
  let stack := stackCopy
  if stack = [] then throw .abort
  let pubKey2 := stack.getLastD []
  let stack ← popstack stack
  let stack ← EvalScript P pubKey2 flags checker .SIGVERSION_BASE stack
  if stack = [] then set_error .SCRIPT_ERR_EVAL_FALSE
  if !CastToBool (stack.getLastD []) then set_error .SCRIPT_ERR_EVAL_FALSE
  p2shWitness P flags checker scriptSig pubKey2 witness hadWitness stack

/-- The flag combinations `VerifyScript` asserts: `WITNESS` implies `P2SH`, and
`CLEANSTACK` implies both. -/
def ValidFlagCombination : Prop :=
  (hasFlag flags SCRIPT_VERIFY_WITNESS = true → hasFlag flags SCRIPT_VERIFY_P2SH = true) ∧
  (hasFlag flags SCRIPT_VERIFY_CLEANSTACK = true →
    hasFlag flags SCRIPT_VERIFY_P2SH = true ∧ hasFlag flags SCRIPT_VERIFY_WITNESS = true)

instance : Decidable (ValidFlagCombination flags) :=
  inferInstanceAs (Decidable
    ((hasFlag flags SCRIPT_VERIFY_WITNESS = true → hasFlag flags SCRIPT_VERIFY_P2SH = true) ∧
      (hasFlag flags SCRIPT_VERIFY_CLEANSTACK = true →
        hasFlag flags SCRIPT_VERIFY_P2SH = true ∧ hasFlag flags SCRIPT_VERIFY_WITNESS = true)))

/-- The final checks of `VerifyScript`, with the asserts that `CLEANSTACK` and `WITNESS`
come with `P2SH` (and `CLEANSTACK` with `WITNESS`). -/
def finalChecks (witness : List valtype) (hadWitness : Bool) (stack : List valtype) :
    Except Fault Unit := do
  if hasFlag flags SCRIPT_VERIFY_CLEANSTACK then
    if !hasFlag flags SCRIPT_VERIFY_P2SH then throw .abort
    if !hasFlag flags SCRIPT_VERIFY_WITNESS then throw .abort
    if stack.length ≠ 1 then set_error .SCRIPT_ERR_CLEANSTACK
  if hasFlag flags SCRIPT_VERIFY_WITNESS then
    if !hasFlag flags SCRIPT_VERIFY_P2SH then throw .abort
    if !hadWitness && witness ≠ [] then set_error .SCRIPT_ERR_WITNESS_UNEXPECTED

/-- The final checks pass exactly on a valid flag combination, a clean stack under
`CLEANSTACK` and no unexpected witness under `WITNESS`. -/
theorem finalChecks_eq_ok (witness : List valtype) (hadWitness : Bool) (stack : List valtype) :
    finalChecks flags witness hadWitness stack = .ok () ↔
      ValidFlagCombination flags ∧
      (hasFlag flags SCRIPT_VERIFY_CLEANSTACK = true → stack.length = 1) ∧
      (hasFlag flags SCRIPT_VERIFY_WITNESS = true → hadWitness = true ∨ witness = []) := by
  unfold finalChecks ValidFlagCombination
  cases hCS : hasFlag flags SCRIPT_VERIFY_CLEANSTACK <;>
    cases hW : hasFlag flags SCRIPT_VERIFY_WITNESS <;>
    cases hP : hasFlag flags SCRIPT_VERIFY_P2SH <;>
    cases hadWitness <;> simp
  all_goals split_ifs <;> simp_all

def VerifyScript (scriptSig scriptPubKey : CScript) (witness : List valtype) :
    Except Fault Unit := do
  if hasFlag flags SCRIPT_VERIFY_SIGPUSHONLY && !IsPushOnly scriptSig then
    set_error .SCRIPT_ERR_SIG_PUSHONLY
  let stack ← EvalScript P scriptSig flags checker .SIGVERSION_BASE []
  let stackCopy := if hasFlag flags SCRIPT_VERIFY_P2SH then stack else []
  let stack ← EvalScript P scriptPubKey flags checker .SIGVERSION_BASE stack
  if stack = [] then set_error .SCRIPT_ERR_EVAL_FALSE
  if !CastToBool (stack.getLastD []) then set_error .SCRIPT_ERR_EVAL_FALSE
  let r ← bareWitness P flags checker scriptSig scriptPubKey witness stack
  let r ←
    if hasFlag flags SCRIPT_VERIFY_P2SH && IsPayToScriptHash scriptPubKey then
      p2shSpend P flags checker scriptSig witness r.1 stackCopy
    else pure r
  finalChecks flags witness r.1 r.2

end Verify

end SalemCash
