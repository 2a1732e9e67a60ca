import SalemCash.Cash
import SalemCash.Instructions
import SalemCash.Safety
import SalemCash.SoftFork

/-!
# Runs of whole scripts

`EvalScript` and `VerifyScript` on scripts of a known shape. An unspendable scriptPubKey
(`CScript::IsUnspendable`) stops every run: it is longer than `MAX_SCRIPT_SIZE`, which
`EvalScript` rejects before its loop, or its first instruction is `OP_RETURN`, which fails
in the first turn. So `VerifyScript` fails whatever scriptSig, witness, flags and checker
spend it, and `AddCash` loses no spendable coin when it skips such an output.
-/
namespace SalemCash

section Unspendable

variable (P : Primitives) (flags : UInt32) (checker : SignatureChecker) (sigversion : SigVersion)

theorem execOp_OP_RETURN (script : CScript) (fExec : Bool) (st : EvalState) :
    execOp P script flags checker sigversion OP_RETURN fExec st = .error (.error .SCRIPT_ERR_OP_RETURN) := by
  have classified : classify OP_RETURN = .returnOp := by decide
  rw [execOp, classified]
  rfl

/-- The first turn of the loop, on a script whose first byte is `OP_RETURN`. -/
theorem step_OP_RETURN {script : CScript} (nonempty : 0 < script.length)
    (first : script.getD 0 0 = OP_RETURN) (stack : List valtype) :
    step P script flags checker sigversion ⟨stack, [], [], 0, 0, 0⟩ =
      .error (.error .SCRIPT_ERR_OP_RETURN) := by
  have read : GetOp2 script 0 = ⟨true, 1, OP_RETURN, []⟩ := by
    rw [GetOp2_of_PUSHDATA4_lt nonempty (by rw [first]; decide), first]
  have counted : OP_16 < OP_RETURN := by decide
  have withinLimit : ¬ MAX_OPS_PER_SCRIPT < 0 + 1 := by decide
  have enabled : IsDisabledOpcode OP_RETURN = false := by decide
  have noPush : ¬ OP_RETURN ≤ OP_PUSHDATA4 := by decide
  simp [step, read, counted, withinLimit, enabled, noPush, execOp_OP_RETURN]

/-- `EvalScript` fails on an unspendable script, from every stack: with `SCRIPT_SIZE` on a
script too long to run, and otherwise with `OP_RETURN` in the first turn. -/
theorem EvalScript_unspendable {script : CScript} (unspendable : IsUnspendable script = true)
    (stack : List valtype) :
    EvalScript P script flags checker sigversion stack = .error (.error
      (if MAX_SCRIPT_SIZE < script.length then .SCRIPT_ERR_SCRIPT_SIZE else .SCRIPT_ERR_OP_RETURN)) := by
  unfold EvalScript
  by_cases long : MAX_SCRIPT_SIZE < script.length
  · rw [if_pos long, if_pos long]
    rfl
  rw [if_neg long, if_neg long]
  have first : 0 < script.length ∧ script.getD 0 0 = OP_RETURN := by
    simpa [IsUnspendable, long] using unspendable
  obtain ⟨n, length⟩ : ∃ n, script.length = n + 1 := Nat.exists_eq_add_one_of_ne_zero first.1.ne'
  have loop : evalLoop P script flags checker sigversion script.length ⟨stack, [], [], 0, 0, 0⟩ =
      .error (.error .SCRIPT_ERR_OP_RETURN) := by
    rw [length, evalLoop, if_pos (by simpa using first.1)]
    rw [step_OP_RETURN P flags checker sigversion first.1 first.2]
    rfl
  rw [loop]
  rfl

/-- `VerifyScript` fails, with a script error, whatever spends an unspendable scriptPubKey:
the scriptSig's run fails only with script errors, and the scriptPubKey's run fails. -/
theorem VerifyScript_unspendable (scriptSig : CScript) {scriptPubKey : CScript}
    (unspendable : IsUnspendable scriptPubKey = true) (witness : List valtype) :
    ∃ serror, VerifyScript P flags checker scriptSig scriptPubKey witness = .error (.error serror) := by
  unfold VerifyScript
  by_cases pushOnly : (hasFlag flags SCRIPT_VERIFY_SIGPUSHONLY && !IsPushOnly scriptSig) = true
  · exact ⟨_, by rw [if_pos pushOnly]; rfl⟩
  rw [if_neg pushOnly]
  cases sigRun : EvalScript P scriptSig flags checker .SIGVERSION_BASE [] with
  | error e =>
    have faults := EvalScript_fails_with_error P scriptSig flags checker .SIGVERSION_BASE []
    rw [sigRun] at faults
    obtain ⟨serror, rfl⟩ := faults
    exact ⟨serror, rfl⟩
  | ok stack =>
    simp only [bind, Except.bind]
    rw [EvalScript_unspendable P flags checker .SIGVERSION_BASE unspendable]
    exact ⟨_, rfl⟩

end Unspendable

/-- `AddCash` keeps every output it accepts in the cache, unless the output is unspendable,
and then no spend of it verifies. -/
theorem AddCash_drops_only_unspendable {c c' : CCashViewCache} {outpoint : COutPoint} {cash : Cash}
    {possible_overwrite : Bool} (added : c.AddCash outpoint cash possible_overwrite = .ok c') :
    (c'.cacheCash.lookup outpoint).map CCashCacheEntry.cash = some cash ∨
      (c' = c ∧ ∀ P flags checker scriptSig witness, ∃ serror,
        VerifyScript P flags checker scriptSig cash.out.scriptPubKey witness = .error (.error serror)) := by
  unfold CCashViewCache.AddCash at added
  by_cases spent : cash.IsSpent = true
  · rw [if_pos spent] at added
    cases added
  rw [if_neg spent] at added
  by_cases unspendable : IsUnspendable cash.out.scriptPubKey = true
  · rw [if_pos unspendable] at added
    cases added
    exact .inr ⟨rfl, fun P flags checker scriptSig witness =>
      VerifyScript_unspendable P flags checker scriptSig unspendable witness⟩
  rw [if_neg unspendable] at added
  simp only at added
  split at added
  · cases added
  · cases added
    left
    simp

theorem unspendable_never_verifies :
    (∀ (P : Primitives) (flags : UInt32) (checker : SignatureChecker) (scriptSig scriptPubKey : CScript)
      (witness : List valtype), IsUnspendable scriptPubKey = true →
        ∃ serror, VerifyScript P flags checker scriptSig scriptPubKey witness = .error (.error serror)) ∧
    (∀ (c c' : CCashViewCache) (outpoint : COutPoint) (cash : Cash) (possible_overwrite : Bool),
      c.AddCash outpoint cash possible_overwrite = .ok c' →
        (c'.cacheCash.lookup outpoint).map CCashCacheEntry.cash = some cash ∨
        (c' = c ∧ ∀ P flags checker scriptSig witness, ∃ serror,
          VerifyScript P flags checker scriptSig cash.out.scriptPubKey witness = .error (.error serror))) := by
  refine ⟨?_, ?_⟩
  · intro P flags checker scriptSig scriptPubKey witness unspendable
    exact VerifyScript_unspendable P flags checker scriptSig unspendable witness
  · intro c c' outpoint cash possible_overwrite added
    exact AddCash_drops_only_unspendable added

theorem unspendable_never_verifies_OP_RETURN :
    IsUnspendable [OP_RETURN] = true ∧
      ∃ serror, VerifyScript constPrimitives 0 acceptingChecker [] [OP_RETURN] [] = .error (.error serror) :=
  ⟨by decide, unspendable_never_verifies.1 constPrimitives 0 acceptingChecker [] [OP_RETURN] [] (by decide)⟩

end SalemCash
