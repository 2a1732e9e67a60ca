import Mathlib.Data.Bool.Basic
import SalemCash.ExceptLogic
import SalemCash.Verify

/-!
# Verification flags are soft forks

A flag of `interpreter.h` only ever adds a reason to fail: every check it guards is
a `return set_error(...)` that the same computation without the flag skips, and the
values computed on the way do not depend on it. So each building block of the
interpreter run under a subset of the flags refines (`ExceptLogic.Refines`) the
same block run under the superset. The blocks whose checks mention a flag get a
refinement lemma of their own, proved here by hand; `gcongr` then carries the
relation through the binds and the flag-free branches of `execOp` and `step`.

Two branches of `VerifyScript` change their result, not only their failures, with
a flag: the witness program branches cut the stack to one element. What follows them
reads that result only under `SCRIPT_VERIFY_WITNESS` or under
`SCRIPT_VERIFY_CLEANSTACK`, which the flag constraints tie to it, so the run with
fewer flags still succeeds.
-/
namespace SalemCash

open ExceptLogic

section Monotone

variable {flags flags' : UInt32}

@[gcongr] theorem hasFlag_le (h : FlagSubset flags flags') (mask : UInt32) :
    hasFlag flags mask ≤ hasFlag flags' mask :=
  Bool.le_iff_imp.mpr (hasFlag_mono mask h)

@[gcongr] theorem fRequireMinimal_le (h : FlagSubset flags flags') :
    fRequireMinimal flags ≤ fRequireMinimal flags' :=
  hasFlag_le h _

/-- A non-minimal number is rejected only when minimal encoding is required. -/
@[gcongr] theorem decode_refines (vch : valtype) {b b' : Bool} (h : b ≤ b') (n : Nat) :
    Refines (CScriptNum.decode vch b n) (CScriptNum.decode vch b' n) := by
  unfold CScriptNum.decode
  refine Refines.ite Iff.rfl (Refines.refl _) (Refines.guard ?_ (Refines.refl _))
  rintro ⟨hb, hrest⟩
  exact ⟨Bool.le_iff_imp.mp h hb, hrest⟩

variable (h : FlagSubset flags flags')
include h

/-- A test `hasFlag flags mask && b` passes under the larger flag set too. -/
theorem hasFlag_and_mono (mask : UInt32) {b : Bool} (hc : (hasFlag flags mask && b) = true) :
    (hasFlag flags' mask && b) = true := by
  rw [Bool.and_eq_true] at hc ⊢
  exact ⟨hasFlag_mono mask h hc.1, hc.2⟩

/-- A test `a && hasFlag flags mask && b` passes under the larger flag set too. -/
theorem and_hasFlag_and_mono (mask : UInt32) {a b : Bool}
    (hc : (a && hasFlag flags mask && b) = true) : (a && hasFlag flags' mask && b) = true := by
  simp only [Bool.and_eq_true] at hc ⊢
  exact ⟨⟨hc.1.1, hasFlag_mono mask h hc.1.2⟩, hc.2⟩

@[gcongr] theorem CheckSignatureEncoding_refines (P : Primitives) (vchSig : valtype) :
    Refines (CheckSignatureEncoding P vchSig flags) (CheckSignatureEncoding P vchSig flags') := by
  unfold CheckSignatureEncoding
  dsimp only
  refine Refines.ite Iff.rfl (Refines.refl _) (Refines.guard (hasFlag_and_mono h _) ?_)
  exact Refines.when_seq _ (hasFlag_mono _ h)
    (Refines.guard (hasFlag_and_mono h _) (Refines.refl _))

@[gcongr] theorem CheckPubKeyEncoding_refines (vchPubKey : valtype) (sigversion : SigVersion) :
    Refines (CheckPubKeyEncoding vchPubKey flags sigversion)
      (CheckPubKeyEncoding vchPubKey flags' sigversion) := by
  unfold CheckPubKeyEncoding
  refine Refines.guard (hasFlag_and_mono h _) (Refines.guard ?_ (Refines.refl _))
  intro hc
  rw [Bool.and_eq_true] at hc ⊢
  exact ⟨hasFlag_and_mono h _ hc.1, hc.2⟩

@[gcongr] theorem minimalIfCheck_refines (sigversion : SigVersion) (vch : valtype) :
    Refines (minimalIfCheck flags sigversion vch) (minimalIfCheck flags' sigversion vch) := by
  unfold minimalIfCheck
  exact Refines.when_mono fun hc => ⟨hc.1, hasFlag_mono _ h hc.2⟩

@[gcongr] theorem ifValue_refines (sigversion : SigVersion) (opcode : UInt8) (fExec : Bool)
    (stack : List valtype) :
    Refines (ifValue flags sigversion opcode fExec stack)
      (ifValue flags' sigversion opcode fExec stack) := by
  unfold ifValue
  gcongr

@[gcongr] theorem sigLoop_refines (P : Primitives) (checker : SignatureChecker)
    (sigversion : SigVersion) (stack : List valtype) (scriptCode : CScript)
    (nSigsCount nKeysCount isig ikey : Int) :
    Refines (sigLoop P flags checker sigversion stack scriptCode nSigsCount nKeysCount isig ikey)
      (sigLoop P flags' checker sigversion stack scriptCode nSigsCount nKeysCount isig ikey) := by
  fun_induction sigLoop P flags' checker sigversion stack scriptCode nSigsCount nKeysCount isig
    ikey with
  | case1 nSigsCount nKeysCount isig ikey hpos ih =>
    rw [sigLoop, dif_pos hpos]
    gcongr with vchSig vchPubKey
    dsimp only
    exact Refines.dite_same (fun _ => Refines.refl _) fun hkeys => ih vchSig vchPubKey hkeys
  | case2 nSigsCount nKeysCount isig ikey hpos =>
    rw [sigLoop, dif_neg hpos]

@[gcongr] theorem cleanupLoop_refines (fSuccess : Bool) (stack : List valtype) (i ikey2 : Int) :
    Refines (cleanupLoop flags fSuccess stack i ikey2) (cleanupLoop flags' fSuccess stack i ikey2) := by
  fun_induction cleanupLoop flags' fSuccess stack i ikey2 with
  | case1 stack i ikey2 hi rest hnull ih =>
    rw [cleanupLoop, dif_pos hi]
    simp only [rest]
    by_cases hF : (!fSuccess && hasFlag flags SCRIPT_VERIFY_NULLFAIL && ikey2 == 0) = true
    · rw [if_pos hF]
      gcongr <;> exact ih _
    · rw [if_neg hF]
      exact Refines.of_bind fun _ => Refines.of_when _ (Refines.bind (Refines.refl _) ih)
  | case2 stack i ikey2 hi rest hnull ih =>
    rw [cleanupLoop, dif_pos hi, if_neg fun hF => hnull (and_hasFlag_and_mono h _ hF)]
    exact Refines.bind (Refines.refl _) ih
  | case3 stack i ikey2 hi =>
    rw [cleanupLoop, dif_neg hi]

@[gcongr] theorem multisigResult_refines (opcode : UInt8) (fSuccess : Bool) (stack : List valtype) :
    Refines (multisigResult flags opcode fSuccess stack)
      (multisigResult flags' opcode fSuccess stack) := by
  unfold multisigResult
  dsimp only
  gcongr
  all_goals
    exact Refines.when_bind (hasFlag_mono _ h) (fun _ => Refines.refl _) (Refines.refl _)
      fun _ => Refines.of_when _ (Refines.refl _)

@[gcongr] theorem checkMultiSig_refines (P : Primitives) (script : CScript)
    (checker : SignatureChecker) (sigversion : SigVersion) (opcode : UInt8) (st : EvalState) :
    Refines (checkMultiSig P script flags checker sigversion opcode st)
      (checkMultiSig P script flags' checker sigversion opcode st) := by
  unfold checkMultiSig
  dsimp only
  gcongr

@[gcongr] theorem checkSig_refines (P : Primitives) (script : CScript) (checker : SignatureChecker)
    (sigversion : SigVersion) (opcode : UInt8) (st : EvalState) :
    Refines (checkSig P script flags checker sigversion opcode st)
      (checkSig P script flags' checker sigversion opcode st) := by
  unfold checkSig
  dsimp only
  gcongr
  all_goals exact Refines.when_seq _ (and_hasFlag_and_mono h _) (Refines.refl _)

@[gcongr] theorem checkLockTimeVerify_refines (checker : SignatureChecker) (st : EvalState) :
    Refines (checkLockTimeVerify flags checker st) (checkLockTimeVerify flags' checker st) := by
  by_cases hF : hasFlag flags SCRIPT_VERIFY_CHECKLOCKTIMEVERIFY = true
  · have hF' := hasFlag_mono _ h hF
    unfold checkLockTimeVerify
    simp only [hF, hF', Bool.not_true, Bool.false_eq_true, if_false]
    gcongr
  · have hnop : checkLockTimeVerify flags checker st = pure st := by
      simp [checkLockTimeVerify, hF]
    rw [hnop]
    exact Refines.pure_of fun _ => checkLockTimeVerify_eq_ok flags' checker

@[gcongr] theorem checkSequenceVerify_refines (checker : SignatureChecker) (st : EvalState) :
    Refines (checkSequenceVerify flags checker st) (checkSequenceVerify flags' checker st) := by
  by_cases hF : hasFlag flags SCRIPT_VERIFY_CHECKSEQUENCEVERIFY = true
  · have hF' := hasFlag_mono _ h hF
    unfold checkSequenceVerify
    simp only [hF, hF', Bool.not_true, Bool.false_eq_true, if_false]
    gcongr
  · have hnop : checkSequenceVerify flags checker st = pure st := by
      simp [checkSequenceVerify, hF]
    rw [hnop]
    exact Refines.pure_of fun _ => checkSequenceVerify_eq_ok flags' checker

@[gcongr] theorem upgradableNop_refines (st : EvalState) :
    Refines (upgradableNop flags st) (upgradableNop flags' st) :=
  Refines.guard (hasFlag_mono _ h) (Refines.refl _)

@[gcongr] theorem pushValue_refines (opcode : UInt8) (vchPushValue : valtype) (st : EvalState) :
    Refines (pushValue flags opcode vchPushValue st) (pushValue flags' opcode vchPushValue st) := by
  unfold pushValue
  dsimp only
  exact Refines.when_bind (hasFlag_mono _ h) (fun _ => Refines.refl _) (Refines.refl _)
    fun _ => Refines.of_when _ (Refines.refl _)

@[gcongr] theorem execOp_refines (P : Primitives) (script : CScript) (checker : SignatureChecker)
    (sigversion : SigVersion) (opcode : UInt8) (fExec : Bool) (st : EvalState) :
    Refines (execOp P script flags checker sigversion opcode fExec st)
      (execOp P script flags' checker sigversion opcode fExec st) := by
  unfold execOp
  cases classify opcode <;> dsimp only <;> gcongr

@[gcongr] theorem step_refines (P : Primitives) (script : CScript) (checker : SignatureChecker)
    (sigversion : SigVersion) (st : EvalState) :
    Refines (step P script flags checker sigversion st) (step P script flags' checker sigversion st) := by
  unfold step
  dsimp only
  gcongr

theorem evalLoop_refines (P : Primitives) (script : CScript) (checker : SignatureChecker)
    (sigversion : SigVersion) (fuel : Nat) (st : EvalState) :
    Refines (evalLoop P script flags checker sigversion fuel st)
      (evalLoop P script flags' checker sigversion fuel st) := by
  induction fuel generalizing st with
  | zero => rfl
  | succ fuel ih =>
    simp only [evalLoop]
    gcongr
    exact ih _
@[gcongr] theorem EvalScript_refines (P : Primitives) (script : CScript) (checker : SignatureChecker)
    (sigversion : SigVersion) (stack : List valtype) :
    Refines (EvalScript P script flags checker sigversion stack)
      (EvalScript P script flags' checker sigversion stack) := by
  have hloop := evalLoop_refines h P script checker sigversion script.length ⟨stack, [], [], 0, 0, 0⟩
  unfold EvalScript
  refine Refines.ite_same (Refines.refl _) ?_
  intro a ha
  split at ha
  · rename_i st hst
    rw [hloop st hst]
    exact ha
  · simp at ha
  · simp at ha
end Monotone

/-- The results of the two runs agree where the run under `flags` reads them again:
with `SCRIPT_VERIFY_WITNESS` they are equal; without it they are not read. -/
def WitnessAgree {α : Type} (flags : UInt32) (r r' : α) : Prop :=
  hasFlag flags SCRIPT_VERIFY_WITNESS = true → r = r'

section Verify
variable {flags flags' : UInt32} (h : FlagSubset flags flags')
include h

@[gcongr] theorem runWitnessScript_refines (P : Primitives) (checker : SignatureChecker)
    (stack : List valtype) (scriptPubKey : CScript) :
    Refines (runWitnessScript P flags checker stack scriptPubKey)
      (runWitnessScript P flags' checker stack scriptPubKey) := by
  unfold runWitnessScript
  dsimp only
  gcongr

@[gcongr] theorem VerifyWitnessProgram_refines (P : Primitives) (checker : SignatureChecker)
    (witness : List valtype) (witversion : Nat) (program : valtype) :
    Refines (VerifyWitnessProgram P flags checker witness witversion program)
      (VerifyWitnessProgram P flags' checker witness witversion program) := by
  unfold VerifyWitnessProgram
  refine Refines.ite_same ?_ (Refines.guard (hasFlag_mono _ h) (Refines.refl _))
  dsimp only
  gcongr

theorem bareWitness_refinesBy (P : Primitives) (checker : SignatureChecker)
    (scriptSig scriptPubKey : CScript) (witness stack : List valtype) :
    RefinesBy (WitnessAgree flags) (bareWitness P flags checker scriptSig scriptPubKey witness stack)
      (bareWitness P flags' checker scriptSig scriptPubKey witness stack) := by
  by_cases hW : hasFlag flags SCRIPT_VERIFY_WITNESS = true
  · have hW' := hasFlag_mono _ h hW
    have href : Refines (bareWitness P flags checker scriptSig scriptPubKey witness stack)
        (bareWitness P flags' checker scriptSig scriptPubKey witness stack) := by
      unfold bareWitness
      rw [if_pos hW, if_pos hW']
      split
      · gcongr
      · rfl
    exact href.refinesBy fun _ _ => rfl
  · have hskip : bareWitness P flags checker scriptSig scriptPubKey witness stack =
        pure (false, stack) := by
      simp [bareWitness, hW]
    rw [hskip]
    exact RefinesBy.pure fun _ _ hW'' => absurd hW'' hW

theorem p2shWitness_refinesBy (P : Primitives) (checker : SignatureChecker)
    (scriptSig pubKey2 : CScript) (witness : List valtype) {hadWitness hadWitness' : Bool}
    (hhad : WitnessAgree flags hadWitness hadWitness') (stack : List valtype) :
    RefinesBy (WitnessAgree flags) (p2shWitness P flags checker scriptSig pubKey2 witness hadWitness stack)
      (p2shWitness P flags' checker scriptSig pubKey2 witness hadWitness' stack) := by
  by_cases hW : hasFlag flags SCRIPT_VERIFY_WITNESS = true
  · have hW' := hasFlag_mono _ h hW
    rw [← hhad hW]
    have href : Refines (p2shWitness P flags checker scriptSig pubKey2 witness hadWitness stack)
        (p2shWitness P flags' checker scriptSig pubKey2 witness hadWitness stack) := by
      unfold p2shWitness
      rw [if_pos hW, if_pos hW']
      split
      · gcongr
      · rfl
    exact href.refinesBy fun _ _ => rfl
  · have hskip : p2shWitness P flags checker scriptSig pubKey2 witness hadWitness stack =
        pure (hadWitness, stack) := by
      simp [p2shWitness, hW]
    rw [hskip]
    exact RefinesBy.pure fun _ _ hW'' => absurd hW'' hW

theorem p2shSpend_refinesBy (P : Primitives) (checker : SignatureChecker) (scriptSig : CScript)
    (witness : List valtype) {hadWitness hadWitness' : Bool}
    (hhad : WitnessAgree flags hadWitness hadWitness') (stackCopy : List valtype) :
    RefinesBy (WitnessAgree flags) (p2shSpend P flags checker scriptSig witness hadWitness stackCopy)
      (p2shSpend P flags' checker scriptSig witness hadWitness' stackCopy) := by
  unfold p2shSpend
  dsimp only [set_error_eq, throw_eq_error, error_bind]
  refine RefinesBy.guard id (RefinesBy.guard id ?_)
  refine RefinesBy.bind_refines (Refines.refl _) fun stack => ?_
  refine RefinesBy.bind_refines (EvalScript_refines h _ _ _ _ _) fun stack => ?_
  exact RefinesBy.guard id (RefinesBy.guard id (p2shWitness_refinesBy h P checker _ _ _ hhad _))

/-- The pay-to-script-hash branch of `VerifyScript` with what it returns otherwise. -/
theorem p2shBranch_refinesBy (P : Primitives) (checker : SignatureChecker) (scriptSig scriptPubKey : CScript)
    (witness : List valtype) (hvalid : ValidFlagCombination flags) (stack : List valtype)
    {r r' : Bool × List valtype} (hr : WitnessAgree flags r r') :
    RefinesBy (WitnessAgree flags)
      (if (hasFlag flags SCRIPT_VERIFY_P2SH && IsPayToScriptHash scriptPubKey) = true then
        p2shSpend P flags checker scriptSig witness r.1
          (if hasFlag flags SCRIPT_VERIFY_P2SH = true then stack else [])
      else pure r)
      (if (hasFlag flags' SCRIPT_VERIFY_P2SH && IsPayToScriptHash scriptPubKey) = true then
        p2shSpend P flags' checker scriptSig witness r'.1
          (if hasFlag flags' SCRIPT_VERIFY_P2SH = true then stack else [])
      else pure r') := by
  by_cases hc : (hasFlag flags SCRIPT_VERIFY_P2SH && IsPayToScriptHash scriptPubKey) = true
  · have hP : hasFlag flags SCRIPT_VERIFY_P2SH = true := ((Bool.and_eq_true _ _).mp hc).1
    have hc' : (hasFlag flags' SCRIPT_VERIFY_P2SH && IsPayToScriptHash scriptPubKey) = true := by
      rw [Bool.and_eq_true] at hc ⊢
      exact ⟨hasFlag_mono _ h hc.1, hc.2⟩
    rw [if_pos hc, if_pos hc', if_pos hP, if_pos (hasFlag_mono _ h hP)]
    exact p2shSpend_refinesBy h P checker scriptSig witness (fun hW => congrArg Prod.fst (hr hW)) stack
  · rw [if_neg hc]
    refine RefinesBy.pure fun b hb hW => ?_
    have hP := hvalid.1 hW
    have hp2sh : IsPayToScriptHash scriptPubKey = false := by simpa [hP] using hc
    have hc' : ¬(hasFlag flags' SCRIPT_VERIFY_P2SH && IsPayToScriptHash scriptPubKey) = true := by
      simp [hp2sh]
    rw [if_neg hc'] at hb
    exact (hr hW).trans (Except.ok.inj hb)

theorem finalChecks_refines (hvalid : ValidFlagCombination flags) (witness : List valtype)
    {r r' : Bool × List valtype} (hr : WitnessAgree flags r r') :
    Refines (finalChecks flags witness r.1 r.2) (finalChecks flags' witness r'.1 r'.2) := by
  rintro ⟨⟩ hok
  obtain ⟨-, hclean, hwit⟩ := (finalChecks_eq_ok flags' witness _ _).mp hok
  refine (finalChecks_eq_ok flags witness _ _).mpr ⟨hvalid, fun hCS => ?_, fun hW => ?_⟩
  · rw [hr (hvalid.2 hCS).2]
    exact hclean (hasFlag_mono _ h hCS)
  · rw [hr hW]
    exact hwit (hasFlag_mono _ h hW)

theorem VerifyScript_refinesBy (P : Primitives) (checker : SignatureChecker)
    (scriptSig scriptPubKey : CScript) (witness : List valtype) (hvalid : ValidFlagCombination flags) :
    RefinesBy (fun _ _ => True) (VerifyScript P flags checker scriptSig scriptPubKey witness)
      (VerifyScript P flags' checker scriptSig scriptPubKey witness) := by
  unfold VerifyScript
  dsimp only [set_error_eq, error_bind]
  refine RefinesBy.guard (hasFlag_and_mono h _) ?_
  refine RefinesBy.bind_refines (EvalScript_refines h _ _ _ _ _) fun stack => ?_
  refine RefinesBy.bind_refines (EvalScript_refines h _ _ _ _ _) fun stack' => ?_
  refine RefinesBy.guard id (RefinesBy.guard id ?_)
  refine RefinesBy.bind (bareWitness_refinesBy h _ _ _ _ _ _) fun r r' hr => ?_
  refine RefinesBy.ite_bind (p2shBranch_refinesBy h _ _ _ _ _ hvalid stack hr) fun r r' hr => ?_
  exact (finalChecks_refines h hvalid witness hr).refinesBy fun _ => trivial
end Verify

theorem VerifyScript_soft_fork (P : Primitives) (checker : SignatureChecker)
    (scriptSig scriptPubKey : CScript) (witness : List valtype) {flags flags' : UInt32}
    (hsub : FlagSubset flags flags') (hvalid : ValidFlagCombination flags)
    (hok : VerifyScript P flags' checker scriptSig scriptPubKey witness = .ok ()) :
    VerifyScript P flags checker scriptSig scriptPubKey witness = .ok () :=
  (VerifyScript_refinesBy hsub P checker scriptSig scriptPubKey witness hvalid).refines () hok

/-- Hash functions that ignore their input. -/
def constPrimitives : Primitives where
  RIPEMD160 _ := List.replicate 20 1
  SHA1 _ := List.replicate 20 1
  SHA256 _ := List.replicate 32 1
  CheckLowS _ := true
  RIPEMD160_length _ := List.length_replicate
  SHA1_length _ := List.length_replicate
  SHA256_length _ := List.length_replicate

/-- A checker that accepts every signature and lock time. -/
def acceptingChecker : SignatureChecker where
  CheckSig _ _ _ _ := true
  CheckLockTime _ := true
  CheckSequence _ := true

/-- A pay-to-witness-key-hash output spent under the witness rules with a clean stack,
and so also under `P2SH` alone, where its program is not verified. -/
theorem VerifyScript_soft_fork_witness_program :
    FlagSubset SCRIPT_VERIFY_P2SH (SCRIPT_VERIFY_P2SH ||| SCRIPT_VERIFY_WITNESS |||
      SCRIPT_VERIFY_CLEANSTACK ||| SCRIPT_VERIFY_NULLFAIL ||| SCRIPT_VERIFY_MINIMALDATA) ∧
    ValidFlagCombination SCRIPT_VERIFY_P2SH ∧
    VerifyScript constPrimitives (SCRIPT_VERIFY_P2SH ||| SCRIPT_VERIFY_WITNESS |||
      SCRIPT_VERIFY_CLEANSTACK ||| SCRIPT_VERIFY_NULLFAIL ||| SCRIPT_VERIFY_MINIMALDATA)
      acceptingChecker [] (OP_0 :: pushVector (List.replicate 20 1)) [[1], [2]] = .ok () ∧
    VerifyScript constPrimitives SCRIPT_VERIFY_P2SH acceptingChecker []
      (OP_0 :: pushVector (List.replicate 20 1)) [[1], [2]] = .ok () :=
  have hsub : FlagSubset SCRIPT_VERIFY_P2SH (SCRIPT_VERIFY_P2SH ||| SCRIPT_VERIFY_WITNESS |||
      SCRIPT_VERIFY_CLEANSTACK ||| SCRIPT_VERIFY_NULLFAIL ||| SCRIPT_VERIFY_MINIMALDATA) := by
    decide
  have hvalid : ValidFlagCombination SCRIPT_VERIFY_P2SH := by decide
  have hok : VerifyScript constPrimitives (SCRIPT_VERIFY_P2SH ||| SCRIPT_VERIFY_WITNESS |||
      SCRIPT_VERIFY_CLEANSTACK ||| SCRIPT_VERIFY_NULLFAIL ||| SCRIPT_VERIFY_MINIMALDATA)
      acceptingChecker [] (OP_0 :: pushVector (List.replicate 20 1)) [[1], [2]] = .ok () := by
    decide
  ⟨hsub, hvalid, hok, VerifyScript_soft_fork constPrimitives acceptingChecker _ _ _ hsub hvalid hok⟩

end SalemCash
