import SalemCash.ExceptLogic
import SalemCash.Interpreter

/-!
# The interpreter neither aborts nor leaves the stack

An evaluation of `EvalScript` may stop with a `set_error`, or with the
`scriptnum_error` of a number that does not decode: those are the faults that
`Fault.Allowed` admits. It never fails an `assert` (the `CScriptNum` operators'
overflow asserts, the `default:` of the numeric blocks, the push-opcode assert of
`CheckMinimalPush`), never reads `stacktop` outside the stack and never pops an
empty one.

Each block of the interpreter gets a spec lemma `Spec block Q Fault.Allowed`: its
guards establish the stack depth that its reads and pops need, and the numbers it
computes with come from a decode of at most four bytes, far from the 64-bit bounds.
The two loops of `OP_CHECKMULTISIG` keep the counter invariants that the source's
comments describe (`MultisigCounters`, and the depth bound of the clean-up).
-/
namespace SalemCash

open ExceptLogic

/-- The faults an evaluation may end in: a script error, or the `scriptnum_error` that
the `catch (...)` of `EvalScript` reports as `SCRIPT_ERR_UNKNOWN_ERROR`. -/
def Fault.Allowed : Fault → Prop
  | .error _ => True
  | .thrown .scriptnum_error => True
  | _ => False

section Rules

variable {α β : Type} {Q : α → Prop}

theorem Spec.set_error_allowed (e : ScriptError) :
    Spec (set_error e : Except Fault α) Q Fault.Allowed :=
  trivial

/-- A `set_error` guard: the rest runs when the condition fails. -/
theorem Spec.guard {c : Prop} [Decidable c] {e : ScriptError} {m : Except Fault α}
    (h : ¬c → Spec m Q Fault.Allowed) : Spec (if c then set_error e else m) Q Fault.Allowed :=
  Spec.ite (fun _ => Spec.set_error_allowed e) h

/-- The shape `do` gives to a `set_error` guard without `else`. -/
theorem Spec.guard_bind {c : Prop} [Decidable c] {e : ScriptError} {k : Except Fault α}
    (h : ¬c → Spec k Q Fault.Allowed) :
    Spec (if c then (set_error e : Except Fault Unit) >>= fun _ => k else k) Q Fault.Allowed :=
  Spec.ite (fun _ => Spec.set_error_allowed e) h

theorem Spec.stacktop_bind {stack : List valtype} {i : Int} {f : valtype → Except Fault α}
    (hneg : i < 0) (hdepth : -(stack.length : Int) ≤ i)
    (hf : Spec (f (stack.getD ((stack.length : Int) + i).toNat [])) Q Fault.Allowed) :
    Spec (stacktop stack i >>= f) Q Fault.Allowed := by
  have hin : 0 ≤ (stack.length : Int) + i ∧ (stack.length : Int) + i < stack.length := by omega
  rw [stacktop, if_pos hin]
  exact hf

theorem Spec.popstack_bind {stack : List valtype} {f : List valtype → Except Fault α}
    (hlen : 0 < stack.length) (hf : Spec (f stack.dropLast) Q Fault.Allowed) :
    Spec (popstack stack >>= f) Q Fault.Allowed := by
  have hne : stack ≠ [] := List.ne_nil_of_length_pos hlen
  rw [popstack, if_neg hne]
  exact hf

theorem Spec.popstack_ok {stack : List valtype} {Q : List valtype → Prop}
    (hlen : 0 < stack.length) (hq : Q stack.dropLast) : Spec (popstack stack) Q Fault.Allowed := by
  have hne : stack ≠ [] := List.ne_nil_of_length_pos hlen
  rw [popstack, if_neg hne]
  exact hq

/-- Both `stacktop` reads of a swap are inside the stack, and the swap keeps its depth. -/
theorem Spec.swapTop_bind {stack : List valtype} {i j : Int}
    {f : List valtype → Except Fault α} (hi : i < 0) (hi' : -(stack.length : Int) ≤ i)
    (hj : j < 0) (hj' : -(stack.length : Int) ≤ j)
    (hf : ∀ stack', stack'.length = stack.length → Spec (f stack') Q Fault.Allowed) :
    Spec (swapTop stack i j >>= f) Q Fault.Allowed := by
  rw [swapTop, bind_assoc]
  refine Spec.stacktop_bind hi hi' ?_
  rw [bind_assoc]
  refine Spec.stacktop_bind hj hj' ?_
  exact hf _ (by simp)

end Rules

theorem leValue_lt (bs : List UInt8) : CScriptNum.leValue bs < 256 ^ bs.length := by
  induction bs with
  | nil => simp [CScriptNum.leValue]
  | cons b bs ih =>
    have hb := b.toNat_lt
    rw [CScriptNum.leValue, List.length_cons, Nat.pow_succ]
    omega

/-- A decoded number is bounded by its bytes. -/
theorem set_vch_natAbs_lt (vch : valtype) : (CScriptNum.set_vch vch).natAbs < 256 ^ vch.length := by
  unfold CScriptNum.set_vch
  split
  · exact Nat.pow_pos (by decide)
  · rename_i last hlast
    have hne : vch ≠ [] := by
      intro h
      simp [h] at hlast
    have hlen : (vch.dropLast ++ [last &&& 0x7f]).length = vch.length := by
      rw [List.length_append, List.length_dropLast, List.length_singleton]
      have := List.length_pos_of_ne_nil hne
      omega
    split
    · rw [Int.natAbs_neg, Int.natAbs_natCast, ← hlen]
      exact leValue_lt _
    · rw [Int.natAbs_natCast]
      exact leValue_lt vch

/-- `CScriptNum(vch, fRequireMinimal, nMaxNumSize)` fails only with `scriptnum_error`, and
its value has at most `nMaxNumSize` bytes of magnitude. -/
theorem decode_spec (vch : valtype) (fRequireMinimal : Bool) (nMaxNumSize : Nat) :
    Spec (CScriptNum.decode vch fRequireMinimal nMaxNumSize)
      (fun bn => bn.m_value.natAbs < 256 ^ nMaxNumSize) Fault.Allowed := by
  unfold CScriptNum.decode
  split_ifs with hsize
  · trivial
  · trivial
  · show (CScriptNum.set_vch vch).natAbs < 256 ^ nMaxNumSize
    exact Nat.lt_of_lt_of_le (set_vch_natAbs_lt vch)
      (Nat.pow_le_pow_right (by decide) (Nat.not_lt.mp hsize))

/-- A four-byte operand is far inside the 64-bit range. -/
theorem four_byte_bounds {v : Int} (h : v.natAbs < 256 ^ 4) :
    -4294967296 < v ∧ v < 4294967296 := by
  have h4 : (256 : Nat) ^ 4 = 4294967296 := by decide
  rw [h4] at h
  rcases Int.natAbs_eq v with hv | hv <;> omega

set_option maxRecDepth 10000 in
/-- The opcodes of the one-operand block, read off the table of all 256 bytes. -/
theorem classify_unaryNum {opcode : UInt8} (h : classify opcode = .unaryNum) :
    opcode = OP_1ADD ∨ opcode = OP_1SUB ∨ opcode = OP_NEGATE ∨ opcode = OP_ABS ∨
      opcode = OP_NOT ∨ opcode = OP_0NOTEQUAL := by
  have htable : ∀ n, n < 256 → classify (UInt8.ofNat n) = .unaryNum →
      UInt8.ofNat n = OP_1ADD ∨ UInt8.ofNat n = OP_1SUB ∨ UInt8.ofNat n = OP_NEGATE ∨
        UInt8.ofNat n = OP_ABS ∨ UInt8.ofNat n = OP_NOT ∨ UInt8.ofNat n = OP_0NOTEQUAL := by
    decide
  have hbyte := htable opcode.toNat opcode.toNat_lt
  rw [UInt8.ofNat_toNat] at hbyte
  exact hbyte h

set_option maxRecDepth 10000 in
/-- The opcodes of the two-operand block, read off the table of all 256 bytes. -/
theorem classify_binaryNum {opcode : UInt8} (h : classify opcode = .binaryNum) :
    opcode = OP_ADD ∨ opcode = OP_SUB ∨ opcode = OP_BOOLAND ∨ opcode = OP_BOOLOR ∨
      opcode = OP_NUMEQUAL ∨ opcode = OP_NUMEQUALVERIFY ∨ opcode = OP_NUMNOTEQUAL ∨
      opcode = OP_LESSTHAN ∨ opcode = OP_GREATERTHAN ∨ opcode = OP_LESSTHANOREQUAL ∨
      opcode = OP_GREATERTHANOREQUAL ∨ opcode = OP_MIN ∨ opcode = OP_MAX := by
  have htable : ∀ n, n < 256 → classify (UInt8.ofNat n) = .binaryNum →
      UInt8.ofNat n = OP_ADD ∨ UInt8.ofNat n = OP_SUB ∨ UInt8.ofNat n = OP_BOOLAND ∨
        UInt8.ofNat n = OP_BOOLOR ∨ UInt8.ofNat n = OP_NUMEQUAL ∨
        UInt8.ofNat n = OP_NUMEQUALVERIFY ∨ UInt8.ofNat n = OP_NUMNOTEQUAL ∨
        UInt8.ofNat n = OP_LESSTHAN ∨ UInt8.ofNat n = OP_GREATERTHAN ∨
        UInt8.ofNat n = OP_LESSTHANOREQUAL ∨ UInt8.ofNat n = OP_GREATERTHANOREQUAL ∨
        UInt8.ofNat n = OP_MIN ∨ UInt8.ofNat n = OP_MAX := by
    decide
  have hbyte := htable opcode.toNat opcode.toNat_lt
  rw [UInt8.ofNat_toNat] at hbyte
  exact hbyte h

section FourBytes

variable {bn : CScriptNum} (hbn : bn.m_value.natAbs < 256 ^ 4)
include hbn

theorem addAssign_one_spec : Spec (bn.addAssign 1) (fun _ => True) Fault.Allowed := by
  obtain ⟨-, hhi⟩ := four_byte_bounds hbn
  have hok : bn.m_value ≤ INT64_MAX - 1 := by
    unfold INT64_MAX
    omega
  rw [CScriptNum.addAssign, if_pos (Or.inr (Or.inl ⟨by decide, hok⟩))]
  trivial

theorem subAssign_one_spec : Spec (bn.subAssign 1) (fun _ => True) Fault.Allowed := by
  obtain ⟨hlo, -⟩ := four_byte_bounds hbn
  have hok : INT64_MIN + 1 ≤ bn.m_value := by
    unfold INT64_MIN
    omega
  rw [CScriptNum.subAssign, if_pos (Or.inr (Or.inl ⟨by decide, hok⟩))]
  trivial

theorem neg_spec : Spec bn.neg (fun _ => True) Fault.Allowed := by
  obtain ⟨hlo, -⟩ := four_byte_bounds hbn
  have hok : bn.m_value ≠ INT64_MIN := by
    unfold INT64_MIN
    omega
  rw [CScriptNum.neg, if_neg hok]
  trivial

/-- The one-operand block: its `default:` is unreachable and `+= 1`, `-= 1` and the
negation stay inside `int64_t` on a four-byte operand. -/
theorem unaryNumOp_spec {opcode : UInt8} (hop : classify opcode = .unaryNum) :
    Spec (unaryNumOp opcode bn) (fun _ => True) Fault.Allowed := by
  rcases classify_unaryNum hop with h | h | h | h | h | h <;> subst h <;> unfold unaryNumOp <;>
    (repeat rw [if_neg (by decide)]) <;> rw [if_pos rfl]
  · exact addAssign_one_spec hbn
  · exact subAssign_one_spec hbn
  · exact neg_spec hbn
  · split
    · exact neg_spec hbn
    · trivial
  · trivial
  · trivial

end FourBytes

/-- The two-operand block computes without asserts; its `default:` is unreachable. -/
theorem binaryNumOp_spec {opcode : UInt8} (hop : classify opcode = .binaryNum)
    (bn1 bn2 : CScriptNum) : Spec (binaryNumOp opcode bn1 bn2) (fun _ => True) Fault.Allowed := by
  rcases classify_binaryNum hop with h | h | h | h | h | h | h | h | h | h | h | h | h <;>
    subst h <;> unfold binaryNumOp <;> (repeat rw [if_neg (by decide)]) <;> rw [if_pos rfl] <;>
    trivial

theorem CheckSignatureEncoding_spec (P : Primitives) (vchSig : valtype) (flags : UInt32) :
    Spec (CheckSignatureEncoding P vchSig flags) (fun _ => True) Fault.Allowed := by
  unfold CheckSignatureEncoding IsLowDERSignature
  dsimp only
  split_ifs <;> simp only [throw_eq_error, pure_eq_ok, ok_bind, error_bind] <;>
    trivial

theorem CheckPubKeyEncoding_spec (vchPubKey : valtype) (flags : UInt32) (sigversion : SigVersion) :
    Spec (CheckPubKeyEncoding vchPubKey flags sigversion) (fun _ => True) Fault.Allowed := by
  unfold CheckPubKeyEncoding
  split_ifs <;> trivial

theorem CheckMinimalPush_spec (data : valtype) {opcode : UInt8} (h : opcode ≤ OP_PUSHDATA4) :
    Spec (CheckMinimalPush data opcode) (fun _ => True) Fault.Allowed := by
  rw [CheckMinimalPush, if_neg (UInt8.not_lt.mpr h)]
  trivial

theorem minimalIfCheck_spec (flags : UInt32) (sigversion : SigVersion) (vch : valtype) :
    Spec (minimalIfCheck flags sigversion vch) (fun _ => True) Fault.Allowed := by
  unfold minimalIfCheck
  split_ifs <;> trivial

section Blocks

variable (P : Primitives) (script : CScript) (flags : UInt32) (checker : SignatureChecker)
  (sigversion : SigVersion)

theorem ifValue_spec (opcode : UInt8) (fExec : Bool) (stack : List valtype) :
    Spec (ifValue flags sigversion opcode fExec stack) (fun _ => True) Fault.Allowed := by
  unfold ifValue
  split
  · refine Spec.guard fun hlen => ?_
    refine Spec.stacktop_bind (by omega) (by omega) ?_
    refine Spec.bind_of (minimalIfCheck_spec flags sigversion _) fun _ _ => ?_
    exact Spec.popstack_bind (by omega) trivial
  · trivial

/-- The signature reads of the first loop of `OP_CHECKMULTISIG`: every offset `isig + k`
lies inside the stack. -/
theorem deleteSignatures_spec (stack : List valtype) (isig : Int) (ks : List Nat)
    (hks : ∀ k ∈ ks, 1 ≤ isig + k ∧ isig + k ≤ stack.length) (scriptCode : CScript) :
    Spec (deleteSignatures sigversion stack isig ks scriptCode) (fun _ => True) Fault.Allowed := by
  induction ks generalizing scriptCode with
  | nil => trivial
  | cons k ks ih =>
    obtain ⟨hlo, hhi⟩ := hks k List.mem_cons_self
    rw [deleteSignatures]
    refine Spec.stacktop_bind (by omega) (by omega) ?_
    exact ih (fun k' hk' => hks k' (List.mem_cons_of_mem k hk')) _

/-- The counters of the signature loop of `OP_CHECKMULTISIG`: the signatures left to
check lie at `isig` and above it, the keys left at `ikey` and above it, below the
signatures, and there are no more signatures than keys. -/
structure MultisigCounters (depth : Nat) (nSigsCount nKeysCount isig ikey : Int) : Prop where
  isig_pos : 1 ≤ isig
  sigs_in_stack : isig + nSigsCount ≤ depth
  ikey_pos : 1 ≤ ikey
  keys_below_sigs : ikey + nKeysCount < isig
  sigs_le_keys : nSigsCount ≤ nKeysCount

/-- One turn of the loop keeps the counters: a good signature moves `isig` and the count
of signatures together, and every turn moves `ikey` and the count of keys together. -/
theorem MultisigCounters.next {depth : Nat} {nSigsCount nKeysCount isig ikey : Int}
    (hc : MultisigCounters depth nSigsCount nKeysCount isig ikey) (fOk : Bool)
    (hmore : ¬nKeysCount - 1 < (if fOk = true then nSigsCount - 1 else nSigsCount)) :
    MultisigCounters depth (if fOk = true then nSigsCount - 1 else nSigsCount) (nKeysCount - 1)
      (if fOk = true then isig + 1 else isig) (ikey + 1) := by
  obtain ⟨h1, h2, h3, h4, h5⟩ := hc
  cases fOk <;> simp only [Bool.false_eq_true, if_false, if_true] at hmore ⊢ <;>
    constructor <;> omega

theorem sigLoop_spec (stack : List valtype) (scriptCode : CScript)
    (nSigsCount nKeysCount isig ikey : Int)
    (hc : MultisigCounters stack.length nSigsCount nKeysCount isig ikey) :
    Spec (sigLoop P flags checker sigversion stack scriptCode nSigsCount nKeysCount isig ikey)
      (fun _ => True) Fault.Allowed := by
  fun_induction sigLoop P flags checker sigversion stack scriptCode nSigsCount nKeysCount isig
    ikey with
  | case1 nSigsCount nKeysCount isig ikey hpos ih =>
    have ⟨h1, h2, h3, h4, h5⟩ := hc
    refine Spec.stacktop_bind (by omega) (by omega) ?_
    refine Spec.stacktop_bind (by omega) (by omega) ?_
    refine Spec.bind_of (CheckSignatureEncoding_spec P _ flags) fun _ _ => ?_
    refine Spec.bind_of (CheckPubKeyEncoding_spec _ flags sigversion) fun _ _ => ?_
    dsimp only
    exact Spec.dite (fun _ => trivial) fun hmore => ih _ _ hmore (hc.next _ hmore)
  | case2 => trivial

/-- The clean-up pops `i - 1` elements from a stack that holds at least `i`. -/
theorem cleanupLoop_spec (fSuccess : Bool) (stack : List valtype) (i ikey2 : Int)
    (hdepth : i ≤ stack.length) :
    Spec (cleanupLoop flags fSuccess stack i ikey2) (fun _ => True) Fault.Allowed := by
  fun_induction cleanupLoop flags fSuccess stack i ikey2 with
  | case1 stack i ikey2 hi rest hnull ih =>
    refine Spec.stacktop_bind (by omega) (by omega) ?_
    simp only [rest]
    refine Spec.guard_bind fun _ => Spec.popstack_bind (by omega) (ih _ ?_)
    simp only [List.length_dropLast]
    omega
  | case2 stack i ikey2 hi rest hnull ih =>
    simp only [rest]
    refine Spec.popstack_bind (by omega) (ih _ ?_)
    simp only [List.length_dropLast]
    omega
  | case3 => trivial

theorem multisigResult_spec (opcode : UInt8) (fSuccess : Bool) (stack : List valtype) :
    Spec (multisigResult flags opcode fSuccess stack) (fun _ => True) Fault.Allowed := by
  unfold multisigResult
  dsimp only
  refine Spec.guard_bind fun hlen => ?_
  refine Spec.ite (fun _ => Spec.stacktop_bind (by omega) (by omega) (Spec.guard_bind fun _ => ?_))
    fun _ => ?_
  all_goals
    refine Spec.popstack_bind (by omega) ?_
    split
    · split
      · exact Spec.popstack_ok (by simp) trivial
      · trivial
    · trivial

theorem checkSig_spec (opcode : UInt8) (st : EvalState) :
    Spec (checkSig P script flags checker sigversion opcode st) (fun _ => True) Fault.Allowed := by
  unfold checkSig
  dsimp only
  refine Spec.guard_bind fun hlen => ?_
  refine Spec.stacktop_bind (by omega) (by omega) ?_
  refine Spec.stacktop_bind (by omega) (by omega) ?_
  refine Spec.bind_of (CheckSignatureEncoding_spec P _ flags) fun _ _ => ?_
  refine Spec.bind_of (CheckPubKeyEncoding_spec _ flags sigversion) fun _ _ => ?_
  refine Spec.guard_bind fun _ => ?_
  refine Spec.popstack_bind (by omega) (Spec.popstack_bind ?_ ?_)
  · simp only [List.length_dropLast]
    omega
  exact Spec.ite (fun _ => Spec.ite (fun _ => Spec.popstack_bind (by simp) trivial) fun _ => trivial)
    fun _ => trivial

theorem checkMultiSig_spec (opcode : UInt8) (st : EvalState) :
    Spec (checkMultiSig P script flags checker sigversion opcode st) (fun _ => True)
      Fault.Allowed := by
  unfold checkMultiSig
  dsimp only
  refine Spec.guard_bind fun h1 => ?_
  refine Spec.stacktop_bind (by omega) (by omega) ?_
  refine Spec.bind_of (decode_spec _ _ _) fun bnKeys _ => ?_
  refine Spec.guard_bind fun hkeys => ?_
  refine Spec.guard_bind fun _ => ?_
  refine Spec.guard_bind fun h2 => ?_
  unfold MAX_PUBKEYS_PER_MULTISIG at hkeys
  refine Spec.stacktop_bind (by omega) (by omega) ?_
  refine Spec.bind_of (decode_spec _ _ _) fun bnSigs _ => ?_
  refine Spec.guard_bind fun hsigs => ?_
  refine Spec.guard_bind fun h3 => ?_
  have hdelete : ∀ k ∈ List.range bnSigs.getint.toNat,
      1 ≤ 1 + 1 + bnKeys.getint + 1 + k ∧ 1 + 1 + bnKeys.getint + 1 + k ≤ st.stack.length := by
    intro k hk
    rw [List.mem_range, Int.lt_toNat] at hk
    omega
  have hcounters : MultisigCounters st.stack.length bnSigs.getint bnKeys.getint
      (1 + 1 + bnKeys.getint + 1) (1 + 1) := by
    constructor <;> omega
  refine Spec.bind_of (deleteSignatures_spec sigversion _ _ _ hdelete _) fun scriptCode _ => ?_
  refine Spec.bind_of (sigLoop_spec P flags checker sigversion _ _ _ _ _ _ hcounters)
    fun fSuccess _ => ?_
  refine Spec.bind_of (cleanupLoop_spec flags _ _ _ _ (by omega)) fun stack _ => ?_
  exact Spec.bind_of (multisigResult_spec flags _ _ _) fun _ _ => trivial

theorem checkLockTimeVerify_spec (st : EvalState) :
    Spec (checkLockTimeVerify flags checker st) (fun _ => True) Fault.Allowed := by
  unfold checkLockTimeVerify
  refine Spec.ite (fun _ => trivial) fun _ => Spec.guard fun hlen => ?_
  refine Spec.stacktop_bind (by omega) (by omega) ?_
  exact Spec.bind_of (decode_spec _ _ _) fun _ _ => Spec.guard fun _ => Spec.guard fun _ => trivial

theorem checkSequenceVerify_spec (st : EvalState) :
    Spec (checkSequenceVerify flags checker st) (fun _ => True) Fault.Allowed := by
  unfold checkSequenceVerify
  refine Spec.ite (fun _ => trivial) fun _ => Spec.guard fun hlen => ?_
  refine Spec.stacktop_bind (by omega) (by omega) ?_
  refine Spec.bind_of (decode_spec _ _ _) fun _ _ => Spec.guard fun _ => ?_
  exact Spec.ite (fun _ => trivial) fun _ => Spec.guard fun _ => trivial

theorem upgradableNop_spec (st : EvalState) :
    Spec (upgradableNop flags st) (fun _ => True) Fault.Allowed :=
  Spec.guard fun _ => trivial

/-- A data push runs `CheckMinimalPush` only on push opcodes, so its assert holds. -/
theorem pushValue_spec {opcode : UInt8} (hpush : opcode ≤ OP_PUSHDATA4) (vchPushValue : valtype)
    (st : EvalState) :
    Spec (pushValue flags opcode vchPushValue st) (fun _ => True) Fault.Allowed := by
  unfold pushValue
  dsimp only
  refine Spec.ite (fun _ => ?_) fun _ => trivial
  exact Spec.bind_of (CheckMinimalPush_spec _ hpush) fun _ _ => Spec.guard_bind fun _ => trivial

/-- Every block of the `switch` guards its stack reads by its own depth test, and its
numeric operands are bounded by the four-byte decode. -/
theorem execOp_spec (opcode : UInt8) (fExec : Bool) (st : EvalState) :
    Spec (execOp P script flags checker sigversion opcode fExec st) (fun _ => True)
      Fault.Allowed := by
  unfold execOp
  cases hk : classify opcode <;> dsimp only
  case pushNumber | nop | depth | codeSeparator => trivial
  case returnOp | badOpcode => exact Spec.set_error_allowed _
  case checkLockTimeVerify => exact checkLockTimeVerify_spec flags checker st
  case checkSequenceVerify => exact checkSequenceVerify_spec flags checker st
  case upgradableNop => exact upgradableNop_spec flags st
  case checkSig => exact checkSig_spec P script flags checker sigversion opcode st
  case checkMultiSig => exact checkMultiSig_spec P script flags checker sigversion opcode st
  case ifOp => exact Spec.bind_of (ifValue_spec flags sigversion opcode fExec st.stack) fun _ _ => trivial
  case elseOp | endifOp | nip => exact Spec.guard fun _ => trivial
  case verify =>
    refine Spec.guard fun hlen => Spec.stacktop_bind (by omega) (by omega) ?_
    exact Spec.ite (fun _ => Spec.popstack_bind (by omega) trivial) fun _ => trivial
  case toAltStack | hash =>
    refine Spec.guard fun hlen => Spec.stacktop_bind (by omega) (by omega) ?_
    exact Spec.popstack_bind (by omega) trivial
  case fromAltStack =>
    refine Spec.guard fun hlen => Spec.stacktop_bind (by omega) (by omega) ?_
    exact Spec.popstack_bind (by omega) trivial
  case drop2 =>
    refine Spec.guard fun hlen => Spec.popstack_bind (by omega) (Spec.popstack_bind ?_ trivial)
    rw [List.length_dropLast]
    omega
  case drop => exact Spec.guard fun hlen => Spec.popstack_bind (by omega) trivial
  case ifDup | dup | «over» | tuck | size =>
    exact Spec.guard fun hlen => Spec.stacktop_bind (by omega) (by omega) trivial
  case dup2 | over2 | rot2 =>
    refine Spec.guard fun hlen => Spec.stacktop_bind (by omega) (by omega) ?_
    exact Spec.stacktop_bind (by omega) (by omega) trivial
  case dup3 =>
    refine Spec.guard fun hlen => Spec.stacktop_bind (by omega) (by omega) ?_
    refine Spec.stacktop_bind (by omega) (by omega) ?_
    exact Spec.stacktop_bind (by omega) (by omega) trivial
  case swap =>
    refine Spec.guard fun hlen => Spec.swapTop_bind (by omega) (by omega) (by omega) (by omega) ?_
    exact fun _ _ => trivial
  case swap2 | rot =>
    refine Spec.guard fun hlen => Spec.swapTop_bind (by omega) (by omega) (by omega) (by omega) ?_
    intro stack hstack
    exact Spec.swapTop_bind (by omega) (by omega) (by omega) (by omega) fun _ _ => trivial
  case pickRoll =>
    refine Spec.guard fun hlen => Spec.stacktop_bind (by omega) (by omega) ?_
    refine Spec.bind_of (decode_spec _ _ _) fun bn _ => Spec.popstack_bind (by omega) ?_
    exact Spec.guard fun hn => Spec.stacktop_bind (by omega) (by omega) trivial
  case equal =>
    refine Spec.guard fun hlen => Spec.stacktop_bind (by omega) (by omega) ?_
    refine Spec.stacktop_bind (by omega) (by omega) ?_
    refine Spec.popstack_bind (by omega) (Spec.popstack_bind ?_ ?_)
    · rw [List.length_dropLast]
      omega
    exact Spec.ite (fun _ => Spec.ite (fun _ => Spec.popstack_bind (by simp) trivial)
      fun _ => trivial) fun _ => trivial
  case unaryNum =>
    refine Spec.guard fun hlen => Spec.stacktop_bind (by omega) (by omega) ?_
    refine Spec.bind_of (decode_spec _ _ _) fun bn hbn => ?_
    refine Spec.bind_of (unaryNumOp_spec hbn hk) fun _ _ => ?_
    exact Spec.popstack_bind (by omega) trivial
  case binaryNum =>
    refine Spec.guard fun hlen => Spec.stacktop_bind (by omega) (by omega) ?_
    refine Spec.bind_of (decode_spec _ _ _) fun bn1 _ => Spec.stacktop_bind (by omega) (by omega) ?_
    refine Spec.bind_of (decode_spec _ _ _) fun bn2 _ => ?_
    refine Spec.bind_of (binaryNumOp_spec hk bn1 bn2) fun _ _ => ?_
    refine Spec.popstack_bind (by omega) (Spec.popstack_bind ?_ ?_)
    · rw [List.length_dropLast]
      omega
    have hdepth : ∀ stack : List valtype, ∀ vch : valtype,
        -((stack ++ [vch]).length : Int) ≤ -1 := by
      intro stack vch
      rw [List.length_append, List.length_singleton]
      omega
    exact Spec.ite (fun _ => Spec.stacktop_bind (by omega) (hdepth _ _)
      (Spec.ite (fun _ => Spec.popstack_bind (by simp) trivial) fun _ => trivial)) fun _ => trivial
  case within =>
    refine Spec.guard fun hlen => Spec.stacktop_bind (by omega) (by omega) ?_
    refine Spec.bind_of (decode_spec _ _ _) fun _ _ => Spec.stacktop_bind (by omega) (by omega) ?_
    refine Spec.bind_of (decode_spec _ _ _) fun _ _ => Spec.stacktop_bind (by omega) (by omega) ?_
    refine Spec.bind_of (decode_spec _ _ _) fun _ _ => Spec.popstack_bind (by omega) ?_
    refine Spec.popstack_bind ?_ (Spec.popstack_bind ?_ trivial)
    · rw [List.length_dropLast]
      omega
    · rw [List.length_dropLast, List.length_dropLast]
      omega

/-- One turn of the loop: the checks before the `switch` only `set_error`, and a data push
reaches `CheckMinimalPush` only for a push opcode. -/
theorem step_spec (st : EvalState) :
    Spec (step P script flags checker sigversion st) (fun _ => True) Fault.Allowed := by
  unfold step
  dsimp only
  refine Spec.guard_bind fun _ => Spec.guard_bind fun _ => Spec.guard_bind fun _ =>
    Spec.guard_bind fun _ => ?_
  have hsize : ∀ st' : EvalState, Spec (if MAX_STACK_SIZE < st'.stack.length + st'.altstack.length
      then (set_error .SCRIPT_ERR_STACK_SIZE : Except Fault Unit) >>= fun _ => pure st'
      else pure st') (fun _ => True) Fault.Allowed :=
    fun _ => Spec.guard_bind fun _ => trivial
  refine Spec.ite (fun hpush => Spec.bind_of (pushValue_spec flags hpush.2 _ _) fun st' _ => hsize st')
    fun _ => ?_
  refine Spec.ite (fun _ => Spec.bind_of (execOp_spec P script flags checker sigversion _ _ _)
    fun st' _ => hsize st') fun _ => ?_
  exact hsize _

theorem evalLoop_spec (fuel : Nat) (st : EvalState) :
    Spec (evalLoop P script flags checker sigversion fuel st) (fun _ => True) Fault.Allowed := by
  induction fuel generalizing st with
  | zero => trivial
  | succ fuel ih =>
    rw [evalLoop]
    exact Spec.ite (fun _ => Spec.bind_of (step_spec P script flags checker sigversion st)
      fun st' _ => ih st') fun _ => trivial

/-- The loop of `EvalScript`, from any state and for any number of instructions, fails only
by `set_error` or by the `scriptnum_error` of a number decode: no assert, no
`out_of_range` and no pop of an empty stack. -/
theorem evalLoop_faults_allowed (fuel : Nat) (st : EvalState) :
    Spec (evalLoop P script flags checker sigversion fuel st) (fun _ => True) Fault.Allowed :=
  evalLoop_spec P script flags checker sigversion fuel st

/-- `EvalScript` turns every exception of its loop into `SCRIPT_ERR_UNKNOWN_ERROR`, and
the loop never aborts, so `EvalScript` only ever fails with a script error. -/
theorem EvalScript_fails_with_error (stack : List valtype) :
    Spec (EvalScript P script flags checker sigversion stack) (fun _ => True)
      fun e => ∃ serror, e = .error serror := by
  unfold EvalScript
  refine Spec.ite (fun _ => ⟨_, rfl⟩) fun _ => ?_
  have hloop := evalLoop_spec P script flags checker sigversion script.length
    ⟨stack, [], [], 0, 0, 0⟩
  split
  · exact Spec.ite (fun _ => ⟨_, rfl⟩) fun _ => trivial
  · exact ⟨_, rfl⟩
  · rename_i e hthrown hres
    rw [hres] at hloop
    cases e with
    | error serror => exact ⟨serror, rfl⟩
    | thrown ex => exact absurd rfl (hthrown ex)
    | abort => exact absurd hloop id

end Blocks

end SalemCash
