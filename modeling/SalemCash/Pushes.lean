import SalemCash.Instructions
import SalemCash.ScriptNumCodec
import SalemCash.Interpreter
import SalemCash.SoftFork

/-!
# Pushes built by `CScript`

`CScript::operator<<` writes a byte vector as the shortest of a direct push, `OP_PUSHDATA1`,
`OP_PUSHDATA2` and `OP_PUSHDATA4`, and `push_int64` writes a number as `OP_0`, `OP_1NEGATE`,
`OP_1 .. OP_16` or a push of its `CScriptNum` serialization.

`GetOp2` reads back the push `operator<<` wrote. `CheckMinimalPush` accepts it unless a
number opcode should have been used, and `EvalScript` of `CScript() << n` leaves exactly
`CScriptNum::serialize(n)` on the stack.
-/
set_option autoImplicit false

namespace SalemCash

/-- `CScript::push_int64` on an empty script: `CScript() << n`. -/
def push_int64 (n : Int64) : CScript :=
  if n = -1 ∨ (1 ≤ n ∧ n ≤ 16) then [(n + Int64.ofNat (OP_1.toNat - 1)).toUInt64.toUInt8]
  else if n = 0 then [OP_0]
  else pushVector (CScriptNum.serialize n.toInt)

section Frame

variable (pre post script : CScript)

theorem getD_append_shift (i : Nat) : (pre ++ script).getD (pre.length + i) 0 = script.getD i 0 := by
  rw [List.getD_append_right _ _ _ _ (Nat.le_add_right _ _), Nat.add_sub_cancel_left]

theorem ReadLE16_append_left (pc : Nat) : ReadLE16 (pre ++ script) (pre.length + pc) = ReadLE16 script pc := by
  rw [ReadLE16, ReadLE16, getD_append_shift, Nat.add_assoc, getD_append_shift]

theorem ReadLE32_append_left (pc : Nat) : ReadLE32 (pre ++ script) (pre.length + pc) = ReadLE32 script pc := by
  rw [ReadLE32, ReadLE32, ReadLE16_append_left, Nat.add_assoc, ReadLE16_append_left]

end Frame

section Push

variable (b : valtype)

theorem ReadLE16_WriteLE16 (n : Nat) (rest : List UInt8) : ReadLE16 (WriteLE16 n ++ rest) 0 = n % 65536 := by
  have low : (n % 256).toUInt8.toNat = n % 256 := CScriptNum.toUInt8_toNat_of_lt (Nat.mod_lt _ (by decide))
  have high : (n / 256 % 256).toUInt8.toNat = n / 256 % 256 :=
    CScriptNum.toUInt8_toNat_of_lt (Nat.mod_lt _ (by decide))
  simp only [ReadLE16, WriteLE16, List.cons_append, List.getD_cons_zero, Nat.zero_add, List.getD_cons_succ,
    low, high]
  omega

theorem ReadLE32_WriteLE32 (n : Nat) (rest : List UInt8) : ReadLE32 (WriteLE32 n ++ rest) 0 = n % 2 ^ 32 := by
  have second := ReadLE16_append_left (WriteLE16 (n % 65536)) (WriteLE16 (n / 65536 % 65536) ++ rest) 0
  rw [show (WriteLE16 (n % 65536)).length + 0 = 0 + 2 from rfl, ReadLE16_WriteLE16] at second
  rw [ReadLE32, WriteLE32, List.append_assoc, ReadLE16_WriteLE16, second]
  omega

/-- A push opcode followed by a length field that reads as the operand's length: `GetOp2`
returns the operand and stops after it. -/
theorem GetOp2_of_pushSize {opcode : UInt8} (field : List UInt8) (push : opcode ≤ OP_PUSHDATA4)
    (size : pushSize (opcode :: (field ++ b)) opcode 1 = some (b.length, 1 + field.length)) :
    GetOp2 (opcode :: (field ++ b)) 0 = ⟨true, 1 + field.length + b.length, opcode, b⟩ := by
  have operand : (opcode :: (field ++ b)).drop (1 + field.length) = b := by
    rw [Nat.add_comm, List.drop_succ_cons, List.drop_left]
  rw [GetOp2, if_neg (by simp), List.getD_cons_zero, if_pos push, Nat.zero_add, size]
  dsimp only
  rw [if_neg (by simp; omega), operand, List.take_length]

/-- The first byte `operator<<` writes: the length itself below `OP_PUSHDATA1`, then the
`OP_PUSHDATA` opcode whose field holds the length. -/
theorem pushVector_opcode : (pushVector b).getD 0 0 =
    if b.length < OP_PUSHDATA1.toNat then b.length.toUInt8
    else if b.length ≤ 0xff then OP_PUSHDATA1
    else if b.length ≤ 0xffff then OP_PUSHDATA2 else OP_PUSHDATA4 := by
  unfold pushVector
  split_ifs <;> rfl

theorem pushVector_opcode_le : (pushVector b).getD 0 0 ≤ OP_PUSHDATA4 := by
  rw [pushVector_opcode]
  split_ifs with direct
  · rw [UInt8.le_iff_toNat_le, CScriptNum.toUInt8_toNat_of_lt (by exact Nat.lt_trans direct (by decide))]
    exact Nat.le_trans (Nat.le_of_lt direct) (by decide)
  all_goals decide

/-- `GetOp2` at the start of `CScript() << b` returns `b` and stops at the end, for every
operand whose length fits the 32-bit field of `OP_PUSHDATA4`. -/
theorem GetOp2_pushVector (fits : b.length < 2 ^ 32) :
    GetOp2 (pushVector b) 0 = ⟨true, (pushVector b).length, (pushVector b).getD 0 0, b⟩ := by
  unfold pushVector
  by_cases direct : b.length < OP_PUSHDATA1.toNat
  · rw [if_pos direct]
    have read : b.length.toUInt8.toNat = b.length :=
      CScriptNum.toUInt8_toNat_of_lt (Nat.lt_trans direct (by decide))
    have small : b.length.toUInt8 < OP_PUSHDATA1 := by rw [UInt8.lt_iff_toNat_lt, read]; exact direct
    have push : b.length.toUInt8 ≤ OP_PUSHDATA4 := by
      rw [UInt8.le_iff_toNat_le, read]
      exact Nat.le_trans (Nat.le_of_lt direct) (by decide)
    have size : pushSize (b.length.toUInt8 :: (([] : List UInt8) ++ b)) b.length.toUInt8 1 =
        some (b.length, 1 + ([] : List UInt8).length) := by
      rw [pushSize, if_pos small, read]
      rfl
    have parsed := GetOp2_of_pushSize b [] push size
    simpa [Nat.add_comm] using parsed
  rw [if_neg direct]
  by_cases one : b.length ≤ 0xff
  · rw [if_pos one]
    have read : b.length.toUInt8.toNat = b.length := CScriptNum.toUInt8_toNat_of_lt (by omega)
    have size : pushSize (OP_PUSHDATA1 :: ([b.length.toUInt8] ++ b)) OP_PUSHDATA1 1 =
        some (b.length, 1 + [b.length.toUInt8].length) := by
      rw [pushSize, if_neg (by decide), if_pos rfl, if_neg (by simp)]
      simp [read]
    rw [show OP_PUSHDATA1 :: b.length.toUInt8 :: b = OP_PUSHDATA1 :: ([b.length.toUInt8] ++ b) from rfl,
      GetOp2_of_pushSize b [b.length.toUInt8] (by decide) size]
    simp
    omega
  rw [if_neg one]
  by_cases two : b.length ≤ 0xffff
  · rw [if_pos two]
    have read := ReadLE16_append_left [OP_PUSHDATA2] (WriteLE16 b.length ++ b) 0
    rw [ReadLE16_WriteLE16, Nat.mod_eq_of_lt (by omega)] at read
    have size : pushSize (OP_PUSHDATA2 :: (WriteLE16 b.length ++ b)) OP_PUSHDATA2 1 =
        some (b.length, 1 + (WriteLE16 b.length).length) := by
      rw [pushSize, if_neg (by decide), if_neg (by decide), if_pos rfl, if_neg (by simp [WriteLE16])]
      exact congrArg some (Prod.ext read rfl)
    rw [List.cons_append, GetOp2_of_pushSize b (WriteLE16 b.length) (by decide) size]
    simp [WriteLE16]
    omega
  · rw [if_neg two]
    have read := ReadLE32_append_left [OP_PUSHDATA4] (WriteLE32 b.length ++ b) 0
    rw [ReadLE32_WriteLE32, Nat.mod_eq_of_lt fits] at read
    have size : pushSize (OP_PUSHDATA4 :: (WriteLE32 b.length ++ b)) OP_PUSHDATA4 1 =
        some (b.length, 1 + (WriteLE32 b.length).length) := by
      rw [pushSize, if_neg (by decide), if_neg (by decide), if_neg (by decide),
        if_neg (by simp [WriteLE32, WriteLE16])]
      exact congrArg some (Prod.ext read rfl)
    rw [List.cons_append, GetOp2_of_pushSize b (WriteLE32 b.length) (by decide) size]
    simp [WriteLE32, WriteLE16]
    omega

/-- `CheckMinimalPush` accepts the opcode `operator<<` chose for `b`, unless `b` is one byte
that `OP_1NEGATE` or `OP_1 .. OP_16` pushes. -/
theorem CheckMinimalPush_pushVector
    (notNumber : ¬ (b.length = 1 ∧ ((1 ≤ b.getD 0 0 ∧ b.getD 0 0 ≤ 16) ∨ b.getD 0 0 = 0x81))) :
    CheckMinimalPush b ((pushVector b).getD 0 0) = .ok true := by
  rw [CheckMinimalPush, if_neg (UInt8.not_lt.mpr (pushVector_opcode_le b))]
  congr 1
  by_cases empty : b.length = 0
  · have opcode : (pushVector b).getD 0 0 = OP_0 := by
      rw [pushVector_opcode, if_pos (by rw [empty]; decide), empty]
      rfl
    rw [if_pos empty, opcode]
    rfl
  rw [if_neg empty, if_neg (by tauto), if_neg (by tauto)]
  by_cases direct : b.length ≤ 75
  · have opcode : (pushVector b).getD 0 0 = b.length.toUInt8 := by
      rw [pushVector_opcode, if_pos (show b.length < OP_PUSHDATA1.toNat by change _ < 76; omega)]
    rw [if_pos direct, opcode, beq_iff_eq]
    exact CScriptNum.toUInt8_toNat_of_lt (by omega)
  have notDirect : ¬ b.length < OP_PUSHDATA1.toNat := by change ¬ _ < 76; omega
  rw [if_neg direct, pushVector_opcode, if_neg notDirect]
  by_cases one : b.length ≤ 255
  · simp only [if_pos one, beq_self_eq_true]
  by_cases two : b.length ≤ 65535
  · simp only [if_neg one, if_pos two, beq_self_eq_true]
  · simp only [if_neg one, if_neg two]

end Push

section Run

variable (P : Primitives) (flags : UInt32) (checker : SignatureChecker) (sigversion : SigVersion)

theorem IsDisabledOpcode_of_le_OP_16 {opcode : UInt8} (low : opcode ≤ OP_16) : IsDisabledOpcode opcode = false := by
  have small : opcode.toNat ≤ 96 := UInt8.le_iff_toNat_le.mp low
  simp only [IsDisabledOpcode, OP_CAT, OP_SUBSTR, OP_LEFT, OP_RIGHT, OP_INVERT, OP_AND, OP_OR, OP_XOR, OP_2MUL,
    OP_2DIV, OP_MUL, OP_DIV, OP_MOD, OP_LSHIFT, OP_RSHIFT, Bool.or_eq_false_iff, beq_eq_false_iff_ne, ne_eq,
    ← UInt8.toNat_inj, UInt8.reduceToNat]
  omega

theorem pushValue_ok {opcode : UInt8} {v : valtype} (st : EvalState)
    (minimal : fRequireMinimal flags = true → CheckMinimalPush v opcode = .ok true) :
    pushValue flags opcode v st = .ok { st with stack := st.stack ++ [v] } := by
  unfold pushValue
  by_cases required : fRequireMinimal flags = true
  · simp [required, minimal required]
  · simp [required]

/-- One turn of the loop on a data push that is minimal where minimality is required. -/
theorem step_push {script : CScript} {st : EvalState} {pc' : Nat} {opcode : UInt8} {v : valtype}
    (read : GetOp2 script st.pc = ⟨true, pc', opcode, v⟩) (push : opcode ≤ OP_PUSHDATA4)
    (executing : st.vfExec.contains false = false) (element : v.length ≤ MAX_SCRIPT_ELEMENT_SIZE)
    (minimal : fRequireMinimal flags = true → CheckMinimalPush v opcode = .ok true)
    (room : st.stack.length + 1 + st.altstack.length ≤ MAX_STACK_SIZE) :
    step P script flags checker sigversion st = .ok { st with pc := pc', stack := st.stack ++ [v] } := by
  have notCounted : ¬ OP_16 < opcode := UInt8.not_lt.mpr (UInt8.le_trans push (by decide))
  have enabled := IsDisabledOpcode_of_le_OP_16 (UInt8.le_trans push (by decide))
  have fits : ¬ MAX_SCRIPT_ELEMENT_SIZE < v.length := Nat.not_lt.mpr element
  have notFalse : false ∉ st.vfExec := by simpa using executing
  have stackFits : ¬ MAX_STACK_SIZE < st.stack.length + 1 + st.altstack.length := by omega
  simp [step, read, notCounted, enabled, notFalse, push, fits, pushValue_ok flags _ minimal, stackFits]

/-- One turn of the loop on `OP_1NEGATE` or `OP_1 .. OP_16`. -/
theorem step_pushNumber {script : CScript} {st : EvalState} {pc' : Nat} {opcode : UInt8}
    (read : GetOp2 script st.pc = ⟨true, pc', opcode, []⟩)
    (number : opcode = OP_1NEGATE ∨ (OP_1 ≤ opcode ∧ opcode ≤ OP_16))
    (executing : st.vfExec.contains false = false)
    (room : st.stack.length + 1 + st.altstack.length ≤ MAX_STACK_SIZE) :
    step P script flags checker sigversion st =
      .ok { st with pc := pc', stack := st.stack ++ [(CScriptNum.mk ((opcode.toNat : Int) - (OP_1.toNat - 1))).getvch] } := by
  have low : opcode ≤ OP_16 := by
    rcases number with rfl | ⟨-, high⟩
    · decide
    · exact high
  have notPush : ¬ opcode ≤ OP_PUSHDATA4 := by
    rcases number with rfl | ⟨first, -⟩
    · decide
    · exact UInt8.not_le.mpr (UInt8.lt_of_lt_of_le (by decide) first)
  have classified : classify opcode = .pushNumber := by rw [classify, if_pos number]
  have pushed : execOp P script flags checker sigversion opcode true { st with pc := pc' } =
      .ok { st with pc := pc', stack := st.stack ++ [(CScriptNum.mk ((opcode.toNat : Int) - (OP_1.toNat - 1))).getvch] } := by
    rw [execOp, classified]
    rfl
  have notCounted : ¬ OP_16 < opcode := UInt8.not_lt.mpr low
  have enabled := IsDisabledOpcode_of_le_OP_16 low
  have notFalse : false ∉ st.vfExec := by simpa using executing
  have stackFits : ¬ MAX_STACK_SIZE < st.stack.length + 1 + st.altstack.length := by omega
  simp [step, read, notCounted, enabled, notFalse, notPush, pushed, stackFits]

theorem evalLoop_of_end (fuel : Nat) {script : CScript} {st : EvalState} (atEnd : script.length ≤ st.pc) :
    evalLoop P script flags checker sigversion fuel st = .ok st := by
  cases fuel with
  | zero => rfl
  | succ fuel => rw [evalLoop, if_neg (Nat.not_lt.mpr atEnd)]; rfl

/-- A script of one instruction runs in one turn of the loop. -/
theorem EvalScript_of_step {script : CScript} {stack : List valtype} {st : EvalState}
    (small : script.length ≤ MAX_SCRIPT_SIZE) (nonempty : 0 < script.length)
    (first : step P script flags checker sigversion ⟨stack, [], [], 0, 0, 0⟩ = .ok st)
    (ends : st.pc = script.length) (balanced : st.vfExec = []) :
    EvalScript P script flags checker sigversion stack = .ok st.stack := by
  obtain ⟨n, length⟩ : ∃ n, script.length = n + 1 := Nat.exists_eq_add_one_of_ne_zero nonempty.ne'
  have loop : evalLoop P script flags checker sigversion script.length ⟨stack, [], [], 0, 0, 0⟩ = .ok st := by
    rw [length, evalLoop, if_pos nonempty]
    rw [first]
    exact evalLoop_of_end P flags checker sigversion n (by omega)
  unfold EvalScript
  rw [if_neg (Nat.not_lt.mpr small), loop]
  simp [balanced]

/-- An `int64_t` serializes to at most nine bytes. -/
theorem length_serialize_toInt (n : Int64) : (CScriptNum.serialize n.toInt).length ≤ 9 := by
  have lower := Int64.le_toInt n
  have upper := Int64.toInt_lt n
  have magnitude : n.toInt.natAbs < 256 ^ 8 := by omega
  exact Nat.le_trans (CScriptNum.length_serialize_le _)
    (Nat.add_le_add_right (CScriptNum.length_digitBytes_le magnitude) 1)

/-- A number that `push_int64` does not write as an opcode serializes to a vector that
`CheckMinimalPush` accepts as a data push. -/
theorem serialize_not_number {n : Int} (notNumber : ¬ (n = -1 ∨ (1 ≤ n ∧ n ≤ 16))) :
    ¬ ((CScriptNum.serialize n).length = 1 ∧ ((1 ≤ (CScriptNum.serialize n).getD 0 0 ∧
      (CScriptNum.serialize n).getD 0 0 ≤ 16) ∨ (CScriptNum.serialize n).getD 0 0 = 0x81)) := by
  rintro ⟨single, byte⟩
  obtain ⟨x, written⟩ := List.length_eq_one_iff.mp single
  have value := CScriptNum.set_vch_serialize n
  rw [written] at value byte
  simp only [List.getD_cons_zero] at byte
  rcases byte with ⟨low, high⟩ | sign
  · have bounds : 1 ≤ x.toNat ∧ x.toNat ≤ 16 := ⟨UInt8.le_iff_toNat_le.mp low, UInt8.le_iff_toNat_le.mp high⟩
    have noSign : x &&& 0x80 = 0 := by
      rw [← UInt8.toNat_inj, Bits.toNat_sign, if_pos (by omega)]
      rfl
    simp [CScriptNum.set_vch, noSign, CScriptNum.leValue] at value
    omega
  · subst sign
    have minusOne : CScriptNum.set_vch [0x81] = -1 := by decide
    omega

/-- The opcode `push_int64` writes for `-1` and `1 .. 16` is `OP_1NEGATE` or `OP_1 .. OP_16`,
and its number is `n`. -/
theorem number_opcode_toNat {n : Int64} (number : n = -1 ∨ (1 ≤ n ∧ n ≤ 16)) :
    ((n + Int64.ofNat (OP_1.toNat - 1)).toUInt64.toUInt8.toNat : Int) = n.toInt + 80 ∧
      (n.toInt = -1 ∨ (1 ≤ n.toInt ∧ n.toInt ≤ 16)) := by
  have range : n.toInt = -1 ∨ (1 ≤ n.toInt ∧ n.toInt ≤ 16) := by
    rcases number with rfl | ⟨low, high⟩
    · exact .inl rfl
    · exact .inr ⟨Int64.le_iff_toInt_le.mp low, Int64.le_iff_toInt_le.mp high⟩
  have sum : (n + Int64.ofNat (OP_1.toNat - 1)).toInt = n.toInt + 80 := by
    rw [Int64.toInt_add, show (Int64.ofNat (OP_1.toNat - 1)).toInt = 80 from rfl]
    exact bmod_of_range (by omega) (by omega)
  refine ⟨?_, range⟩
  rw [UInt64.toNat_toUInt8, toUInt64_toNat_of_nonneg _ (by omega), sum]
  omega

/-- `EvalScript` of `CScript() << n` on an empty stack succeeds and leaves exactly
`CScriptNum::serialize(n)`, under every set of flags. -/
theorem EvalScript_push_int64 (n : Int64) :
    EvalScript P (push_int64 n) flags checker sigversion [] = .ok [CScriptNum.serialize n.toInt] := by
  unfold push_int64
  by_cases number : n = -1 ∨ (1 ≤ n ∧ n ≤ 16)
  · rw [if_pos number]
    obtain ⟨opcodeValue, range⟩ := number_opcode_toNat number
    generalize (n + Int64.ofNat (OP_1.toNat - 1)).toUInt64.toUInt8 = opcode at opcodeValue
    have numberOpcode : opcode = OP_1NEGATE ∨ (OP_1 ≤ opcode ∧ opcode ≤ OP_16) := by
      simp only [UInt8.le_iff_toNat_le, ← UInt8.toNat_inj, OP_1NEGATE, OP_1, OP_16, UInt8.reduceToNat]
      omega
    have read : GetOp2 [opcode] 0 = ⟨true, 1, opcode, []⟩ :=
      GetOp2_of_PUSHDATA4_lt (by simp) (by rw [UInt8.lt_iff_toNat_lt, show OP_PUSHDATA4.toNat = 78 from rfl]; simp; omega)
    have value : (CScriptNum.mk ((opcode.toNat : Int) - (OP_1.toNat - 1))).getvch = CScriptNum.serialize n.toInt := by
      rw [CScriptNum.getvch, show (OP_1.toNat : Int) - 1 = 80 from rfl, opcodeValue, Int.add_sub_cancel]
    have first := @step_pushNumber P flags checker sigversion _ ⟨[], [], [], 0, 0, 0⟩ _ _ read numberOpcode rfl
      (by decide)
    rw [value] at first
    exact EvalScript_of_step P flags checker sigversion (by simp [MAX_SCRIPT_SIZE]) (by simp) first rfl rfl
  rw [if_neg number]
  by_cases zero : n = 0
  · rw [if_pos zero, zero]
    have read : GetOp2 [OP_0] 0 = ⟨true, 1, OP_0, []⟩ := by decide
    have first := @step_push P flags checker sigversion _ ⟨[], [], [], 0, 0, 0⟩ _ _ _ read (by decide) rfl
      (by decide) (fun _ => rfl) (by decide)
    exact EvalScript_of_step P flags checker sigversion (by decide) (by simp) first rfl rfl
  rw [if_neg zero]
  have short := length_serialize_toInt n
  have notNumber : ¬ (n.toInt = -1 ∨ (1 ≤ n.toInt ∧ n.toInt ≤ 16)) := by
    rintro (minusOne | ⟨low, high⟩)
    · exact number (.inl (Int64.toInt_inj.mp minusOne))
    · exact number (.inr ⟨Int64.le_iff_toInt_le.mpr low, Int64.le_iff_toInt_le.mpr high⟩)
  have read := GetOp2_pushVector (CScriptNum.serialize n.toInt) (by omega)
  have first := @step_push P flags checker sigversion _ ⟨[], [], [], 0, 0, 0⟩ _ _ _ read
    (pushVector_opcode_le _) rfl (Nat.le_trans short (by decide))
    (fun _ => CheckMinimalPush_pushVector _ (serialize_not_number notNumber)) (by decide)
  have length : (pushVector (CScriptNum.serialize n.toInt)).length = (CScriptNum.serialize n.toInt).length + 1 := by
    rw [pushVector, if_pos (by change _ < 76; omega)]
    rfl
  exact EvalScript_of_step P flags checker sigversion (by rw [length]; change _ ≤ 10000; omega) (by rw [length]; omega)
    first rfl rfl

end Run

theorem CScript_pushes_minimal :
    (∀ b : valtype, b.length < 2 ^ 32 →
      GetOp2 (pushVector b) 0 = ⟨true, (pushVector b).length, (pushVector b).getD 0 0, b⟩) ∧
    (∀ b : valtype, ¬ (b.length = 1 ∧ ((1 ≤ b.getD 0 0 ∧ b.getD 0 0 ≤ 16) ∨ b.getD 0 0 = 0x81)) →
      CheckMinimalPush b ((pushVector b).getD 0 0) = .ok true) ∧
    (∀ (P : Primitives) (flags : UInt32) (checker : SignatureChecker) (sigversion : SigVersion) (n : Int64),
      EvalScript P (push_int64 n) flags checker sigversion [] = .ok [CScriptNum.serialize n.toInt]) := by
  refine ⟨?_, ?_, ?_⟩
  · intro b fits
    exact GetOp2_pushVector b fits
  · intro b notNumber
    exact CheckMinimalPush_pushVector b notNumber
  · intro P flags checker sigversion n
    exact EvalScript_push_int64 P flags checker sigversion n

theorem CScript_pushes_minimal_two_bytes :
    GetOp2 (pushVector [1, 2]) 0 = ⟨true, 3, 2, [1, 2]⟩ ∧ CheckMinimalPush [1, 2] 2 = .ok true ∧
      EvalScript constPrimitives (push_int64 1000) SCRIPT_VERIFY_MINIMALDATA acceptingChecker .SIGVERSION_BASE [] =
        .ok [[0xe8, 0x03]] :=
  ⟨CScript_pushes_minimal.1 [1, 2] (by decide), CScript_pushes_minimal.2.1 [1, 2] (by decide),
    CScript_pushes_minimal.2.2 constPrimitives SCRIPT_VERIFY_MINIMALDATA acceptingChecker .SIGVERSION_BASE 1000⟩

end SalemCash
