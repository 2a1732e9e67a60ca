import SalemCash.Bits
import SalemCash.Chain
import SalemCash.Interpreter
import SalemCash.Transaction

/-!
# Lock times

The two halves of the timelock rules. In the script, `OP_CHECKLOCKTIMEVERIFY` and
`OP_CHECKSEQUENCEVERIFY` only compare their argument with the spending transaction's
own `nLockTime` and `nSequence`, through `TransactionSignatureChecker::CheckLockTime`
and `CheckSequence` of `interpreter.cpp`. In the block, `IsFinalTx` and
`SequenceLocks` of `tx_verify.cpp` compare those fields with the chain, with the
last-invalid semantics of `nLockTime`. Together an argument that passes the opcode is
enforced against the chain.

`CalculateSequenceLocks` dereferences `GetAncestor` without a test and asserts the
length of `prevHeights`, and `EvaluateSequenceLocks` asserts a parent; a failed
assert or a null dereference is `none`.
-/
namespace SalemCash

/-- The fields of a `TransactionSignatureChecker` that its lock-time methods read. The
interpreter is only ever given a checker for an input of the transaction. -/
structure TransactionSignatureChecker where
  txTo : CTransaction
  nIn : Nat
  amount : CAmount
  nIn_lt : nIn < txTo.vin.length

namespace TransactionSignatureChecker

variable (c : TransactionSignatureChecker)

/-- `txTo->vin[nIn]`. -/
def txIn : CTxIn := c.txTo.vin.get ⟨c.nIn, c.nIn_lt⟩

def CheckLockTime (nLockTime : CScriptNum) : Bool :=
  -- lock times of the two kinds, heights and times, are not compared with each other
  if ¬((c.txTo.nLockTime.toNat < LOCKTIME_THRESHOLD ∧ nLockTime.m_value < LOCKTIME_THRESHOLD) ∨
      (LOCKTIME_THRESHOLD ≤ c.txTo.nLockTime.toNat ∧ LOCKTIME_THRESHOLD ≤ nLockTime.m_value)) then
    false
  else if nLockTime.m_value > c.txTo.nLockTime.toNat then false
  -- a final input would let the transaction bypass `nLockTime`
  else if CTxIn.SEQUENCE_FINAL = c.txIn.nSequence then false
  else true

def CheckSequence (nSequence : CScriptNum) : Bool :=
  let txToSequence : Int := c.txIn.nSequence.toNat
  if c.txTo.nVersion.toUInt32 < 2 then false
  else if Int.land txToSequence CTxIn.SEQUENCE_LOCKTIME_DISABLE_FLAG.toNat ≠ 0 then false
  else
    let nLockTimeMask := CTxIn.SEQUENCE_LOCKTIME_TYPE_FLAG ||| CTxIn.SEQUENCE_LOCKTIME_MASK
    let txToSequenceMasked := Int.land txToSequence nLockTimeMask.toNat
    let nSequenceMasked := Int.land nSequence.m_value nLockTimeMask.toNat
    if ¬((txToSequenceMasked < CTxIn.SEQUENCE_LOCKTIME_TYPE_FLAG.toNat ∧
          nSequenceMasked < CTxIn.SEQUENCE_LOCKTIME_TYPE_FLAG.toNat) ∨
        (CTxIn.SEQUENCE_LOCKTIME_TYPE_FLAG.toNat ≤ txToSequenceMasked ∧
          CTxIn.SEQUENCE_LOCKTIME_TYPE_FLAG.toNat ≤ nSequenceMasked)) then false
    else if nSequenceMasked > txToSequenceMasked then false
    else true

end TransactionSignatureChecker

def IsFinalTx (tx : CTransaction) (nBlockHeight : Int) (nBlockTime : Int) : Bool :=
  if tx.nLockTime = 0 then true
  else if (tx.nLockTime.toNat : Int) <
      (if tx.nLockTime.toNat < LOCKTIME_THRESHOLD then nBlockHeight else nBlockTime) then true
  else tx.vin.all fun txin => txin.nSequence = CTxIn.SEQUENCE_FINAL

/-- `LOCKTIME_VERIFY_SEQUENCE` of `consensus.h`. -/
def LOCKTIME_VERIFY_SEQUENCE : UInt32 := (1 : UInt32) <<< 0

/-- The loop over the inputs of `CalculateSequenceLocks`: it raises `(nMinHeight,
nMinTime)` to each input's last invalid height or time, and returns `prevHeights` as
it leaves them. -/
def sequenceLocksLoop (block : CBlockIndex) :
    List CTxIn → List Int → Int × Int → Option ((Int × Int) × List Int)
  | txin :: vin, nCashHeight :: prevHeights, (nMinHeight, nMinTime) =>
    if txin.nSequence &&& CTxIn.SEQUENCE_LOCKTIME_DISABLE_FLAG ≠ 0 then
      -- the height of this input is not relevant for sequence locks
      (sequenceLocksLoop block vin prevHeights (nMinHeight, nMinTime)).map
        fun r => (r.1, 0 :: r.2)
    else if txin.nSequence &&& CTxIn.SEQUENCE_LOCKTIME_TYPE_FLAG ≠ 0 then do
      -- measured from the median time past of the block before the coin's
      let ancestor ← block.GetAncestor (max (nCashHeight - 1) 0)
      let nCashTime := ancestor.GetMedianTimePast
      let nMinTime := max nMinTime (nCashTime + (((txin.nSequence &&& CTxIn.SEQUENCE_LOCKTIME_MASK) <<<
        CTxIn.SEQUENCE_LOCKTIME_GRANULARITY.toUInt32).toNat : Int) - 1)
      (sequenceLocksLoop block vin prevHeights (nMinHeight, nMinTime)).map
        fun r => (r.1, nCashHeight :: r.2)
    else
      let nMinHeight := max nMinHeight
        (nCashHeight + ((txin.nSequence &&& CTxIn.SEQUENCE_LOCKTIME_MASK).toNat : Int) - 1)
      (sequenceLocksLoop block vin prevHeights (nMinHeight, nMinTime)).map
        fun r => (r.1, nCashHeight :: r.2)
  | _, _, lockPair => some (lockPair, [])

def CalculateSequenceLocks (tx : CTransaction) (flags : UInt32) (prevHeights : List Int)
    (block : CBlockIndex) : Option ((Int × Int) × List Int) :=
  if prevHeights.length ≠ tx.vin.length then none
  else
    -- `nLockTime` semantics: the last invalid height and time, so -1 lets any pass
    let nMinHeight : Int := -1
    let nMinTime : Int := -1
    if ¬(2 ≤ tx.nVersion.toUInt32 ∧ flags &&& LOCKTIME_VERIFY_SEQUENCE ≠ 0) then
      some ((nMinHeight, nMinTime), prevHeights)
    else sequenceLocksLoop block tx.vin prevHeights (nMinHeight, nMinTime)

def EvaluateSequenceLocks (block : CBlockIndex) (lockPair : Int × Int) : Option Bool := do
  let pprev ← block.pprev
  let nBlockTime := pprev.GetMedianTimePast
  pure (if lockPair.1 ≥ block.nHeight ∨ lockPair.2 ≥ nBlockTime then false else true)

def SequenceLocks (tx : CTransaction) (flags : UInt32) (prevHeights : List Int)
    (block : CBlockIndex) : Option Bool := do
  let r ← CalculateSequenceLocks tx flags prevHeights block
  EvaluateSequenceLocks block r.1

section Masks

theorem lockTimeMask_toNat :
    (CTxIn.SEQUENCE_LOCKTIME_TYPE_FLAG ||| CTxIn.SEQUENCE_LOCKTIME_MASK).toNat =
      2 ^ 22 + (2 ^ 16 - 1) := by
  decide

/-- The masked sequence number `CheckSequence` compares: the type bit and the 16-bit value. -/
theorem land_lockTimeMask (x : Nat) :
    Int.land (x : Int) (CTxIn.SEQUENCE_LOCKTIME_TYPE_FLAG ||| CTxIn.SEQUENCE_LOCKTIME_MASK).toNat =
      2 ^ 22 * (x / 2 ^ 22 % 2) + x % 2 ^ 16 := by
  rw [lockTimeMask_toNat]
  show (((x &&& (2 ^ 22 + (2 ^ 16 - 1))) : Nat) : Int) = _
  rw [Bits.and_two_pow_add_mask x (by decide : 16 ≤ 22)]
  omega

theorem land_TYPE_FLAG (x : Nat) :
    Int.land (x : Int) CTxIn.SEQUENCE_LOCKTIME_TYPE_FLAG.toNat = 2 ^ 22 * (x / 2 ^ 22 % 2) := by
  show (((x &&& 2 ^ 22) : Nat) : Int) = _
  rw [Bits.and_two_pow]
  omega

theorem land_MASK (x : Nat) : Int.land (x : Int) CTxIn.SEQUENCE_LOCKTIME_MASK.toNat = x % 2 ^ 16 := by
  show (((x &&& (2 ^ 16 - 1)) : Nat) : Int) = _
  rw [Nat.and_two_pow_sub_one_eq_mod]
  rfl

theorem and_DISABLE_FLAG_eq_zero (s : UInt32) :
    s &&& CTxIn.SEQUENCE_LOCKTIME_DISABLE_FLAG = 0 ↔
      Int.land (s.toNat : Int) CTxIn.SEQUENCE_LOCKTIME_DISABLE_FLAG.toNat = 0 := by
  rw [← UInt32.toNat_inj, UInt32.toNat_and]
  show _ ↔ (((s.toNat &&& CTxIn.SEQUENCE_LOCKTIME_DISABLE_FLAG.toNat) : Nat) : Int) = 0
  rw [UInt32.toNat_zero]
  omega

theorem and_TYPE_FLAG_eq_zero (s : UInt32) :
    s &&& CTxIn.SEQUENCE_LOCKTIME_TYPE_FLAG = 0 ↔ s.toNat / 2 ^ 22 % 2 = 0 := by
  rw [← UInt32.toNat_inj, UInt32.toNat_and, show CTxIn.SEQUENCE_LOCKTIME_TYPE_FLAG.toNat = 2 ^ 22 by
    decide, Bits.and_two_pow]
  simp

theorem toNat_and_MASK (s : UInt32) :
    (s &&& CTxIn.SEQUENCE_LOCKTIME_MASK).toNat = s.toNat % 2 ^ 16 := by
  rw [UInt32.toNat_and, show CTxIn.SEQUENCE_LOCKTIME_MASK.toNat = 2 ^ 16 - 1 by decide,
    Nat.and_two_pow_sub_one_eq_mod]

/-- The shift by `SEQUENCE_LOCKTIME_GRANULARITY` does not wrap: the value has 16 bits. -/
theorem toNat_granularity (s : UInt32) :
    ((s &&& CTxIn.SEQUENCE_LOCKTIME_MASK) <<< CTxIn.SEQUENCE_LOCKTIME_GRANULARITY.toUInt32).toNat =
      s.toNat % 2 ^ 16 * 2 ^ CTxIn.SEQUENCE_LOCKTIME_GRANULARITY := by
  rw [UInt32.toNat_shiftLeft, toNat_and_MASK,
    show CTxIn.SEQUENCE_LOCKTIME_GRANULARITY.toUInt32.toNat % 32 = 9 by decide, Nat.shiftLeft_eq]
  have hlow := Nat.mod_lt s.toNat (Nat.two_pow_pos 16)
  rw [Nat.mod_eq_of_lt (by omega)]
  rfl

end Masks

section Script

open ExceptLogic

variable (P : Primitives) (script : CScript) (flags : UInt32) (checker : SignatureChecker)
  (sigversion : SigVersion)

theorem execOp_CHECKLOCKTIMEVERIFY (fExec : Bool) (st : EvalState) :
    execOp P script flags checker sigversion OP_CHECKLOCKTIMEVERIFY fExec st =
      checkLockTimeVerify flags checker st := by
  rw [execOp, show classify OP_CHECKLOCKTIMEVERIFY = .checkLockTimeVerify by decide]

theorem execOp_CHECKSEQUENCEVERIFY (fExec : Bool) (st : EvalState) :
    execOp P script flags checker sigversion OP_CHECKSEQUENCEVERIFY fExec st =
      checkSequenceVerify flags checker st := by
  rw [execOp, show classify OP_CHECKSEQUENCEVERIFY = .checkSequenceVerify by decide]

variable {flags checker}

/-- Under its flag, `OP_CHECKLOCKTIMEVERIFY` succeeds only on a non-negative argument at the
top of the stack that `CheckLockTime` accepts. -/
theorem checkLockTimeVerify_arg {st st' : EvalState}
    (hflag : hasFlag flags SCRIPT_VERIFY_CHECKLOCKTIMEVERIFY = true)
    (h : checkLockTimeVerify flags checker st = .ok st') :
    ∃ vch n, stacktop st.stack (-1) = .ok vch ∧
      CScriptNum.decode vch (fRequireMinimal flags) 5 = .ok n ∧
      0 ≤ n.m_value ∧ checker.CheckLockTime n = true := by
  unfold checkLockTimeVerify at h
  rw [if_neg (by simp [hflag])] at h
  split_ifs at h with hlen
  · simp at h
  obtain ⟨vch, hvch, hv⟩ := bind_eq_ok.mp h
  obtain ⟨n, hn, hrest⟩ := bind_eq_ok.mp hv
  split_ifs at hrest with hneg hcheck
  · simp at hrest
  · simp at hrest
  · exact ⟨vch, n, hvch, hn, Int.not_lt.mp hneg, by simpa using hcheck⟩

/-- Under its flag, `OP_CHECKSEQUENCEVERIFY` succeeds only on a non-negative argument at the
top of the stack, which `CheckSequence` accepts unless its disable bit is set. -/
theorem checkSequenceVerify_arg {st st' : EvalState}
    (hflag : hasFlag flags SCRIPT_VERIFY_CHECKSEQUENCEVERIFY = true)
    (h : checkSequenceVerify flags checker st = .ok st') :
    ∃ vch n, stacktop st.stack (-1) = .ok vch ∧
      CScriptNum.decode vch (fRequireMinimal flags) 5 = .ok n ∧ 0 ≤ n.m_value ∧
      (Int.land n.m_value SEQUENCE_LOCKTIME_DISABLE_FLAG = 0 → checker.CheckSequence n = true) := by
  unfold checkSequenceVerify at h
  rw [if_neg (by simp [hflag])] at h
  split_ifs at h with hlen
  · simp at h
  obtain ⟨vch, hvch, hv⟩ := bind_eq_ok.mp h
  obtain ⟨n, hn, hrest⟩ := bind_eq_ok.mp hv
  refine ⟨vch, n, hvch, hn, ?_⟩
  split_ifs at hrest with hneg hdisable hcheck
  · simp at hrest
  · exact ⟨Int.not_lt.mp hneg, fun h0 => absurd h0 hdisable⟩
  · simp at hrest
  · exact ⟨Int.not_lt.mp hneg, fun _ => by simpa using hcheck⟩

end Script

namespace TransactionSignatureChecker

variable (c : TransactionSignatureChecker)

theorem txIn_mem : c.txIn ∈ c.txTo.vin := List.get_mem _ _

theorem CheckLockTime_eq_true {n : CScriptNum} (h : c.CheckLockTime n = true) :
    ((c.txTo.nLockTime.toNat < LOCKTIME_THRESHOLD ∧ n.m_value < LOCKTIME_THRESHOLD) ∨
      (LOCKTIME_THRESHOLD ≤ c.txTo.nLockTime.toNat ∧ LOCKTIME_THRESHOLD ≤ n.m_value)) ∧
      n.m_value ≤ c.txTo.nLockTime.toNat ∧ c.txIn.nSequence ≠ CTxIn.SEQUENCE_FINAL := by
  unfold CheckLockTime at h
  split_ifs at h with htype hle hfinal
  exact ⟨htype, Int.not_lt.mp hle, Ne.symm hfinal⟩

theorem CheckSequence_eq_true {n : CScriptNum} (h : c.CheckSequence n = true) :
    2 ≤ c.txTo.nVersion.toUInt32 ∧
      Int.land (c.txIn.nSequence.toNat : Int) CTxIn.SEQUENCE_LOCKTIME_DISABLE_FLAG.toNat = 0 ∧
      let nLockTimeMask := CTxIn.SEQUENCE_LOCKTIME_TYPE_FLAG ||| CTxIn.SEQUENCE_LOCKTIME_MASK
      let txToSequenceMasked := Int.land (c.txIn.nSequence.toNat : Int) nLockTimeMask.toNat
      let nSequenceMasked := Int.land n.m_value nLockTimeMask.toNat
      ((txToSequenceMasked < CTxIn.SEQUENCE_LOCKTIME_TYPE_FLAG.toNat ∧
          nSequenceMasked < CTxIn.SEQUENCE_LOCKTIME_TYPE_FLAG.toNat) ∨
        (CTxIn.SEQUENCE_LOCKTIME_TYPE_FLAG.toNat ≤ txToSequenceMasked ∧
          CTxIn.SEQUENCE_LOCKTIME_TYPE_FLAG.toNat ≤ nSequenceMasked)) ∧
      nSequenceMasked ≤ txToSequenceMasked := by
  unfold CheckSequence at h
  dsimp only at h ⊢
  split_ifs at h with hversion hdisable htype hle
  exact ⟨UInt32.not_lt.mp hversion, not_not.mp hdisable, htype, Int.not_lt.mp hle⟩

end TransactionSignatureChecker

/-- A transaction with an input that is not final is final only through its `nLockTime`. -/
theorem IsFinalTx_of_not_final {tx : CTransaction} {nBlockHeight nBlockTime : Int}
    {txin : CTxIn} (hmem : txin ∈ tx.vin) (hnotfinal : txin.nSequence ≠ CTxIn.SEQUENCE_FINAL)
    (h : IsFinalTx tx nBlockHeight nBlockTime = true) :
    tx.nLockTime = 0 ∨ (tx.nLockTime.toNat : Int) <
      (if tx.nLockTime.toNat < LOCKTIME_THRESHOLD then nBlockHeight else nBlockTime) := by
  unfold IsFinalTx at h
  by_cases hzero : tx.nLockTime = 0
  · exact .inl hzero
  by_cases hlt : (tx.nLockTime.toNat : Int) <
      (if tx.nLockTime.toNat < LOCKTIME_THRESHOLD then nBlockHeight else nBlockTime)
  · exact .inr hlt
  rw [if_neg hzero, if_neg hlt] at h
  have hall := List.all_eq_true.mp h txin hmem
  exact absurd (of_decide_eq_true hall) hnotfinal

/-- The lock an input puts on `(nMinHeight, nMinTime)`: one less than the height, or
the median time, from which its relative lock lets it in. -/
def SequenceLockHeld (block : CBlockIndex) (txin : CTxIn) (nCashHeight : Int)
    (lockPair : Int × Int) : Prop :=
  txin.nSequence &&& CTxIn.SEQUENCE_LOCKTIME_DISABLE_FLAG = 0 →
    (txin.nSequence &&& CTxIn.SEQUENCE_LOCKTIME_TYPE_FLAG = 0 →
      nCashHeight + ((txin.nSequence &&& CTxIn.SEQUENCE_LOCKTIME_MASK).toNat : Int) - 1 ≤
        lockPair.1) ∧
    (txin.nSequence &&& CTxIn.SEQUENCE_LOCKTIME_TYPE_FLAG ≠ 0 →
      ∃ ancestor, block.GetAncestor (max (nCashHeight - 1) 0) = some ancestor ∧
        ancestor.GetMedianTimePast + (((txin.nSequence &&& CTxIn.SEQUENCE_LOCKTIME_MASK) <<<
          CTxIn.SEQUENCE_LOCKTIME_GRANULARITY.toUInt32).toNat : Int) - 1 ≤ lockPair.2)

theorem SequenceLockHeld.mono {block : CBlockIndex} {txin : CTxIn} {nCashHeight : Int}
    {p q : Int × Int} (h : SequenceLockHeld block txin nCashHeight p) (h1 : p.1 ≤ q.1)
    (h2 : p.2 ≤ q.2) : SequenceLockHeld block txin nCashHeight q := by
  intro hdisable
  obtain ⟨hheight, htime⟩ := h hdisable
  refine ⟨fun htype => (hheight htype).trans h1, fun htype => ?_⟩
  obtain ⟨ancestor, hanc, hle⟩ := htime htype
  exact ⟨ancestor, hanc, hle.trans h2⟩

/-- The loop only raises `(nMinHeight, nMinTime)`, and leaves it above the lock of every
input it passes. -/
theorem sequenceLocksLoop_spec (block : CBlockIndex) (vin : List CTxIn) (prevHeights : List Int)
    (acc : Int × Int) {r : (Int × Int) × List Int}
    (h : sequenceLocksLoop block vin prevHeights acc = some r) :
    acc.1 ≤ r.1.1 ∧ acc.2 ≤ r.1.2 ∧
      ∀ p ∈ vin.zip prevHeights, SequenceLockHeld block p.1 p.2 r.1 := by
  induction vin generalizing prevHeights acc r with
  | nil =>
    simp only [sequenceLocksLoop, Option.some.injEq] at h
    subst h
    simp
  | cons txin vin ih =>
    cases prevHeights with
    | nil =>
      simp only [sequenceLocksLoop, Option.some.injEq] at h
      subst h
      simp
    | cons nCashHeight prevHeights =>
      obtain ⟨nMinHeight, nMinTime⟩ := acc
      rw [sequenceLocksLoop] at h
      simp only [List.zip_cons_cons, List.forall_mem_cons]
      split_ifs at h with hdisable htype
      · obtain ⟨r', hr', rfl⟩ := Option.map_eq_some_iff.mp h
        obtain ⟨h1, h2, hrest⟩ := ih _ _ hr'
        exact ⟨h1, h2, fun h0 => absurd h0 hdisable, hrest⟩
      · obtain ⟨ancestor, hanc, hr⟩ := Option.bind_eq_some_iff.mp h
        obtain ⟨r', hr', rfl⟩ := Option.map_eq_some_iff.mp hr
        obtain ⟨h1, h2, hrest⟩ := ih _ _ hr'
        refine ⟨h1, le_trans (le_max_left _ _) h2, fun _ => ⟨fun h0 => absurd h0 htype, ?_⟩, hrest⟩
        exact fun _ => ⟨ancestor, hanc, le_trans (le_max_right _ _) h2⟩
      · obtain ⟨r', hr', rfl⟩ := Option.map_eq_some_iff.mp h
        obtain ⟨h1, h2, hrest⟩ := ih _ _ hr'
        refine ⟨le_trans (le_max_left _ _) h1, h2, fun _ => ⟨?_, fun h0 => absurd (not_not.mp htype) h0⟩,
          hrest⟩
        exact fun _ => le_trans (le_max_right _ _) h1

theorem CalculateSequenceLocks_spec {tx : CTransaction} {prevHeights : List Int}
    {block : CBlockIndex} {r : (Int × Int) × List Int} (hversion : 2 ≤ tx.nVersion.toUInt32)
    (h : CalculateSequenceLocks tx LOCKTIME_VERIFY_SEQUENCE prevHeights block = some r) :
    prevHeights.length = tx.vin.length ∧
      ∀ p ∈ tx.vin.zip prevHeights, SequenceLockHeld block p.1 p.2 r.1 := by
  unfold CalculateSequenceLocks at h
  split_ifs at h with hlen henforce
  · exact ⟨not_not.mp hlen, (sequenceLocksLoop_spec block _ _ _ h).2.2⟩
  · exact absurd ⟨hversion, by decide⟩ henforce

theorem EvaluateSequenceLocks_spec {block : CBlockIndex} {lockPair : Int × Int}
    (h : EvaluateSequenceLocks block lockPair = some true) :
    ∃ pprev, block.pprev = some pprev ∧ lockPair.1 < block.nHeight ∧
      lockPair.2 < pprev.GetMedianTimePast := by
  unfold EvaluateSequenceLocks at h
  obtain ⟨pprev, hpprev, hres⟩ := Option.bind_eq_some_iff.mp h
  refine ⟨pprev, hpprev, ?_⟩
  dsimp only at hres
  split_ifs at hres with hlate
  · simp at hres
  · omega

section Enforced

variable {flags : UInt32} {checker : SignatureChecker} (c : TransactionSignatureChecker)

/-- An argument that passes `OP_CHECKLOCKTIMEVERIFY` is a lock time the block has passed
whenever the transaction is final in it. -/
theorem checkLockTimeVerify_final (hchecker : checker.CheckLockTime = c.CheckLockTime)
    (hflag : hasFlag flags SCRIPT_VERIFY_CHECKLOCKTIMEVERIFY = true) {st st' : EvalState}
    (h : checkLockTimeVerify flags checker st = .ok st') :
    ∃ vch n, stacktop st.stack (-1) = .ok vch ∧
      CScriptNum.decode vch (fRequireMinimal flags) 5 = .ok n ∧
      ∀ nBlockHeight nBlockTime, IsFinalTx c.txTo nBlockHeight nBlockTime = true →
        (n.m_value < LOCKTIME_THRESHOLD ∧ (n.m_value = 0 ∨ n.m_value < nBlockHeight)) ∨
        (LOCKTIME_THRESHOLD ≤ n.m_value ∧ n.m_value < nBlockTime) := by
  obtain ⟨vch, n, hvch, hn, hpos, hcheck⟩ := checkLockTimeVerify_arg hflag h
  refine ⟨vch, n, hvch, hn, fun nBlockHeight nBlockTime hfinal => ?_⟩
  obtain ⟨htype, hle, hnotfinal⟩ := c.CheckLockTime_eq_true (hchecker ▸ hcheck)
  unfold LOCKTIME_THRESHOLD at htype ⊢
  rcases IsFinalTx_of_not_final c.txIn_mem hnotfinal hfinal with hzero | hlt
  · rw [hzero, UInt32.toNat_zero] at htype hle
    omega
  · unfold LOCKTIME_THRESHOLD at hlt
    split_ifs at hlt <;> omega

/-- An argument that passes `OP_CHECKSEQUENCEVERIFY` with its disable bit clear is a
relative lock the block has passed, counted from the coin the checker's input spends,
whenever the transaction's sequence locks hold in the block. -/
theorem checkSequenceVerify_locked (hchecker : checker.CheckSequence = c.CheckSequence)
    (hflag : hasFlag flags SCRIPT_VERIFY_CHECKSEQUENCEVERIFY = true) {st st' : EvalState}
    (h : checkSequenceVerify flags checker st = .ok st') :
    ∃ vch n, stacktop st.stack (-1) = .ok vch ∧
      CScriptNum.decode vch (fRequireMinimal flags) 5 = .ok n ∧
      (Int.land n.m_value SEQUENCE_LOCKTIME_DISABLE_FLAG = 0 →
        ∀ (block : CBlockIndex) (prevHeights : List Int),
          SequenceLocks c.txTo LOCKTIME_VERIFY_SEQUENCE prevHeights block = some true →
          (Int.land n.m_value CTxIn.SEQUENCE_LOCKTIME_TYPE_FLAG.toNat = 0 ∧
            prevHeights.getD c.nIn 0 + Int.land n.m_value CTxIn.SEQUENCE_LOCKTIME_MASK.toNat ≤
              block.nHeight) ∨
          (Int.land n.m_value CTxIn.SEQUENCE_LOCKTIME_TYPE_FLAG.toNat ≠ 0 ∧
            ∃ pprev ancestor, block.pprev = some pprev ∧
              block.GetAncestor (max (prevHeights.getD c.nIn 0 - 1) 0) = some ancestor ∧
              ancestor.GetMedianTimePast + Int.land n.m_value CTxIn.SEQUENCE_LOCKTIME_MASK.toNat *
                2 ^ CTxIn.SEQUENCE_LOCKTIME_GRANULARITY ≤ pprev.GetMedianTimePast)) := by
  obtain ⟨vch, n, hvch, hn, hpos, hcheck⟩ := checkSequenceVerify_arg hflag h
  refine ⟨vch, n, hvch, hn, fun hdisable block prevHeights hlocks => ?_⟩
  obtain ⟨hversion, htxdisable, htype, hle⟩ := c.CheckSequence_eq_true (hchecker ▸ hcheck hdisable)
  obtain ⟨r, hcalc, heval⟩ := Option.bind_eq_some_iff.mp hlocks
  obtain ⟨pprev, hpprev, hheight, htime⟩ := EvaluateSequenceLocks_spec heval
  obtain ⟨hlen, hheld⟩ := CalculateSequenceLocks_spec hversion hcalc
  have hmem : (c.txIn, prevHeights.getD c.nIn 0) ∈ c.txTo.vin.zip prevHeights := by
    have hi : c.nIn < (c.txTo.vin.zip prevHeights).length := by
      simp [hlen, c.nIn_lt]
    have hget := List.getElem_mem hi
    rw [List.getElem_zip] at hget
    rwa [List.getD_eq_getElem _ _ (hlen ▸ c.nIn_lt)]
  have hinput := hheld _ hmem ((and_DISABLE_FLAG_eq_zero _).mpr htxdisable)
  obtain ⟨x, hx⟩ : ∃ x : Nat, n.m_value = x := ⟨n.m_value.toNat, (Int.toNat_of_nonneg hpos).symm⟩
  have htype22 : CTxIn.SEQUENCE_LOCKTIME_TYPE_FLAG.toNat = 2 ^ 22 := by decide
  rw [hx, land_lockTimeMask, land_lockTimeMask, htype22] at htype
  rw [hx, land_lockTimeMask, land_lockTimeMask] at hle
  rw [hx, land_TYPE_FLAG, land_MASK]
  dsimp only [SequenceLockHeld] at hinput
  rw [toNat_and_MASK, toNat_granularity, and_TYPE_FLAG_eq_zero] at hinput
  unfold CTxIn.SEQUENCE_LOCKTIME_GRANULARITY at hinput ⊢
  have hxbit := Nat.mod_lt (x / 2 ^ 22) (by decide : 0 < 2)
  have hsbit := Nat.mod_lt (c.txIn.nSequence.toNat / 2 ^ 22) (by decide : 0 < 2)
  by_cases hs : c.txIn.nSequence.toNat / 2 ^ 22 % 2 = 0
  · have hlock := hinput.1 hs
    left
    omega
  · obtain ⟨ancestor, hanc, hlock⟩ := hinput.2 fun h0 => hs ((and_TYPE_FLAG_eq_zero _).mp h0)
    right
    refine ⟨by omega, pprev, ancestor, hpprev, hanc, ?_⟩
    omega

end Enforced

/-- Both timelock opcodes, as the `switch` of `EvalScript` runs them for a
`TransactionSignatureChecker`, are enforced by the block-level checks: an argument that
passes `OP_CHECKLOCKTIMEVERIFY` is below the height or time of every block the
transaction is final in, and one that passes `OP_CHECKSEQUENCEVERIFY` is a relative lock
that every block satisfying the transaction's `SequenceLocks` has passed. -/
theorem timelocks_enforced (P : Primitives) (script : CScript) (flags : UInt32)
    (checker : SignatureChecker) (sigversion : SigVersion) (c : TransactionSignatureChecker)
    (fExec : Bool) (st st' : EvalState) :
    (checker.CheckLockTime = c.CheckLockTime →
      hasFlag flags SCRIPT_VERIFY_CHECKLOCKTIMEVERIFY = true →
      execOp P script flags checker sigversion OP_CHECKLOCKTIMEVERIFY fExec st = .ok st' →
      ∃ vch n, stacktop st.stack (-1) = .ok vch ∧
        CScriptNum.decode vch (fRequireMinimal flags) 5 = .ok n ∧
        ∀ nBlockHeight nBlockTime, IsFinalTx c.txTo nBlockHeight nBlockTime = true →
          (n.m_value < LOCKTIME_THRESHOLD ∧ (n.m_value = 0 ∨ n.m_value < nBlockHeight)) ∨
          (LOCKTIME_THRESHOLD ≤ n.m_value ∧ n.m_value < nBlockTime)) ∧
    (checker.CheckSequence = c.CheckSequence →
      hasFlag flags SCRIPT_VERIFY_CHECKSEQUENCEVERIFY = true →
      execOp P script flags checker sigversion OP_CHECKSEQUENCEVERIFY fExec st = .ok st' →
      ∃ vch n, stacktop st.stack (-1) = .ok vch ∧
        CScriptNum.decode vch (fRequireMinimal flags) 5 = .ok n ∧
        (Int.land n.m_value SEQUENCE_LOCKTIME_DISABLE_FLAG = 0 →
          ∀ (block : CBlockIndex) (prevHeights : List Int),
            SequenceLocks c.txTo LOCKTIME_VERIFY_SEQUENCE prevHeights block = some true →
            (Int.land n.m_value CTxIn.SEQUENCE_LOCKTIME_TYPE_FLAG.toNat = 0 ∧
              prevHeights.getD c.nIn 0 + Int.land n.m_value CTxIn.SEQUENCE_LOCKTIME_MASK.toNat ≤
                block.nHeight) ∨
            (Int.land n.m_value CTxIn.SEQUENCE_LOCKTIME_TYPE_FLAG.toNat ≠ 0 ∧
              ∃ pprev ancestor, block.pprev = some pprev ∧
                block.GetAncestor (max (prevHeights.getD c.nIn 0 - 1) 0) = some ancestor ∧
                ancestor.GetMedianTimePast + Int.land n.m_value CTxIn.SEQUENCE_LOCKTIME_MASK.toNat *
                  2 ^ CTxIn.SEQUENCE_LOCKTIME_GRANULARITY ≤ pprev.GetMedianTimePast))) := by
  constructor
  · intro hchecker hflag h
    rw [execOp_CHECKLOCKTIMEVERIFY] at h
    exact checkLockTimeVerify_final c hchecker hflag h
  · intro hchecker hflag h
    rw [execOp_CHECKSEQUENCEVERIFY] at h
    exact checkSequenceVerify_locked c hchecker hflag h

/-- A version-2 transaction whose one input is not final and carries a relative lock of
five blocks, with `nLockTime` at height 100. -/
def heightLockedTx : CTransaction where
  vin := [⟨⟨⟨Vector.replicate 32 0⟩, 0⟩, [], 5, ⟨[]⟩⟩]
  vout := []
  nVersion := 2
  nLockTime := 100

def heightLockedChecker : TransactionSignatureChecker where
  txTo := heightLockedTx
  nIn := 0
  amount := 0
  nIn_lt := by decide

/-- The hash functions are not run by the lock-time opcodes; any will do. -/
def zeroPrimitives : Primitives where
  RIPEMD160 _ := List.replicate 20 0
  SHA1 _ := List.replicate 20 0
  SHA256 _ := List.replicate 32 0
  CheckLowS _ := true
  RIPEMD160_length _ := List.length_replicate
  SHA1_length _ := List.length_replicate
  SHA256_length _ := List.length_replicate

/-- Both opcodes pass on the argument 5 for `heightLockedChecker`. -/
theorem timelocks_enforced_height_lock :
    let checker : SignatureChecker :=
      ⟨fun _ _ _ _ => false, heightLockedChecker.CheckLockTime, heightLockedChecker.CheckSequence⟩
    let flags := SCRIPT_VERIFY_CHECKLOCKTIMEVERIFY ||| SCRIPT_VERIFY_CHECKSEQUENCEVERIFY
    let st : EvalState := ⟨[[5]], [], [], 0, 0, 0⟩
    hasFlag flags SCRIPT_VERIFY_CHECKLOCKTIMEVERIFY = true ∧
      execOp zeroPrimitives [] flags checker .SIGVERSION_BASE OP_CHECKLOCKTIMEVERIFY true st =
        .ok st ∧
      hasFlag flags SCRIPT_VERIFY_CHECKSEQUENCEVERIFY = true ∧
      execOp zeroPrimitives [] flags checker .SIGVERSION_BASE OP_CHECKSEQUENCEVERIFY true st =
        .ok st ∧
      (∃ vch n, stacktop st.stack (-1) = .ok vch ∧
        CScriptNum.decode vch (fRequireMinimal flags) 5 = .ok n ∧
        ∀ nBlockHeight nBlockTime, IsFinalTx heightLockedTx nBlockHeight nBlockTime = true →
          (n.m_value < LOCKTIME_THRESHOLD ∧ (n.m_value = 0 ∨ n.m_value < nBlockHeight)) ∨
          (LOCKTIME_THRESHOLD ≤ n.m_value ∧ n.m_value < nBlockTime)) ∧
      (∃ vch n, stacktop st.stack (-1) = .ok vch ∧
        CScriptNum.decode vch (fRequireMinimal flags) 5 = .ok n ∧
        (Int.land n.m_value SEQUENCE_LOCKTIME_DISABLE_FLAG = 0 →
          ∀ (block : CBlockIndex) (prevHeights : List Int),
            SequenceLocks heightLockedTx LOCKTIME_VERIFY_SEQUENCE prevHeights block = some true →
            (Int.land n.m_value CTxIn.SEQUENCE_LOCKTIME_TYPE_FLAG.toNat = 0 ∧
              prevHeights.getD 0 0 + Int.land n.m_value CTxIn.SEQUENCE_LOCKTIME_MASK.toNat ≤
                block.nHeight) ∨
            (Int.land n.m_value CTxIn.SEQUENCE_LOCKTIME_TYPE_FLAG.toNat ≠ 0 ∧
              ∃ pprev ancestor, block.pprev = some pprev ∧
                block.GetAncestor (max (prevHeights.getD 0 0 - 1) 0) = some ancestor ∧
                ancestor.GetMedianTimePast + Int.land n.m_value CTxIn.SEQUENCE_LOCKTIME_MASK.toNat *
                  2 ^ CTxIn.SEQUENCE_LOCKTIME_GRANULARITY ≤ pprev.GetMedianTimePast))) := by
  intro checker flags st
  have hclt : hasFlag flags SCRIPT_VERIFY_CHECKLOCKTIMEVERIFY = true := by decide
  have hcsv : hasFlag flags SCRIPT_VERIFY_CHECKSEQUENCEVERIFY = true := by decide
  have hrun1 : execOp zeroPrimitives [] flags checker .SIGVERSION_BASE OP_CHECKLOCKTIMEVERIFY true
      st = .ok st := by decide
  have hrun2 : execOp zeroPrimitives [] flags checker .SIGVERSION_BASE OP_CHECKSEQUENCEVERIFY true
      st = .ok st := by decide
  have henforced := timelocks_enforced zeroPrimitives [] flags checker .SIGVERSION_BASE
    heightLockedChecker true st st
  exact ⟨hclt, hrun1, hcsv, hrun2, henforced.1 rfl hclt hrun1, henforced.2 rfl hcsv hrun2⟩

end SalemCash
