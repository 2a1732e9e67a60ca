import SalemCash.Instructions
import SalemCash.LockTime
import SalemCash.Serialize

/-!
# Signature hashes

`SignatureHash` of `interpreter.cpp` and the reference `SignatureHashOld` of
`sighash_tests.cpp`. The legacy hash serializes the spending transaction through
`CTransactionSignatureSerializer`, which makes the edits of the hash type while it
writes; the reference copies the transaction, edits the copy and serializes it. A
`CHashWriter` hashes what is written to it with `CHash256`.

The reference deletes `OP_CODESEPARATOR` with `FindAndDelete`, while the serializer
skips the separators `GetOp` reads and writes the length `size - nCodeSeparators`
before it; the two agree when `GetOp` reads the script code to its end.
-/
namespace SalemCash

/-- `CHashWriter(SER_GETHASH, ...)` fed with `bytes`, then `GetHash()`. -/
def Primitives.HashWriter (P : Primitives) (bytes : List UInt8) : uint256 :=
  ⟨⟨(P.Hash256 bytes).toArray, by simp [Primitives.Hash256, P.SHA256_length]⟩⟩

/-- `uint256S("00...01")`: the hex string shows the bytes last first. -/
def uint256.one : uint256 := ⟨(Vector.replicate 32 0).set 0 1⟩

/-- The first loop of `SerializeScriptCode`: the `OP_CODESEPARATOR`s `GetOp` reads. -/
def countCodeSeparators (scriptCode : CScript) (pc nCodeSeparators : Nat) : Nat :=
  let r := GetOp2 scriptCode pc
  if hr : r.fRet = true then
    have := GetOp2_pc hr
    countCodeSeparators scriptCode r.pc
      (if r.opcodeRet = OP_CODESEPARATOR then nCodeSeparators + 1 else nCodeSeparators)
  else nCodeSeparators
termination_by scriptCode.length - pc

/-- The second loop of `SerializeScriptCode`: at each separator, write what lies between
it and the previous one; at the end, what lies between the last one and where `GetOp`
stopped. -/
def writeScriptCode (scriptCode : CScript) (it itBegin : Nat) : List UInt8 :=
  let r := GetOp2 scriptCode it
  if hr : r.fRet = true then
    have := GetOp2_pc hr
    if r.opcodeRet = OP_CODESEPARATOR then
      (scriptCode.drop itBegin).take (r.pc - itBegin - 1) ++ writeScriptCode scriptCode r.pc r.pc
    else writeScriptCode scriptCode r.pc itBegin
  else if itBegin ≠ scriptCode.length then (scriptCode.drop itBegin).take (r.pc - itBegin)
  else []
termination_by scriptCode.length - it

def SerializeScriptCode (scriptCode : CScript) : List UInt8 :=
  WriteCompactSize (scriptCode.length - countCodeSeparators scriptCode 0 0) ++
    writeScriptCode scriptCode 0 0

/-- The fields of `CTransactionSignatureSerializer`. -/
structure CTransactionSignatureSerializer where
  txTo : CTransaction
  scriptCode : CScript
  nIn : Nat
  fAnyoneCanPay : Bool
  fHashSingle : Bool
  fHashNone : Bool

namespace CTransactionSignatureSerializer

/-- The constructor, which reads the three kinds of edit off the hash type. -/
def ofHashType (txTo : CTransaction) (scriptCode : CScript) (nIn : Nat) (nHashType : UInt32) :
    CTransactionSignatureSerializer where
  txTo := txTo
  scriptCode := scriptCode
  nIn := nIn
  fAnyoneCanPay := nHashType &&& SIGHASH_ANYONECANPAY.toUInt32 != 0
  fHashSingle := nHashType &&& 0x1f == SIGHASH_SINGLE.toUInt32
  fHashNone := nHashType &&& 0x1f == SIGHASH_NONE.toUInt32

variable (t : CTransactionSignatureSerializer)

def SerializeInput (nInput : Nat) : List UInt8 :=
  -- under SIGHASH_ANYONECANPAY only the input being signed is serialized
  let nInput := if t.fAnyoneCanPay then t.nIn else nInput
  let txin := t.txTo.vin.getD nInput default
  txin.prevout.serialize ++
    -- blank out other inputs' signatures
    (if nInput ≠ t.nIn then serializeBytes [] else SerializeScriptCode t.scriptCode) ++
    -- let the others update at will
    (if nInput ≠ t.nIn ∧ (t.fHashSingle ∨ t.fHashNone) then ser_writedata32 0
    else ser_writedata32 txin.nSequence)

def SerializeOutput (nOutput : Nat) : List UInt8 :=
  -- do not lock in the payee at other indices than the input's
  if t.fHashSingle ∧ nOutput ≠ t.nIn then CTxOut.null.serialize
  else (t.txTo.vout.getD nOutput default).serialize

def Serialize : List UInt8 :=
  let nInputs := if t.fAnyoneCanPay then 1 else t.txTo.vin.length
  let nOutputs := if t.fHashNone then 0 else if t.fHashSingle then t.nIn + 1 else t.txTo.vout.length
  ser_writedata32 t.txTo.nVersion.toUInt32 ++
    WriteCompactSize nInputs ++ (List.range nInputs).flatMap t.SerializeInput ++
    WriteCompactSize nOutputs ++ (List.range nOutputs).flatMap t.SerializeOutput ++
    ser_writedata32 t.txTo.nLockTime

end CTransactionSignatureSerializer

def GetPrevoutHash (P : Primitives) (txTo : CTransaction) : uint256 :=
  P.HashWriter (txTo.vin.flatMap fun txin => txin.prevout.serialize)

def GetSequenceHash (P : Primitives) (txTo : CTransaction) : uint256 :=
  P.HashWriter (txTo.vin.flatMap fun txin => ser_writedata32 txin.nSequence)

def GetOutputsHash (P : Primitives) (txTo : CTransaction) : uint256 :=
  P.HashWriter (txTo.vout.flatMap CTxOut.serialize)

structure PrecomputedTransactionData where
  hashPrevouts : uint256
  hashSequence : uint256
  hashOutputs : uint256
  ready : Bool

/-- The constructor `PrecomputedTransactionData(txTo)`: the cache is filled only for a
transaction with a witness. -/
def PrecomputedTransactionData.ofTransaction (P : Primitives) (txTo : CTransaction) :
    PrecomputedTransactionData :=
  if txTo.HasWitness then ⟨GetPrevoutHash P txTo, GetSequenceHash P txTo, GetOutputsHash P txTo, true⟩
  else ⟨uint256.zero, uint256.zero, uint256.zero, false⟩

/-- `cacheready ? cache->field : compute`. -/
def fromCache (cache : Option PrecomputedTransactionData)
    (field : PrecomputedTransactionData → uint256) (compute : uint256) : uint256 :=
  match cache with
  | some c => if c.ready then field c else compute
  | none => compute

/-- `SignatureHash`; `none` when its `assert(nIn < txTo.vin.size())` fails. -/
def SignatureHash (P : Primitives) (scriptCode : CScript) (txTo : CTransaction) (nIn : Nat)
    (nHashType : UInt32) (amount : CAmount) (sigversion : SigVersion)
    (cache : Option PrecomputedTransactionData) : Option uint256 :=
  if txTo.vin.length ≤ nIn then none
  else if sigversion = .SIGVERSION_WITNESS_V0 then
    let fAnyoneCanPay := nHashType &&& SIGHASH_ANYONECANPAY.toUInt32 ≠ 0
    let fSingle := nHashType &&& 0x1f = SIGHASH_SINGLE.toUInt32
    let fNone := nHashType &&& 0x1f = SIGHASH_NONE.toUInt32
    let hashPrevouts :=
      if ¬fAnyoneCanPay then fromCache cache (·.hashPrevouts) (GetPrevoutHash P txTo)
      else uint256.zero
    let hashSequence :=
      if ¬fAnyoneCanPay ∧ ¬fSingle ∧ ¬fNone then
        fromCache cache (·.hashSequence) (GetSequenceHash P txTo)
      else uint256.zero
    let hashOutputs :=
      if ¬fSingle ∧ ¬fNone then fromCache cache (·.hashOutputs) (GetOutputsHash P txTo)
      else if fSingle ∧ nIn < txTo.vout.length then
        P.HashWriter (txTo.vout.getD nIn default).serialize
      else uint256.zero
    let txin := txTo.vin.getD nIn default
    some (P.HashWriter (ser_writedata32 txTo.nVersion.toUInt32 ++ hashPrevouts.serialize ++
      hashSequence.serialize ++ txin.prevout.serialize ++ serializeBytes scriptCode ++
      ser_writedata64 (Int.toInt64 amount).toUInt64 ++ ser_writedata32 txin.nSequence ++
      hashOutputs.serialize ++ ser_writedata32 txTo.nLockTime ++ ser_writedata32 nHashType))
  -- check for invalid use of SIGHASH_SINGLE
  else if nHashType &&& 0x1f = SIGHASH_SINGLE.toUInt32 ∧ txTo.vout.length ≤ nIn then
    some uint256.one
  else
    some (P.HashWriter
      ((CTransactionSignatureSerializer.ofHashType txTo scriptCode nIn nHashType).Serialize ++
        ser_writedata32 nHashType))

/-- Blank out the other inputs' signatures; the signed input gets the script code. -/
def blankSignatures (vin : List CTxIn) (nIn : Nat) (scriptCode : CScript) : List CTxIn :=
  vin.mapIdx fun i txin => { txin with scriptSig := if i = nIn then scriptCode else [] }

/-- Let the other inputs update at will. -/
def othersUpdate (vin : List CTxIn) (nIn : Nat) : List CTxIn :=
  vin.mapIdx fun i txin => if i ≠ nIn then { txin with nSequence := 0 } else txin

/-- Only lock in the output at the same index as the input. -/
def singleOutput (vout : List CTxOut) (nIn : Nat) : List CTxOut :=
  (vout.take (nIn + 1)).mapIdx fun i txout => if i < nIn then CTxOut.null else txout

/-- The copy `SignatureHashOld` edits: `none` where it returns `one` for a
`SIGHASH_SINGLE` without a matching output. -/
def signatureHashOldTx (scriptCode : CScript) (txTo : CTransaction) (nIn : Nat)
    (nHashType : UInt32) : Option CTransaction :=
  -- in case concatenating two scripts ends up with two codeseparators
  let scriptCode := (FindAndDelete scriptCode [OP_CODESEPARATOR]).1
  let vin := blankSignatures txTo.vin nIn scriptCode
  let edited : Option (List CTxIn × List CTxOut) :=
    if nHashType &&& 0x1f = SIGHASH_NONE.toUInt32 then some (othersUpdate vin nIn, [])
    else if nHashType &&& 0x1f = SIGHASH_SINGLE.toUInt32 then
      if txTo.vout.length ≤ nIn then none else some (othersUpdate vin nIn, singleOutput txTo.vout nIn)
    else some (vin, txTo.vout)
  edited.map fun (vin, vout) =>
    -- blank out other inputs completely
    let vin := if nHashType &&& SIGHASH_ANYONECANPAY.toUInt32 ≠ 0 then [vin.getD nIn default] else vin
    { txTo with vin, vout }

def SignatureHashOld (P : Primitives) (scriptCode : CScript) (txTo : CTransaction) (nIn : Nat)
    (nHashType : UInt32) : uint256 :=
  if txTo.vin.length ≤ nIn then uint256.one
  else
    match signatureHashOldTx scriptCode txTo nIn nHashType with
    | none => uint256.one
    | some txTmp =>
      P.HashWriter (SerializeTransaction false txTmp ++ ser_writedata32 nHashType)

section ScriptCode

variable {scriptCode : CScript}

theorem countCodeSeparators_eq (pc nCodeSeparators : Nat)
    (h : GetOpParsesFrom scriptCode pc = true) (hpc : pc ≤ scriptCode.length) :
    countCodeSeparators scriptCode pc nCodeSeparators =
      nCodeSeparators + (instructionsFrom scriptCode pc).count [OP_CODESEPARATOR] := by
  fun_induction countCodeSeparators scriptCode pc nCodeSeparators with
  | case1 pc n r hr hbound ih =>
    simp only [r, dite_eq_ite] at hr ih ⊢
    have hnext := (GetOpParsesFrom_next h (Nat.lt_of_lt_of_le hbound.1 hbound.2)).2
    rw [ih hnext hbound.2, instructionsFrom_of_fRet hr, List.count_cons]
    by_cases hsep : (GetOp2 scriptCode pc).opcodeRet = OP_CODESEPARATOR
    · simp [hsep, (GetOp2_codeSeparator_iff hr).mpr hsep]
      omega
    · have hne := mt (GetOp2_codeSeparator_iff hr).mp hsep
      simp [hsep, hne]
  | case2 pc n r hr =>
    simp only [r] at hr
    rw [instructionsFrom_of_not_fRet hr, List.count_nil, Nat.add_zero]

/-- Two adjacent stretches of a list are one stretch. -/
theorem take_drop_append {α : Type} (l : List α) {a b c : Nat} (hab : a ≤ b) (hbc : b ≤ c) :
    (l.drop a).take (b - a) ++ (l.drop b).take (c - b) = (l.drop a).take (c - a) := by
  have hsplit : c - a = (b - a) + (c - b) := by omega
  rw [hsplit, List.take_add, List.drop_drop]
  congr 3
  omega

/-- The second loop writes the stretch since `itBegin`, then every instruction from `it`
on that is not a separator. -/
theorem writeScriptCode_eq (it itBegin : Nat) (h : GetOpParsesFrom scriptCode it = true)
    (hpc : it ≤ scriptCode.length) (hbegin : itBegin ≤ it) :
    writeScriptCode scriptCode it itBegin =
      (scriptCode.drop itBegin).take (it - itBegin) ++
        stripCodeSeparators (instructionsFrom scriptCode it) := by
  fun_induction writeScriptCode scriptCode it itBegin with
  | case1 it itBegin r hr hbound hsep ih =>
    simp only [r] at hr hsep ih ⊢
    have hnext := (GetOpParsesFrom_next h (Nat.lt_of_lt_of_le hbound.1 hbound.2)).2
    have hone : (GetOp2 scriptCode it).pc = it + 1 := by
      rw [GetOp2_of_PUSHDATA4_lt (Nat.lt_of_lt_of_le hbound.1 hbound.2)
        (by rw [← GetOp2_opcodeRet hr, hsep]; decide)]
    rw [ih hnext hbound.2 (Nat.le_refl _), instructionsFrom_of_fRet hr,
      (GetOp2_codeSeparator_iff hr).mpr hsep, stripCodeSeparators_separator, Nat.sub_self,
      List.take_zero, List.nil_append, hone, show it + 1 - itBegin - 1 = it - itBegin by omega]
  | case2 it itBegin r hr hbound hsep ih =>
    simp only [r] at hr hsep ih ⊢
    have hnext := (GetOpParsesFrom_next h (Nat.lt_of_lt_of_le hbound.1 hbound.2)).2
    have hne := mt (GetOp2_codeSeparator_iff hr).mp hsep
    rw [ih hnext hbound.2 (by omega), instructionsFrom_of_fRet hr, stripCodeSeparators_cons hne,
      ← List.append_assoc, take_drop_append _ hbegin (Nat.le_of_lt hbound.1)]
  | case3 it itBegin r hr hend =>
    simp only [r] at hr ⊢
    have hit := GetOpParsesFrom_end h hpc hr
    rw [instructionsFrom_of_not_fRet hr, stripCodeSeparators_nil, List.append_nil, hit,
      GetOp2_of_length_le (Nat.le_refl _)]
  | case4 it itBegin r hr hend =>
    simp only [r] at hr
    have hbegin : itBegin = scriptCode.length := not_not.mp hend
    rw [instructionsFrom_of_not_fRet hr, stripCodeSeparators_nil, List.append_nil, hbegin,
      List.drop_length, List.take_nil]

/-- On a script `GetOp` reads to its end, `SerializeScriptCode` writes the script with its
separators deleted, as `SignatureHashOld` does. -/
theorem SerializeScriptCode_eq (h : GetOpParsesFrom scriptCode 0 = true) :
    SerializeScriptCode scriptCode = serializeBytes (FindAndDelete scriptCode [OP_CODESEPARATOR]).1 := by
  have hlen := length_stripCodeSeparators (instructionsFrom scriptCode 0)
  rw [instructionsFrom_flatten h (Nat.zero_le _), List.drop_zero] at hlen
  rw [SerializeScriptCode, countCodeSeparators_eq 0 0 h (Nat.zero_le _),
    writeScriptCode_eq 0 0 h (Nat.zero_le _) (Nat.le_refl _), FindAndDelete_codeSeparator h,
    serializeBytes, Nat.zero_add, Nat.sub_self, List.take_zero, List.nil_append]
  dsimp only
  rw [show scriptCode.length - (instructionsFrom scriptCode 0).count [OP_CODESEPARATOR] =
    (stripCodeSeparators (instructionsFrom scriptCode 0)).length by omega]

end ScriptCode

section Serializer

theorem flatMap_range_eq {α β : Type} {f : Nat → List β} {g : α → List β} (l : List α)
    (h : ∀ i (hi : i < l.length), f i = g l[i]) :
    (List.range l.length).flatMap f = l.flatMap g := by
  have hmap : (List.range l.length).map f = l.map g :=
    List.ext_getElem (by simp) fun i h1 _ => by
      rw [List.getElem_map, List.getElem_map, List.getElem_range]
      exact h i (by simpa using h1)
  rw [List.flatMap, List.flatMap, hmap]

/-- Input `i` of the reference's copy before `SIGHASH_ANYONECANPAY`: the script code in the
signed input, no script elsewhere, and a zero sequence number elsewhere when the hash
type lets the others update. -/
def signedInput (vin : List CTxIn) (nIn : Nat) (scriptCode : CScript) (fOthersUpdate : Bool)
    (i : Nat) : CTxIn :=
  let txin := vin.getD i default
  { txin with scriptSig := if i = nIn then scriptCode else [],
              nSequence := if i ≠ nIn ∧ fOthersUpdate then 0 else txin.nSequence }

theorem editedInputs_length (vin : List CTxIn) (nIn : Nat) (scriptCode : CScript)
    (fOthersUpdate : Bool) :
    (if fOthersUpdate then othersUpdate (blankSignatures vin nIn scriptCode) nIn
      else blankSignatures vin nIn scriptCode).length = vin.length := by
  cases fOthersUpdate <;> simp [othersUpdate, blankSignatures]

theorem editedInputs_getD (vin : List CTxIn) (nIn : Nat) (scriptCode : CScript)
    (fOthersUpdate : Bool) {i : Nat} (hi : i < vin.length) :
    (if fOthersUpdate then othersUpdate (blankSignatures vin nIn scriptCode) nIn
      else blankSignatures vin nIn scriptCode).getD i default =
      signedInput vin nIn scriptCode fOthersUpdate i := by
  have hblank : i < (blankSignatures vin nIn scriptCode).length := by
    simpa [blankSignatures] using hi
  cases fOthersUpdate with
  | false =>
    simp [blankSignatures, signedInput, List.getElem?_eq_getElem hi]
  | true =>
    simp only [if_true, othersUpdate, List.getD_eq_getElem?_getD, List.getElem?_mapIdx,
      List.getElem?_eq_getElem hblank, Option.map_some, Option.getD_some, signedInput]
    simp only [blankSignatures, List.getElem_mapIdx, List.getElem?_eq_getElem hi, Option.getD_some]
    by_cases hin : i = nIn <;> simp [hin]

namespace CTransactionSignatureSerializer

variable (t : CTransactionSignatureSerializer) {scriptCode : CScript}

/-- An input the serializer writes is the reference's input at the same index, or at the
signed one under `SIGHASH_ANYONECANPAY`. -/
theorem SerializeInput_eq (hssc : SerializeScriptCode t.scriptCode = serializeBytes scriptCode)
    (nInput : Nat) :
    t.SerializeInput nInput = (signedInput t.txTo.vin t.nIn scriptCode
      (t.fHashSingle || t.fHashNone) (if t.fAnyoneCanPay then t.nIn else nInput)).serialize := by
  unfold SerializeInput signedInput CTxIn.serialize
  dsimp only
  by_cases hin : (if t.fAnyoneCanPay then t.nIn else nInput) = t.nIn
  · simp [hin, hssc]
  · simp only [hin, ne_eq, not_false_eq_true, if_true, if_false, true_and, Bool.or_eq_true,
      apply_ite ser_writedata32]

/-- The inputs part: under `SIGHASH_ANYONECANPAY` the signed input alone, else every
input edited. -/
theorem serializeInputs_eq (hssc : SerializeScriptCode t.scriptCode = serializeBytes scriptCode)
    (hIn : t.nIn < t.txTo.vin.length) :
    let vin := if t.fHashSingle || t.fHashNone then
        othersUpdate (blankSignatures t.txTo.vin t.nIn scriptCode) t.nIn
      else blankSignatures t.txTo.vin t.nIn scriptCode
    WriteCompactSize (if t.fAnyoneCanPay then 1 else t.txTo.vin.length) ++
        (List.range (if t.fAnyoneCanPay then 1 else t.txTo.vin.length)).flatMap t.SerializeInput =
      serializeVector CTxIn.serialize (if t.fAnyoneCanPay then [vin.getD t.nIn default] else vin) := by
  intro vin
  cases hacp : t.fAnyoneCanPay with
  | true =>
    simp only [if_true, serializeVector, List.length_singleton, List.range_one, List.flatMap_cons,
      List.flatMap_nil, List.append_nil]
    rw [SerializeInput_eq t hssc, hacp, if_pos rfl, editedInputs_getD _ _ _ _ hIn]
  | false =>
    have hlen : vin.length = t.txTo.vin.length := editedInputs_length _ _ _ _
    simp only [Bool.false_eq_true, if_false, serializeVector, hlen]
    rw [← hlen, flatMap_range_eq vin fun i hi => ?_]
    rw [SerializeInput_eq t hssc, hacp, if_neg Bool.false_ne_true, ← List.getD_eq_getElem _ default hi,
      editedInputs_getD _ _ _ _ (hlen ▸ hi)]

/-- The outputs part: none under `SIGHASH_NONE`, the outputs up to the signed input's
index with the others nulled under `SIGHASH_SINGLE`, else all of them. -/
theorem serializeOutputs_eq (hsingle : t.fHashSingle = true → t.nIn < t.txTo.vout.length) :
    let vout := if t.fHashNone then [] else if t.fHashSingle then singleOutput t.txTo.vout t.nIn
      else t.txTo.vout
    let nOutputs := if t.fHashNone then 0 else if t.fHashSingle then t.nIn + 1 else t.txTo.vout.length
    WriteCompactSize nOutputs ++ (List.range nOutputs).flatMap t.SerializeOutput =
      serializeVector CTxOut.serialize vout := by
  intro vout nOutputs
  cases hnone : t.fHashNone with
  | true => simp [vout, nOutputs, hnone, serializeVector]
  | false =>
    cases hs : t.fHashSingle with
    | true =>
      have hlt := hsingle hs
      have hlen : (singleOutput t.txTo.vout t.nIn).length = t.nIn + 1 := by
        simp [singleOutput]
        omega
      simp only [vout, nOutputs, hnone, hs, Bool.false_eq_true, if_false, if_true, serializeVector]
      rw [← hlen, flatMap_range_eq _ fun i hi => ?_]
      rw [hlen] at hi
      simp only [SerializeOutput, hs, true_and, singleOutput, List.getElem_mapIdx, List.getElem_take]
      by_cases hin : i = t.nIn
      · simp [hin, List.getElem?_eq_getElem hlt]
      · simp [hin, show i < t.nIn by omega]
    | false =>
      simp only [vout, nOutputs, hnone, hs, Bool.false_eq_true, if_false, serializeVector]
      rw [flatMap_range_eq _ fun i hi => ?_]
      simp [SerializeOutput, hs, List.getElem?_eq_getElem hi]

/-- The serializer's bytes, given the script code's bytes: the edited inputs and outputs written
as vectors between the version and the lock time. -/
theorem Serialize_eq (hssc : SerializeScriptCode t.scriptCode = serializeBytes scriptCode)
    (hIn : t.nIn < t.txTo.vin.length)
    (hsingle : t.fHashSingle = true → t.nIn < t.txTo.vout.length) :
    let vin := if t.fHashSingle || t.fHashNone then
        othersUpdate (blankSignatures t.txTo.vin t.nIn scriptCode) t.nIn
      else blankSignatures t.txTo.vin t.nIn scriptCode
    let vout := if t.fHashNone then [] else if t.fHashSingle then singleOutput t.txTo.vout t.nIn
      else t.txTo.vout
    t.Serialize = ser_writedata32 t.txTo.nVersion.toUInt32 ++
      serializeVector CTxIn.serialize (if t.fAnyoneCanPay then [vin.getD t.nIn default] else vin) ++
      serializeVector CTxOut.serialize vout ++ ser_writedata32 t.txTo.nLockTime := by
  intro vin vout
  have hinputs := t.serializeInputs_eq hssc hIn
  have houtputs := t.serializeOutputs_eq hsingle
  dsimp only at hinputs houtputs
  have hassoc : ∀ a b c d e f : List UInt8,
      a ++ b ++ c ++ d ++ e ++ f = a ++ (b ++ c) ++ (d ++ e) ++ f := by
    intros
    simp only [List.append_assoc]
  unfold Serialize
  dsimp only
  rw [hassoc, hinputs, houtputs]

/-- The serializer's bytes are the reference's copy in the basic format. -/
theorem Serialize_eq_SerializeTransaction {scriptCode : CScript} {txTo txTmp : CTransaction}
    {nIn : Nat} {nHashType : UInt32} (hIn : nIn < txTo.vin.length)
    (hparse : GetOpParsesFrom scriptCode 0 = true)
    (htx : signatureHashOldTx scriptCode txTo nIn nHashType = some txTmp) :
    (ofHashType txTo scriptCode nIn nHashType).Serialize = SerializeTransaction false txTmp := by
  set t := ofHashType txTo scriptCode nIn nHashType with ht
  have hssc : SerializeScriptCode t.scriptCode =
      serializeBytes (FindAndDelete scriptCode [OP_CODESEPARATOR]).1 := SerializeScriptCode_eq hparse
  unfold signatureHashOldTx at htx
  dsimp only at htx
  obtain ⟨⟨vin, vout⟩, hedit, rfl⟩ := Option.map_eq_some_iff.mp htx
  clear htx
  have hns : SIGHASH_NONE.toUInt32 ≠ SIGHASH_SINGLE.toUInt32 := by decide
  obtain ⟨hvin, hvout, hsingle⟩ : vin = (if t.fHashSingle || t.fHashNone then
        othersUpdate (blankSignatures txTo.vin nIn (FindAndDelete scriptCode [OP_CODESEPARATOR]).1) nIn
      else blankSignatures txTo.vin nIn (FindAndDelete scriptCode [OP_CODESEPARATOR]).1) ∧
      vout = (if t.fHashNone then [] else if t.fHashSingle then singleOutput txTo.vout nIn
        else txTo.vout) ∧
      (t.fHashSingle = true → nIn < txTo.vout.length) := by
    by_cases hnone : nHashType &&& 0x1f = SIGHASH_NONE.toUInt32
    · rw [if_pos hnone, Option.some.injEq, Prod.mk.injEq] at hedit
      simp [t, ofHashType, hnone, hns, hedit]
    · rw [if_neg hnone] at hedit
      by_cases hsingle : nHashType &&& 0x1f = SIGHASH_SINGLE.toUInt32
      · rw [if_pos hsingle] at hedit
        split_ifs at hedit with hlen
        rw [Option.some.injEq, Prod.mk.injEq] at hedit
        simp [t, ofHashType, hsingle, hns.symm, hedit, Nat.lt_of_not_le hlen]
      · rw [if_neg hsingle, Option.some.injEq, Prod.mk.injEq] at hedit
        simp [t, ofHashType, hnone, hsingle, hedit]
  rw [t.Serialize_eq hssc hIn hsingle, SerializeTransaction_basic (Or.inl rfl)]
  subst hvin hvout
  simp [t, ofHashType]

end CTransactionSignatureSerializer

end Serializer

section Legacy

/-- The reference gives up on its copy exactly when `SIGHASH_SINGLE` has no matching output. -/
theorem signatureHashOldTx_eq_none_iff {scriptCode : CScript} {txTo : CTransaction} {nIn : Nat}
    {nHashType : UInt32} :
    signatureHashOldTx scriptCode txTo nIn nHashType = none ↔
      nHashType &&& 0x1f = SIGHASH_SINGLE.toUInt32 ∧ txTo.vout.length ≤ nIn := by
  have hns : SIGHASH_NONE.toUInt32 ≠ SIGHASH_SINGLE.toUInt32 := by decide
  unfold signatureHashOldTx
  by_cases hnone : nHashType &&& 0x1f = SIGHASH_NONE.toUInt32
  · simp [hnone, hns]
  · by_cases hsingle : nHashType &&& 0x1f = SIGHASH_SINGLE.toUInt32
    · by_cases hlen : txTo.vout.length ≤ nIn <;> simp [hsingle, hns.symm, hlen]
    · simp [hnone, hsingle]

theorem SignatureHash_eq_SignatureHashOld (P : Primitives) (scriptCode : CScript)
    (txTo : CTransaction) (nIn : Nat) (nHashType : UInt32) (amount : CAmount)
    (cache : Option PrecomputedTransactionData) (hIn : nIn < txTo.vin.length)
    (hparse : GetOpParsesFrom scriptCode 0 = true) :
    SignatureHash P scriptCode txTo nIn nHashType amount .SIGVERSION_BASE cache =
      some (SignatureHashOld P scriptCode txTo nIn nHashType) := by
  have hbase : ¬SigVersion.SIGVERSION_BASE = .SIGVERSION_WITNESS_V0 := by decide
  unfold SignatureHash SignatureHashOld
  rw [if_neg (Nat.not_le.mpr hIn), if_neg hbase, if_neg (Nat.not_le.mpr hIn)]
  cases htx : signatureHashOldTx scriptCode txTo nIn nHashType with
  | none =>
    rw [if_pos (signatureHashOldTx_eq_none_iff.mp htx)]
  | some txTmp =>
    have hsingle : ¬(nHashType &&& 0x1f = SIGHASH_SINGLE.toUInt32 ∧ txTo.vout.length ≤ nIn) := by
      rw [← signatureHashOldTx_eq_none_iff, htx]
      simp
    rw [if_neg hsingle, CTransactionSignatureSerializer.Serialize_eq_SerializeTransaction hIn hparse htx]

unseal GetOpParsesFrom in
/-- A script code with a separator in it, signed with SIGHASH_ALL. -/
theorem SignatureHash_eq_SignatureHashOld_separator :
    0 < heightLockedTx.vin.length ∧ GetOpParsesFrom [OP_CODESEPARATOR, OP_1] 0 = true ∧
      SignatureHash zeroPrimitives [OP_CODESEPARATOR, OP_1] heightLockedTx 0 SIGHASH_ALL.toUInt32 0
          .SIGVERSION_BASE none =
        some (SignatureHashOld zeroPrimitives [OP_CODESEPARATOR, OP_1] heightLockedTx 0
          SIGHASH_ALL.toUInt32) :=
  ⟨by decide, by decide,
    SignatureHash_eq_SignatureHashOld zeroPrimitives [OP_CODESEPARATOR, OP_1] heightLockedTx 0
      SIGHASH_ALL.toUInt32 0 none (by decide) (by decide)⟩

end Legacy

end SalemCash
