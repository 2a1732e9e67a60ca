import Mathlib.Data.List.GetD
import Mathlib.Tactic.IntervalCases
import SalemCash.AmountCompression
import SalemCash.Cash
import SalemCash.VarInt

/-!
# The compressed formats of the chainstate and the undo files

`CScriptCompressor` and `CTxOutCompressor` of `compressor.h` and `compressor.cpp`,
`Cash::Serialize` and `Cash::Unserialize` of `cash.h`, and `TxInUndoSerializer` and
`TxInUndoDeserializer` of `undo.h`. A script of one of the special shapes (pay to a key hash,
pay to a script hash, pay to a compressed or an uncompressed key) is written as a tag below
`nSpecialScripts` and a payload of 20 or 32 bytes; any other script as `VARINT(size + 6)` and
its bytes. An output's value is written as `VARINT(CompressAmount(nValue))`, and a coin's
height and cashbase bit as `VARINT(nHeight * 2 + fCashBase)`.

The curve arithmetic behind `CPubKey` is a parameter (`CPubKeyOps`). When `Decompress` takes
the compressed form of every valid uncompressed key back to that key
(`CPubKeyOps.DecompressInverts`), every script of at most `MAX_SCRIPT_SIZE` bytes reads back as
it was written (`CScriptCompressor.Unserialize_Serialize`). So does every coin
(`Cash.Unserialize_Serialize`, `TxInUndoDeserializer.Unserialize_Serialize`), except that its
value comes back as `valueRoundTrip nValue`: that is `nValue` on `MoneyRange`, but not on every
`int64_t`, since `CompressAmount` wraps. Both serializers compute `nHeight * 2` in `int`, to
which the 31-bit field is promoted; from `nHeight = 2^30` on that overflows, and the model
returns `none` there.
-/
set_option autoImplicit false

namespace SalemCash

/-- A list of length `a + n + b` whose first `a` entries are those of `pre` and whose last `b`
are those of `post` is `pre`, its `n` middle entries and `post`. -/
theorem eq_append_slice_append {α : Type} {l pre post : List α} {d : α} {n : Nat}
    (length : l.length = pre.length + n + post.length)
    (front : ∀ i < pre.length, l.getD i d = pre.getD i d)
    (back : ∀ i < post.length, l.getD (pre.length + n + i) d = post.getD i d) :
    l = pre ++ (l.drop pre.length).take n ++ post := by
  have middle : ((l.drop pre.length).take n).length = n := by simp; omega
  apply List.ext_getElem (by simp; omega)
  intro i inside _
  rw [← List.getD_eq_getElem l d inside, ← List.getD_eq_getElem _ d]
  by_cases before : i < pre.length
  · rw [List.append_assoc, List.getD_append _ _ _ _ before, front i before]
  · by_cases within : i < pre.length + n
    · rw [List.getD_append _ _ _ _ (by rw [List.length_append, middle]; omega),
        List.getD_append_right _ _ _ _ (by omega)]
      rw [List.getD_eq_getElem?_getD, List.getD_eq_getElem?_getD, List.getElem?_take_of_lt (by omega),
        List.getElem?_drop, show pre.length + (i - pre.length) = i by omega]
    · rw [List.getD_append_right _ _ _ _ (by rw [List.length_append, middle]; omega)]
      have entry := back (i - pre.length - n) (by omega)
      rw [show pre.length + n + (i - pre.length - n) = i by omega] at entry
      rw [entry, List.length_append, middle]
      congr 1
      omega

theorem getD_frame {α : Type} (pre l post : List α) (d : α) {i : Nat} (inside : i < l.length) :
    (pre ++ l ++ post).getD (pre.length + i) d = l.getD i d := by
  rw [List.append_assoc, List.getD_append_right _ _ _ _ (by omega), Nat.add_sub_cancel_left,
    List.getD_append _ _ _ _ inside]

theorem eq_cons_drop_one {α : Type} {l : List α} (d : α) (nonempty : 0 < l.length) :
    l = l.getD 0 d :: l.drop 1 := by
  cases l with
  | nil => cases nonempty
  | cons a l => rfl

/-- The two methods of `CPubKey` that the script compressor calls. Both rest on secp256k1,
which is not modelled: `IsFullyValid` says whether a key is a point of the curve, and
`Decompress` turns a 33-byte compressed key into the 65-byte uncompressed one, or fails. -/
structure CPubKeyOps where
  IsFullyValid : List UInt8 → Bool
  Decompress : List UInt8 → Option (List UInt8)
  /-- A decompressed key is 65 bytes, so `assert(pubkey.size() == 65)` holds. -/
  Decompress_size : ∀ key full, Decompress key = some full → full.length = 65

/-- `Decompress` takes the compressed form of a valid uncompressed key, `0x02 | (y & 1)` and
the x coordinate, back to that key. -/
def CPubKeyOps.DecompressInverts (P : CPubKeyOps) : Prop :=
  ∀ key : List UInt8, key.length = 65 → key.getD 0 0 = 0x04 → P.IsFullyValid key = true →
    P.Decompress ((0x02 ||| (key.getD 64 0 &&& 0x01)) :: (key.drop 1).take 32) = some key

namespace CScriptCompressor

def nSpecialScripts : Nat := 6

/-- `IsToKeyID`: the 20-byte hash of a pay-to-key-hash script. -/
def IsToKeyID (script : CScript) : Option (List UInt8) :=
  if script.length = 25 ∧ script.getD 0 0 = OP_DUP ∧ script.getD 1 0 = OP_HASH160 ∧ script.getD 2 0 = 20 ∧
      script.getD 23 0 = OP_EQUALVERIFY ∧ script.getD 24 0 = OP_CHECKSIG then
    some ((script.drop 3).take 20)
  else none

/-- `IsToScriptID`: the 20-byte hash of a pay-to-script-hash script. -/
def IsToScriptID (script : CScript) : Option (List UInt8) :=
  if script.length = 23 ∧ script.getD 0 0 = OP_HASH160 ∧ script.getD 1 0 = 20 ∧ script.getD 22 0 = OP_EQUAL then
    some ((script.drop 2).take 20)
  else none

/-- `IsToPubKey`: the key of a pay-to-key script. `pubkey.Set` keeps the bytes it is given,
since their number is the one their first byte asks for; an uncompressed key counts only
when it is fully valid. -/
def IsToPubKey (P : CPubKeyOps) (script : CScript) : Option (List UInt8) :=
  if script.length = 35 ∧ script.getD 0 0 = 33 ∧ script.getD 34 0 = OP_CHECKSIG ∧
      (script.getD 1 0 = 0x02 ∨ script.getD 1 0 = 0x03) then
    some ((script.drop 1).take 33)
  else if script.length = 67 ∧ script.getD 0 0 = 65 ∧ script.getD 66 0 = OP_CHECKSIG ∧ script.getD 1 0 = 0x04 then
    let pubkey := (script.drop 1).take 65
    if P.IsFullyValid pubkey then some pubkey else none
  else none

/-- `Compress`: the tag and the payload of a special script, `none` for any other. -/
def Compress (P : CPubKeyOps) (script : CScript) : Option (List UInt8) :=
  match IsToKeyID script with
  | some keyID => some (0x00 :: keyID)
  | none =>
    match IsToScriptID script with
    | some scriptID => some (0x01 :: scriptID)
    | none =>
      match IsToPubKey P script with
      | some pubkey =>
        if pubkey.getD 0 0 = 0x02 ∨ pubkey.getD 0 0 = 0x03 then some (pubkey.getD 0 0 :: (pubkey.drop 1).take 32)
        else if pubkey.getD 0 0 = 0x04 then
          some ((0x04 ||| (pubkey.getD 64 0 &&& 0x01)) :: (pubkey.drop 1).take 32)
        else none
      | none => none

def GetSpecialSize (nSize : Nat) : Nat :=
  if nSize = 0 ∨ nSize = 1 then 20
  else if nSize = 2 ∨ nSize = 3 ∨ nSize = 4 ∨ nSize = 5 then 32
  else 0

/-- `Decompress`: whether it succeeded, and the script after it; a failure leaves `script` as
it was. -/
def Decompress (P : CPubKeyOps) (nSize : Nat) (input : List UInt8) (script : CScript) : Bool × CScript :=
  match nSize with
  | 0x00 => (true, [OP_DUP, OP_HASH160, 20] ++ input.take 20 ++ [OP_EQUALVERIFY, OP_CHECKSIG])
  | 0x01 => (true, [OP_HASH160, 20] ++ input.take 20 ++ [OP_EQUAL])
  | 0x02 | 0x03 => (true, [33, UInt8.ofNat nSize] ++ input.take 32 ++ [OP_CHECKSIG])
  | 0x04 | 0x05 =>
    match P.Decompress (UInt8.ofNat (nSize - 2) :: input.take 32) with
    | none => (false, script)
    | some pubkey => (true, [65] ++ pubkey ++ [OP_CHECKSIG])
  | _ => (false, script)

/-- `Serialize`; `none` only where `WriteVarInt` would write past its buffer, which it never
does (`VarInt.WriteVarInt_eq`). -/
def Serialize (P : CPubKeyOps) (script : CScript) : Option (List UInt8) :=
  match Compress P script with
  | some compr => some compr
  | none => do
    let nSize : BitVec 32 := BitVec.ofNat 32 (script.length + nSpecialScripts)
    let size ← VarInt.WriteVarInt nSize
    pure (size ++ script)

/-- `Unserialize` into `script`, whose old bytes are kept only by a failed `Decompress` and
extended by `OP_RETURN` in place of an overly long script. -/
def Unserialize (P : CPubKeyOps) (script : CScript) : Unserializer CScript := do
  let nSize : BitVec 32 ← VarInt.ReadVarInt
  if nSize.toNat < nSpecialScripts then
    let vch ← CDataStream.read (GetSpecialSize nSize.toNat)
    pure (Decompress P nSize.toNat vch script).2
  else
    let nSize := nSize - BitVec.ofNat 32 nSpecialScripts
    if MAX_SCRIPT_SIZE < nSize.toNat then
      CDataStream.ignore nSize.toInt
      pure (script ++ [OP_RETURN])
    else
      CDataStream.read nSize.toNat

theorem IsToKeyID_spec {script keyID : List UInt8} (h : IsToKeyID script = some keyID) :
    keyID.length = 20 ∧ script = [OP_DUP, OP_HASH160, 20] ++ keyID ++ [OP_EQUALVERIFY, OP_CHECKSIG] := by
  unfold IsToKeyID at h
  split at h
  · rename_i shape
    obtain ⟨length, dup, hash, push, equal, check⟩ := shape
    cases h
    refine ⟨by simp [length], eq_append_slice_append (d := 0) (by simp [length]) ?_ ?_⟩
    · intro i (lt : i < 3)
      interval_cases i <;> assumption
    · intro i (lt : i < 2)
      interval_cases i <;> assumption
  · cases h

theorem IsToScriptID_spec {script scriptID : List UInt8} (h : IsToScriptID script = some scriptID) :
    scriptID.length = 20 ∧ script = [OP_HASH160, 20] ++ scriptID ++ [OP_EQUAL] := by
  unfold IsToScriptID at h
  split at h
  · rename_i shape
    obtain ⟨length, hash, push, equal⟩ := shape
    cases h
    refine ⟨by simp [length], eq_append_slice_append (d := 0) (by simp [length]) ?_ ?_⟩
    · intro i (lt : i < 2)
      interval_cases i <;> assumption
    · intro i (lt : i < 1)
      interval_cases i
      assumption
  · cases h

theorem IsToPubKey_spec {P : CPubKeyOps} {script pubkey : List UInt8} (h : IsToPubKey P script = some pubkey) :
    (pubkey.length = 33 ∧ (pubkey.getD 0 0 = 0x02 ∨ pubkey.getD 0 0 = 0x03) ∧
      script = [33] ++ pubkey ++ [OP_CHECKSIG]) ∨
    (pubkey.length = 65 ∧ pubkey.getD 0 0 = 0x04 ∧ P.IsFullyValid pubkey = true ∧
      script = [65] ++ pubkey ++ [OP_CHECKSIG]) := by
  unfold IsToPubKey at h
  split at h
  · rename_i shape
    obtain ⟨length, push, check, header⟩ := shape
    cases h
    have whole : script = [33] ++ (script.drop 1).take 33 ++ [OP_CHECKSIG] :=
      eq_append_slice_append (d := 0) (by simp [length]) (fun i (lt : i < 1) => by interval_cases i; assumption)
        (fun i (lt : i < 1) => by interval_cases i; assumption)
    have first : ((script.drop 1).take 33).getD 0 0 = script.getD 1 0 := by
      conv_rhs => rw [whole]
      exact (getD_frame [33] _ [OP_CHECKSIG] 0 (by simp [length])).symm
    exact .inl ⟨by simp [length], first ▸ header, whole⟩
  · split at h
    · rename_i shape
      obtain ⟨length, push, check, header⟩ := shape
      dsimp only at h
      split at h
      · rename_i valid
        cases h
        have whole : script = [65] ++ (script.drop 1).take 65 ++ [OP_CHECKSIG] :=
          eq_append_slice_append (d := 0) (by simp [length]) (fun i (lt : i < 1) => by interval_cases i; assumption)
            (fun i (lt : i < 1) => by interval_cases i; assumption)
        have first : ((script.drop 1).take 65).getD 0 0 = script.getD 1 0 := by
          conv_rhs => rw [whole]
          exact (getD_frame [65] _ [OP_CHECKSIG] 0 (by simp [length])).symm
        exact .inr ⟨by simp [length], first ▸ header, valid, whole⟩
      · cases h
    · cases h

theorem parity_cases (b : UInt8) : b &&& 0x01 = 0 ∨ b &&& 0x01 = 1 := by
  have bit : (b &&& 0x01).toNat = b.toNat % 2 := by
    rw [UInt8.toNat_and, show (0x01 : UInt8).toNat = 1 from rfl, Nat.and_one_is_mod]
  rcases Nat.mod_two_eq_zero_or_one b.toNat with even | odd
  · exact .inl (UInt8.toNat_inj.mp (by rw [bit, even]; rfl))
  · exact .inr (UInt8.toNat_inj.mp (by rw [bit, odd]; rfl))

theorem Decompress_keyID (P : CPubKeyOps) {payload : List UInt8} (length : payload.length = 20) (old : CScript) :
    Decompress P 0 payload old = (true, [OP_DUP, OP_HASH160, 20] ++ payload ++ [OP_EQUALVERIFY, OP_CHECKSIG]) := by
  rw [show Decompress P 0 payload old = (true, [OP_DUP, OP_HASH160, 20] ++ payload.take 20 ++ [OP_EQUALVERIFY, OP_CHECKSIG])
    from rfl, List.take_of_length_le (by omega)]

theorem Decompress_scriptID (P : CPubKeyOps) {payload : List UInt8} (length : payload.length = 20) (old : CScript) :
    Decompress P 1 payload old = (true, [OP_HASH160, 20] ++ payload ++ [OP_EQUAL]) := by
  rw [show Decompress P 1 payload old = (true, [OP_HASH160, 20] ++ payload.take 20 ++ [OP_EQUAL]) from rfl,
    List.take_of_length_le (by omega)]

theorem Decompress_compressedKey (P : CPubKeyOps) {tag : UInt8} (header : tag = 0x02 ∨ tag = 0x03)
    (payload : List UInt8) (old : CScript) :
    Decompress P tag.toNat payload old = (true, [33, tag] ++ payload.take 32 ++ [OP_CHECKSIG]) := by
  rcases header with rfl | rfl <;> rfl

theorem Decompress_uncompressedKey (P : CPubKeyOps) (b : UInt8) (payload : List UInt8) (old : CScript) :
    Decompress P (0x04 ||| (b &&& 0x01)).toNat payload old =
      match P.Decompress ((0x02 ||| (b &&& 0x01)) :: payload.take 32) with
      | none => (false, old)
      | some pubkey => (true, [65] ++ pubkey ++ [OP_CHECKSIG]) := by
  rcases parity_cases b with parity | parity <;> rw [parity] <;> rfl

/-- A compressed script is a tag below `nSpecialScripts` and a payload of the tag's special
size, from which `Decompress` rebuilds the script, whatever the script was before. -/
theorem Compress_spec {P : CPubKeyOps} (inverts : P.DecompressInverts) {script compr : List UInt8}
    (h : Compress P script = some compr) :
    ∃ tag payload, compr = tag :: payload ∧ tag.toNat < nSpecialScripts ∧
      payload.length = GetSpecialSize tag.toNat ∧ ∀ old, Decompress P tag.toNat payload old = (true, script) := by
  unfold Compress at h
  cases keyID? : IsToKeyID script with
  | some keyID =>
    simp only [keyID?, Option.some.injEq] at h
    subst h
    obtain ⟨length, shape⟩ := IsToKeyID_spec keyID?
    exact ⟨0, keyID, rfl, by decide, by rw [length]; rfl, fun old => by rw [shape]; exact Decompress_keyID P length old⟩
  | none =>
  cases scriptID? : IsToScriptID script with
  | some scriptID =>
    simp only [keyID?, scriptID?, Option.some.injEq] at h
    subst h
    obtain ⟨length, shape⟩ := IsToScriptID_spec scriptID?
    exact ⟨1, scriptID, rfl, by decide, by rw [length]; rfl, fun old => by rw [shape]; exact Decompress_scriptID P length old⟩
  | none =>
  cases pubkey? : IsToPubKey P script with
  | none => simp [keyID?, scriptID?, pubkey?] at h
  | some pubkey =>
    simp only [keyID?, scriptID?, pubkey?] at h
    have tail := eq_cons_drop_one (0 : UInt8) (l := pubkey)
    rcases IsToPubKey_spec pubkey? with ⟨length, header, shape⟩ | ⟨length, header, valid, shape⟩
    · rw [if_pos header, Option.some.injEq] at h
      subst h
      have payload : ((pubkey.drop 1).take 32).length = 32 := by simp [length]
      refine ⟨pubkey.getD 0 0, (pubkey.drop 1).take 32, rfl, ?_, ?_, fun old => ?_⟩
      · rcases header with tag | tag <;> rw [tag] <;> decide
      · rcases header with tag | tag <;> rw [tag, payload] <;> rfl
      · rw [Decompress_compressedKey P header, List.take_of_length_le (by omega),
          List.take_of_length_le (by simp [length]), shape]
        conv_rhs => rw [tail (by omega)]
        rfl
    · rw [if_neg (by rw [header]; decide), if_pos header, Option.some.injEq] at h
      subst h
      have payload : ((pubkey.drop 1).take 32).length = 32 := by simp [length]
      refine ⟨0x04 ||| (pubkey.getD 64 0 &&& 0x01), (pubkey.drop 1).take 32, rfl, ?_, ?_, fun old => ?_⟩
      · rcases parity_cases (pubkey.getD 64 0) with parity | parity <;> rw [parity] <;> decide
      · rcases parity_cases (pubkey.getD 64 0) with parity | parity <;> rw [parity, payload] <;> rfl
      · rw [Decompress_uncompressedKey, List.take_take, Nat.min_self, inverts pubkey length header valid, shape]

/-- Every script of at most `MAX_SCRIPT_SIZE` bytes reads back as it was written, into any old
script and from any stream that goes on after it. -/
theorem Unserialize_Serialize {P : CPubKeyOps} (inverts : P.DecompressInverts) {script : CScript}
    (short : script.length ≤ MAX_SCRIPT_SIZE) :
    ∃ bytes, Serialize P script = some bytes ∧
      ∀ old rest, (Unserialize P old).run (bytes ++ rest) = .ok (script, rest) := by
  cases compressed : Compress P script with
  | some compr =>
    obtain ⟨tag, payload, rfl, special, size, rebuild⟩ := Compress_spec inverts compressed
    refine ⟨tag :: payload, by rw [Serialize, compressed], fun old rest => ?_⟩
    have small : tag.toNat < 6 := special
    have tagByte : tag :: payload ++ rest = VarInt.varIntBytes false tag.toNat ++ (payload ++ rest) := by
      rw [VarInt.varIntBytes_of_le (by omega), Nat.toUInt8, UInt8.ofNat_toNat]
      rfl
    have read := VarInt.ReadVarInt_ofNat (by decide : 7 ≤ 32) (by omega : tag.toNat < 2 ^ 32) (payload ++ rest)
    have low : (BitVec.ofNat 32 tag.toNat).toNat = tag.toNat := by
      rw [BitVec.toNat_ofNat]
      omega
    rw [tagByte, Unserialize, Codec.run_bind_of_run read]
    rw [low, if_pos special, ← size, Codec.run_bind_of_run (CDataStream.read_append payload rest), Codec.run_pure,
      rebuild old]
  | none =>
    have fits : script.length + nSpecialScripts < 2 ^ 32 := by
      unfold nSpecialScripts
      unfold MAX_SCRIPT_SIZE at short
      omega
    refine ⟨VarInt.varIntBytes false (script.length + nSpecialScripts) ++ script, ?_, fun old rest => ?_⟩
    · rw [Serialize, compressed]
      simp only [VarInt.WriteVarInt_ofNat (by decide : 7 ≤ 32) fits]
      rfl
    · have read := VarInt.ReadVarInt_ofNat (by decide : 7 ≤ 32) fits (script ++ rest)
      have size : (BitVec.ofNat 32 (script.length + nSpecialScripts)).toNat = script.length + nSpecialScripts := by
        rw [BitVec.toNat_ofNat]
        omega
      have length : (BitVec.ofNat 32 (script.length + nSpecialScripts) - BitVec.ofNat 32 nSpecialScripts).toNat =
          script.length := by
        rw [BitVec.toNat_sub, size, BitVec.toNat_ofNat]
        unfold nSpecialScripts at fits ⊢
        omega
      rw [List.append_assoc, Unserialize, Codec.run_bind_of_run read]
      rw [size, if_neg (by omega)]
      dsimp only
      rw [length, if_neg (by omega), CDataStream.read_append]

end CScriptCompressor

namespace CTxOutCompressor

/-- `SerializationOp` writing: `VARINT(CompressAmount((uint64_t)nValue))` and the compressed
script. -/
def Serialize (P : CPubKeyOps) (txout : CTxOut) : Option (List UInt8) := do
  let nVal := CompressAmount (UInt64.ofInt txout.nValue)
  let value ← VarInt.WriteVarInt nVal.toBitVec
  let script ← CScriptCompressor.Serialize P txout.scriptPubKey
  pure (value ++ script)

/-- `SerializationOp` reading into `txout`: the `uint64_t` that `DecompressAmount` returns is
stored in the `int64_t` field, which keeps its bits. -/
def Unserialize (P : CPubKeyOps) (txout : CTxOut) : Unserializer CTxOut := do
  let nVal : BitVec 64 ← VarInt.ReadVarInt
  let nValue : CAmount := (DecompressAmount (UInt64.ofBitVec nVal)).toInt64.toInt
  let scriptPubKey ← CScriptCompressor.Unserialize P txout.scriptPubKey
  pure ⟨nValue, scriptPubKey⟩

/-- The value an output is read back with. -/
def valueRoundTrip (nValue : CAmount) : CAmount :=
  (DecompressAmount (CompressAmount (UInt64.ofInt nValue))).toInt64.toInt

/-- An output reads back with its script and with its value through `valueRoundTrip`. -/
theorem Unserialize_Serialize {P : CPubKeyOps} (inverts : P.DecompressInverts) {txout : CTxOut}
    (short : txout.scriptPubKey.length ≤ MAX_SCRIPT_SIZE) :
    ∃ bytes, Serialize P txout = some bytes ∧
      ∀ old rest, (Unserialize P old).run (bytes ++ rest) =
        .ok (⟨valueRoundTrip txout.nValue, txout.scriptPubKey⟩, rest) := by
  obtain ⟨scriptBytes, written, read⟩ := CScriptCompressor.Unserialize_Serialize inverts short
  have code := VarInt.WriteVarInt_eq (by decide : 7 ≤ 64) (CompressAmount (UInt64.ofInt txout.nValue)).toBitVec
  rw [UInt64.toNat_toBitVec] at code
  refine ⟨VarInt.varIntBytes false (CompressAmount (UInt64.ofInt txout.nValue)).toNat ++ scriptBytes, ?_,
    fun old rest => ?_⟩
  · simp only [Serialize, code, written]
    rfl
  · have value := VarInt.ReadVarInt_varIntBytes (by decide : 7 ≤ 64)
      (CompressAmount (UInt64.ofInt txout.nValue)).toBitVec (scriptBytes ++ rest)
    rw [UInt64.toNat_toBitVec] at value
    rw [List.append_assoc, Unserialize, Codec.run_bind_of_run value]
    dsimp only
    rw [Codec.run_bind_of_run (read old.scriptPubKey rest), Codec.run_pure]
    rfl

end CTxOutCompressor

/-- The code `nHeight * 2 + fCashBase` of a coin. -/
def heightCode (nHeight : Nat) (fCashBase : Bool) : Nat := nHeight * 2 + if fCashBase then 1 else 0

/-- `Cash::Serialize`. `none` where the source's behaviour is undefined: `assert(!IsSpent())`
fails, or `nHeight * 2 + fCashBase` overflows `int`, to which both bit-fields are promoted. -/
def Cash.Serialize (P : CPubKeyOps) (cash : Cash) : Option (List UInt8) := do
  if cash.IsSpent then none
  let code := heightCode cash.nHeight cash.fCashBase
  if 2 ^ 31 ≤ code then none
  let codeBytes ← VarInt.WriteVarInt (BitVec.ofNat 32 code)
  let out ← CTxOutCompressor.Serialize P cash.out
  pure (codeBytes ++ out)

/-- `Cash::Unserialize` into `cash`: `nHeight = code >> 1`, `fCashBase = code & 1`, then the
output. -/
def Cash.Unserialize (P : CPubKeyOps) (cash : Cash) : Unserializer Cash := do
  let code : BitVec 32 ← VarInt.ReadVarInt
  let out ← CTxOutCompressor.Unserialize P cash.out
  pure ⟨out, code &&& 1 != 0, (code >>> 1).toNat⟩

/-- `TxInUndoSerializer::Serialize`: the code, a dummy zero byte after a height above 0, and
the output. `none` where `txout->nHeight * 2` overflows `int`. -/
def TxInUndoSerializer.Serialize (P : CPubKeyOps) (txout : Cash) : Option (List UInt8) := do
  if 2 ^ 31 ≤ txout.nHeight * 2 then none
  let codeBytes ← VarInt.WriteVarInt (BitVec.ofNat 32 (heightCode txout.nHeight txout.fCashBase))
  let dummy : List UInt8 := if 0 < txout.nHeight then [0] else []
  let out ← CTxOutCompressor.Serialize P txout.out
  pure (codeBytes ++ dummy ++ out)

/-- `TxInUndoDeserializer::Unserialize` into `txout`: `nHeight = nCode / 2`,
`fCashBase = nCode & 1`, the `VARINT(nVersionDummy)` after a height above 0, then the output. -/
def TxInUndoDeserializer.Unserialize (P : CPubKeyOps) (txout : Cash) : Unserializer Cash := do
  let nCode : BitVec 32 ← VarInt.ReadVarInt
  let nHeight := nCode.toNat / 2
  let fCashBase := nCode &&& 1 != 0
  if 0 < nHeight then
    let _nVersionDummy : BitVec 32 ← VarInt.ReadVarInt
    pure ()
  let out ← CTxOutCompressor.Unserialize P txout.out
  pure ⟨out, fCashBase, nHeight⟩

theorem heightCode_fields {nHeight : Nat} (fCashBase : Bool) (fits : heightCode nHeight fCashBase < 2 ^ 32) :
    (BitVec.ofNat 32 (heightCode nHeight fCashBase) &&& 1 != 0) = fCashBase ∧
      (BitVec.ofNat 32 (heightCode nHeight fCashBase) >>> 1).toNat = nHeight ∧
      (BitVec.ofNat 32 (heightCode nHeight fCashBase)).toNat / 2 = nHeight := by
  have value : (BitVec.ofNat 32 (heightCode nHeight fCashBase)).toNat = heightCode nHeight fCashBase := by
    rw [BitVec.toNat_ofNat]
    exact Nat.mod_eq_of_lt fits
  have half : heightCode nHeight fCashBase / 2 = nHeight := by
    unfold heightCode
    split <;> omega
  have low : (BitVec.ofNat 32 (heightCode nHeight fCashBase) &&& 1).toNat = if fCashBase then 1 else 0 := by
    rw [BitVec.toNat_and, value, show (1 : BitVec 32).toNat = 1 from rfl, Nat.and_one_is_mod]
    unfold heightCode
    split <;> omega
  refine ⟨?_, by rw [BitVec.toNat_ushiftRight, value, Nat.shiftRight_eq_div_pow, pow_one, half], by rw [value, half]⟩
  cases fCashBase
  · have zero : BitVec.ofNat 32 (heightCode nHeight false) &&& 1 = 0 := BitVec.eq_of_toNat_eq (by rw [low]; rfl)
    rw [zero]
    rfl
  · have one : BitVec.ofNat 32 (heightCode nHeight true) &&& 1 = 1 := BitVec.eq_of_toNat_eq (by rw [low]; rfl)
    rw [one]
    rfl

theorem heightCode_lt {nHeight : Nat} (fCashBase : Bool) (low : nHeight < 2 ^ 30) :
    heightCode nHeight fCashBase < 2 ^ 31 := by
  unfold heightCode
  split <;> omega

/-- A coin below height `2^30` with a script of at most `MAX_SCRIPT_SIZE` bytes reads back with
its height, its cashbase bit and its script, and with its value through `valueRoundTrip`. -/
theorem Cash.Unserialize_Serialize {P : CPubKeyOps} (inverts : P.DecompressInverts) {cash : Cash}
    (unspent : cash.IsSpent = false) (low : cash.nHeight < 2 ^ 30)
    (short : cash.out.scriptPubKey.length ≤ MAX_SCRIPT_SIZE) :
    ∃ bytes, Cash.Serialize P cash = some bytes ∧
      ∀ old rest, (Cash.Unserialize P old).run (bytes ++ rest) =
        .ok (⟨⟨CTxOutCompressor.valueRoundTrip cash.out.nValue, cash.out.scriptPubKey⟩, cash.fCashBase,
          cash.nHeight⟩, rest) := by
  obtain ⟨outBytes, written, read⟩ := CTxOutCompressor.Unserialize_Serialize inverts short
  have fits := heightCode_lt cash.fCashBase low
  obtain ⟨base, height, -⟩ := heightCode_fields cash.fCashBase (by omega : heightCode cash.nHeight cash.fCashBase < 2 ^ 32)
  refine ⟨VarInt.varIntBytes false (heightCode cash.nHeight cash.fCashBase) ++ outBytes, ?_, fun old rest => ?_⟩
  · simp only [Cash.Serialize, unspent, Bool.false_eq_true, ↓reduceIte, if_neg (Nat.not_le.mpr fits),
      VarInt.WriteVarInt_ofNat (by decide : 7 ≤ 32) (by omega : heightCode cash.nHeight cash.fCashBase < 2 ^ 32), written]
    rfl
  · rw [List.append_assoc, Cash.Unserialize,
      Codec.run_bind_of_run (VarInt.ReadVarInt_ofNat (by decide : 7 ≤ 32) (by omega) _),
      Codec.run_bind_of_run (read old.out rest), Codec.run_pure, base, height]

/-- The undo record of a coin below height `2^30`, with a script of at most `MAX_SCRIPT_SIZE`
bytes, reads back as `Cash::Unserialize` reads the coin. -/
theorem TxInUndoDeserializer.Unserialize_Serialize {P : CPubKeyOps} (inverts : P.DecompressInverts) {cash : Cash}
    (low : cash.nHeight < 2 ^ 30) (short : cash.out.scriptPubKey.length ≤ MAX_SCRIPT_SIZE) :
    ∃ bytes, TxInUndoSerializer.Serialize P cash = some bytes ∧
      ∀ old rest, (TxInUndoDeserializer.Unserialize P old).run (bytes ++ rest) =
        .ok (⟨⟨CTxOutCompressor.valueRoundTrip cash.out.nValue, cash.out.scriptPubKey⟩, cash.fCashBase,
          cash.nHeight⟩, rest) := by
  obtain ⟨outBytes, written, read⟩ := CTxOutCompressor.Unserialize_Serialize inverts short
  have fits := heightCode_lt cash.fCashBase low
  obtain ⟨base, -, height⟩ := heightCode_fields cash.fCashBase (by omega : heightCode cash.nHeight cash.fCashBase < 2 ^ 32)
  let dummy : List UInt8 := if 0 < cash.nHeight then [0] else []
  refine ⟨VarInt.varIntBytes false (heightCode cash.nHeight cash.fCashBase) ++ dummy ++ outBytes, ?_,
    fun old rest => ?_⟩
  · simp only [TxInUndoSerializer.Serialize, if_neg (show ¬2 ^ 31 ≤ cash.nHeight * 2 by omega),
      VarInt.WriteVarInt_ofNat (by decide : 7 ≤ 32) (by omega : heightCode cash.nHeight cash.fCashBase < 2 ^ 32), written]
    rfl
  · rw [List.append_assoc, List.append_assoc, TxInUndoDeserializer.Unserialize,
      Codec.run_bind_of_run (VarInt.ReadVarInt_ofNat (by decide : 7 ≤ 32) (by omega) _)]
    dsimp only
    rw [height, base]
    by_cases positive : 0 < cash.nHeight
    · have zero : dummy ++ (outBytes ++ rest) = VarInt.varIntBytes false 0 ++ (outBytes ++ rest) := by
        rw [VarInt.varIntBytes_of_le (by omega)]
        simp [dummy, positive]
      rw [if_pos positive, zero, Codec.run_bind_of_run (VarInt.ReadVarInt_ofNat (by decide : 7 ≤ 32) (by omega) _),
        Codec.run_bind_of_run (read old.out rest), Codec.run_pure]
    · have none : dummy ++ (outBytes ++ rest) = outBytes ++ rest := by simp [dummy, positive]
      rw [if_neg positive, none, Codec.run_bind_of_run (read old.out rest), Codec.run_pure]

end SalemCash
