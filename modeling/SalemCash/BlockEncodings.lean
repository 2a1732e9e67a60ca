import SalemCash.HeaderIndex

/-!
# Compact blocks

`PartiallyDownloadedBlock::InitData` of `blockencodings.cpp` lays out the transactions of
a compact block: the prefilled ones at the positions their differential indexes give, then
each short ID at the next free position, found by a loop whose counter `index_offset` is a
`uint16_t`. The transactions it can place are bounded by
`MAX_BLOCK_WEIGHT / MIN_SERIALIZABLE_TRANSACTION_WEIGHT = 100000`, and the prefilled
positions only by `65535`. When the prefilled transactions take all of the positions
`0 .. 65535`, the counter wraps to `0` before it reaches the free position `65536`, and
the loop never ends.

The hash table of the short IDs is an association list; how `std::unordered_map` fills
its buckets is implementation-defined, so its bucket-size check is an argument.
-/
namespace SalemCash

/-- `CBlockHeader::IsNull`. -/
def CBlockHeader.IsNull (header : CBlockHeader) : Bool := header.nBits == 0

/-- `CTransaction::IsNull`. -/
def CTransaction.IsNull (tx : CTransaction) : Bool := tx.vin.isEmpty && tx.vout.isEmpty

def MAX_BLOCK_WEIGHT : Nat := 4000000

def WITNESS_SCALE_FACTOR : Nat := 4

/-- 10 is the lower bound for the size of a serialized `CTransaction`. -/
def MIN_SERIALIZABLE_TRANSACTION_WEIGHT : Nat := WITNESS_SCALE_FACTOR * 10

namespace BlockEncodings

structure PrefilledTransaction where
  /-- The offset from the previous prefilled transaction. -/
  index : UInt16
  tx : CTransaction
  deriving DecidableEq, Repr

structure CBlockHeaderAndShortTxIDs where
  header : CBlockHeader
  nonce : UInt64
  shorttxids : List UInt64
  prefilledtxn : List PrefilledTransaction
  deriving DecidableEq, Repr

def CBlockHeaderAndShortTxIDs.BlockTxCount (c : CBlockHeaderAndShortTxIDs) : Nat :=
  c.shorttxids.length + c.prefilledtxn.length

inductive ReadStatus
  | OK
  | INVALID
  | FAILED
  | CHECKBLOCK_FAILED
  deriving DecidableEq, Repr

/-- What the source leaves undefined or never finishes. -/
inductive InitFault
  /-- A vector read or written past its end. -/
  | out_of_bounds
  /-- A loop that had not ended when its fuel ran out. -/
  | out_of_fuel
  /-- `assert(header.IsNull() && txn_available.empty())`. -/
  | assertion_failure
  deriving DecidableEq, Repr

structure PartiallyDownloadedBlock where
  txn_available : List (Option CTransaction)
  header : CBlockHeader
  prefilled_count : Nat
  mempool_count : Nat
  extra_count : Nat

/-- `v[i]` of an `std::vector`. -/
def vecGet {α : Type} (v : List α) (i : Nat) : Except InitFault α :=
  if h : i < v.length then .ok v[i] else .error .out_of_bounds

/-- `v[i] = a` of an `std::vector`. -/
def vecSet {α : Type} (v : List α) (i : Nat) (a : α) : Except InitFault (List α) :=
  if i < v.length then .ok (v.set i a) else .error .out_of_bounds

theorem vecGet_of_lt {α : Type} {v : List α} {i : Nat} (h : i < v.length) :
    vecGet v i = .ok v[i] := by
  simp [vecGet, h]

theorem vecSet_of_lt {α : Type} {v : List α} {i : Nat} (h : i < v.length) (a : α) :
    vecSet v i a = .ok (v.set i a) := by
  simp [vecSet, h]

/-- `shorttxids[key] = value` on the `unordered_map`, kept as the list of its entries. -/
def mapAssign (map : List (UInt64 × UInt16)) (key : UInt64) (value : UInt16) :
    List (UInt64 × UInt16) :=
  if map.any (fun e => e.1 == key) then map.map fun e => if e.1 = key then (key, value) else e
  else map ++ [(key, value)]

/-- `shorttxids.find(key)`. -/
def mapFind (map : List (UInt64 × UInt16)) (key : UInt64) : Option UInt16 :=
  (map.find? fun e => e.1 == key).map Prod.snd

/-- The loop over the prefilled transactions: each goes to the position its differential
index gives, `lastprefilledindex` counting on from the previous one. -/
def prefilledLoop (S : Nat) : List PrefilledTransaction → Nat → Int → List (Option CTransaction) →
    Except InitFault (ReadStatus × List (Option CTransaction))
  | [], _, _, txn_available => .ok (.OK, txn_available)
  | p :: rest, i, lastprefilledindex, txn_available => do
    if p.tx.IsNull then return (.INVALID, txn_available)
    -- index is a uint16_t, so can't overflow here
    let lastprefilledindex := lastprefilledindex + p.index.toNat + 1
    if lastprefilledindex > 65535 then return (.INVALID, txn_available)
    -- a position past the short IDs and the prefilled transactions so far
    if lastprefilledindex.toNat > S + i then return (.INVALID, txn_available)
    let txn_available ← vecSet txn_available lastprefilledindex.toNat (some p.tx)
    prefilledLoop S rest (i + 1) lastprefilledindex txn_available

/-- `while (txn_available[i + index_offset]) index_offset++;`, the counter a `uint16_t`. -/
def skipTaken (txn_available : List (Option CTransaction)) (i : Nat) :
    Nat → UInt16 → Except InitFault UInt16
  | 0, _ => .error .out_of_fuel
  | fuel + 1, index_offset => do
    let slot ← vecGet txn_available (i + index_offset.toNat)
    if slot.isSome then skipTaken txn_available i fuel (index_offset + 1) else pure index_offset

/-- The loop over the short IDs: each is mapped to the next free position. -/
def shortIdLoop (fuel : Nat) (bucketOverflow : List (UInt64 × UInt16) → UInt64 → Bool)
    (txn_available : List (Option CTransaction)) :
    List UInt64 → Nat → UInt16 → List (UInt64 × UInt16) →
      Except InitFault (ReadStatus × List (UInt64 × UInt16))
  | [], _, _, shorttxids => .ok (.OK, shorttxids)
  | sid :: rest, i, index_offset, shorttxids => do
    let index_offset ← skipTaken txn_available i fuel index_offset
    let shorttxids := mapAssign shorttxids sid (UInt16.ofNat (i + index_offset.toNat))
    if bucketOverflow shorttxids sid then return (.FAILED, shorttxids)
    shortIdLoop fuel bucketOverflow txn_available rest (i + 1) index_offset shorttxids

/-- The vectors and counters the scans of the mempool and of `extra_txn` fill. -/
structure Fill where
  txn_available : List (Option CTransaction)
  have_txn : List Bool
  mempool_count : Nat
  extra_count : Nat

/-- The scan of `vTxHashes` of the mempool, or with `isExtra` of `extra_txn`, for the
transactions whose short IDs are in the map; a second match at one position drops it, in
`extra_txn` only if its witness hash differs. -/
def poolLoop (GetShortID : uint256 → UInt64) (GetWitnessHash : CTransaction → uint256)
    (isExtra : Bool) (shorttxids : List (UInt64 × UInt16)) :
    List (uint256 × CTransaction) → Fill → Except InitFault Fill
  | [], f => .ok f
  | (hash, tx) :: rest, f => do
    let f ← match mapFind shorttxids (GetShortID hash) with
      | none => pure f
      | some pos => do
        let have_ ← vecGet f.have_txn pos.toNat
        if !have_ then
          let txn_available ← vecSet f.txn_available pos.toNat (some tx)
          let have_txn ← vecSet f.have_txn pos.toNat true
          pure { f with
            txn_available, have_txn, mempool_count := f.mempool_count + 1,
            extra_count := if isExtra then f.extra_count + 1 else f.extra_count }
        else
          let slot ← vecGet f.txn_available pos.toNat
          if slot.isSome && (!isExtra || slot.map GetWitnessHash != some (GetWitnessHash tx)) then
            let txn_available ← vecSet f.txn_available pos.toNat none
            pure { f with
              txn_available, mempool_count := f.mempool_count - 1,
              extra_count := if isExtra then f.extra_count - 1 else f.extra_count }
          else pure f
    if f.mempool_count = shorttxids.length then return f
    poolLoop GetShortID GetWitnessHash isExtra shorttxids rest f

/-- `PartiallyDownloadedBlock::InitData`, with the mempool's `vTxHashes`. -/
def InitData (fuel : Nat) (GetShortID : uint256 → UInt64)
    (GetWitnessHash : CTransaction → uint256)
    (bucketOverflow : List (UInt64 × UInt16) → UInt64 → Bool)
    (vTxHashes : List (uint256 × CTransaction)) (self : PartiallyDownloadedBlock)
    (cmpctblock : CBlockHeaderAndShortTxIDs) (extra_txn : List (uint256 × CTransaction)) :
    Except InitFault (ReadStatus × PartiallyDownloadedBlock) := do
  if cmpctblock.header.IsNull ||
      (cmpctblock.shorttxids.isEmpty && cmpctblock.prefilledtxn.isEmpty) then
    return (.INVALID, self)
  if cmpctblock.shorttxids.length + cmpctblock.prefilledtxn.length >
      MAX_BLOCK_WEIGHT / MIN_SERIALIZABLE_TRANSACTION_WEIGHT then
    return (.INVALID, self)
  if !(self.header.IsNull && self.txn_available.isEmpty) then throw .assertion_failure
  let self := { self with
    header := cmpctblock.header, txn_available := List.replicate cmpctblock.BlockTxCount none }
  let (status, txn_available) ← prefilledLoop cmpctblock.shorttxids.length
    cmpctblock.prefilledtxn 0 (-1) self.txn_available
  let self := { self with txn_available }
  if status ≠ .OK then return (status, self)
  let self := { self with prefilled_count := cmpctblock.prefilledtxn.length }
  let (status, shorttxids) ← shortIdLoop fuel bucketOverflow self.txn_available
    cmpctblock.shorttxids 0 0 []
  if status ≠ .OK then return (status, self)
  -- Short ID collision
  if shorttxids.length ≠ cmpctblock.shorttxids.length then return (.FAILED, self)
  let f ← poolLoop GetShortID GetWitnessHash false shorttxids vTxHashes
    ⟨self.txn_available, List.replicate self.txn_available.length false, self.mempool_count,
      self.extra_count⟩
  let f ← poolLoop GetShortID GetWitnessHash true shorttxids extra_txn f
  return (.OK, { self with
    txn_available := f.txn_available, mempool_count := f.mempool_count,
    extra_count := f.extra_count })

/-- Prefilled transactions one after the other (differential index `0`), from position `j`
on, are all placed, and nothing before `j` changes. -/
theorem prefilledLoop_consecutive (S : Nat) (txs : List CTransaction)
    (htx : ∀ tx ∈ txs, tx.IsNull = false) (j : Nat) (txn_available : List (Option CTransaction))
    (h16 : j + txs.length ≤ 65536) (hlen : j + txs.length ≤ txn_available.length) :
    ∃ v, prefilledLoop S (txs.map fun tx => ⟨0, tx⟩) j ((j : Int) - 1) txn_available = .ok (.OK, v) ∧
      v.length = txn_available.length ∧
      (∀ k < j, v.getD k none = txn_available.getD k none) ∧
      ∀ k, j ≤ k → k < j + txs.length → (v.getD k none).isSome = true := by
  induction txs generalizing j txn_available with
  | nil => exact ⟨txn_available, rfl, rfl, fun _ _ => rfl, fun k h₁ h₂ => absurd h₂ (by simp; omega)⟩
  | cons tx rest ih =>
    have hnull := htx tx (List.mem_cons_self ..)
    simp only [List.length_cons] at h16 hlen
    have hj : j < txn_available.length := by omega
    obtain ⟨v, hv, hvl, hvlow, hvset⟩ := ih (fun t ht => htx t (List.mem_cons_of_mem _ ht)) (j + 1)
      (txn_available.set j (some tx)) (by omega) (by rw [List.length_set]; omega)
    have hlast : (j : Int) - 1 + ((0 : UInt16).toNat : Int) + 1 = ((j + 1 : Nat) : Int) - 1 := by
      simp only [UInt16.toNat_zero, Nat.cast_zero, Nat.cast_add, Nat.cast_one]
      omega
    refine ⟨v, ?_, by rw [hvl, List.length_set], fun k hk => ?_, fun k hk₁ hk₂ => ?_⟩
    · simp only [List.map_cons, prefilledLoop, hnull, Bool.false_eq_true, if_false, hlast]
      rw [if_neg (by omega), if_neg (by omega), show (((j + 1 : Nat) : Int) - 1).toNat = j by omega,
        vecSet_of_lt hj, ExceptLogic.ok_bind]
      exact hv
    · rw [hvlow k (by omega)]
      simp [List.getD_eq_getElem?_getD, show j ≠ k by omega]
    · rcases Nat.lt_or_ge k (j + 1) with hlt | hge
      · obtain rfl : k = j := by omega
        rw [hvlow k (by omega), List.getD_eq_getElem?_getD, List.getElem?_set_self hj]
        rfl
      · exact hvset k hge (by simp only [List.length_cons] at hk₂; omega)

/-- While every position a 16-bit offset can reach is taken, the loop that looks for a free
one runs out of any fuel. -/
theorem skipTaken_out_of_fuel (txn_available : List (Option CTransaction))
    (htaken : ∀ k < 65536, (txn_available.getD k none).isSome = true)
    (hlen : 65536 ≤ txn_available.length) (fuel : Nat) (index_offset : UInt16) :
    skipTaken txn_available 0 fuel index_offset = .error .out_of_fuel := by
  induction fuel generalizing index_offset with
  | zero => rfl
  | succ fuel ih =>
    have hlt := index_offset.toNat_lt
    have hk : index_offset.toNat < txn_available.length := by omega
    have hsome := htaken index_offset.toNat hlt
    rw [List.getD_eq_getElem?_getD, List.getElem?_eq_getElem hk] at hsome
    simp only [skipTaken, Nat.zero_add, vecGet_of_lt hk, ExceptLogic.ok_bind]
    rw [if_pos (by simpa using hsome)]
    exact ih (index_offset + 1)

/-- A compact block with one short ID and 65536 prefilled transactions at the positions
`0 .. 65535` passes every check of `InitData` before the short IDs, and then `InitData`
does not end: for every fuel it runs out. -/
theorem InitData_loops (fuel : Nat) (GetShortID : uint256 → UInt64)
    (GetWitnessHash : CTransaction → uint256)
    (bucketOverflow : List (UInt64 × UInt16) → UInt64 → Bool)
    (vTxHashes : List (uint256 × CTransaction)) (self : PartiallyDownloadedBlock)
    (hself : self.header.IsNull = true ∧ self.txn_available = [])
    (header : CBlockHeader) (hheader : header.IsNull = false) (nonce sid : UInt64)
    (txs : List CTransaction) (hlen : txs.length = 65536) (htx : ∀ tx ∈ txs, tx.IsNull = false)
    (extra_txn : List (uint256 × CTransaction)) :
    InitData fuel GetShortID GetWitnessHash bucketOverflow vTxHashes self
      ⟨header, nonce, [sid], txs.map fun tx => ⟨0, tx⟩⟩ extra_txn = .error .out_of_fuel := by
  obtain ⟨v, hv, hvl, -, hvset⟩ := prefilledLoop_consecutive [sid].length txs htx 0
    (List.replicate (CBlockHeaderAndShortTxIDs.BlockTxCount
      ⟨header, nonce, [sid], txs.map fun tx => ⟨0, tx⟩⟩) none) (by omega)
    (by
      rw [List.length_replicate]
      simp only [CBlockHeaderAndShortTxIDs.BlockTxCount, List.length_cons, List.length_nil,
        List.length_map, hlen]
      omega)
  rw [List.length_replicate] at hvl
  simp only [CBlockHeaderAndShortTxIDs.BlockTxCount, List.length_cons, List.length_nil,
    List.length_map, hlen] at hvl
  simp only [Nat.cast_zero, zero_sub] at hv
  have hloop := skipTaken_out_of_fuel v (fun k hk => hvset k (Nat.zero_le k) (by omega))
    (by omega) fuel 0
  unfold InitData
  dsimp only
  rw [if_neg (by simp [hheader]), if_neg (by simp [hlen, MAX_BLOCK_WEIGHT,
    MIN_SERIALIZABLE_TRANSACTION_WEIGHT, WITNESS_SCALE_FACTOR]),
    if_neg (by simp [hself.1, hself.2]), hv, ExceptLogic.ok_bind]
  dsimp only
  rw [if_neg (by simp)]
  simp only [shortIdLoop, hloop, ExceptLogic.error_bind]

/-- A transaction that spends one input and is not null. -/
def oneInputTx : CTransaction := ⟨[default], [], 1, 0⟩

/-- A header with the genesis block's `nBits`, not null. -/
def compactHeader : CBlockHeader := ⟨1, uint256.zero, uint256.zero, 0, 0x1d00ffff, 0⟩

/-- A fresh `PartiallyDownloadedBlock`, its header null. -/
def freshBlock : PartiallyDownloadedBlock :=
  ⟨[], ⟨0, uint256.zero, uint256.zero, 0, 0, 0⟩, 0, 0, 0⟩

theorem InitData_loops_prefilled_65536 :
    InitData 1000000 (fun _ => 0) (fun _ => uint256.zero) (fun _ _ => false) [] freshBlock
      ⟨compactHeader, 0, [0], (List.replicate 65536 oneInputTx).map fun tx => ⟨0, tx⟩⟩ [] =
      .error .out_of_fuel :=
  InitData_loops 1000000 (fun _ => 0) (fun _ => uint256.zero) (fun _ _ => false) [] freshBlock
    ⟨rfl, rfl⟩ compactHeader rfl 0 0 (List.replicate 65536 oneInputTx) (List.length_replicate ..)
    (fun tx h => by rw [List.eq_of_mem_replicate h]; rfl) []

end BlockEncodings

end SalemCash
