import Mathlib.Data.Finset.Card
import SalemCash.Unserialize

/-!
# Requests for the transactions of a compact block

`BlockTransactionsRequest` of `blockencodings.h` names the transactions a node is missing
from a compact block by their positions, a strictly increasing list of `uint16_t`. It is
sent differentially: each position as its distance from the first position after the one
before it (`differences`), and added back up by the reader (`undifferences`). On strictly
increasing lists the two are inverse, and what `Serialize` writes `Unserialize` reads back
(`Unserialize_Serialize`).

The reader reads a hash, a count and that many distances of at most `65535`, added up by
`addOffsets` (`Unserialize_run`). `addOffsets` keeps its running `offset` in a `uint16_t` and
checks each sum in 64 bits, but `offset = indexes[j] + 1` is not checked: after the position
`65535` it wraps to `0`, so a request that names `65535` and then any position passes every
check.
-/
namespace SalemCash

/-- The distances of a list of positions, each from the first position after the one before
it; the first from `next`. -/
def differences : Nat → List Nat → List Nat
  | _, [] => []
  | next, index :: indexes => (index - next) :: differences (index + 1) indexes

/-- The positions a list of distances names, counted from `next`. -/
def undifferences : Nat → List Nat → List Nat
  | _, [] => []
  | next, gap :: gaps => (next + gap) :: undifferences (next + gap + 1) gaps

@[simp] theorem length_differences (next : Nat) (indexes : List Nat) :
    (differences next indexes).length = indexes.length := by
  induction indexes generalizing next with
  | nil => rfl
  | cons index indexes ih => simp [differences, ih]

/-- No distance is larger than the largest position. -/
theorem differences_le {bound : Nat} (next : Nat) (indexes : List Nat) (le : ∀ index ∈ indexes, index ≤ bound) :
    ∀ gap ∈ differences next indexes, gap ≤ bound := by
  induction indexes generalizing next with
  | nil => simp [differences]
  | cons index indexes ih =>
    intro gap mem
    rw [differences, List.mem_cons] at mem
    rcases mem with rfl | mem
    · exact Nat.le_trans (Nat.sub_le index next) (le index List.mem_cons_self)
    · exact ih (index + 1) (fun x mem => le x (List.mem_cons_of_mem index mem)) gap mem

/-- Adding the distances of a strictly increasing list back up gives the list. -/
theorem undifferences_differences (next : Nat) (indexes : List Nat) (sorted : indexes.Pairwise (· < ·))
    (above : ∀ index ∈ indexes, next ≤ index) : undifferences next (differences next indexes) = indexes := by
  induction indexes generalizing next with
  | nil => rfl
  | cons index indexes ih =>
    rw [List.pairwise_cons] at sorted
    have first : next ≤ index := above index List.mem_cons_self
    rw [differences, undifferences, Nat.add_sub_cancel' first, ih (index + 1) sorted.2 sorted.1]

/-- A strictly increasing list of positions below `bound` has at most `bound` of them. -/
theorem length_le_of_pairwise {bound : Nat} {indexes : List Nat} (sorted : indexes.Pairwise (· < ·))
    (below : ∀ index ∈ indexes, index < bound) : indexes.length ≤ bound := by
  have nodup : indexes.Nodup := sorted.imp fun lt => Nat.ne_of_lt lt
  have sub : indexes.toFinset ⊆ Finset.range bound := fun x mem =>
    Finset.mem_range.mpr (below x (List.mem_toFinset.mp mem))
  calc indexes.length = indexes.toFinset.card := (List.toFinset_card_of_nodup nodup).symm
    _ ≤ (Finset.range bound).card := Finset.card_le_card sub
    _ = bound := Finset.card_range bound

structure BlockTransactionsRequest where
  blockhash : uint256
  indexes : List UInt16
  deriving DecidableEq, Repr

namespace BlockTransactionsRequest

/-- The writing loop: `indexes[i] - (i == 0 ? 0 : (indexes[i - 1] + 1))`, an `int` converted
to `uint64_t`; `base` is the term in parentheses. -/
def writeDifferences (base : Nat) : List UInt16 → List UInt8
  | [] => []
  | index :: indexes =>
    WriteCompactSize (UInt64.ofInt ((index.toNat : Int) - base)).toNat ++ writeDifferences (index.toNat + 1) indexes

/-- `SerializationOp` writing. -/
def Serialize (req : BlockTransactionsRequest) : List UInt8 :=
  req.blockhash.serialize ++ WriteCompactSize req.indexes.length ++ writeDifferences 0 req.indexes

/-- A distance of the first reading loop: a `CompactSize` that must fit in a `uint16_t`. -/
def readIndex : Unserializer UInt16 := do
  let index ← ReadCompactSize
  if index > 0xffff then throw ⟨"index overflowed 16 bits"⟩
  pure index.toUInt16

/-- The second reading loop: each distance plus the running `uint16_t` `offset`, which then
moves to one after the position. The sum is checked in `uint64_t`; the new offset is not. -/
def addOffsets (offset : UInt16) : List UInt16 → Except ios_failure (List UInt16)
  | [] => .ok []
  | index :: indexes =>
    if index.toUInt64 + offset.toUInt64 > 0xffff then .error ⟨"indexes overflowed 16 bits"⟩
    else
      let index := index + offset
      (addOffsets (index + 1) indexes).map (index :: ·)

/-- `SerializationOp` reading into a request whose `indexes` starts empty, so that the rounds
of `resize` read every slot. Each round reads at least one distance, so `indexes_size` rounds
are enough. -/
def Unserialize : Unserializer BlockTransactionsRequest := do
  let blockhash ← uint256.unserialize
  let indexes_size ← ReadCompactSize
  let indexes ← Codec.readRounds readIndex 1000 indexes_size.toNat indexes_size.toNat []
  let indexes ← StateT.lift (addOffsets 0 indexes)
  pure ⟨blockhash, indexes⟩

/-- On a strictly increasing list every distance is at least `0`, so the `uint64_t` is the
distance itself. -/
theorem writeDifferences_eq (base : Nat) (indexes : List UInt16) (sorted : indexes.Pairwise (· < ·))
    (above : ∀ index ∈ indexes, base ≤ index.toNat) :
    writeDifferences base indexes = (differences base (indexes.map UInt16.toNat)).flatMap WriteCompactSize := by
  induction indexes generalizing base with
  | nil => rfl
  | cons index indexes ih =>
    rw [List.pairwise_cons] at sorted
    have first : base ≤ index.toNat := above index List.mem_cons_self
    have gap : (UInt64.ofInt ((index.toNat : Int) - base)).toNat = index.toNat - base := by
      have := index.toNat_lt
      rw [UInt64.ofInt, UInt64.toNat_ofNat']
      omega
    have later : ∀ x ∈ indexes, index.toNat + 1 ≤ x.toNat := fun x mem =>
      UInt16.lt_iff_toNat_lt.mp (sorted.1 x mem)
    rw [writeDifferences, gap, ih (index.toNat + 1) sorted.2 later]
    rfl

theorem readIndex_reads : Codec.Reads readIndex (fun index => WriteCompactSize index.toNat) (fun _ => True) := by
  intro index _ rest
  have lt := index.toNat_lt
  have small : index.toUInt64.toNat ≤ MAX_SIZE := by
    simp only [UInt16.toNat_toUInt64, MAX_SIZE]
    omega
  have count := ReadCompactSize_reads index.toUInt64 small rest
  dsimp only at count ⊢
  rw [UInt16.toNat_toUInt64] at count
  rw [readIndex, Codec.run_bind_of_run count, if_neg (by simp [UInt64.lt_iff_toNat_lt]; omega)]
  simp only [UInt16.toUInt16_toUInt64]
  rfl

/-- What `Unserialize` does with a hash, a count and that many distances: it reads them and
adds them up. -/
theorem Unserialize_run (blockhash : uint256) (gaps : List UInt16) (small : gaps.length ≤ MAX_SIZE)
    (rest : List UInt8) :
    Unserialize.run (blockhash.serialize ++ WriteCompactSize gaps.length ++
        gaps.flatMap (fun gap => WriteCompactSize gap.toNat) ++ rest) =
      (addOffsets 0 gaps).map fun indexes => (⟨blockhash, indexes⟩, rest) := by
  have size : (UInt64.ofNat gaps.length).toNat = gaps.length := by
    rw [UInt64.toNat_ofNat', Nat.mod_eq_of_lt (Nat.lt_of_le_of_lt small (by decide))]
  have count := ReadCompactSize_reads (UInt64.ofNat gaps.length)
    (show (UInt64.ofNat gaps.length).toNat ≤ MAX_SIZE by rw [size]; exact small)
    (gaps.flatMap (fun gap => WriteCompactSize gap.toNat) ++ rest)
  have distances := (readIndex_reads.readCount gaps.length) gaps ⟨rfl, fun _ _ => trivial⟩ rest
  dsimp only at count distances
  rw [size] at count
  simp only [List.append_assoc]
  rw [Unserialize, Codec.run_bind_of_run (uint256.unserialize_reads blockhash trivial _),
    Codec.run_bind_of_run count, size, Codec.readRounds_eq (by decide) _ _ [] (by simp), bind_assoc,
    List.length_nil, Nat.sub_zero, Codec.run_bind_of_run distances, pure_bind, List.nil_append]
  cases addOffsets 0 gaps <;> rfl

/-- Without a wrap of `offset`, `addOffsets` adds the distances up exactly. -/
theorem addOffsets_eq_ok (offset : UInt16) (gaps : List UInt16)
    (fits : ∀ index ∈ undifferences offset.toNat (gaps.map UInt16.toNat), index ≤ 0xffff) :
    addOffsets offset gaps = .ok ((undifferences offset.toNat (gaps.map UInt16.toNat)).map Nat.toUInt16) := by
  induction gaps generalizing offset with
  | nil => rfl
  | cons gap gaps ih =>
    simp only [List.map_cons, undifferences, List.mem_cons, forall_eq_or_imp] at fits
    have := gap.toNat_lt
    have := offset.toNat_lt
    have next : undifferences (gap + offset + 1).toNat (gaps.map UInt16.toNat) =
        undifferences (offset.toNat + gap.toNat + 1) (gaps.map UInt16.toNat) := by
      cases gaps with
      | nil => rfl
      | cons gap' gaps =>
        simp only [List.map_cons, undifferences, List.mem_cons, forall_eq_or_imp] at fits
        have sum : (gap + offset + 1).toNat = offset.toNat + gap.toNat + 1 := by
          simp only [UInt16.toNat_add, UInt16.reduceToNat]
          omega
        rw [sum]
    rw [addOffsets, if_neg (by simp [UInt64.lt_iff_toNat_lt]; omega)]
    dsimp only
    rw [ih (gap + offset + 1) (by rw [next]; exact fits.2), next, List.map_cons, undifferences, List.map_cons]
    have position : Nat.toUInt16 (offset.toNat + gap.toNat) = gap + offset := by
      apply UInt16.toNat_inj.mp
      simp only [UInt16.toNat_add, Nat.toUInt16, UInt16.toNat_ofNat']
      omega
    rw [position]
    rfl

/-- After the position `65535` the offset wraps to `0`, and the next distance counts from
the start. -/
theorem addOffsets_wraps (offset gap : UInt16) (gaps : List UInt16) (top : offset.toNat + gap.toNat = 0xffff) :
    addOffsets offset (gap :: gaps) = (addOffsets 0 gaps).map (0xffff :: ·) := by
  have sum : gap + offset = 0xffff := by
    apply UInt16.toNat_inj.mp
    rw [UInt16.toNat_add, Nat.add_comm, top]
    rfl
  rw [addOffsets, if_neg (by simp [UInt64.lt_iff_toNat_lt]; omega), sum]
  rfl

/-- A request with strictly increasing positions is read back from what it writes. -/
theorem Unserialize_Serialize (req : BlockTransactionsRequest) (sorted : req.indexes.Pairwise (· < ·))
    (rest : List UInt8) : Unserialize.run (req.Serialize ++ rest) = .ok (req, rest) := by
  obtain ⟨blockhash, indexes⟩ := req
  have positions : (indexes.map UInt16.toNat).Pairwise (· < ·) :=
    List.pairwise_map.mpr (sorted.imp fun lt => UInt16.lt_iff_toNat_lt.mp lt)
  have fits : ∀ index ∈ indexes.map UInt16.toNat, index ≤ 0xffff := by
    intro index mem
    obtain ⟨x, -, rfl⟩ := List.mem_map.mp mem
    have := x.toNat_lt
    omega
  let gaps := (differences 0 (indexes.map UInt16.toNat)).map Nat.toUInt16
  have distances : gaps.map UInt16.toNat = differences 0 (indexes.map UInt16.toNat) := by
    rw [List.map_map]
    conv_rhs => rw [← List.map_id (differences 0 _)]
    apply List.map_congr_left
    intro gap mem
    have := differences_le 0 _ fits gap mem
    simp only [Function.comp_apply, id, Nat.toUInt16, UInt16.toNat_ofNat']
    omega
  have written : writeDifferences 0 indexes = gaps.flatMap (fun gap => WriteCompactSize gap.toNat) := by
    rw [writeDifferences_eq 0 indexes sorted (fun _ _ => Nat.zero_le _), ← distances, List.flatMap_map]
  have length : gaps.length = indexes.length := by simp [gaps]
  have small : gaps.length ≤ MAX_SIZE := by
    have := length_le_of_pairwise positions (fun index mem => Nat.lt_succ_of_le (fits index mem))
    rw [List.length_map] at this
    rw [length, MAX_SIZE]
    omega
  have back : undifferences 0 (gaps.map UInt16.toNat) = indexes.map UInt16.toNat := by
    rw [distances, undifferences_differences 0 _ positions (fun _ _ => Nat.zero_le _)]
  rw [Serialize, written, ← length, Unserialize_run blockhash gaps small rest,
    addOffsets_eq_ok 0 gaps (by rw [UInt16.toNat_zero, back]; exact fits), UInt16.toNat_zero, back, List.map_map,
    List.map_id'' (fun index => by simp) indexes]
  rfl

/-- A request that names `65535` and then any position passes every check of the reader:
the offset wraps to `0`, and the second position is read as its distance alone. The list
read is not increasing, and the position its distances name, `65536` plus the distance,
is above `65535`. -/
theorem Unserialize_offset_wraps (blockhash : uint256) (index : UInt16) (rest : List UInt8) :
    Unserialize.run (blockhash.serialize ++ WriteCompactSize 2 ++
        (WriteCompactSize 0xffff ++ WriteCompactSize index.toNat) ++ rest) =
      .ok (⟨blockhash, [0xffff, index]⟩, rest) ∧
    ¬ [(0xffff : UInt16), index].Pairwise (· < ·) ∧
    undifferences 0 [0xffff, index.toNat] = [0xffff, 0x10000 + index.toNat] := by
  have := index.toNat_lt
  have second : addOffsets 0 [index] = .ok [index] := by
    rw [addOffsets_eq_ok 0 [index] (by simp [undifferences]; omega)]
    simp [undifferences]
  refine ⟨?_, ?_, by simp [undifferences]⟩
  · have run := Unserialize_run blockhash [0xffff, index] (by simp [MAX_SIZE]) rest
    simp only [List.flatMap_cons, List.flatMap_nil, List.append_nil, List.length_cons, List.length_nil,
      UInt16.reduceToNat] at run
    rw [run, addOffsets_wraps 0 0xffff [index] rfl, second]
    rfl
  · rw [List.pairwise_cons]
    simp only [List.mem_singleton, forall_eq, UInt16.lt_iff_toNat_lt, UInt16.reduceToNat]
    omega

theorem Unserialize_offset_wraps_at_zero :
    Unserialize.run (uint256.zero.serialize ++ WriteCompactSize 2 ++
        (WriteCompactSize 0xffff ++ WriteCompactSize (0 : UInt16).toNat) ++ []) =
      .ok (⟨uint256.zero, [0xffff, 0]⟩, []) :=
  (Unserialize_offset_wraps uint256.zero 0 []).1

end BlockTransactionsRequest

end SalemCash
