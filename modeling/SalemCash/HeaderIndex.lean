import Mathlib.Algebra.BigOperators.Group.Finset.Basic
import SalemCash.BlockIndex
import SalemCash.Sighash

/-!
# Adding headers to the block index

`AddToBlockIndex` of `validation.cpp` appends the entry of a header whose hash the index
does not have, links it to the entry of `hashPrevBlock` when there is one, builds its skip
pointer, and sets its `nTimeMax` and `nChainWork`; `GetBlockProof` of `chain.cpp` gives
the work of one block.

`GetBlockProof` cannot compute `2^256 / (T + 1)` directly, as `2^256` is not a 256-bit
number; it computes `~T / (T + 1) + 1`, which is that quotient because a target that
decodes without overflow is at most `2^256 - 2^240`. The work `nChainWork` of an entry is
then its parent's plus its own, so it is the sum of `blockWork` along the chain
(`chainWork`) while that sum is below `2^256`.

A header whose `hashPrevBlock` is its own hash would become its own parent, since the
new entry is in the map before the parent is looked up; for any other header
`AddToBlockIndex` keeps the index well formed.
-/
namespace SalemCash

structure CBlockHeader where
  nVersion : Int32
  hashPrevBlock : uint256
  hashMerkleRoot : uint256
  nTime : UInt32
  nBits : UInt32
  nNonce : UInt32
  deriving DecidableEq, Repr

/-- The `SerializationOp` of `CBlockHeader`. -/
def CBlockHeader.serialize (block : CBlockHeader) : List UInt8 :=
  ser_writedata32 block.nVersion.toUInt32 ++ block.hashPrevBlock.serialize ++
    block.hashMerkleRoot.serialize ++ ser_writedata32 block.nTime ++
    ser_writedata32 block.nBits ++ ser_writedata32 block.nNonce

/-- `CBlockHeader::GetHash`: `SerializeHash` of the header. -/
def CBlockHeader.GetHash (P : Primitives) (block : CBlockHeader) : uint256 :=
  P.HashWriter block.serialize

namespace BlockTree

/-- `new CBlockIndex(block)`, its `phashBlock` pointing to the key `hash` of its map
entry. -/
def CBlockIndex.ofHeader (hash : uint256) (block : CBlockHeader) : CBlockIndex :=
  { (default : CBlockIndex) with
    hashBlock := hash, nVersion := block.nVersion, nTime := block.nTime, nBits := block.nBits }

def GetBlockProof (block : CBlockIndex) : Except uint_error arith_uint256 :=
  let (bnTarget, fNegative, fOverflow) := SetCompact block.nBits
  if fNegative || fOverflow || bnTarget == 0 then .ok 0
  else do
    -- 2**256 / (bnTarget+1) is ~bnTarget / (bnTarget+1) + 1.
    let q ← base_uint.div (~~~bnTarget) (bnTarget + 1)
    pure (q + 1)

/-- `mapBlockIndex.find(hash)`. -/
def BlockMap.find (m : BlockMap) (hash : uint256) : Option Nat :=
  m.findIdx? fun b => b.hashBlock == hash

/-- The `if (miPrev != mapBlockIndex.end())` block of `AddToBlockIndex`: the new entry at
`pindexNew` is linked to its parent and gets its skip pointer. -/
def linkParent (m : BlockMap) (pindexNew : Nat) (hashPrevBlock : uint256) :
    Except IndexFault BlockMap :=
  match m.find hashPrevBlock with
  | some miPrev =>
    BuildSkip (m.modify pindexNew fun b =>
      { b with pprev := some miPrev, nHeight := (m.entry miPrev).nHeight + 1 }) pindexNew
  | none => .ok m

/-- The lines of `AddToBlockIndex` that set `nTimeMax` and `nChainWork` of the new entry. -/
def setTimeMaxAndWork (m : BlockMap) (pindexNew : Nat) : Except IndexFault BlockMap := do
  let nTimeMax := match (m.entry pindexNew).pprev with
    | some pprev => max (m.entry pprev).nTimeMax (m.entry pindexNew).nTime
    | none => (m.entry pindexNew).nTime
  let m : BlockMap := m.modify pindexNew fun b => { b with nTimeMax }
  let proof ← (GetBlockProof (m.entry pindexNew)).mapError .arith
  let nChainWork := (match (m.entry pindexNew).pprev with
    | some pprev => (m.entry pprev).nChainWork
    | none => 0) + proof
  pure (m.modify pindexNew fun b => { b with nChainWork })

/-- `CChainState::AddToBlockIndex`: the index with the header's entry, and that entry.
The best header and the dirty set are not modelled. -/
def AddToBlockIndex (P : Primitives) (m : BlockMap) (block : CBlockHeader) :
    Except IndexFault (BlockMap × Nat) :=
  -- Check for duplicate
  let hash := block.GetHash P
  match m.find hash with
  | some it => .ok (m, it)
  | none => do
    -- Construct new block index object
    let pindexNew := m.length
    let m : BlockMap := m ++ [CBlockIndex.ofHeader hash block]
    let m ← linkParent m pindexNew block.hashPrevBlock
    let m ← setTimeMaxAndWork m pindexNew
    pure (m, pindexNew)

/-- The work of a block of compact target `nBits`: the expected number of hashes
`2^256 / (T + 1)` for a target `T` that decodes to a positive number, `0` for every other
`nBits`. -/
def blockWork (nBits : UInt32) : Nat :=
  if (SetCompact nBits).2.1 ∨ (SetCompact nBits).2.2 ∨ (SetCompact nBits).1 = 0 then 0
  else 2 ^ 256 / ((SetCompact nBits).1.toNat + 1)

/-- The work of a block is a 256-bit number. -/
theorem blockWork_lt (nBits : UInt32) : blockWork nBits < 2 ^ 256 := by
  unfold blockWork
  split
  · exact Nat.two_pow_pos 256
  · rename_i h
    have hT : (SetCompact nBits).1.toNat ≠ 0 := fun h0 =>
      h (Or.inr (Or.inr (BitVec.eq_of_toNat_eq h0)))
    exact Nat.div_lt_self (Nat.two_pow_pos 256) (by omega)

/-- `GetBlockProof` returns the work of the block, and never throws. -/
theorem GetBlockProof_eq (block : CBlockIndex) :
    GetBlockProof block = .ok (BitVec.ofNat 256 (blockWork block.nBits)) := by
  have hle := SetCompact_le block.nBits
  have hlt := blockWork_lt block.nBits
  unfold GetBlockProof
  unfold blockWork at hlt ⊢
  rcases hsc : SetCompact block.nBits with ⟨T, fNegative, fOverflow⟩
  rw [hsc] at hle hlt
  dsimp only at hle hlt ⊢
  by_cases hzero : fNegative = true ∨ fOverflow = true ∨ T = 0
  · have : (fNegative || fOverflow || T == 0) = true := by
      rcases hzero with h | h | h <;> simp [h]
    rw [if_pos this, if_pos hzero]
    rfl
  · have : ¬(fNegative || fOverflow || T == 0) = true := by
      simp only [Bool.or_eq_true, beq_iff_eq]
      tauto
    rw [if_neg this, if_neg hzero] at *
    simp only [not_or, Bool.not_eq_true] at hzero
    obtain ⟨-, hO, hT⟩ := hzero
    have hTle := hle hO
    have hsucc : T + 1 ≠ 0 := by
      intro h
      have := congrArg BitVec.toNat h
      rw [BitVec.toNat_add] at this
      simp at this
      omega
    rw [base_uint.div_eq _ _ hsucc]
    show Except.ok (~~~T / (T + 1) + 1) = _
    congr 1
    apply BitVec.eq_of_toNat_eq
    rw [base_uint.not_div_succ_add_one T (by omega) hT, BitVec.toNat_ofNat]
    exact (Nat.mod_eq_of_lt hlt).symm

theorem find_append_singleton (m : BlockMap) {e : CBlockIndex} {hash : uint256}
    (h : e.hashBlock ≠ hash) : (m ++ [e]).find hash = m.find hash := by
  simp [BlockMap.find, List.findIdx?_append, h]

theorem find_lt {m : BlockMap} {hash : uint256} {i : Nat} (h : m.find hash = some i) :
    i < m.length :=
  (List.findIdx?_eq_some_iff_findIdx_eq.mp h).1

section Append

variable {m : BlockMap}

/-- `linkParent` on a new root entry `e`: it gets the parent `find` gives, its height and
its skip pointer, and can be appended to the index. -/
theorem linkParent_spec (hm : WF m) (e : CBlockIndex) {hashPrevBlock : uint256}
    (hpprev : e.pprev = none) (hpskip : e.pskip = none) (hheight : e.nHeight = 0)
    (hself : e.hashBlock ≠ hashPrevBlock) :
    ∃ nHeight pskip, linkParent (m ++ [e]) m.length hashPrevBlock =
        .ok (m ++ [{ e with pprev := m.find hashPrevBlock, nHeight, pskip }]) ∧
      Appendable m { e with pprev := m.find hashPrevBlock, nHeight, pskip } := by
  unfold linkParent
  rw [find_append_singleton m hself]
  cases hq : m.find hashPrevBlock with
  | none =>
    have he : ({ e with pprev := none, nHeight := e.nHeight, pskip := e.pskip } : CBlockIndex) = e := by
      rw [← hpprev]
    refine ⟨e.nHeight, e.pskip, ?_, ?_⟩
    · rw [he]
    · rw [he]
      simp only [Appendable, hpprev]
      exact ⟨hheight, hpskip⟩
  | some q =>
    dsimp only
    have hql := find_lt hq
    have hnn := hm.nHeight_nonneg hql
    obtain ⟨e₁, he₁⟩ : ∃ e₁ : CBlockIndex,
        e₁ = { e with pprev := some q, nHeight := (m.entry q).nHeight + 1 } := ⟨_, rfl⟩
    have hp₁ : e₁.pprev = some q := by rw [he₁]
    have hh₁ : e₁.nHeight = (m.entry q).nHeight + 1 := by rw [he₁]
    have hlink : ((m ++ [e]).modify m.length fun b =>
        { b with pprev := some q, nHeight := ((m ++ [e]).entry q).nHeight + 1 }) = m ++ [e₁] := by
      rw [entry_append_lt _ hql, modify_append_length, he₁]
    have hwf₁ : WF (m ++ [e₁]) :=
      hm.append (entryWF_append_child hm hql hp₁ hh₁ (by simp [he₁, hpskip]))
    have hsh := GetSkipHeight_lt (by omega : 1 ≤ e₁.nHeight)
    have hsh₀ := GetSkipHeight_nonneg e₁.nHeight
    have hql' : q < (m ++ [e₁]).length := by
      rw [List.length_append]
      omega
    have hanc := GetAncestor_spec hwf₁ hql' (GetSkipHeight e₁.nHeight)
    rw [entry_append_lt _ hql, if_neg (by omega), hm.followPrev_append _ hql] at hanc
    refine ⟨(m.entry q).nHeight + 1,
      followPrev m q ((m.entry q).nHeight - GetSkipHeight e₁.nHeight).toNat, ?_, ?_⟩
    · rw [hlink]
      simp only [BuildSkip, entry_append_length, hp₁, hanc, ExceptLogic.ok_bind,
        ExceptLogic.pure_eq_ok]
      rw [modify_append_length, he₁]
    · refine ⟨hql, rfl, fun s hs => ?_⟩
      rw [← hh₁]
      exact hs

/-- `nTimeMax` from the parent's: the larger of it and the block's own time. -/
def timeMaxOf (parent : Option UInt32) (b : CBlockIndex) : UInt32 :=
  match parent with
  | some t => max t b.nTime
  | none => b.nTime

/-- `nChainWork` from the parent's: it plus the work of the block. -/
def chainWorkOf (parent : Option arith_uint256) (b : CBlockIndex) : arith_uint256 :=
  parent.getD 0 + BitVec.ofNat 256 (blockWork b.nBits)

/-- `setTimeMaxAndWork` on the last entry `e`: its `nTimeMax` and `nChainWork` from its
parent's. -/
theorem setTimeMaxAndWork_eq (m : BlockMap) (e : CBlockIndex) (hq : ∀ j ∈ e.pprev, j < m.length) :
    setTimeMaxAndWork (m ++ [e]) m.length = .ok (m ++ [{ e with
      nTimeMax := timeMaxOf (e.pprev.map fun j => (m.entry j).nTimeMax) e
      nChainWork := chainWorkOf (e.pprev.map fun j => (m.entry j).nChainWork) e }]) := by
  cases hp : e.pprev with
  | none =>
    simp only [setTimeMaxAndWork, entry_append_length, hp, modify_append_length,
      GetBlockProof_eq, Except.mapError, ExceptLogic.ok_bind, ExceptLogic.pure_eq_ok]
    rfl
  | some j =>
    have hj : j < m.length := hq j hp
    simp only [setTimeMaxAndWork, entry_append_length, hp, modify_append_length,
      entry_append_lt _ hj, GetBlockProof_eq, Except.mapError, ExceptLogic.ok_bind,
      ExceptLogic.pure_eq_ok]
    rfl

/-- A header whose hash is not in the index, and which is not its own parent, gets a new
entry at the end: linked to the entry of `hashPrevBlock` when the index has one, with its
`nTimeMax` and `nChainWork` from its parent's. `AddToBlockIndex` does not throw. -/
theorem AddToBlockIndex_new (P : Primitives) (hm : WF m) (block : CBlockHeader)
    (hnew : m.find (block.GetHash P) = none) (hself : block.hashPrevBlock ≠ block.GetHash P) :
    ∃ e : CBlockIndex, AddToBlockIndex P m block = .ok (m ++ [e], m.length) ∧ Appendable m e ∧
      e.hashBlock = block.GetHash P ∧ e.pprev = m.find block.hashPrevBlock ∧
      e.nVersion = block.nVersion ∧ e.nTime = block.nTime ∧ e.nBits = block.nBits ∧
      e.nTimeMax = timeMaxOf (e.pprev.map fun j => (m.entry j).nTimeMax) e ∧
      e.nChainWork = chainWorkOf (e.pprev.map fun j => (m.entry j).nChainWork) e := by
  obtain ⟨nHeight, pskip, hlink, happ⟩ :=
    linkParent_spec hm (CBlockIndex.ofHeader (block.GetHash P) block) rfl rfl rfl (Ne.symm hself)
  obtain ⟨e₁, he₁⟩ : ∃ e₁ : CBlockIndex, e₁ = { CBlockIndex.ofHeader (block.GetHash P) block with
      pprev := m.find block.hashPrevBlock, nHeight, pskip } := ⟨_, rfl⟩
  rw [← he₁] at hlink happ
  have hq : ∀ j ∈ e₁.pprev, j < m.length := fun j hj => find_lt (by rw [he₁] at hj; exact hj)
  refine ⟨{ e₁ with
      nTimeMax := timeMaxOf (e₁.pprev.map fun j => (m.entry j).nTimeMax) e₁
      nChainWork := chainWorkOf (e₁.pprev.map fun j => (m.entry j).nChainWork) e₁ }, ?_, happ,
    by rw [he₁]; rfl, by rw [he₁], by rw [he₁]; rfl, by rw [he₁]; rfl, by rw [he₁]; rfl, rfl, rfl⟩
  simp only [AddToBlockIndex, hnew, hlink, ExceptLogic.ok_bind]
  rw [setTimeMaxAndWork_eq _ _ hq]
  rfl

/-- A header already in the index leaves it as it is. -/
theorem AddToBlockIndex_dup (P : Primitives) (m : BlockMap) (block : CBlockHeader) {it : Nat}
    (h : m.find (block.GetHash P) = some it) : AddToBlockIndex P m block = .ok (m, it) := by
  simp only [AddToBlockIndex, h]

/-- Each entry's field `get` is `F` of its parent's and of the entry itself: the way
`AddToBlockIndex` and `LoadBlockIndex` set `nTimeMax` and `nChainWork`. -/
def Accumulated {α : Type} (get : CBlockIndex → α) (F : Option α → CBlockIndex → α)
    (m : BlockMap) : Prop :=
  ∀ i < m.length, get (m.entry i) = F ((m.entry i).pprev.map fun j => get (m.entry j)) (m.entry i)

instance {α : Type} [DecidableEq α] (get : CBlockIndex → α) (F : Option α → CBlockIndex → α)
    (m : BlockMap) : Decidable (Accumulated get F m) :=
  Nat.decidableBallLT _ _

/-- `nTimeMax` is the larger of the parent's and the entry's own `nTime`. -/
abbrev TimeMaxSet (m : BlockMap) : Prop := Accumulated CBlockIndex.nTimeMax timeMaxOf m

/-- `nChainWork` is the parent's plus the entry's own work. -/
abbrev ChainWorkSet (m : BlockMap) : Prop := Accumulated CBlockIndex.nChainWork chainWorkOf m

/-- An entry whose parent is before the end reads the same parent after an append. -/
theorem map_parent_append {α : Type} (get : CBlockIndex → α) (e : CBlockIndex) {b : CBlockIndex}
    (hb : ∀ j ∈ b.pprev, j < m.length) :
    (b.pprev.map fun j => get ((m ++ [e]).entry j)) = b.pprev.map fun j => get (m.entry j) := by
  cases hp : b.pprev with
  | none => rfl
  | some j => rw [Option.map_some, Option.map_some, entry_append_lt _ (hb j hp)]

theorem Accumulated.append {α : Type} {get : CBlockIndex → α} {F : Option α → CBlockIndex → α}
    (hm : WF m) (h : Accumulated get F m) {e : CBlockIndex} (hq : ∀ j ∈ e.pprev, j < m.length)
    (he : get e = F (e.pprev.map fun j => get (m.entry j)) e) : Accumulated get F (m ++ [e]) := by
  intro i hi
  rw [List.length_append, List.length_singleton] at hi
  rcases Nat.lt_or_ge i m.length with hlt | hge
  · have hb : ∀ j ∈ (m.entry i).pprev, j < m.length := fun j hj =>
      lt_trans ((hm i hlt).pprev_lt j hj) hlt
    rw [entry_append_lt _ hlt, map_parent_append get e hb]
    exact h i hlt
  · obtain rfl : i = m.length := by omega
    rw [entry_append_length, map_parent_append get e hq]
    exact he

end Append

/-- One header added to a well-formed index, not its own parent: the index grows and
stays well formed, with `nTimeMax` and `nChainWork` accumulated along its chains. -/
theorem AddToBlockIndex_step {P : Primitives} {m m' : BlockMap} {block : CBlockHeader} {i : Nat}
    (hm : WF m) (htm : TimeMaxSet m) (hcw : ChainWorkSet m)
    (hself : block.hashPrevBlock ≠ block.GetHash P) (hadd : AddToBlockIndex P m block = .ok (m', i)) :
    WF m' ∧ TimeMaxSet m' ∧ ChainWorkSet m' ∧ ∃ l, m' = m ++ l := by
  cases hf : m.find (block.GetHash P) with
  | some it =>
    rw [AddToBlockIndex_dup P m block hf] at hadd
    cases hadd
    exact ⟨hm, htm, hcw, [], (List.append_nil m).symm⟩
  | none =>
    obtain ⟨e, he, happ, -, hpprev, -, -, -, htmax, hwork⟩ :=
      AddToBlockIndex_new P hm block hf hself
    rw [he] at hadd
    cases hadd
    have hq : ∀ j ∈ e.pprev, j < m.length := fun j hj => find_lt (by rw [hpprev] at hj; exact hj)
    exact ⟨hm.append_of happ, htm.append hm hq htmax, hcw.append hm hq hwork, [e], rfl⟩

/-- The indexes that `AddToBlockIndex` builds from the empty one, from headers that are not
their own parents. -/
inductive Built (P : Primitives) : BlockMap → Prop
  | empty : Built P []
  | add {m m' : BlockMap} {block : CBlockHeader} {i : Nat} : Built P m →
      block.hashPrevBlock ≠ block.GetHash P → AddToBlockIndex P m block = .ok (m', i) → Built P m'

/-- Every index that `AddToBlockIndex` builds is well formed, with `nTimeMax` and
`nChainWork` accumulated along its chains. -/
theorem Built.invariants {P : Primitives} {m : BlockMap} (h : Built P m) :
    WF m ∧ TimeMaxSet m ∧ ChainWorkSet m := by
  induction h with
  | empty =>
    exact ⟨fun i hi => absurd hi (Nat.not_lt_zero i), fun i hi => absurd hi (Nat.not_lt_zero i),
      fun i hi => absurd hi (Nat.not_lt_zero i)⟩
  | add _ hself hadd ih =>
    obtain ⟨hwf, htm, hcw, -⟩ := AddToBlockIndex_step ih.1 ih.2.1 ih.2.2 hself hadd
    exact ⟨hwf, htm, hcw⟩

/-- The entries from `p` back to the root of its chain, following `pprev`. -/
def chainOf (m : BlockMap) (p : Nat) : List Nat :=
  (List.range ((m.entry p).nHeight.toNat + 1)).filterMap (followPrev m p)

/-- The work of the chain ending at `p`: the sum of the work of its blocks. -/
def chainWork (m : BlockMap) (p : Nat) : Nat :=
  ((chainOf m p).map fun a => blockWork (m.entry a).nBits).sum

section Chain

variable {m : BlockMap}

theorem chainOf_pprev (hm : WF m) {p q : Nat} (hp : p < m.length)
    (hq : (m.entry p).pprev = some q) : chainOf m p = p :: chainOf m q := by
  have he := hm p hp
  have hql : q < m.length := lt_trans (he.pprev_lt q hq) hp
  have hh := he.nHeight_pprev q hq
  have hnn := hm.nHeight_nonneg hql
  have hsucc : (m.entry p).nHeight.toNat = (m.entry q).nHeight.toNat + 1 := by omega
  have hstep : followPrev m p ∘ Nat.succ = followPrev m q := by
    funext k
    rw [Function.comp_apply, followPrev_succ, hq, Option.bind_some]
  unfold chainOf
  rw [hsucc, List.range_succ_eq_map, List.filterMap_cons_some (followPrev_zero m p),
    List.filterMap_map, hstep]

theorem chainOf_root (hm : WF m) {p : Nat} (hp : p < m.length) (hq : (m.entry p).pprev = none) :
    chainOf m p = [p] := by
  rw [chainOf, (hm p hp).nHeight_root hq]
  rfl

theorem chainWork_pprev (hm : WF m) {p q : Nat} (hp : p < m.length)
    (hq : (m.entry p).pprev = some q) :
    chainWork m p = blockWork (m.entry p).nBits + chainWork m q := by
  rw [chainWork, chainOf_pprev hm hp hq, List.map_cons, List.sum_cons]
  rfl

theorem chainWork_root (hm : WF m) {p : Nat} (hp : p < m.length)
    (hq : (m.entry p).pprev = none) : chainWork m p = blockWork (m.entry p).nBits := by
  rw [chainWork, chainOf_root hm hp hq]
  rfl

/-- While the work of the chain ending at `p` is below `2^256`, the 256-bit `nChainWork`
of `p` is that work. -/
theorem nChainWork_eq_chainWork (hm : WF m) (hw : ChainWorkSet m) {p : Nat} (hp : p < m.length)
    (hlt : chainWork m p < 2 ^ 256) : (m.entry p).nChainWork.toNat = chainWork m p := by
  induction p using Nat.strong_induction_on with
  | _ p ih =>
    have hacc : (m.entry p).nChainWork =
        chainWorkOf ((m.entry p).pprev.map fun j => (m.entry j).nChainWork) (m.entry p) := hw p hp
    have hbw := blockWork_lt (m.entry p).nBits
    cases hq : (m.entry p).pprev with
    | none =>
      rw [hq] at hacc
      rw [hacc, chainWork_root hm hp hq]
      simp only [chainWorkOf, Option.map_none, Option.getD_none, BitVec.toNat_add,
        BitVec.toNat_ofNat, Nat.mod_eq_of_lt hbw]
      rw [show BitVec.toNat (0 : arith_uint256) = 0 from rfl, Nat.zero_add]
      exact Nat.mod_eq_of_lt hbw
    | some q =>
      have hqp := (hm p hp).pprev_lt q hq
      rw [chainWork_pprev hm hp hq] at hlt ⊢
      have ihq := ih q hqp (lt_trans hqp hp) (Nat.lt_of_le_of_lt (Nat.le_add_left _ _) hlt)
      rw [hq] at hacc
      rw [hacc]
      simp only [chainWorkOf, Option.map_some, Option.getD_some, BitVec.toNat_add,
        BitVec.toNat_ofNat, ihq, Nat.mod_eq_of_lt hbw]
      rw [Nat.add_comm (chainWork m q)]
      exact Nat.mod_eq_of_lt hlt

end Chain

/-- `GetBlockProof` returns `2^256 / (T + 1)` for a target `T` that decodes to a positive
number and `0` for every other `nBits`; the `nChainWork` accumulated along a chain is the
sum of these while it is below `2^256`. -/
theorem GetBlockProof_chainWork :
    (∀ block : CBlockIndex, ∃ proof, GetBlockProof block = .ok proof ∧
      proof.toNat = if (SetCompact block.nBits).2.1 ∨ (SetCompact block.nBits).2.2 ∨
          (SetCompact block.nBits).1 = 0 then 0
        else 2 ^ 256 / ((SetCompact block.nBits).1.toNat + 1)) ∧
    ∀ m : BlockMap, WF m → ChainWorkSet m → ∀ p < m.length, chainWork m p < 2 ^ 256 →
      (m.entry p).nChainWork.toNat = chainWork m p := by
  refine ⟨fun block => ⟨_, GetBlockProof_eq block, ?_⟩,
    fun m hm hw p hp hlt => nChainWork_eq_chainWork hm hw hp hlt⟩
  rw [BitVec.toNat_ofNat, Nat.mod_eq_of_lt (blockWork_lt _)]
  rfl

/-- Two blocks at the difficulty of the genesis block, each of work `0x100010001`. -/
def workChain : BlockMap :=
  [{ (default : CBlockIndex) with nBits := 0x1d00ffff, nChainWork := 0x100010001 },
   { (default : CBlockIndex) with
      pprev := some 0, nHeight := 1, nBits := 0x1d00ffff, nChainWork := 0x200020002 }]

theorem GetBlockProof_chainWork_workChain :
    WF workChain ∧ ChainWorkSet workChain ∧ 1 < workChain.length ∧
      chainWork workChain 1 < 2 ^ 256 ∧
      (workChain.entry 1).nChainWork.toNat = chainWork workChain 1 :=
  ⟨by decide, by decide, by decide, by decide,
    GetBlockProof_chainWork.2 workChain (by decide) (by decide) 1 (by decide)
      (by decide)⟩

end BlockTree

end SalemCash
