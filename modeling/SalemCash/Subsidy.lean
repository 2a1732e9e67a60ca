import Mathlib.Algebra.BigOperators.Ring.Finset
import SalemCash.Amount
import SalemCash.Periods

/-!
# The block subsidy

`GetBlockSubsidy` of `validation.cpp` halves `50 * CASH` once every
`nSubsidyHalvingInterval` blocks and forces the reward to zero from the 64th halving on.

The sum of the subsidies over every height is a sum over the halving eras, each
counted `nSubsidyHalvingInterval` times (`Periods.sum_range_mul_div`), and it does
not change after the 64th era. Under the main-network interval of 210000 it is
2,099,999,997,690,000 units, more than `MAX_MONEY`.
-/
namespace SalemCash

/-- The field of `Consensus::Params` that `GetBlockSubsidy` reads; the source divides by
it, so it is positive. -/
structure ConsensusParams where
  nSubsidyHalvingInterval : Nat
  nSubsidyHalvingInterval_pos : 0 < nSubsidyHalvingInterval

/-- `CMainParams`. -/
def mainParams : ConsensusParams where
  nSubsidyHalvingInterval := 210000
  nSubsidyHalvingInterval_pos := by decide

/-- The subsidy of the `halvings`-th era. -/
def eraSubsidy (halvings : Nat) : CAmount :=
  -- Force block reward to zero when right shift is undefined.
  if 64 ≤ halvings then 0 else (50 * CASH) >>> halvings

def GetBlockSubsidy (nHeight : Nat) (consensusParams : ConsensusParams) : CAmount :=
  eraSubsidy (nHeight / consensusParams.nSubsidyHalvingInterval)

/-- The coins issued by the blocks below height `n`. -/
def subsidySum (consensusParams : ConsensusParams) (n : Nat) : CAmount :=
  ∑ h ∈ Finset.range n, GetBlockSubsidy h consensusParams

section Era

end Era

section Subsidy

variable (consensusParams : ConsensusParams)

/-- From the 64th halving on the reward is zero. -/
theorem GetBlockSubsidy_eq_zero {nHeight : Nat}
    (h : 64 * consensusParams.nSubsidyHalvingInterval ≤ nHeight) :
    GetBlockSubsidy nHeight consensusParams = 0 := by
  have hera : 64 ≤ nHeight / consensusParams.nSubsidyHalvingInterval :=
    (Nat.le_div_iff_mul_le consensusParams.nSubsidyHalvingInterval_pos).mpr h
  rw [GetBlockSubsidy, eraSubsidy, if_pos hera]

/-- Every height from the 64th halving on adds nothing to the issued coins. -/
theorem subsidySum_eq_of_le {n : Nat} (h : 64 * consensusParams.nSubsidyHalvingInterval ≤ n) :
    subsidySum consensusParams n = subsidySum consensusParams (64 * consensusParams.nSubsidyHalvingInterval) :=
  Periods.sum_range_eq_of_zero h fun _ hh => GetBlockSubsidy_eq_zero consensusParams hh

/-- The issued coins of the first `k` eras: each era's subsidy, once per block of it. -/
theorem subsidySum_eras (k : Nat) :
    subsidySum consensusParams (k * consensusParams.nSubsidyHalvingInterval) =
      consensusParams.nSubsidyHalvingInterval *
        ∑ j ∈ Finset.range k, eraSubsidy j := by
  rw [subsidySum, Finset.mul_sum]
  simp only [GetBlockSubsidy]
  rw [Periods.sum_range_mul_div eraSubsidy consensusParams.nSubsidyHalvingInterval_pos k]
  simp only [nsmul_eq_mul]

end Subsidy

/-- The eras of the halving series: 5,000,000,000 halved 33 times and then zero. -/
theorem eraSubsidy_sum : ∑ j ∈ Finset.range 64, eraSubsidy j = 9999999989 := by
  decide

/-- Under the main-network parameters the blocks issue 2,099,999,997,690,000 units in all,
more than `MAX_MONEY`: every partial sum from the last subsidy on fails `MoneyRange`. -/
theorem subsidySum_main_exceeds_MAX_MONEY (n : Nat) (h : 64 * 210000 ≤ n) :
    subsidySum mainParams n = 2099999997690000 ∧ MoneyRange (subsidySum mainParams n) = false := by
  have htotal : subsidySum mainParams n = 2099999997690000 := by
    rw [subsidySum_eq_of_le mainParams h, subsidySum_eras mainParams 64, eraSubsidy_sum]
    rfl
  refine ⟨htotal, ?_⟩
  rw [htotal]
  decide

/-- The height after the 64th halving, where the subsidy has been zero for 31 eras. -/
theorem subsidySum_main_after_last_halving :
    64 * 210000 ≤ 13440000 ∧ subsidySum mainParams 13440000 = 2099999997690000 ∧
      MoneyRange (subsidySum mainParams 13440000) = false :=
  ⟨by decide, subsidySum_main_exceeds_MAX_MONEY 13440000 (by decide)⟩

end SalemCash
