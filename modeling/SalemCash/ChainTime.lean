import Mathlib.Data.Nat.Cast.Order.Ring
import SalemCash.ActiveChain
import SalemCash.LowerBound

/-!
# The earliest block of the chain at or after a time

`FindEarliestAtLeast` of `chain.cpp` runs `std::lower_bound` over the chain with the
comparison `GetBlockTimeMax() < time`. Block times go up and down, but `nTimeMax`, the
largest `nTime` from the root to the block, only goes up along a chain, so the
comparison holds on a prefix of the chain; the first block after that prefix is the first
whose `nTime` reaches the time.
-/
namespace SalemCash.BlockTree

/-- `GetBlockTime()`: `(int64_t)nTime`. -/
def CBlockIndex.GetBlockTime (b : CBlockIndex) : Int64 := Int64.ofNat b.nTime.toNat

/-- `GetBlockTimeMax()`: `(int64_t)nTimeMax`. -/
def CBlockIndex.GetBlockTimeMax (b : CBlockIndex) : Int64 := Int64.ofNat b.nTimeMax.toNat

/-- The block a pointer of the chain points to; a null pointer, which the chain of a tip
does not hold, reads as the null entry. -/
def BlockMap.deref (m : BlockMap) : Option Nat → CBlockIndex
  | some p => m.entry p
  | none => default

def CChain.FindEarliestAtLeast (m : BlockMap) (c : CChain) (nTime : Int64) : Option Nat :=
  let lower := LowerBound.lowerBound
    (fun i => decide ((m.deref (c.vChain.getD i none)).GetBlockTimeMax < nTime)) 0 c.vChain.length
  if lower = c.vChain.length then none else c.vChain.getD lower none

/-- A 32-bit time is the same number as an `int64_t`. -/
theorem toInt_ofNat_toNat (x : UInt32) : (Int64.ofNat x.toNat).toInt = x.toNat := by
  rw [Int64.toInt_ofNat_of_lt]
  have := x.toNat_lt
  omega

theorem GetBlockTime_lt_iff (b : CBlockIndex) (time : Int64) :
    b.GetBlockTime < time ↔ (b.nTime.toNat : Int) < time.toInt := by
  rw [Int64.lt_iff_toInt_lt, CBlockIndex.GetBlockTime, toInt_ofNat_toNat]

theorem GetBlockTimeMax_lt_iff (b : CBlockIndex) (time : Int64) :
    b.GetBlockTimeMax < time ↔ (b.nTimeMax.toNat : Int) < time.toInt := by
  rw [Int64.lt_iff_toInt_lt, CBlockIndex.GetBlockTimeMax, toInt_ofNat_toNat]

theorem le_GetBlockTime_iff (b : CBlockIndex) (time : Int64) :
    time ≤ b.GetBlockTime ↔ time.toInt ≤ (b.nTime.toNat : Int) := by
  rw [Int64.le_iff_toInt_le, CBlockIndex.GetBlockTime, toInt_ofNat_toNat]

theorem le_GetBlockTimeMax_iff (b : CBlockIndex) (time : Int64) :
    time ≤ b.GetBlockTimeMax ↔ time.toInt ≤ (b.nTimeMax.toNat : Int) := by
  rw [Int64.le_iff_toInt_le, CBlockIndex.GetBlockTimeMax, toInt_ofNat_toNat]

/-- The parent of the entry at `i + 1` is the entry at `i`. -/
theorem IsChainOf.pprev_getD {m : BlockMap} {c : CChain} {t : Nat} (hc : IsChainOf m c t)
    {i b : Nat} (hi : i + 1 < c.vChain.length)
    (hb : c.vChain.getD (i + 1) none = some b) : (m.entry b).pprev = c.vChain.getD i none := by
  have hl := hc.length_eq
  have hb' := hc.getD_eq (i + 1) hi
  rw [hb] at hb'
  rw [hc.getD_eq i (by omega), show (m.entry t).nHeight.toNat - i =
      ((m.entry t).nHeight.toNat - (i + 1)) + 1 by omega, followPrev_add, ← hb',
    Option.bind_some, followPrev_succ]
  cases (m.entry b).pprev <;> rfl

section Chain

variable {m : BlockMap} (hm : WF m) {c : CChain} {t : Nat} (hc : IsChainOf m c t)
  (ht : t < m.length)
include hm hc ht

/-- Each entry of the chain of `t` is a block, the ancestor of `t` at that height. -/
theorem IsChainOf.getD_some {i : Nat} (hi : i < c.vChain.length) :
    ∃ b, c.vChain.getD i none = some b ∧ b < m.length ∧ (m.entry b).nHeight = i := by
  have hl := hc.length_eq
  have htn := hm.nHeight_nonneg ht
  obtain ⟨b, hb⟩ : ∃ b, followPrev m t ((m.entry t).nHeight.toNat - i) = some b :=
    hm.followPrev_exists ht (by omega)
  obtain ⟨hbl, -, hbh⟩ := hm.followPrev_some ht hb
  exact ⟨b, by rw [hc.getD_eq i hi, hb], hbl, by omega⟩

/-- The entry at `0` is a root. -/
theorem IsChainOf.pprev_zero {b : Nat} (hb : c.vChain.getD 0 none = some b) :
    (m.entry b).pprev = none := by
  have hl := hc.length_eq
  obtain ⟨b', hb', hbl, hbh⟩ := hc.getD_some hm ht (show 0 < c.vChain.length by omega)
  rw [hb] at hb'
  cases hb'
  cases hq : (m.entry b).pprev with
  | none => rfl
  | some q =>
    have he := hm b hbl
    have := he.nHeight_pprev q hq
    have := hm.nHeight_nonneg (lt_trans (he.pprev_lt q hq) hbl)
    omega

/-- Where `nTimeMax` is the running maximum of `nTime`, a time is at most the `nTimeMax` of
the entry at `i` iff it is at most the `nTime` of an entry at or below `i`. -/
theorem IsChainOf.le_timeMax_iff
    (htm : ∀ b, some b ∈ c.vChain → (m.entry b).nTimeMax =
      timeMaxOf ((m.entry b).pprev.map fun j => (m.entry j).nTimeMax) (m.entry b))
    (x : Int) {i : Nat} (hi : i < c.vChain.length) :
    x ≤ ((m.deref (c.vChain.getD i none)).nTimeMax.toNat : Int) ↔
      ∃ j ≤ i, x ≤ ((m.deref (c.vChain.getD j none)).nTime.toNat : Int) := by
  have hmem : ∀ k b, k < c.vChain.length → c.vChain.getD k none = some b → some b ∈ c.vChain :=
    fun k b hk hb => List.mem_of_getElem? (by
      rw [List.getD_eq_getElem?_getD, List.getElem?_eq_getElem hk] at hb
      rw [List.getElem?_eq_getElem hk, ← hb]
      rfl)
  induction i with
  | zero =>
    obtain ⟨b, hb, -, -⟩ := hc.getD_some hm ht hi
    rw [hb, BlockMap.deref, htm b (hmem 0 b hi hb), hc.pprev_zero hm ht hb]
    simp only [Option.map_none, timeMaxOf]
    constructor
    · intro h
      exact ⟨0, le_rfl, by rw [hb, BlockMap.deref]; exact h⟩
    · rintro ⟨j, hj, h⟩
      obtain rfl : j = 0 := by omega
      rw [hb, BlockMap.deref] at h
      exact h
  | succ i ih =>
    obtain ⟨b, hb, -, -⟩ := hc.getD_some hm ht hi
    obtain ⟨a, ha, -, -⟩ := hc.getD_some hm ht (show i < c.vChain.length by omega)
    have hq := hc.pprev_getD hi hb
    rw [ha] at hq
    have ih' := ih (by omega)
    rw [ha, BlockMap.deref] at ih'
    rw [hb, BlockMap.deref, htm b (hmem _ b hi hb), hq]
    simp only [Option.map_some, timeMaxOf, UInt32.toNat_max, Nat.cast_max, le_max_iff, ih']
    constructor
    · rintro (⟨j, hj, h⟩ | h)
      · exact ⟨j, by omega, h⟩
      · exact ⟨i + 1, le_rfl, by rw [hb, BlockMap.deref]; exact h⟩
    · rintro ⟨j, hj, h⟩
      rcases Nat.lt_or_ge j (i + 1) with hlt | hge
      · exact Or.inl ⟨j, by omega, h⟩
      · obtain rfl : j = i + 1 := by omega
        rw [hb, BlockMap.deref] at h
        exact Or.inr h

/-- Along the chain, `nTime` is at most `nTimeMax`. -/
theorem IsChainOf.nTime_le_nTimeMax
    (htm : ∀ b, some b ∈ c.vChain → (m.entry b).nTimeMax =
      timeMaxOf ((m.entry b).pprev.map fun j => (m.entry j).nTimeMax) (m.entry b))
    {i : Nat} (hi : i < c.vChain.length) :
    (m.deref (c.vChain.getD i none)).nTime.toNat ≤ (m.deref (c.vChain.getD i none)).nTimeMax.toNat := by
  have h := (hc.le_timeMax_iff hm ht htm _ hi).mpr ⟨i, le_rfl, le_rfl⟩
  omega

/-- `GetBlockTimeMax() < time` holds on a prefix of the chain. -/
theorem IsChainOf.partitioned
    (htm : ∀ b, some b ∈ c.vChain → (m.entry b).nTimeMax =
      timeMaxOf ((m.entry b).pprev.map fun j => (m.entry j).nTimeMax) (m.entry b))
    (time : Int64) :
    LowerBound.Partitioned
      (fun i => decide ((m.deref (c.vChain.getD i none)).GetBlockTimeMax < time)) 0
      (0 + c.vChain.length) := by
  intro i j _ hij hj hcj
  simp only [decide_eq_true_eq, GetBlockTimeMax_lt_iff] at hcj ⊢
  by_contra hge
  obtain ⟨k, hk, hkt⟩ :=
    (hc.le_timeMax_iff hm ht htm time.toInt (show i < c.vChain.length by omega)).mp (by omega)
  have := (hc.le_timeMax_iff hm ht htm time.toInt (show j < c.vChain.length by omega)).mpr
    ⟨k, by omega, hkt⟩
  omega

/-- `FindEarliestAtLeast` on the chain of a block: the entry at the end `r` of the prefix
where `GetBlockTimeMax()` is below the time, or `nullptr` if the prefix is the whole
chain. -/
theorem IsChainOf.FindEarliestAtLeast_eq
    (htm : ∀ b, some b ∈ c.vChain → (m.entry b).nTimeMax =
      timeMaxOf ((m.entry b).pprev.map fun j => (m.entry j).nTimeMax) (m.entry b))
    (time : Int64) :
    ∃ r ≤ c.vChain.length, c.FindEarliestAtLeast m time =
        (if r = c.vChain.length then none else c.vChain.getD r none) ∧
      (∀ i < r, (m.deref (c.vChain.getD i none)).GetBlockTimeMax < time) ∧
      (r < c.vChain.length → time ≤ (m.deref (c.vChain.getD r none)).GetBlockTimeMax) := by
  obtain ⟨-, h₂, h₃, h₄⟩ := LowerBound.lowerBound_spec (hc.partitioned hm ht htm time)
  refine ⟨_, by omega, rfl, fun i hi => ?_, fun hr => ?_⟩
  · simpa using h₃ i (Nat.zero_le i) hi
  · have := h₄ _ le_rfl (by omega)
    simpa using this

/-- The entry at the end of the prefix is the first whose `nTime` reaches the time. -/
theorem IsChainOf.le_GetBlockTime_of_first
    (htm : ∀ b, some b ∈ c.vChain → (m.entry b).nTimeMax =
      timeMaxOf ((m.entry b).pprev.map fun j => (m.entry j).nTimeMax) (m.entry b))
    (time : Int64) {r : Nat} (hr : r < c.vChain.length)
    (hbelow : ∀ i < r, (m.deref (c.vChain.getD i none)).GetBlockTimeMax < time)
    (hat : time ≤ (m.deref (c.vChain.getD r none)).GetBlockTimeMax) :
    time ≤ (m.deref (c.vChain.getD r none)).GetBlockTime := by
  rw [le_GetBlockTimeMax_iff] at hat
  obtain ⟨j, hj, hjt⟩ := (hc.le_timeMax_iff hm ht htm time.toInt hr).mp hat
  rw [le_GetBlockTime_iff]
  rcases Nat.lt_or_ge j r with hlt | hge
  · have := (GetBlockTimeMax_lt_iff _ _).mp (hbelow j hlt)
    have := hc.nTime_le_nTimeMax hm ht htm (show j < c.vChain.length by omega)
    omega
  · obtain rfl : j = r := by omega
    exact hjt

/-- Every entry of the chain is a block of the index. -/
theorem IsChainOf.lt_length_of_mem {b : Nat} (hb : some b ∈ c.vChain) : b < m.length := by
  obtain ⟨i, hi, hib⟩ := List.getElem_of_mem hb
  obtain ⟨b', hb', hbl, -⟩ := hc.getD_some hm ht hi
  rw [List.getD_eq_getElem?_getD, List.getElem?_eq_getElem hi, hib] at hb'
  cases hb'
  exact hbl

end Chain

/-- Where the whole index has `nTimeMax` set, so have the entries of the chain. -/
theorem TimeMaxSet.chain {m : BlockMap} (hm : WF m) (htm : TimeMaxSet m) {c : CChain}
    (hc : ChainWF m c) : ∀ b, some b ∈ c.vChain → (m.entry b).nTimeMax =
      timeMaxOf ((m.entry b).pprev.map fun j => (m.entry j).nTimeMax) (m.entry b) := by
  intro b hb
  rcases hc with hnil | ⟨t, ht, htc⟩
  · rw [hnil] at hb
    cases hb
  · exact htm b (htc.lt_length_of_mem hm ht hb)

/-- On a chain that is empty or the chain of a block, whose entries have `nTimeMax` the
larger of the parent's and their own `nTime`, `FindEarliestAtLeast(time)` returns the
lowest entry whose `nTime` is at least `time` (which is also the lowest whose `nTimeMax`
is), and `nullptr` when no entry's `nTime` reaches `time`. -/
theorem FindEarliestAtLeast_first (m : BlockMap) (hm : WF m) (c : CChain) (hc : ChainWF m c)
    (htm : ∀ b, some b ∈ c.vChain → (m.entry b).nTimeMax =
      timeMaxOf ((m.entry b).pprev.map fun j => (m.entry j).nTimeMax) (m.entry b))
    (time : Int64) :
    (c.FindEarliestAtLeast m time = none ↔
      ∀ i < c.vChain.length, (m.deref (c.vChain.getD i none)).GetBlockTime < time) ∧
    ∀ b, c.FindEarliestAtLeast m time = some b ↔
      ∃ i < c.vChain.length, c.vChain.getD i none = some b ∧
        time ≤ (m.entry b).GetBlockTime ∧ time ≤ (m.entry b).GetBlockTimeMax ∧
        ∀ j < i, (m.deref (c.vChain.getD j none)).GetBlockTime < time ∧
          (m.deref (c.vChain.getD j none)).GetBlockTimeMax < time := by
  rcases hc with hnil | ⟨t, ht, htc⟩
  · have hnone : c.FindEarliestAtLeast m time = none := by
      simp [CChain.FindEarliestAtLeast, hnil, LowerBound.lowerBound, LowerBound.loop]
    rw [hnone, hnil]
    simp
  obtain ⟨r, hrl, heq, hbelow, hat⟩ := htc.FindEarliestAtLeast_eq hm ht htm time
  have hbelow' : ∀ j < r, (m.deref (c.vChain.getD j none)).GetBlockTime < time := fun j hj => by
    have := (GetBlockTimeMax_lt_iff _ _).mp (hbelow j hj)
    have := htc.nTime_le_nTimeMax hm ht htm (show j < c.vChain.length by omega)
    rw [GetBlockTime_lt_iff]
    omega
  rw [heq]
  by_cases hr : r = c.vChain.length
  · subst hr
    rw [if_pos rfl]
    refine ⟨⟨fun _ => hbelow', fun _ => rfl⟩, fun b => ⟨fun h => absurd h (by simp), ?_⟩⟩
    rintro ⟨i, hi, hib, -, hmax, -⟩
    have := hbelow i hi
    rw [hib, BlockMap.deref] at this
    exact absurd hmax (Int64.not_le.mpr this)
  · rw [if_neg hr]
    have hr' : r < c.vChain.length := by omega
    obtain ⟨b', hb', -, -⟩ := htc.getD_some hm ht hr'
    have hfirst := htc.le_GetBlockTime_of_first hm ht htm time hr' hbelow (hat hr')
    rw [hb', BlockMap.deref] at hfirst
    have hat' := hat hr'
    rw [hb', BlockMap.deref] at hat'
    rw [hb']
    refine ⟨⟨fun h => absurd h (by simp), fun h => ?_⟩, fun b => ⟨?_, ?_⟩⟩
    · have := h r hr'
      rw [hb', BlockMap.deref] at this
      exact absurd hfirst (Int64.not_le.mpr this)
    · rintro ⟨⟩
      exact ⟨r, hr', hb', hfirst, hat', fun j hj => ⟨hbelow' j hj, hbelow j hj⟩⟩
    · rintro ⟨i, hi, hib, -, hmax, hbefore⟩
      rcases Nat.lt_trichotomy i r with hlt | rfl | hgt
      · have := hbelow i hlt
        rw [hib, BlockMap.deref] at this
        exact absurd hmax (Int64.not_le.mpr this)
      · rw [hb'] at hib
        exact hib
      · have := (hbefore r hgt).2
        rw [hb', BlockMap.deref] at this
        exact absurd hat' (Int64.not_le.mpr this)

/-- Three blocks whose times go down and up again. -/
def timeChain : BlockMap :=
  [{ (default : CBlockIndex) with nHeight := 0, nTime := 10, nTimeMax := 10 },
   { (default : CBlockIndex) with
      pprev := some 0, pskip := some 0, nHeight := 1, nTime := 5, nTimeMax := 10 },
   { (default : CBlockIndex) with
      pprev := some 1, pskip := some 0, nHeight := 2, nTime := 20, nTimeMax := 20 }]

theorem FindEarliestAtLeast_first_timeChain :
    WF timeChain ∧ ChainWF timeChain (CChain.SetTip timeChain ⟨[]⟩ (some 2)) ∧
      (CChain.SetTip timeChain ⟨[]⟩ (some 2)).FindEarliestAtLeast timeChain 15 = some 2 ∧
      (∃ i < (CChain.SetTip timeChain ⟨[]⟩ (some 2)).vChain.length,
        (CChain.SetTip timeChain ⟨[]⟩ (some 2)).vChain.getD i none = some 2 ∧
        15 ≤ (timeChain.entry 2).GetBlockTime ∧ 15 ≤ (timeChain.entry 2).GetBlockTimeMax ∧
        ∀ j < i,
          (timeChain.deref ((CChain.SetTip timeChain ⟨[]⟩ (some 2)).vChain.getD j none)).GetBlockTime
            < 15 ∧
          (timeChain.deref ((CChain.SetTip timeChain ⟨[]⟩ (some 2)).vChain.getD j none)).GetBlockTimeMax
            < 15) ∧
      ((CChain.SetTip timeChain ⟨[]⟩ (some 2)).FindEarliestAtLeast timeChain 30 = none ↔
        ∀ i < (CChain.SetTip timeChain ⟨[]⟩ (some 2)).vChain.length,
          (timeChain.deref ((CChain.SetTip timeChain ⟨[]⟩ (some 2)).vChain.getD i none)).GetBlockTime
            < 30) := by
  have hm : WF timeChain := by decide
  have hc : ChainWF timeChain (CChain.SetTip timeChain ⟨[]⟩ (some 2)) :=
    SetTip_chainWF hm (Or.inl rfl) (fun _ h => by cases h; decide)
  have htm := TimeMaxSet.chain hm (by decide) hc
  have hfound : (CChain.SetTip timeChain ⟨[]⟩ (some 2)).FindEarliestAtLeast timeChain 15 = some 2 := by
    decide
  exact ⟨hm, hc, hfound, ((FindEarliestAtLeast_first timeChain hm _ hc htm 15).2 2).mp hfound,
    (FindEarliestAtLeast_first timeChain hm _ hc htm 30).1⟩

end SalemCash.BlockTree
