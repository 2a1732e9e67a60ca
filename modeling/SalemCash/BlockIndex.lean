import Mathlib.Data.Int.Bitwise
import SalemCash.ArithUint256
import SalemCash.Transaction

/-!
# The block index and its skip list

The `CBlockIndex` objects of the block index, in the order they were allocated: a
pointer to one is its position, and `nullptr` is `none`. An entry points back to its
parent (`pprev`) and to one further ancestor (`pskip`), which `BuildSkip` sets to the
ancestor at `GetSkipHeight(nHeight)`. `GetAncestor` walks back along both pointers.

A block index built by appending entries in height order, each with `BuildSkip`,
satisfies `WF`. On such an index the walk of `GetAncestor(height)` reaches the entry
that following `pprev` `nHeight - height` times reaches (`followPrev`), and its
`assert(pindexWalk->pprev)` holds: each round lowers the height it is at without
going below `height`, and keeps the entry it is at the ancestor of the start at that
height.
-/
namespace SalemCash

namespace BlockTree

/-- The fields of `CBlockIndex` that the block-index code reads. `hashBlock` is the hash
`phashBlock` points to. -/
structure CBlockIndex where
  hashBlock : uint256
  pprev : Option Nat
  pskip : Option Nat
  nHeight : Int
  nChainWork : arith_uint256
  nVersion : Int32
  nTime : UInt32
  nBits : UInt32
  nTimeMax : UInt32
  deriving DecidableEq, Repr

/-- `SetNull()`. -/
instance : Inhabited CBlockIndex := ⟨⟨uint256.zero, none, none, 0, 0, 0, 0, 0, 0⟩⟩

/-- The entries of the block index; a `CBlockIndex*` is a position in it. -/
abbrev BlockMap := List CBlockIndex

/-- `*pindex`. -/
def BlockMap.entry (m : BlockMap) (p : Nat) : CBlockIndex := m.getD p default

/-- How a call on the block index stops short: a failed `assert`, or an exception of
`base_uint`. -/
inductive IndexFault where
  | assertion_failure (what : String)
  | arith (e : uint_error)
  deriving DecidableEq, Repr

/-- Turn the lowest '1' bit in the binary representation of a number into a '0'. -/
def InvertLowestOne (n : Int) : Int := Int.land n (n - 1)

/-- Compute what height to jump back to with the `CBlockIndex::pskip` pointer. -/
def GetSkipHeight (height : Int) : Int :=
  if height < 2 then 0
  -- Any number strictly lower than height is acceptable.
  else if Int.land height 1 ≠ 0 then InvertLowestOne (InvertLowestOne (height - 1)) + 1
  else InvertLowestOne height

/-- The `else` branch of the loop of `GetAncestor`: one step back along `pprev`. -/
def stepBack (m : BlockMap) (pindexWalk : Nat) (heightWalk : Int) :
    Except IndexFault (Nat × Int) :=
  match (m.entry pindexWalk).pprev with
  | some pprev => .ok (pprev, heightWalk - 1)
  | none => .error (.assertion_failure "pindexWalk->pprev")

/-- One round of the loop of `GetAncestor`, from `pindexWalk` at `heightWalk`. -/
def ancestorStep (m : BlockMap) (height : Int) (pindexWalk : Nat) (heightWalk : Int) :
    Except IndexFault (Nat × Int) :=
  let heightSkip := GetSkipHeight heightWalk
  let heightSkipPrev := GetSkipHeight (heightWalk - 1)
  match (m.entry pindexWalk).pskip with
  | some pskip =>
    if heightSkip = height ∨
        (heightSkip > height ∧ ¬(heightSkipPrev < heightSkip - 2 ∧ heightSkipPrev ≥ height)) then
      -- Only follow pskip if pprev->pskip isn't better than pskip->pprev.
      .ok (pskip, heightSkip)
    else stepBack m pindexWalk heightWalk
  | none => stepBack m pindexWalk heightWalk

/-- The loop `while (heightWalk > height)` of `GetAncestor`. Each round lowers
`heightWalk`, so `heightWalk - height` rounds are enough: `GetAncestor` gives that much
`fuel`, and at `0` the loop has ended. -/
def ancestorWalk (m : BlockMap) (height : Int) : Nat → Nat → Int → Except IndexFault Nat
  | 0, pindexWalk, _ => .ok pindexWalk
  | fuel + 1, pindexWalk, heightWalk =>
    if heightWalk > height then do
      let (pindexWalk, heightWalk) ← ancestorStep m height pindexWalk heightWalk
      ancestorWalk m height fuel pindexWalk heightWalk
    else .ok pindexWalk

/-- `CBlockIndex::GetAncestor`. -/
def GetAncestor (m : BlockMap) (p : Nat) (height : Int) : Except IndexFault (Option Nat) :=
  let nHeight := (m.entry p).nHeight
  if height > nHeight ∨ height < 0 then .ok none
  else some <$> ancestorWalk m height (nHeight - height).toNat p nHeight

/-- `CBlockIndex::BuildSkip` of the entry at `p`, whose `pprev` and `nHeight` are set. -/
def BuildSkip (m : BlockMap) (p : Nat) : Except IndexFault BlockMap :=
  match (m.entry p).pprev with
  | some pprev => do
    let pskip ← GetAncestor m pprev (GetSkipHeight (m.entry p).nHeight)
    pure (m.modify p fun b => { b with pskip })
  | none => .ok m

/-- The entry reached from `p` by following `pprev` `k` times, if the pointers reach so
far. -/
def followPrev (m : BlockMap) (p : Nat) : Nat → Option Nat
  | 0 => some p
  | k + 1 => (m.entry p).pprev.bind fun q => followPrev m q k

@[simp] theorem followPrev_zero (m : BlockMap) (p : Nat) : followPrev m p 0 = some p := rfl

theorem followPrev_succ (m : BlockMap) (p k : Nat) :
    followPrev m p (k + 1) = (m.entry p).pprev.bind fun q => followPrev m q k := rfl

/-- Following `pprev` `k + l` times is following it `k` times, then `l` times. -/
theorem followPrev_add (m : BlockMap) (p k l : Nat) :
    followPrev m p (k + l) = (followPrev m p k).bind fun q => followPrev m q l := by
  induction k generalizing p with
  | zero => simp
  | succ k ih =>
    rw [Nat.add_right_comm, followPrev_succ, followPrev_succ]
    cases (m.entry p).pprev with
    | none => rfl
    | some q => exact ih q

/-- What appending the entry at `i` in height order, with `BuildSkip`, makes true of it:
its parent comes before it, one below it; a root is at height `0`; and its `pskip`, when
set, is its ancestor at `GetSkipHeight(nHeight)`. -/
structure EntryWF (m : BlockMap) (i : Nat) : Prop where
  pprev_lt : ∀ j ∈ (m.entry i).pprev, j < i
  nHeight_pprev : ∀ j ∈ (m.entry i).pprev, (m.entry i).nHeight = (m.entry j).nHeight + 1
  nHeight_root : (m.entry i).pprev = none → (m.entry i).nHeight = 0
  pskip_eq : ∀ s ∈ (m.entry i).pskip,
    followPrev m i ((m.entry i).nHeight - GetSkipHeight (m.entry i).nHeight).toNat = some s

instance (m : BlockMap) (i : Nat) : Decidable (EntryWF m i) :=
  decidable_of_iff ((∀ j ∈ (m.entry i).pprev, j < i) ∧
      (∀ j ∈ (m.entry i).pprev, (m.entry i).nHeight = (m.entry j).nHeight + 1) ∧
      ((m.entry i).pprev = none → (m.entry i).nHeight = 0) ∧
      (∀ s ∈ (m.entry i).pskip,
        followPrev m i ((m.entry i).nHeight - GetSkipHeight (m.entry i).nHeight).toNat = some s))
    ⟨fun ⟨h₁, h₂, h₃, h₄⟩ => ⟨h₁, h₂, h₃, h₄⟩, fun ⟨h₁, h₂, h₃, h₄⟩ => ⟨h₁, h₂, h₃, h₄⟩⟩

/-- A block index every entry of which is well formed. -/
def WF (m : BlockMap) : Prop := ∀ i < m.length, EntryWF m i

instance (m : BlockMap) : Decidable (WF m) := inferInstanceAs (Decidable (∀ i < m.length, _))

theorem InvertLowestOne_natCast (n : Nat) :
    InvertLowestOne n = ((n &&& (n - 1) : Nat) : Int) := by
  cases n with
  | zero =>
    change Int.land (Int.ofNat 0) (Int.negSucc 0) = 0
    simp only [Int.land]
    simp [Nat.ldiff]
  | succ n =>
    have h : ((n + 1 : Nat) : Int) - 1 = (n : Int) := by omega
    rw [InvertLowestOne, h, Nat.add_sub_cancel]
    rfl

theorem GetSkipHeight_nonneg (height : Int) : 0 ≤ GetSkipHeight height := by
  unfold GetSkipHeight
  split
  · exact le_refl 0
  · obtain ⟨n, rfl⟩ := Int.eq_ofNat_of_zero_le (by omega : 0 ≤ height)
    have h1 : (n : Int) - 1 = ((n - 1 : Nat) : Int) := by omega
    split
    · rw [h1, InvertLowestOne_natCast, InvertLowestOne_natCast]
      omega
    · rw [InvertLowestOne_natCast]
      omega

/-- The skip pointer of an entry above the genesis height goes strictly back. -/
theorem GetSkipHeight_lt {height : Int} (h : 1 ≤ height) : GetSkipHeight height < height := by
  unfold GetSkipHeight
  split
  · omega
  · obtain ⟨n, rfl⟩ := Int.eq_ofNat_of_zero_le (by omega : 0 ≤ height)
    have h1 : (n : Int) - 1 = ((n - 1 : Nat) : Int) := by omega
    split
    · rw [h1, InvertLowestOne_natCast, InvertLowestOne_natCast]
      have hx : (n - 1) &&& (n - 1 - 1) ≤ n - 1 - 1 := Nat.and_le_right
      have hy : ((n - 1) &&& (n - 1 - 1)) &&& (((n - 1) &&& (n - 1 - 1)) - 1) ≤
          ((n - 1) &&& (n - 1 - 1)) - 1 := Nat.and_le_right
      omega
    · have hx : n &&& (n - 1) ≤ n - 1 := Nat.and_le_right
      rw [InvertLowestOne_natCast]
      omega

theorem entry_append_lt {m : BlockMap} (l : BlockMap) {i : Nat} (h : i < m.length) :
    (m ++ l).entry i = m.entry i := by
  simp only [BlockMap.entry, List.getD_eq_getElem?_getD, List.getElem?_append_left h]

@[simp] theorem entry_append_length (m : BlockMap) (e : CBlockIndex) :
    (m ++ [e]).entry m.length = e := by
  simp [BlockMap.entry, List.getD_eq_getElem?_getD]

/-- Changing the last entry of `m ++ [e]` is appending the changed entry. -/
theorem modify_append_length (m : BlockMap) (e : CBlockIndex) (f : CBlockIndex → CBlockIndex) :
    (m ++ [e]).modify m.length f = m ++ [f e] := by
  induction m with
  | nil => rfl
  | cons a m ih => simp only [List.cons_append, List.length_cons, List.modify_succ_cons, ih]

section WF

variable {m : BlockMap}

/-- Heights in a well-formed index are not negative: the parent of an entry comes before
it, so the induction is on the position. -/
theorem WF.nHeight_nonneg (hm : WF m) {i : Nat} (hi : i < m.length) : 0 ≤ (m.entry i).nHeight := by
  induction i using Nat.strong_induction_on with
  | _ i ih =>
    have he := hm i hi
    cases hq : (m.entry i).pprev with
    | none => rw [he.nHeight_root hq]
    | some j =>
      have hj : j < i := he.pprev_lt j hq
      have := ih j hj (by omega)
      rw [he.nHeight_pprev j hq]
      omega

/-- Following `pprev` stays in the index and goes one height down per step. -/
theorem WF.followPrev_some (hm : WF m) {p a k : Nat} (hp : p < m.length)
    (h : followPrev m p k = some a) :
    a < m.length ∧ a ≤ p ∧ (m.entry a).nHeight = (m.entry p).nHeight - k := by
  induction k generalizing p with
  | zero =>
    rw [followPrev_zero, Option.some.injEq] at h
    subst h
    exact ⟨hp, le_refl _, by simp⟩
  | succ k ih =>
    rw [followPrev_succ] at h
    cases hq : (m.entry p).pprev with
    | none =>
      rw [hq] at h
      cases h
    | some q =>
      rw [hq, Option.bind_some] at h
      have he := hm p hp
      have hqp : q < p := he.pprev_lt q hq
      obtain ⟨ha, hap, hh⟩ := ih (by omega) h
      refine ⟨ha, by omega, ?_⟩
      rw [hh, he.nHeight_pprev q hq]
      omega

/-- Up to the height of the entry, following `pprev` reaches an entry. -/
theorem WF.followPrev_exists (hm : WF m) {p k : Nat} (hp : p < m.length)
    (hk : (k : Int) ≤ (m.entry p).nHeight) : ∃ a, followPrev m p k = some a := by
  induction k generalizing p with
  | zero => exact ⟨p, rfl⟩
  | succ k ih =>
    have he := hm p hp
    cases hq : (m.entry p).pprev with
    | none =>
      rw [he.nHeight_root hq] at hk
      omega
    | some q =>
      have hqp := he.pprev_lt q hq
      have hh := he.nHeight_pprev q hq
      obtain ⟨a, ha⟩ := ih (by omega) (by omega : (k : Int) ≤ (m.entry q).nHeight)
      exact ⟨a, by rw [followPrev_succ, hq, Option.bind_some, ha]⟩

/-- One round of the walk of `GetAncestor`, above `height`, goes back `k ≥ 1` steps along
`pprev` and stays at or above `height`; its `assert` holds. -/
theorem ancestorStep_spec (hm : WF m) {height : Int} {w : Nat} (hw : w < m.length)
    (h0 : 0 ≤ height) (hlt : height < (m.entry w).nHeight) :
    ∃ w' k, ancestorStep m height w (m.entry w).nHeight = .ok (w', (m.entry w').nHeight) ∧
      followPrev m w k = some w' ∧ w' < m.length ∧ height ≤ (m.entry w').nHeight ∧ 0 < k := by
  have he := hm w hw
  obtain ⟨j, hj⟩ : ∃ j, (m.entry w).pprev = some j := by
    cases hq : (m.entry w).pprev with
    | none =>
      rw [he.nHeight_root hq] at hlt
      omega
    | some j => exact ⟨j, rfl⟩
  have hjh := he.nHeight_pprev j hj
  have hback : ∃ w' k, stepBack m w (m.entry w).nHeight = .ok (w', (m.entry w').nHeight) ∧
      followPrev m w k = some w' ∧ w' < m.length ∧ height ≤ (m.entry w').nHeight ∧ 0 < k := by
    refine ⟨j, 1, ?_, by rw [followPrev_succ, hj]; rfl, by have := he.pprev_lt j hj; omega,
      by omega, by omega⟩
    simp only [stepBack, hj, hjh, Int.add_sub_cancel]
  cases hs : (m.entry w).pskip with
  | none => simpa only [ancestorStep, hs] using hback
  | some s =>
    simp only [ancestorStep, hs]
    split
    · rename_i hcond
      have hfs := he.pskip_eq s hs
      obtain ⟨hsl, -, hsh⟩ := hm.followPrev_some hw hfs
      have hnn := GetSkipHeight_nonneg (m.entry w).nHeight
      have hsk := GetSkipHeight_lt (by omega : 1 ≤ (m.entry w).nHeight)
      have hskip : GetSkipHeight (m.entry w).nHeight = (m.entry s).nHeight := by
        rw [hsh]
        omega
      refine ⟨s, _, by rw [hskip], hfs, hsl, by omega, by omega⟩
    · exact hback

/-- The walk of `GetAncestor` from an entry at or above `height`, given as many rounds as
the heights differ, ends at the ancestor at `height`. The induction is on the fuel; each
round keeps the entry it is at an ancestor of the start. -/
theorem ancestorWalk_spec (hm : WF m) {height : Int} (h0 : 0 ≤ height) (fuel : Nat) {w : Nat}
    (hw : w < m.length) (hle : height ≤ (m.entry w).nHeight)
    (hfuel : ((m.entry w).nHeight - height).toNat ≤ fuel) :
    ∃ a, ancestorWalk m height fuel w (m.entry w).nHeight = .ok a ∧
      followPrev m w ((m.entry w).nHeight - height).toNat = some a := by
  induction fuel generalizing w with
  | zero =>
    have hh : (m.entry w).nHeight - height = 0 := by omega
    exact ⟨w, rfl, by rw [hh]; rfl⟩
  | succ fuel ih =>
    by_cases hgt : (m.entry w).nHeight > height
    · obtain ⟨w', k, hstep, hf, hw', hh', hk⟩ := ancestorStep_spec hm hw h0 hgt
      obtain ⟨-, -, hheight⟩ := hm.followPrev_some hw hf
      obtain ⟨a, hwalk, hfa⟩ := ih hw' hh' (by omega)
      refine ⟨a, ?_, ?_⟩
      · simp only [ancestorWalk, if_pos hgt, hstep]
        exact hwalk
      · have hsplit : ((m.entry w).nHeight - height).toNat =
            k + ((m.entry w').nHeight - height).toNat := by omega
        rw [hsplit, followPrev_add, hf, Option.bind_some]
        exact hfa
    · have hh : (m.entry w).nHeight - height = 0 := by omega
      exact ⟨w, by simp only [ancestorWalk, if_neg hgt], by rw [hh]; rfl⟩

/-- `GetAncestor(height)` on a well-formed index: `nullptr` outside `[0, nHeight]`, the
entry `nHeight - height` steps back along `pprev` inside, and no failed `assert`. -/
theorem GetAncestor_spec (hm : WF m) {p : Nat} (hp : p < m.length) (height : Int) :
    GetAncestor m p height = .ok (if height > (m.entry p).nHeight ∨ height < 0 then none
      else followPrev m p ((m.entry p).nHeight - height).toNat) := by
  unfold GetAncestor
  split
  · rename_i hout
    rw [if_pos hout]
  · rename_i hin
    rw [if_neg hin]
    obtain ⟨a, hwalk, hfa⟩ :=
      ancestorWalk_spec hm (by omega) ((m.entry p).nHeight - height).toNat hp (by omega) (le_refl _)
    rw [hwalk, hfa]
    rfl

/-- The skip list is a faster way to follow `pprev`: on an index built in height order,
`GetAncestor(height)` is `nullptr` outside `[0, nHeight]` and, inside, the entry reached by
following `pprev` `nHeight - height` times, without a failed `assert`; and every skip
height above the genesis height goes strictly back. -/
theorem GetAncestor_follows_pprev (m : BlockMap) (hm : WF m) (p : Nat) (hp : p < m.length) :
    (∀ height : Int, (height < 0 ∨ (m.entry p).nHeight < height) →
      GetAncestor m p height = .ok none) ∧
    (∀ height : Int, 0 ≤ height → height ≤ (m.entry p).nHeight →
      ∃ a, followPrev m p ((m.entry p).nHeight - height).toNat = some a ∧
        GetAncestor m p height = .ok (some a)) ∧
    ∀ n : Int, 1 ≤ n → GetSkipHeight n < n := by
  refine ⟨fun height hout => ?_, fun height h0 hle => ?_, fun n hn => GetSkipHeight_lt hn⟩
  · rw [GetAncestor_spec hm hp, if_pos (by omega)]
  · have hk : (((m.entry p).nHeight - height).toNat : Int) ≤ (m.entry p).nHeight := by omega
    obtain ⟨a, ha⟩ := hm.followPrev_exists hp hk
    refine ⟨a, ha, ?_⟩
    rw [GetAncestor_spec hm hp, if_neg (by omega), ha]

/-- Appending leaves the ancestors of the entries already there as they were. -/
theorem WF.followPrev_append (hm : WF m) (l : BlockMap) {p : Nat} (hp : p < m.length) (k : Nat) :
    followPrev (m ++ l) p k = followPrev m p k := by
  induction k generalizing p with
  | zero => rfl
  | succ k ih =>
    rw [followPrev_succ, followPrev_succ, entry_append_lt l hp]
    cases hq : (m.entry p).pprev with
    | none => rfl
    | some q =>
      have := (hm p hp).pprev_lt q hq
      exact ih (by omega)

/-- An entry appended to a well-formed index, well formed itself, keeps the index well
formed. -/
theorem WF.append (hm : WF m) {e : CBlockIndex} (he : EntryWF (m ++ [e]) m.length) :
    WF (m ++ [e]) := by
  intro i hi
  rw [List.length_append, List.length_singleton] at hi
  rcases Nat.lt_or_ge i m.length with hlt | hge
  · have hi' := hm i hlt
    constructor
    · rw [entry_append_lt _ hlt]
      exact hi'.pprev_lt
    · intro j hj
      rw [entry_append_lt _ hlt] at hj ⊢
      rw [entry_append_lt _ (by have := hi'.pprev_lt j hj; omega)]
      exact hi'.nHeight_pprev j hj
    · rw [entry_append_lt _ hlt]
      exact hi'.nHeight_root
    · intro s hs
      rw [entry_append_lt _ hlt] at hs ⊢
      rw [hm.followPrev_append _ hlt]
      exact hi'.pskip_eq s hs
  · obtain rfl : i = m.length := by omega
    exact he

/-- An entry appended with parent `q`: one height above it, its `pskip`, when set, the
ancestor of `q` at the skip height. -/
theorem entryWF_append_child (hm : WF m) {q : Nat} (hq : q < m.length) {e : CBlockIndex}
    (hpprev : e.pprev = some q) (hheight : e.nHeight = (m.entry q).nHeight + 1)
    (hskip : ∀ s ∈ e.pskip,
      followPrev m q ((m.entry q).nHeight - GetSkipHeight e.nHeight).toNat = some s) :
    EntryWF (m ++ [e]) m.length := by
  have hqe : (m ++ [e]).entry q = m.entry q := entry_append_lt _ hq
  refine ⟨?_, ?_, ?_, ?_⟩
  · intro j hj
    rw [entry_append_length, hpprev, Option.mem_def, Option.some.injEq] at hj
    omega
  · intro j hj
    rw [entry_append_length, hpprev, Option.mem_def, Option.some.injEq] at hj
    subst hj
    rw [entry_append_length, hqe, hheight]
  · rw [entry_append_length, hpprev]
    exact fun h => nomatch h
  · intro s hs
    rw [entry_append_length] at hs ⊢
    have hnn := GetSkipHeight_nonneg e.nHeight
    have hlt := GetSkipHeight_lt (by have := hm.nHeight_nonneg hq; omega : 1 ≤ e.nHeight)
    have hk : (e.nHeight - GetSkipHeight e.nHeight).toNat =
        ((m.entry q).nHeight - GetSkipHeight e.nHeight).toNat + 1 := by omega
    rw [hk, followPrev_succ, entry_append_length, hpprev, Option.bind_some,
      hm.followPrev_append _ hq]
    exact hskip s hs

/-- A root appended: height `0` and no skip pointer. -/
theorem entryWF_append_root {e : CBlockIndex} (hpprev : e.pprev = none) (hheight : e.nHeight = 0)
    (hpskip : e.pskip = none) : EntryWF (m ++ [e]) m.length := by
  refine ⟨?_, ?_, ?_, ?_⟩ <;> simp [hpprev, hheight, hpskip]

/-- What appending `e` to `m` asks of it, read off its own `pprev`, `nHeight` and `pskip`:
a child of an earlier entry, one above it, its skip pointer the ancestor at the skip
height; or a root at height `0` without one. -/
def Appendable (m : BlockMap) (e : CBlockIndex) : Prop :=
  match e.pprev with
  | some q => q < m.length ∧ e.nHeight = (m.entry q).nHeight + 1 ∧
      ∀ s ∈ e.pskip, followPrev m q ((m.entry q).nHeight - GetSkipHeight e.nHeight).toNat = some s
  | none => e.nHeight = 0 ∧ e.pskip = none

theorem WF.append_of (hm : WF m) {e : CBlockIndex} (he : Appendable m e) : WF (m ++ [e]) := by
  apply hm.append
  unfold Appendable at he
  split at he
  · rename_i q hq
    exact entryWF_append_child hm he.1 hq he.2.1 he.2.2
  · rename_i hq
    exact entryWF_append_root hq he.1 he.2

end WF

/-- A chain of five entries, each `pskip` set by `BuildSkip`. -/
def skipChain : BlockMap :=
  [{ (default : CBlockIndex) with nHeight := 0 },
   { (default : CBlockIndex) with pprev := some 0, pskip := some 0, nHeight := 1 },
   { (default : CBlockIndex) with pprev := some 1, pskip := some 0, nHeight := 2 },
   { (default : CBlockIndex) with pprev := some 2, pskip := some 1, nHeight := 3 },
   { (default : CBlockIndex) with pprev := some 3, pskip := some 0, nHeight := 4 }]

unseal Nat.bitwise in
theorem GetAncestor_follows_pprev_skipChain : WF skipChain ∧ 4 < skipChain.length ∧
    ((∀ height : Int, (height < 0 ∨ (skipChain.entry 4).nHeight < height) →
      GetAncestor skipChain 4 height = .ok none) ∧
    (∀ height : Int, 0 ≤ height → height ≤ (skipChain.entry 4).nHeight →
      ∃ a, followPrev skipChain 4 ((skipChain.entry 4).nHeight - height).toNat = some a ∧
        GetAncestor skipChain 4 height = .ok (some a)) ∧
    ∀ n : Int, 1 ≤ n → GetSkipHeight n < n) :=
  ⟨by decide, by decide,
    GetAncestor_follows_pprev skipChain (by decide) 4 (by decide)⟩

end BlockTree

end SalemCash
