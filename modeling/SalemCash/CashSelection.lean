import Mathlib.Algebra.BigOperators.Group.List.Basic
import Mathlib.Algebra.Order.BigOperators.Group.List
import Mathlib.Data.List.Perm.Subperm
import Mathlib.Tactic.Linarith
import SalemCash.Transaction

/-!
# Knapsack cash selection

`KnapsackSolver` of `cashselection.cpp` picks inputs worth at least a target.
It takes a coin of exactly the target if there is one. Otherwise it splits the coins
into those below `nTargetValue + MIN_CHANGE` and the lowest larger one, and
returns all the smaller coins when they sum to the target. It returns the lowest
larger coin when the smaller ones do not reach the target. Otherwise it runs the
randomized `ApproximateBestSubset` over the smaller coins, once or twice, and keeps
the better of its subset and the lowest larger coin.

`random_shuffle` reorders `vCash` first; the model takes the order it leaves as its
input, so a statement over every `vCash` holds for every shuffle. Each
`ApproximateBestSubset` call draws its random bits from a fresh `FastRandomContext`,
a stream `rand`. `std::sort` with `descending` is `List.mergeSort`, one of the orders
it may produce.

The chosen coins go into a `std::set<CInputCash>`, ordered by outpoint alone, while
`nValueRet` adds up every coin inserted. Two candidates with one outpoint are kept
once in the set and counted twice in `nValueRet` (`KnapsackSolver_dupCash`).
`CAmount` sums are `int64_t` ones (`wrap64`): at a target near `INT64_MAX`,
`nTargetValue + MIN_CHANGE` wraps below every coin (`KnapsackSolver_int64_max`). For
candidates with distinct outpoints and sums that fit, the result is sound
(`KnapsackSolver_never_underfunds`).
-/
namespace SalemCash

/-- `CInputCash`: an output the wallet can spend, with its value after fees. -/
structure CInputCash where
  outpoint : COutPoint
  txout : CTxOut
  effective_value : CAmount
  fee : CAmount
  long_term_fee : CAmount
  deriving DecidableEq, Repr

def MIN_CHANGE : CAmount := CENT

/-- `std::set<CInputCash>::insert`: `CInputCash::operator<` compares outpoints, so an
element whose outpoint is already there is not added. -/
def CashSet.insert (set : List CInputCash) (cash : CInputCash) : List CInputCash :=
  if set.any (·.outpoint == cash.outpoint) then set else set ++ [cash]

/-- The locals of `ApproximateBestSubset`, with `draws` the number of `randbool` calls
made so far. -/
structure SubsetSearch where
  vfIncluded : List Bool
  nTotal : CAmount
  fReachedTarget : Bool
  vfBest : List Bool
  nBest : CAmount
  draws : Nat

/-- The body of the inner loop at index `i`: in the first pass a random bit, in the
second the coins not yet included, decide whether to include the coin of value
`nValue`. A subset that reaches the target is recorded when it beats the best one, and
the coin is taken out again. -/
def includeStep (nTargetValue : CAmount) (rand : Nat → Bool) (nPass : Nat)
    (s : SubsetSearch) (i : Nat) (nValue : CAmount) : SubsetSearch :=
  let pick := if nPass = 0 then rand s.draws else !s.vfIncluded.getD i false
  let draws := if nPass = 0 then s.draws + 1 else s.draws
  if pick then
    let nTotal := wrap64 (s.nTotal + nValue)
    let vfIncluded := s.vfIncluded.set i true
    if nTotal ≥ nTargetValue then
      let better := decide (nTotal < s.nBest)
      { vfIncluded := vfIncluded.set i false, nTotal := wrap64 (nTotal - nValue),
        fReachedTarget := true,
        vfBest := if better then vfIncluded else s.vfBest,
        nBest := if better then nTotal else s.nBest, draws := draws }
    else { s with vfIncluded := vfIncluded, nTotal := nTotal, draws := draws }
  else { s with draws := draws }

/-- `for (unsigned int i = 0; i < vValue.size(); i++)` from index `i` over the coins
left. -/
def passLoop (nTargetValue : CAmount) (rand : Nat → Bool) (nPass : Nat) :
    List CInputCash → Nat → SubsetSearch → SubsetSearch
  | [], _, s => s
  | cash :: rest, i, s =>
    passLoop nTargetValue rand nPass rest (i + 1)
      (includeStep nTargetValue rand nPass s i cash.txout.nValue)

/-- One repetition: clear `vfIncluded` and `nTotal`, then
`for (int nPass = 0; nPass < 2 && !fReachedTarget; nPass++)`. -/
def repStep (vValue : List CInputCash) (nTargetValue : CAmount) (rand : Nat → Bool)
    (s : SubsetSearch) : SubsetSearch :=
  let s : SubsetSearch :=
    { s with
      vfIncluded := List.replicate vValue.length false
      nTotal := 0
      fReachedTarget := false }
  let s := passLoop nTargetValue rand 0 vValue 0 s
  if s.fReachedTarget then s else passLoop nTargetValue rand 1 vValue 0 s

/-- `for (int nRep = 0; nRep < iterations && nBest != nTargetValue; nRep++)`, with the
repetitions left. -/
def repLoop (vValue : List CInputCash) (nTargetValue : CAmount) (rand : Nat → Bool) :
    Nat → SubsetSearch → SubsetSearch
  | 0, s => s
  | k + 1, s =>
    if s.nBest ≠ nTargetValue then repLoop vValue nTargetValue rand k (repStep vValue nTargetValue rand s)
    else s

/-- `ApproximateBestSubset(vValue, nTotalLower, nTargetValue, vfBest, nBest, iterations)`:
the final `vfBest` and `nBest`, starting from all the coins. -/
def ApproximateBestSubset (vValue : List CInputCash) (nTotalLower nTargetValue : CAmount)
    (rand : Nat → Bool) (iterations : Nat) : List Bool × CAmount :=
  let s := repLoop vValue nTargetValue rand iterations
    ⟨[], 0, false, List.replicate vValue.length true, nTotalLower, 0⟩
  (s.vfBest, s.nBest)

/-- The locals the first loop of `KnapsackSolver` fills. -/
structure KnapsackSplit where
  vValue : List CInputCash
  nTotalLower : CAmount
  cashLowestLarger : Option CInputCash

/-- The first loop of `KnapsackSolver`: `.inl` is the early return at a coin of exactly
the target, `.inr` the coins below `nTargetValue + MIN_CHANGE`, their total and the
lowest larger coin. -/
def splitCash (nTargetValue : CAmount) : List CInputCash → KnapsackSplit → CInputCash ⊕ KnapsackSplit
  | [], s => .inr s
  | cash :: rest, s =>
    if cash.txout.nValue = nTargetValue then .inl cash
    else if cash.txout.nValue < wrap64 (nTargetValue + MIN_CHANGE) then
      splitCash nTargetValue rest
        { s with
          vValue := s.vValue ++ [cash]
          nTotalLower := wrap64 (s.nTotalLower + cash.txout.nValue) }
    else if s.cashLowestLarger.all (fun c => cash.txout.nValue < c.txout.nValue) then
      splitCash nTargetValue rest { s with cashLowestLarger := some cash }
    else splitCash nTargetValue rest s

/-- Insert each coin of `inputs` into the set and add its value. -/
def insertAll (inputs : List CInputCash) (acc : List CInputCash × CAmount) :
    List CInputCash × CAmount :=
  inputs.foldl (fun acc input => (CashSet.insert acc.1 input, wrap64 (acc.2 + input.txout.nValue))) acc

/-- The coins of `vValue` that `vfBest` marks. -/
def bestCash (vValue : List CInputCash) (vfBest : List Bool) : List CInputCash :=
  ((vValue.zip vfBest).filter (·.2)).map (·.1)

/-- `descending`, the order of `std::sort` before the subset search. -/
def sortDescending (vValue : List CInputCash) : List CInputCash :=
  vValue.mergeSort fun a b => decide (a.effective_value > b.effective_value)

/-- `KnapsackSolver(nTargetValue, vCash, setCashRet, nValueRet)`: the return value,
`setCashRet` and `nValueRet`, for `vCash` in the order `random_shuffle` left it and the
streams of the two `ApproximateBestSubset` calls. -/
def KnapsackSolver (nTargetValue : CAmount) (vCash : List CInputCash) (rand₁ rand₂ : Nat → Bool) :
    Bool × List CInputCash × CAmount :=
  match splitCash nTargetValue vCash ⟨[], 0, none⟩ with
  | .inl cash => (true, insertAll [cash] ([], 0))
  | .inr ⟨vValue, nTotalLower, cashLowestLarger⟩ =>
    if nTotalLower = nTargetValue then (true, insertAll vValue ([], 0))
    else if nTotalLower < nTargetValue then
      match cashLowestLarger with
      | none => (false, [], 0)
      | some cash => (true, insertAll [cash] ([], 0))
    else
      let vValue := sortDescending vValue
      let (vfBest, nBest) := ApproximateBestSubset vValue nTotalLower nTargetValue rand₁ 1000
      let (vfBest, nBest) :=
        if nBest ≠ nTargetValue ∧ nTotalLower ≥ wrap64 (nTargetValue + MIN_CHANGE) then
          ApproximateBestSubset vValue nTotalLower (wrap64 (nTargetValue + MIN_CHANGE)) rand₂ 1000
        else (vfBest, nBest)
      match cashLowestLarger with
      | some cash =>
        if (nBest ≠ nTargetValue ∧ nBest < wrap64 (nTargetValue + MIN_CHANGE)) ∨
          cash.txout.nValue ≤ nBest
        then (true, insertAll [cash] ([], 0))
        else (true, insertAll (bestCash vValue vfBest) ([], 0))
      | none => (true, insertAll (bestCash vValue vfBest) ([], 0))

/-- The total value of the coins of `vValue` that a mask marks. -/
def maskSum : List CInputCash → List Bool → CAmount
  | cash :: rest, b :: bs => (if b then cash.txout.nValue else 0) + maskSum rest bs
  | _, _ => 0

@[simp] theorem maskSum_nil_left (mask : List Bool) : maskSum [] mask = 0 := by
  cases mask <;> rfl

@[simp] theorem maskSum_nil_right (vValue : List CInputCash) : maskSum vValue [] = 0 := by
  cases vValue <;> rfl

@[simp] theorem maskSum_cons (cash : CInputCash) (rest : List CInputCash) (b : Bool)
    (bs : List Bool) :
    maskSum (cash :: rest) (b :: bs) = (if b then cash.txout.nValue else 0) + maskSum rest bs := rfl

/-- The sum of the coins' magnitudes: no sum of some of them is larger in magnitude. -/
def magnitude (vValue : List CInputCash) : CAmount := (vValue.map fun c => |c.txout.nValue|).sum

@[simp] theorem magnitude_cons (cash : CInputCash) (rest : List CInputCash) :
    magnitude (cash :: rest) = |cash.txout.nValue| + magnitude rest := by
  simp [magnitude]

theorem magnitude_terms_nonneg (vValue : List CInputCash) :
    ∀ a ∈ vValue.map (fun c => |c.txout.nValue|), 0 ≤ a := by
  intro a ha
  obtain ⟨c, -, rfl⟩ := List.mem_map.mp ha
  exact abs_nonneg _

theorem magnitude_nonneg (vValue : List CInputCash) : 0 ≤ magnitude vValue :=
  List.sum_nonneg (magnitude_terms_nonneg vValue)

theorem magnitude_le_of_subperm {l l' : List CInputCash} (h : l.Subperm l') :
    magnitude l ≤ magnitude l' := by
  obtain ⟨l'', hperm, hsub⟩ := h
  rw [magnitude, ← (hperm.map _).sum_eq]
  exact (hsub.map _).sum_le_sum (magnitude_terms_nonneg l')

theorem abs_maskSum_le (vValue : List CInputCash) (mask : List Bool) :
    |maskSum vValue mask| ≤ magnitude vValue := by
  induction vValue generalizing mask with
  | nil => simp [magnitude]
  | cons cash rest ih =>
    cases mask with
    | nil => simpa using magnitude_nonneg (cash :: rest)
    | cons b bs =>
      calc |maskSum (cash :: rest) (b :: bs)|
          ≤ |if b then cash.txout.nValue else 0| + |maskSum rest bs| := abs_add_le _ _
        _ ≤ |cash.txout.nValue| + magnitude rest := add_le_add (by cases b <;> simp) (ih bs)
        _ = magnitude (cash :: rest) := (magnitude_cons cash rest).symm

/-- The value of a mask over coins whose magnitudes fit in `int64_t` does not wrap. -/
theorem wrap64_maskSum {vValue : List CInputCash} (hfit : magnitude vValue < 2 ^ 63)
    (mask : List Bool) : wrap64 (maskSum vValue mask) = maskSum vValue mask :=
  wrap64_of_abs_lt ((abs_maskSum_le vValue mask).trans_lt hfit)

theorem maskSum_replicate_false (vValue : List CInputCash) (n : Nat) :
    maskSum vValue (List.replicate n false) = 0 := by
  induction vValue generalizing n with
  | nil => simp
  | cons cash rest ih => cases n <;> simp [List.replicate_succ, ih]

theorem maskSum_replicate_true (vValue : List CInputCash) :
    maskSum vValue (List.replicate vValue.length true) = (vValue.map (·.txout.nValue)).sum := by
  induction vValue with
  | nil => simp
  | cons cash rest ih => simp [List.replicate_succ, ih]

/-- Marking one more coin adds its value. -/
theorem maskSum_set_true {vValue : List CInputCash} {mask : List Bool} {i : Nat} {cash : CInputCash}
    (hcash : vValue[i]? = some cash) (hlen : i < mask.length) (hfalse : mask.getD i false = false) :
    maskSum vValue (mask.set i true) = maskSum vValue mask + cash.txout.nValue := by
  induction vValue generalizing mask i with
  | nil => simp at hcash
  | cons c rest ih =>
    cases mask with
    | nil => simp at hlen
    | cons b bs =>
      cases i with
      | zero =>
        simp only [List.getElem?_cons_zero, Option.some.injEq] at hcash
        simp only [List.getD_cons_zero] at hfalse
        subst hcash hfalse
        simp [Int.add_comm]
      | succ i =>
        simp only [List.getElem?_cons_succ] at hcash
        simp only [List.length_cons, Nat.add_lt_add_iff_right] at hlen
        simp only [List.getD_cons_succ] at hfalse
        simp only [List.set_cons_succ, maskSum_cons, ih hcash hlen hfalse, Int.add_assoc]

theorem set_true_set_false {mask : List Bool} {i : Nat} (hfalse : mask.getD i false = false) :
    (mask.set i true).set i false = mask := by
  rw [List.set_set]
  by_cases hi : i < mask.length
  · rw [List.getD_eq_getElem?_getD, List.getElem?_eq_getElem hi, Option.getD_some] at hfalse
    rw [← hfalse, List.set_getElem_self]
  · exact List.set_eq_of_length_le (Nat.le_of_not_lt hi)

/-- The coins a mask selects sum to its value. -/
theorem sum_bestCash (vValue : List CInputCash) (mask : List Bool) :
    ((bestCash vValue mask).map (·.txout.nValue)).sum = maskSum vValue mask := by
  induction vValue generalizing mask with
  | nil => simp [bestCash]
  | cons cash rest ih =>
    cases mask with
    | nil => simp [bestCash]
    | cons b bs =>
      cases b <;> simp [bestCash] at ih ⊢ <;> simp [ih]

theorem bestCash_sublist (vValue : List CInputCash) (mask : List Bool) :
    List.Sublist (bestCash vValue mask) vValue := by
  induction vValue generalizing mask with
  | nil => simp [bestCash]
  | cons cash rest ih =>
    cases mask with
    | nil => simp [bestCash]
    | cons b bs =>
      have := ih bs
      cases b <;> simp only [bestCash, List.zip_cons_cons, List.filter_cons] at this ⊢
      · exact this.cons cash
      · exact this.cons_cons cash

namespace SubsetSearch

/-- `nTotal` is the value of `vfIncluded`, a mask over all of `vValue`. -/
def Total (vValue : List CInputCash) (s : SubsetSearch) : Prop :=
  s.vfIncluded.length = vValue.length ∧ s.nTotal = maskSum vValue s.vfIncluded

/-- `nBest` is the value of `vfBest`, and at least the target. -/
def Best (vValue : List CInputCash) (nTargetValue : CAmount) (s : SubsetSearch) : Prop :=
  s.nBest = maskSum vValue s.vfBest ∧ nTargetValue ≤ s.nBest

/-- No coin from index `i` on is included yet, as in the first pass. -/
def FreshFrom (i : Nat) (s : SubsetSearch) : Prop :=
  ∀ j, i ≤ j → s.vfIncluded.getD j false = false

end SubsetSearch

theorem getD_set_of_lt {mask : List Bool} {i j : Nat} (b : Bool) (hij : i < j) :
    (mask.set i b).getD j false = mask.getD j false := by
  simp only [List.getD_eq_getElem?_getD, List.getElem?_set_ne (Nat.ne_of_lt hij)]

variable {vValue : List CInputCash} {nTargetValue : CAmount} {rand : Nat → Bool} {nPass : Nat}

/-- One step of the inner loop keeps both invariants, and in the first pass it only
touches the coin at `i`. -/
theorem includeStep_inv {s : SubsetSearch} {i : Nat} {cash : CInputCash}
    (hfit : magnitude vValue < 2 ^ 63) (hcash : vValue[i]? = some cash) (htotal : s.Total vValue)
    (hbest : s.Best vValue nTargetValue) (hfresh : nPass = 0 → s.FreshFrom i) :
    (includeStep nTargetValue rand nPass s i cash.txout.nValue).Total vValue ∧
      (includeStep nTargetValue rand nPass s i cash.txout.nValue).Best vValue nTargetValue ∧
      (nPass = 0 → (includeStep nTargetValue rand nPass s i cash.txout.nValue).FreshFrom (i + 1)) := by
  obtain ⟨hlen, htot⟩ := htotal
  obtain ⟨hbeq, hble⟩ := hbest
  have hi : i < s.vfIncluded.length := by
    rw [hlen]
    exact (List.getElem?_eq_some_iff.mp hcash).1
  have hfresh' : nPass = 0 → s.FreshFrom (i + 1) := fun h0 j hj => hfresh h0 j (by omega)
  have hfalse : (if nPass = 0 then rand s.draws else !s.vfIncluded.getD i false) = true →
      s.vfIncluded.getD i false = false := by
    intro hpick
    by_cases h0 : nPass = 0
    · exact hfresh h0 i (Nat.le_refl i)
    · simpa [h0] using hpick
  have hset := maskSum_set_true hcash hi
  unfold includeStep
  dsimp only
  generalize hp : (if nPass = 0 then rand s.draws else !s.vfIncluded.getD i false) = pick at hfalse
  generalize (if nPass = 0 then s.draws + 1 else s.draws) = draws
  cases pick with
  | false => exact ⟨⟨hlen, htot⟩, ⟨hbeq, hble⟩, hfresh'⟩
  | true =>
    have hnot := hfalse rfl
    have hadd : wrap64 (s.nTotal + cash.txout.nValue) = s.nTotal + cash.txout.nValue := by
      rw [htot, ← hset hnot, wrap64_maskSum hfit]
    have hback : wrap64 (s.nTotal + cash.txout.nValue - cash.txout.nValue) = s.nTotal := by
      rw [Int.add_sub_cancel, htot, wrap64_maskSum hfit]
    simp only [if_true, hadd, hback]
    by_cases hreach : s.nTotal + cash.txout.nValue ≥ nTargetValue
    · simp only [if_pos hreach, set_true_set_false hnot]
      refine ⟨⟨hlen, htot⟩, ⟨?_, ?_⟩, hfresh'⟩
      · split <;> simp [hbeq, hset hnot, htot]
      · split <;> omega
    · simp only [if_neg hreach]
      refine ⟨⟨by simp [hlen], by simp [hset hnot, htot]⟩, ⟨hbeq, hble⟩, ?_⟩
      intro h0 j hj
      rw [getD_set_of_lt true (by omega)]
      exact hfresh' h0 j hj

/-- A pass over the coins from index `i` on keeps both invariants. -/
theorem passLoop_inv (hfit : magnitude vValue < 2 ^ 63) :
    ∀ (rest : List CInputCash) (i : Nat) (s : SubsetSearch),
    vValue.drop i = rest → s.Total vValue → s.Best vValue nTargetValue →
    (nPass = 0 → s.FreshFrom i) →
    (passLoop nTargetValue rand nPass rest i s).Total vValue ∧
      (passLoop nTargetValue rand nPass rest i s).Best vValue nTargetValue
  | [], _, _, _, htotal, hbest, _ => ⟨htotal, hbest⟩
  | cash :: rest, i, s, hdrop, htotal, hbest, hfresh => by
    have hcash : vValue[i]? = some cash := by
      have h := congrArg (·[0]?) hdrop
      simpa [List.getElem?_drop] using h
    have hrest : vValue.drop (i + 1) = rest := by
      rw [← List.tail_drop, hdrop, List.tail_cons]
    obtain ⟨htotal', hbest', hfresh'⟩ :=
      @includeStep_inv vValue nTargetValue rand nPass _ _ _ hfit hcash htotal hbest hfresh
    exact passLoop_inv hfit rest (i + 1) _ hrest htotal' hbest' hfresh'

/-- A repetition starts from no coin included, so it keeps the best subset's invariant. -/
theorem repStep_best {s : SubsetSearch} (hfit : magnitude vValue < 2 ^ 63)
    (hbest : s.Best vValue nTargetValue) :
    (repStep vValue nTargetValue rand s).Best vValue nTargetValue := by
  let s₀ : SubsetSearch := { s with
    vfIncluded := List.replicate vValue.length false
    nTotal := 0
    fReachedTarget := false }
  have htotal₀ : s₀.Total vValue := ⟨List.length_replicate, (maskSum_replicate_false _ _).symm⟩
  have hfresh₀ : s₀.FreshFrom 0 := fun j _ => by
    simp only [s₀, List.getD_eq_getElem?_getD, List.getElem?_replicate]
    split <;> rfl
  obtain ⟨htotal₁, hbest₁⟩ :=
    @passLoop_inv vValue nTargetValue rand 0 hfit vValue 0 s₀ rfl htotal₀ hbest fun _ => hfresh₀
  simp only [repStep]
  split
  · exact hbest₁
  · exact (@passLoop_inv vValue nTargetValue rand 1 hfit vValue 0 _ rfl htotal₁ hbest₁
      fun h => absurd h (by decide)).2

theorem repLoop_best (hfit : magnitude vValue < 2 ^ 63) :
    ∀ (k : Nat) (s : SubsetSearch), s.Best vValue nTargetValue →
      (repLoop vValue nTargetValue rand k s).Best vValue nTargetValue
  | 0, _, hbest => hbest
  | k + 1, s, hbest => by
    simp only [repLoop]
    split
    · exact repLoop_best hfit k _ (repStep_best hfit hbest)
    · exact hbest

/-- `ApproximateBestSubset` returns a subset whose value is `nBest`, at least the target,
when it starts from all the coins and they reach the target. -/
theorem ApproximateBestSubset_spec (nTotalLower : CAmount) (iterations : Nat)
    (hfit : magnitude vValue < 2 ^ 63) (hlower : nTotalLower = (vValue.map (·.txout.nValue)).sum) (hreach : nTargetValue ≤ nTotalLower) :
    (ApproximateBestSubset vValue nTotalLower nTargetValue rand iterations).2 =
        maskSum vValue (ApproximateBestSubset vValue nTotalLower nTargetValue rand iterations).1 ∧
      nTargetValue ≤ (ApproximateBestSubset vValue nTotalLower nTargetValue rand iterations).2 :=
  repLoop_best hfit iterations _ ⟨by rw [hlower, maskSum_replicate_true], hreach⟩

/-- The coins the first loop keeps for the subset search. -/
def smallCash (nTargetValue : CAmount) (cash : CInputCash) : Bool :=
  decide (cash.txout.nValue < wrap64 (nTargetValue + MIN_CHANGE))

theorem splitCash_inl : ∀ (l : List CInputCash) (s : KnapsackSplit) {cash : CInputCash},
    splitCash nTargetValue l s = .inl cash → cash ∈ l ∧ cash.txout.nValue = nTargetValue
  | [], _, _, h => by simp [splitCash] at h
  | c :: rest, s, cash, h => by
    simp only [splitCash] at h
    split_ifs at h with hexact
    · cases h
      exact ⟨List.mem_cons_self, hexact⟩
    all_goals exact (fun ⟨hmem, hval⟩ => ⟨List.mem_cons_of_mem c hmem, hval⟩) (splitCash_inl rest _ h)

/-- A lower coin that the rest of the list supplied is one of the whole list. -/
theorem lower_of_cons {o o' : Option CInputCash} {c : CInputCash} {rest : List CInputCash}
    {P : CInputCash → Prop} (h : ∀ d, o' = some d → o = some d ∨ (d ∈ rest ∧ P d)) :
    ∀ d, o' = some d → o = some d ∨ (d ∈ c :: rest ∧ P d) :=
  fun d hd => (h d hd).imp_right fun ⟨hmem, hle⟩ => ⟨List.mem_cons_of_mem c hmem, hle⟩

/-- Without an exact match the first loop keeps the small coins in order with their total,
and the lowest larger coin is one of the others; there is none only when every coin is
small. -/
theorem splitCash_inr : ∀ (l : List CInputCash) (s : KnapsackSplit) {s' : KnapsackSplit},
    |s.nTotalLower| + magnitude l < 2 ^ 63 → splitCash nTargetValue l s = .inr s' →
    s'.vValue = s.vValue ++ l.filter (smallCash nTargetValue) ∧
    s'.nTotalLower = s.nTotalLower + ((l.filter (smallCash nTargetValue)).map (·.txout.nValue)).sum ∧
    (∀ c, s'.cashLowestLarger = some c →
      s.cashLowestLarger = some c ∨ (c ∈ l ∧ wrap64 (nTargetValue + MIN_CHANGE) ≤ c.txout.nValue)) ∧
    (s'.cashLowestLarger = none →
      s.cashLowestLarger = none ∧ ∀ c ∈ l, c.txout.nValue < wrap64 (nTargetValue + MIN_CHANGE))
  | [], s, s', _, h => by
    simp only [splitCash, Sum.inr.injEq] at h
    subst h
    simp
  | c :: rest, s, s', hfit, h => by
    rw [magnitude_cons] at hfit
    have hsum := abs_add_le s.nTotalLower c.txout.nValue
    have hrest := magnitude_nonneg rest
    have hkeep : |s.nTotalLower| + magnitude rest < 2 ^ 63 := by
      linarith [abs_nonneg c.txout.nValue]
    simp only [splitCash] at h
    split_ifs at h with hexact hsmall hlower
    · have hadd : wrap64 (s.nTotalLower + c.txout.nValue) = s.nTotalLower + c.txout.nValue :=
        wrap64_of_abs_lt (by linarith)
      obtain ⟨hv, hn, hlow, hnone⟩ := splitCash_inr rest _ (by dsimp only; rw [hadd]; linarith) h
      have hc : smallCash nTargetValue c = true := by simp [smallCash, hsmall]
      refine ⟨by simp [hv, hc], by simp [hn, hc, hadd, Int.add_assoc], lower_of_cons hlow, ?_⟩
      intro hn'
      obtain ⟨hs, hall⟩ := hnone hn'
      refine ⟨hs, fun d hd => ?_⟩
      rcases List.mem_cons.mp hd with rfl | hd
      · exact hsmall
      · exact hall d hd
    · obtain ⟨hv, hn, hlow, hnone⟩ :=
        splitCash_inr rest { s with cashLowestLarger := some c } hkeep h
      have hc : smallCash nTargetValue c = false := by simp [smallCash, hsmall]
      refine ⟨by simp [hv, hc], by simp [hn, hc], ?_, ?_⟩
      · intro d hd
        rcases hlow d hd with h | ⟨hmem, hle⟩
        · cases h
          exact .inr ⟨List.mem_cons_self, Int.not_lt.mp hsmall⟩
        · exact .inr ⟨List.mem_cons_of_mem c hmem, hle⟩
      · intro hn'
        cases (hnone hn').1
    · obtain ⟨hv, hn, hlow, hnone⟩ := splitCash_inr rest _ hkeep h
      have hc : smallCash nTargetValue c = false := by simp [smallCash, hsmall]
      refine ⟨by simp [hv, hc], by simp [hn, hc], lower_of_cons hlow, fun hn' => ?_⟩
      obtain ⟨hs, -⟩ := hnone hn'
      simp [hs] at hlower

/-- Into a set of coins with distinct outpoints each insertion adds its coin. -/
theorem insertAll_distinct : ∀ (l : List CInputCash) (acc : List CInputCash × CAmount),
    (acc.1 ++ l).Pairwise (fun a b => a.outpoint ≠ b.outpoint) → |acc.2| + magnitude l < 2 ^ 63 →
    insertAll l acc = (acc.1 ++ l, acc.2 + (l.map (·.txout.nValue)).sum)
  | [], acc, _, _ => by simp [insertAll]
  | c :: rest, acc, hd, hfit => by
    rw [magnitude_cons] at hfit
    have hsum := abs_add_le acc.2 c.txout.nValue
    have hrest := magnitude_nonneg rest
    have hadd : wrap64 (acc.2 + c.txout.nValue) = acc.2 + c.txout.nValue :=
      wrap64_of_abs_lt (by linarith)
    have hnew : acc.1.any (·.outpoint == c.outpoint) = false := by
      have hne := (List.pairwise_append.mp hd).2.2
      simp only [List.any_eq_false, beq_iff_eq]
      exact fun a ha => hne a ha c List.mem_cons_self
    have hins : CashSet.insert acc.1 c = acc.1 ++ [c] := by
      simp only [CashSet.insert, hnew, Bool.false_eq_true, if_false]
    calc insertAll (c :: rest) acc
        = insertAll rest (acc.1 ++ [c], acc.2 + c.txout.nValue) := by
          rw [← hins, ← hadd]
          rfl
      _ = (acc.1 ++ [c] ++ rest, acc.2 + c.txout.nValue + (rest.map (·.txout.nValue)).sum) :=
          insertAll_distinct rest (acc.1 ++ [c], acc.2 + c.txout.nValue) (by simpa using hd)
            (by dsimp only; linarith)
      _ = (acc.1 ++ c :: rest, acc.2 + ((c :: rest).map (·.txout.nValue)).sum) := by
          simp [Int.add_assoc]

theorem pairwise_of_subperm {l l' : List CInputCash} (h : l.Subperm l')
    (hd : l'.Pairwise (fun a b => a.outpoint ≠ b.outpoint)) :
    l.Pairwise (fun a b => a.outpoint ≠ b.outpoint) := by
  obtain ⟨l'', hperm, hsub⟩ := h
  exact hperm.pairwise (hd.sublist hsub) fun hab => hab.symm

/-- What `KnapsackSolver` promises when it returns `true`: a non-empty sub-multiset of the
candidates, `nValueRet` its value, and at least the target. -/
def Funds (nTargetValue : CAmount) (vCash : List CInputCash) (r : List CInputCash × CAmount) :
    Prop :=
  r.1 ≠ [] ∧ r.1.Subperm vCash ∧ r.2 = (r.1.map (·.txout.nValue)).sum ∧ nTargetValue ≤ r.2

/-- Inserting candidates worth the target funds it. -/
theorem funds_insertAll {vCash l : List CInputCash} (htarget : 0 < nTargetValue)
    (hfit : magnitude vCash < 2 ^ 63)
    (hdistinct : vCash.Pairwise (fun a b => a.outpoint ≠ b.outpoint)) (hsub : l.Subperm vCash)
    (hle : nTargetValue ≤ (l.map (·.txout.nValue)).sum) :
    Funds nTargetValue vCash (insertAll l ([], 0)) := by
  rw [insertAll_distinct l ([], 0) (by simpa using pairwise_of_subperm hsub hdistinct)
    (by simpa using (magnitude_le_of_subperm hsub).trans_lt hfit)]
  refine ⟨fun hnil => ?_, hsub, by simp, by simpa using hle⟩
  simp only [List.nil_append] at hnil
  subst hnil
  rw [List.map_nil, List.sum_nil] at hle
  linarith

/-- A coin worth 6, for the runs below. -/
def dupCash : CInputCash := ⟨⟨uint256.zero, 0⟩, ⟨6, []⟩, 6, 0, 0⟩

/-- For candidates with distinct outpoints, a positive target and sums that fit in
`int64_t` (the target with `MIN_CHANGE`, and the candidates' magnitudes), `KnapsackSolver`
succeeds only with a set that funds the target, and fails only when all the candidates
together are worth less. -/
theorem KnapsackSolver_never_underfunds (nTargetValue : CAmount) (vCash : List CInputCash)
    (rand₁ rand₂ : Nat → Bool) (htarget : 0 < nTargetValue)
    (hchange : nTargetValue + MIN_CHANGE < 2 ^ 63) (hfit : magnitude vCash < 2 ^ 63)
    (hdistinct : vCash.Pairwise (fun a b => a.outpoint ≠ b.outpoint)) :
    ((KnapsackSolver nTargetValue vCash rand₁ rand₂).1 = true →
        Funds nTargetValue vCash (KnapsackSolver nTargetValue vCash rand₁ rand₂).2) ∧
      ((KnapsackSolver nTargetValue vCash rand₁ rand₂).1 = false →
        (vCash.map (·.txout.nValue)).sum < nTargetValue) := by
  have hmin : (0 : CAmount) < MIN_CHANGE := by decide
  have hT : wrap64 (nTargetValue + MIN_CHANGE) = nTargetValue + MIN_CHANGE :=
    wrap64_of_abs_lt (abs_lt.mpr ⟨by linarith, hchange⟩)
  have hone : ∀ cash ∈ vCash, nTargetValue ≤ cash.txout.nValue →
      Funds nTargetValue vCash (insertAll [cash] ([], 0)) := fun cash hmem hle =>
    funds_insertAll htarget hfit hdistinct (List.singleton_subperm_iff.mpr hmem) (by simpa using hle)
  unfold KnapsackSolver
  rw [hT]
  cases hsplit : splitCash nTargetValue vCash ⟨[], 0, none⟩ with
  | inl cash =>
    obtain ⟨hmem, hval⟩ := splitCash_inl vCash _ hsplit
    exact ⟨fun _ => hone cash hmem hval.ge, nofun⟩
  | inr s =>
    obtain ⟨vValue, nTotalLower, cashLowestLarger⟩ := s
    obtain ⟨hv, hn, hlow, hnone⟩ := splitCash_inr vCash _ (by simpa using hfit) hsplit
    simp only [List.nil_append, Int.zero_add, hT] at hv hn hlow hnone
    subst hv
    have hvsub : (vCash.filter (smallCash nTargetValue)).Subperm vCash :=
      List.filter_sublist.subperm
    have hlarger : ∀ c, cashLowestLarger = some c →
        c ∈ vCash ∧ nTargetValue ≤ c.txout.nValue := fun c hc => by
      rcases hlow c hc with h | ⟨hmem, hle⟩
      · cases h
      · exact ⟨hmem, by linarith⟩
    set sorted := sortDescending (vCash.filter (smallCash nTargetValue)) with hsorted
    have hperm : sorted.Perm (vCash.filter (smallCash nTargetValue)) := List.mergeSort_perm _ _
    have hsum : nTotalLower = (sorted.map (·.txout.nValue)).sum := by
      rw [hn, (hperm.map _).sum_eq]
    have hsub : sorted.Subperm vCash := hperm.subperm.trans hvsub
    have hmag : magnitude sorted < 2 ^ 63 := (magnitude_le_of_subperm hsub).trans_lt hfit
    have hsubset : ∀ vfBest nBest, nBest = maskSum sorted vfBest → nTargetValue ≤ nBest →
        Funds nTargetValue vCash (insertAll (bestCash sorted vfBest) ([], 0)) :=
      fun vfBest nBest hb hle => funds_insertAll htarget hfit hdistinct
        ((bestCash_sublist _ _).subperm.trans hsub) (by rw [sum_bestCash]; linarith)
    dsimp only
    by_cases heq : nTotalLower = nTargetValue
    · rw [if_pos heq]
      exact ⟨fun _ => funds_insertAll htarget hfit hdistinct hvsub (by linarith), nofun⟩
    rw [if_neg heq]
    by_cases hlt : nTotalLower < nTargetValue
    · rw [if_pos hlt]
      cases hc : cashLowestLarger with
      | none =>
        obtain ⟨-, hall⟩ := hnone hc
        have hself : vCash.filter (smallCash nTargetValue) = vCash :=
          List.filter_eq_self.mpr fun a ha => by simp [smallCash, hT, hall a ha]
        refine ⟨fun h => (by cases h), fun _ => ?_⟩
        rw [hself] at hn
        linarith
      | some cash =>
        obtain ⟨hmem, hle⟩ := hlarger cash hc
        exact ⟨fun _ => hone cash hmem hle, nofun⟩
    rw [if_neg hlt, ← hsorted]
    have hreach : nTargetValue ≤ nTotalLower := not_lt.mp hlt
    have hfirst := @ApproximateBestSubset_spec sorted nTargetValue rand₁ nTotalLower 1000 hmag hsum hreach
    have hretarget := fun h : nTotalLower ≥ nTargetValue + MIN_CHANGE =>
      @ApproximateBestSubset_spec sorted (nTargetValue + MIN_CHANGE) rand₂ nTotalLower 1000 hmag hsum h
    cases hc : cashLowestLarger with
    | none =>
      dsimp only
      split_ifs with hsecond
      · obtain ⟨hb, hle⟩ := hretarget hsecond.2
        exact ⟨fun _ => hsubset _ _ hb (by linarith), nofun⟩
      · exact ⟨fun _ => hsubset _ _ hfirst.1 hfirst.2, nofun⟩
    | some cash =>
      obtain ⟨hmem, hle⟩ := hlarger cash hc
      dsimp only
      split_ifs with hsecond hpick hpick
      · exact ⟨fun _ => hone cash hmem hle, nofun⟩
      · obtain ⟨hb, hle⟩ := hretarget hsecond.2
        exact ⟨fun _ => hsubset _ _ hb (by linarith), nofun⟩
      · exact ⟨fun _ => hone cash hmem hle, nofun⟩
      · exact ⟨fun _ => hsubset _ _ hfirst.1 hfirst.2, nofun⟩

theorem KnapsackSolver_never_underfunds_single :
    (0 : CAmount) < 5 ∧ (5 : CAmount) + MIN_CHANGE < 2 ^ 63 ∧ magnitude [dupCash] < 2 ^ 63 ∧
      [dupCash].Pairwise (fun a b => a.outpoint ≠ b.outpoint) ∧
      (((KnapsackSolver 5 [dupCash] (fun _ => true) (fun _ => false)).1 = true →
          Funds 5 [dupCash] (KnapsackSolver 5 [dupCash] (fun _ => true) (fun _ => false)).2) ∧
        ((KnapsackSolver 5 [dupCash] (fun _ => true) (fun _ => false)).1 = false →
          ([dupCash].map (·.txout.nValue)).sum < 5)) :=
  ⟨by decide, by decide, by decide, List.pairwise_singleton _ _,
    KnapsackSolver_never_underfunds 5 [dupCash] _ _ (by decide) (by decide) (by decide)
      (List.pairwise_singleton _ _)⟩

/-- The only mask over two copies of `dupCash` worth the target 10 takes both. -/
theorem bestCash_dupCash (mask : List Bool) (h : 10 ≤ maskSum [dupCash, dupCash] mask) :
    bestCash [dupCash, dupCash] mask = [dupCash, dupCash] := by
  rcases mask with _ | ⟨b₁, _ | ⟨b₂, rest⟩⟩
  · simp at h
  · cases b₁ <;> simp [dupCash] at h
  · cases b₁ <;> cases b₂ <;> simp [dupCash, bestCash] at h ⊢

/-- With `dupCash` listed twice, every run returns the set of one copy and the value of
both: `setCashRet.insert` keeps one copy of a coin whose outpoint is already in the set,
but `nValueRet` is increased all the same. -/
theorem KnapsackSolver_dupCash (rand₁ rand₂ : Nat → Bool) :
    KnapsackSolver 10 [dupCash, dupCash] rand₁ rand₂ = (true, [dupCash], 12) ∧
      ¬ Funds 10 [dupCash, dupCash] (KnapsackSolver 10 [dupCash, dupCash] rand₁ rand₂).2 := by
  have hsorted : sortDescending [dupCash, dupCash] = [dupCash, dupCash] :=
    List.perm_replicate.mp
      (show (sortDescending [dupCash, dupCash]).Perm (List.replicate 2 dupCash) from
        List.mergeSort_perm _ _)
  obtain ⟨hb, hle⟩ :=
    @ApproximateBestSubset_spec [dupCash, dupCash] 10 rand₁ 12 1000 (by decide) rfl (by decide)
  have hrun : KnapsackSolver 10 [dupCash, dupCash] rand₁ rand₂ = (true, [dupCash], 12) := by
    unfold KnapsackSolver
    have hsplit : splitCash 10 [dupCash, dupCash] ⟨[], 0, none⟩ =
        .inr ⟨[dupCash, dupCash], 12, none⟩ := rfl
    rw [hsplit]
    dsimp only
    rw [if_neg (by decide), if_neg (by decide), hsorted,
      if_neg fun h => absurd h.2 (by decide), bestCash_dupCash _ (hb ▸ hle)]
    rfl
  refine ⟨hrun, ?_⟩
  rw [hrun]
  rintro ⟨-, -, hsum, -⟩
  simp [dupCash] at hsum

/-- A coin worth 1, for the run at the largest target. -/
def oneCash : CInputCash := ⟨⟨uint256.zero, 1⟩, ⟨1, []⟩, 1, 0, 0⟩

/-- At the target `INT64_MAX`, `nTargetValue + MIN_CHANGE` wraps to a negative amount, so
no coin is small: the coin worth 1 is the lowest larger one, and it is returned. -/
theorem KnapsackSolver_int64_max (rand₁ rand₂ : Nat → Bool) :
    KnapsackSolver (2 ^ 63 - 1) [oneCash] rand₁ rand₂ = (true, [oneCash], 1) := by
  unfold KnapsackSolver
  have hsplit : splitCash (2 ^ 63 - 1) [oneCash] ⟨[], 0, none⟩ = .inr ⟨[], 0, some oneCash⟩ := rfl
  rw [hsplit]
  dsimp only
  rw [if_neg (by decide), if_pos (by decide)]
  rfl

theorem KnapsackSolver_succeeds_unfunded :
    (KnapsackSolver 10 [dupCash, dupCash] (fun _ => false) (fun _ => false)).1 = true ∧
      ¬ Funds 10 [dupCash, dupCash]
        (KnapsackSolver 10 [dupCash, dupCash] (fun _ => false) (fun _ => false)).2 ∧
      (KnapsackSolver (2 ^ 63 - 1) [oneCash] (fun _ => false) (fun _ => false)).1 = true ∧
      ¬ Funds (2 ^ 63 - 1) [oneCash]
        (KnapsackSolver (2 ^ 63 - 1) [oneCash] (fun _ => false) (fun _ => false)).2 := by
  obtain ⟨hdup, hunfunded⟩ := KnapsackSolver_dupCash (fun _ => false) (fun _ => false)
  have hmax := KnapsackSolver_int64_max (fun _ => false) (fun _ => false)
  refine ⟨by rw [hdup], hunfunded, by rw [hmax], ?_⟩
  rw [hmax]
  rintro ⟨-, -, -, hle⟩
  exact absurd hle (by decide)

end SalemCash
