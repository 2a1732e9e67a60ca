import SalemCash.HeaderIndex

/-!
# The active chain

`CChain` of `chain.h` keeps the blocks of one chain in a vector indexed by height.
`SetTip` writes the ancestors of the new tip from the top down and stops at the first
height where the vector already holds the right block: that is correct because the
vector always holds the chain of some tip (`IsChainOf`), so below a matching entry all
entries match. On such a vector `Contains` is ancestry of the tip, `FindFork` and
`LastCommonAncestor` find the highest common ancestor (`IsHighestCommon`), and
`GetLocator` steps back one block at a time, then in doubling steps, to the root.
-/
namespace SalemCash.BlockTree

structure CChain where
  vChain : List (Option Nat)
  deriving DecidableEq, Repr

namespace CChain

def Genesis (c : CChain) : Option Nat :=
  if c.vChain.length > 0 then c.vChain.getD 0 none else none

def Tip (c : CChain) : Option Nat :=
  if c.vChain.length > 0 then c.vChain.getD (c.vChain.length - 1) none else none

/-- `operator[]`: the entry at `nHeight`, or `nullptr` if there is no such height. -/
def get (c : CChain) (nHeight : Int) : Option Nat :=
  if nHeight < 0 ∨ nHeight ≥ c.vChain.length then none else c.vChain.getD nHeight.toNat none

def Contains (m : BlockMap) (c : CChain) (pindex : Nat) : Bool :=
  c.get (m.entry pindex).nHeight == some pindex

def Next (m : BlockMap) (c : CChain) (pindex : Nat) : Option Nat :=
  if c.Contains m pindex then c.get ((m.entry pindex).nHeight + 1) else none

def Height (c : CChain) : Int := c.vChain.length - 1

end CChain

/-- `vChain.resize(n)`: cut to `n` entries, or filled up with null pointers. -/
def resize (v : List (Option Nat)) (n : Nat) : List (Option Nat) :=
  v.take n ++ List.replicate (n - v.length) none

/-- The loop of `SetTip`: each block from `pindex` down is written at its height, until
one is there already. -/
def setTipLoop (m : BlockMap) : Nat → List (Option Nat) → Option Nat → List (Option Nat)
  | 0, v, _ => v
  | _ + 1, v, none => v
  | fuel + 1, v, some p =>
    if v.getD (m.entry p).nHeight.toNat none ≠ some p then
      setTipLoop m fuel (v.set (m.entry p).nHeight.toNat (some p)) (m.entry p).pprev
    else v

def CChain.SetTip (m : BlockMap) (c : CChain) : Option Nat → CChain
  | none => ⟨[]⟩
  | some p => ⟨setTipLoop m ((m.entry p).nHeight.toNat + 1)
      (resize c.vChain ((m.entry p).nHeight + 1).toNat) (some p)⟩

/-- The loop of `FindFork`: back along `pprev` until a block of the chain. -/
def findForkLoop (m : BlockMap) (c : CChain) : Nat → Option Nat → Option Nat
  | 0, pindex => pindex
  | _ + 1, none => none
  | fuel + 1, some p => if c.Contains m p then some p else findForkLoop m c fuel (m.entry p).pprev

def CChain.FindFork (m : BlockMap) (c : CChain) : Option Nat → Except IndexFault (Option Nat)
  | none => .ok none
  | some p => do
    let pindex ← if (m.entry p).nHeight > c.Height then GetAncestor m p c.Height
      else pure (some p)
    pure (findForkLoop m c ((m.entry p).nHeight.toNat + 1) pindex)

/-- The loop of `LastCommonAncestor`: both back along `pprev` until they meet. -/
def lastCommonLoop (m : BlockMap) : Nat → Option Nat → Option Nat → Option Nat × Option Nat
  | 0, pa, pb => (pa, pb)
  | fuel + 1, pa, pb =>
    if pa ≠ pb ∧ pa.isSome ∧ pb.isSome then
      lastCommonLoop m fuel (pa.bind fun a => (m.entry a).pprev) (pb.bind fun b => (m.entry b).pprev)
    else (pa, pb)

/-- `LastCommonAncestor(pa, pb)`, both non-null. -/
def LastCommonAncestor (m : BlockMap) (pa pb : Nat) : Except IndexFault (Option Nat) := do
  let (pa', pb') ←
    if (m.entry pa).nHeight > (m.entry pb).nHeight then do
      let pa' ← GetAncestor m pa (m.entry pb).nHeight
      pure (pa', some pb)
    else if (m.entry pb).nHeight > (m.entry pa).nHeight then do
      let pb' ← GetAncestor m pb (m.entry pa).nHeight
      pure (some pa, pb')
    else pure (some pa, some pb)
  let (pa', pb') :=
    lastCommonLoop m ((min (m.entry pa).nHeight (m.entry pb).nHeight).toNat + 1) pa' pb'
  -- Eventually all chain branches meet at the genesis block.
  if pa' = pb' then pure pa' else throw (.assertion_failure "pa == pb")

/-- The loop of `GetLocator`, with the step `nStep` and the hashes `vHave` so far. -/
def locatorLoop (m : BlockMap) (c : CChain) :
    Nat → Int → List uint256 → Option Nat → Except IndexFault (List uint256)
  | 0, _, vHave, _ => .ok vHave
  | _ + 1, _, vHave, none => .ok vHave
  | fuel + 1, nStep, vHave, some p => do
    let vHave := vHave ++ [(m.entry p).hashBlock]
    -- Stop when we have added the genesis block.
    if (m.entry p).nHeight = 0 then return vHave
    -- Exponentially larger steps back, plus the genesis block.
    let nHeight := max ((m.entry p).nHeight - nStep) 0
    let pindex ← (if c.Contains m p then pure (c.get nHeight) else GetAncestor m p nHeight)
    let nStep := if vHave.length > 10 then nStep * 2 else nStep
    locatorLoop m c fuel nStep vHave pindex

/-- `GetLocator`: the hashes of the locator of `pindex`, by default of the tip. -/
def CChain.GetLocator (m : BlockMap) (c : CChain) (pindex : Option Nat) :
    Except IndexFault (List uint256) :=
  let pindex := match pindex with
    | none => c.Tip
    | some p => some p
  let fuel := match pindex with
    | some p => (m.entry p).nHeight.toNat + 1
    | none => 0
  locatorLoop m c fuel 1 [] pindex

/-- `a` is `p` or one of its ancestors. -/
def IsAncestor (m : BlockMap) (a p : Nat) : Prop := ∃ k, followPrev m p k = some a

variable {m : BlockMap}

theorem IsAncestor.refl (m : BlockMap) (p : Nat) : IsAncestor m p p := ⟨0, rfl⟩

theorem IsAncestor.trans {a b c : Nat} (hab : IsAncestor m a b) (hbc : IsAncestor m b c) :
    IsAncestor m a c := by
  obtain ⟨k, hk⟩ := hab
  obtain ⟨l, hl⟩ := hbc
  exact ⟨l + k, by rw [followPrev_add, hl, Option.bind_some, hk]⟩

/-- The ancestors of a block with a parent: itself and its parent's ancestors. -/
theorem isAncestor_pprev_iff {p q : Nat} (hq : (m.entry p).pprev = some q) (a : Nat) :
    IsAncestor m a p ↔ a = p ∨ IsAncestor m a q := by
  constructor
  · rintro ⟨k, hk⟩
    cases k with
    | zero => exact Or.inl (Option.some.inj hk).symm
    | succ k =>
      rw [followPrev_succ, hq, Option.bind_some] at hk
      exact Or.inr ⟨k, hk⟩
  · rintro (rfl | ⟨k, hk⟩)
    · exact IsAncestor.refl m a
    · exact ⟨k + 1, by rw [followPrev_succ, hq, Option.bind_some, hk]⟩

/-- The only ancestor of a root is itself. -/
theorem isAncestor_root_iff {p : Nat} (hq : (m.entry p).pprev = none) (a : Nat) :
    IsAncestor m a p ↔ a = p := by
  constructor
  · rintro ⟨k, hk⟩
    cases k with
    | zero => exact (Option.some.inj hk).symm
    | succ k => rw [followPrev_succ, hq] at hk; cases hk
  · rintro rfl
    exact IsAncestor.refl m a

section WF

variable (hm : WF m)
include hm

theorem IsAncestor.lt_length {a p : Nat} (hp : p < m.length) (h : IsAncestor m a p) :
    a < m.length :=
  let ⟨_, hk⟩ := h
  (hm.followPrev_some hp hk).1

theorem IsAncestor.nHeight_le {a p : Nat} (hp : p < m.length) (h : IsAncestor m a p) :
    (m.entry a).nHeight ≤ (m.entry p).nHeight := by
  obtain ⟨k, hk⟩ := h
  have := (hm.followPrev_some hp hk).2.2
  omega

/-- An ancestor is reached by following `pprev` as often as the heights differ. -/
theorem IsAncestor.followPrev_eq {a p : Nat} (hp : p < m.length) (h : IsAncestor m a p) :
    followPrev m p ((m.entry p).nHeight - (m.entry a).nHeight).toNat = some a := by
  obtain ⟨k, hk⟩ := h
  have hh := (hm.followPrev_some hp hk).2.2
  have hk' : ((m.entry p).nHeight - (m.entry a).nHeight).toNat = k := by omega
  rw [hk', hk]

/-- A block has one ancestor at each height. -/
theorem IsAncestor.eq_of_nHeight {a b p : Nat} (hp : p < m.length) (ha : IsAncestor m a p)
    (hb : IsAncestor m b p) (h : (m.entry a).nHeight = (m.entry b).nHeight) : a = b := by
  have hfa := ha.followPrev_eq hm hp
  rw [h, hb.followPrev_eq hm hp] at hfa
  exact (Option.some.inj hfa).symm

/-- Of two ancestors of one block, the lower is an ancestor of the higher. -/
theorem IsAncestor.of_nHeight_le {b x p : Nat} (hp : p < m.length) (hb : IsAncestor m b p)
    (hx : IsAncestor m x p) (hle : (m.entry b).nHeight ≤ (m.entry x).nHeight) :
    IsAncestor m b x := by
  have hfb := hb.followPrev_eq hm hp
  have hxl := hx.nHeight_le hm hp
  have hsplit : ((m.entry p).nHeight - (m.entry b).nHeight).toNat =
      ((m.entry p).nHeight - (m.entry x).nHeight).toNat +
        ((m.entry x).nHeight - (m.entry b).nHeight).toNat := by omega
  rw [hsplit, followPrev_add, hx.followPrev_eq hm hp, Option.bind_some] at hfb
  exact ⟨_, hfb⟩

/-- Ancestry is antisymmetric. -/
theorem IsAncestor.antisymm {a b : Nat} (hb : b < m.length) (hab : IsAncestor m a b)
    (hba : IsAncestor m b a) : a = b :=
  hab.eq_of_nHeight hm hb (IsAncestor.refl m b)
    (le_antisymm (hab.nHeight_le hm hb) (hba.nHeight_le hm (hab.lt_length hm hb)))

end WF

/-- `b` is an ancestor of both `x` and `y`. -/
def IsCommon (m : BlockMap) (x y b : Nat) : Prop := IsAncestor m b x ∧ IsAncestor m b y

/-- `r` is the highest common ancestor of `x` and `y`: a common ancestor of which every
common ancestor is an ancestor; `none` when they have no common ancestor. -/
def IsHighestCommon (m : BlockMap) (x y : Nat) : Option Nat → Prop
  | some a => IsCommon m x y a ∧ ∀ b, IsCommon m x y b → IsAncestor m b a
  | none => ∀ b, ¬IsCommon m x y b

theorem IsHighestCommon.congr {x y x' y' : Nat} (h : ∀ b, IsCommon m x y b ↔ IsCommon m x' y' b)
    {r : Option Nat} (hr : IsHighestCommon m x y r) : IsHighestCommon m x' y' r := by
  cases r with
  | none => exact fun b hb => hr b ((h b).mpr hb)
  | some a => exact ⟨(h a).mp hr.1, fun b hb => hr.2 b ((h b).mpr hb)⟩

theorem IsHighestCommon.symm {x y : Nat} {r : Option Nat} (hr : IsHighestCommon m x y r) :
    IsHighestCommon m y x r :=
  hr.congr fun _ => And.comm

/-- A highest common ancestor is unique. -/
theorem IsHighestCommon.unique (hm : WF m) {x y : Nat} (hx : x < m.length) {r r' : Option Nat}
    (hr : IsHighestCommon m x y r) (hr' : IsHighestCommon m x y r') : r = r' := by
  cases r with
  | none =>
    cases r' with
    | none => rfl
    | some a' => exact absurd hr'.1 (hr a')
  | some a =>
    cases r' with
    | none => exact absurd hr.1 (hr' a)
    | some a' =>
      have ha'a := hr.2 a' hr'.1
      have haa' := hr'.2 a hr.1
      rw [ha'a.antisymm hm (hr.1.1.lt_length hm hx) haa']

/-- A block that is an ancestor of `y` is its own highest common ancestor with `y`. -/
theorem IsHighestCommon.of_isAncestor {x y : Nat} (h : IsAncestor m x y) :
    IsHighestCommon m x y (some x) :=
  ⟨⟨IsAncestor.refl m x, h⟩, fun _ hb => hb.1⟩

/-- A block not an ancestor of `y` has the common ancestors of its parent with `y`. -/
theorem isCommon_pprev_iff {x x' y : Nat} (hq : (m.entry x).pprev = some x')
    (hn : ¬IsAncestor m x y) (b : Nat) : IsCommon m x y b ↔ IsCommon m x' y b := by
  unfold IsCommon
  rw [isAncestor_pprev_iff hq]
  constructor
  · rintro ⟨rfl | hb, hby⟩
    · exact absurd hby hn
    · exact ⟨hb, hby⟩
  · rintro ⟨hb, hby⟩
    exact ⟨Or.inr hb, hby⟩

/-- A root that is not an ancestor of `y` has no common ancestor with it. -/
theorem IsHighestCommon.of_root {x y : Nat} (hq : (m.entry x).pprev = none)
    (hn : ¬IsAncestor m x y) : IsHighestCommon m x y none := by
  rintro b ⟨hbx, hby⟩
  rw [isAncestor_root_iff hq] at hbx
  subst hbx
  exact hn hby

/-- The common ancestors of `q` and `y`, all at most as high as the ancestor `x` of `q`,
are those of `x` and `y`. -/
theorem isCommon_of_isAncestor (hm : WF m) {q x y : Nat} (hq : q < m.length)
    (hx : IsAncestor m x q) (hle : ∀ b, IsCommon m q y b → (m.entry b).nHeight ≤ (m.entry x).nHeight)
    (b : Nat) : IsCommon m q y b ↔ IsCommon m x y b := by
  constructor
  · intro hb
    exact ⟨hb.1.of_nHeight_le hm hq hx (hle b hb), hb.2⟩
  · rintro ⟨hbx, hby⟩
    exact ⟨hbx.trans hx, hby⟩

/-- `c` is the chain of `t`: an entry for each height up to `t`'s, the ancestor of `t` at
that height. -/
structure IsChainOf (m : BlockMap) (c : CChain) (t : Nat) : Prop where
  length_eq : c.vChain.length = (m.entry t).nHeight.toNat + 1
  getD_eq : ∀ i < c.vChain.length,
    c.vChain.getD i none = followPrev m t ((m.entry t).nHeight.toNat - i)

/-- What `SetTip` relies on: the chain is empty, or the chain of a block of the index. -/
def ChainWF (m : BlockMap) (c : CChain) : Prop :=
  c.vChain = [] ∨ ∃ t < m.length, IsChainOf m c t

theorem getD_set_self {v : List (Option Nat)} {i : Nat} (hi : i < v.length) (x : Option Nat) :
    (v.set i x).getD i none = x := by
  simp [List.getD_eq_getElem?_getD, hi]

theorem getD_set_ne {v : List (Option Nat)} {i j : Nat} (h : i ≠ j) (x : Option Nat) :
    (v.set i x).getD j none = v.getD j none := by
  simp [List.getD_eq_getElem?_getD, h]

@[simp] theorem length_resize (v : List (Option Nat)) (n : Nat) : (resize v n).length = n := by
  simp only [resize, List.length_append, List.length_take, List.length_replicate]
  omega

theorem getD_resize (v : List (Option Nat)) {n k : Nat} (hk : k < n) :
    (resize v n).getD k none = v.getD k none := by
  simp only [resize, List.getD_eq_getElem?_getD]
  rcases Nat.lt_or_ge k v.length with hlt | hge
  · rw [List.getElem?_append_left (by simp; omega), List.getElem?_take, if_pos hk]
  · rw [List.getElem?_append_right (by simp; omega), List.getElem?_replicate,
      List.getElem?_eq_none hge]
    split <;> rfl

/-- Below an entry that is the ancestor of `p` at its height, the chain of `t` holds the
ancestors of `p`: both are the ancestors of that entry. -/
theorem IsChainOf.agree_below {c : CChain} {t p H k : Nat} (hc : IsChainOf m c t)
    (hkc : k < c.vChain.length) {b : Nat} (hb : followPrev m p (H - k) = some b)
    (h : c.vChain.getD k none = some b) (hkH : k ≤ H) {j : Nat} (hj : j ≤ k) :
    c.vChain.getD j none = followPrev m p (H - j) := by
  have hl := hc.length_eq
  have ht := hc.getD_eq k hkc
  rw [h] at ht
  have hsplit : (m.entry t).nHeight.toNat - j = ((m.entry t).nHeight.toNat - k) + (k - j) := by
    omega
  rw [hc.getD_eq j (by omega), hsplit, followPrev_add, ← ht, Option.bind_some,
    show H - j = (H - k) + (k - j) by omega, followPrev_add, hb, Option.bind_some]

/-- A loop with no block left to write leaves the vector as it is. -/
theorem setTipLoop_none (m : BlockMap) (fuel : Nat) (v : List (Option Nat)) :
    setTipLoop m fuel v none = v := by
  cases fuel <;> rfl

section SetTip

variable (hm : WF m) {p : Nat} (hp : p < m.length)
include hm hp

/-- The loop of `SetTip` at the ancestor `a` of `p` at height `i`: the entries above `i`
are the ancestors of `p`, and below any entry that is one, all are. -/
theorem setTipLoop_spec (fuel : Nat) (v : List (Option Nat)) (a i : Nat)
    (ha : followPrev m p ((m.entry p).nHeight.toNat - i) = some a)
    (hi : i ≤ (m.entry p).nHeight.toNat) (hfuel : i < fuel)
    (hlen : v.length = (m.entry p).nHeight.toNat + 1)
    (habove : ∀ j, i < j → j ≤ (m.entry p).nHeight.toNat →
      v.getD j none = followPrev m p ((m.entry p).nHeight.toNat - j))
    (hbelow : ∀ k ≤ i, ∀ b, followPrev m p ((m.entry p).nHeight.toNat - k) = some b →
      v.getD k none = some b → ∀ j ≤ k,
        v.getD j none = followPrev m p ((m.entry p).nHeight.toNat - j)) :
    IsChainOf m ⟨setTipLoop m fuel v (some a)⟩ p := by
  have hnn := hm.nHeight_nonneg hp
  induction fuel generalizing v a i with
  | zero => omega
  | succ fuel ih =>
    obtain ⟨hal, -, hah⟩ := hm.followPrev_some hp ha
    have hai : (m.entry a).nHeight.toNat = i := by omega
    unfold setTipLoop
    rw [hai]
    by_cases hv : v.getD i none = some a
    · rw [if_neg (not_not.mpr hv)]
      refine ⟨hlen, fun j (hj : j < v.length) => ?_⟩
      rcases Nat.lt_or_ge i j with hij | hji
      · exact habove j hij (by omega)
      · exact hbelow i le_rfl a ha hv j hji
    · rw [if_pos hv]
      have hlen' : (v.set i (some a)).length = (m.entry p).nHeight.toNat + 1 := by
        rw [List.length_set, hlen]
      have habove' : ∀ j, i ≤ j → j ≤ (m.entry p).nHeight.toNat →
          (v.set i (some a)).getD j none = followPrev m p ((m.entry p).nHeight.toNat - j) := by
        intro j hij hjH
        rcases Nat.lt_or_ge i j with hlt | hge
        · rw [getD_set_ne (by omega)]
          exact habove j hlt hjH
        · obtain rfl : j = i := by omega
          rw [getD_set_self (by omega), ha]
      have he := hm a hal
      cases hq : (m.entry a).pprev with
      | none =>
        have h0 : i = 0 := by have := he.nHeight_root hq; omega
        rw [setTipLoop_none]
        exact ⟨hlen', fun j (hj : j < (v.set i (some a)).length) => habove' j (by omega) (by omega)⟩
      | some a' =>
        have hh := he.nHeight_pprev a' hq
        have hi0 : 1 ≤ i := by have := hm.nHeight_nonneg (lt_trans (he.pprev_lt a' hq) hal); omega
        have ha' : followPrev m p ((m.entry p).nHeight.toNat - (i - 1)) = some a' := by
          rw [show (m.entry p).nHeight.toNat - (i - 1) = ((m.entry p).nHeight.toNat - i) + 1 by
            omega, followPrev_add, ha, Option.bind_some, followPrev_succ, hq, Option.bind_some,
            followPrev_zero]
        refine ih (v.set i (some a)) a' (i - 1) ha' (by omega) (by omega) hlen'
          (fun j hj hjH => habove' j (by omega) hjH) ?_
        intro k hk b hb hkb j hj
        rw [getD_set_ne (by omega)] at hkb ⊢
        exact hbelow k (by omega) b hb hkb j hj

/-- `SetTip(p)` on a chain that is empty or the chain of some block gives the chain of
`p`, whichever the old tip. -/
theorem SetTip_isChainOf {c : CChain} (hc : ChainWF m c) : IsChainOf m (c.SetTip m (some p)) p := by
  have hnn := hm.nHeight_nonneg hp
  have hn : ((m.entry p).nHeight + 1).toNat = (m.entry p).nHeight.toNat + 1 := by omega
  simp only [CChain.SetTip]
  rw [hn]
  refine setTipLoop_spec hm hp _ _ p (m.entry p).nHeight.toNat (by simp) le_rfl
    (Nat.lt_succ_self _) (length_resize _ _) (fun j hj hjH => absurd hjH (by omega)) ?_
  intro k hk b hb hkb j hj
  rw [getD_resize _ (by omega)] at hkb ⊢
  rcases hc with hnil | ⟨t, -, ht⟩
  · rw [hnil] at hkb
    cases hkb
  · have hkc : k < c.vChain.length := by
      by_contra hge
      rw [List.getD_eq_default _ _ (by omega)] at hkb
      cases hkb
    exact ht.agree_below hkc hb hkb hk hj

end SetTip

section Read

variable {c : CChain} {t : Nat} (hc : IsChainOf m c t)
include hc

theorem IsChainOf.Height_eq (hnn : 0 ≤ (m.entry t).nHeight) : c.Height = (m.entry t).nHeight := by
  have := hc.length_eq
  unfold CChain.Height
  omega

theorem IsChainOf.Tip_eq : c.Tip = some t := by
  have hl := hc.length_eq
  unfold CChain.Tip
  rw [if_pos (by omega), hc.getD_eq _ (by omega), show (m.entry t).nHeight.toNat -
    (c.vChain.length - 1) = 0 by omega, followPrev_zero]

/-- `chain[h]` is the ancestor of the tip at height `h`. -/
theorem IsChainOf.get_eq {h : Int} (h0 : 0 ≤ h) (hle : h ≤ (m.entry t).nHeight) :
    c.get h = followPrev m t ((m.entry t).nHeight - h).toNat := by
  have hl := hc.length_eq
  unfold CChain.get
  rw [if_neg (by omega), hc.getD_eq _ (by omega)]
  congr 1
  omega

theorem IsChainOf.get_of_lt (hnn : 0 ≤ (m.entry t).nHeight) {h : Int}
    (hh : h < 0 ∨ (m.entry t).nHeight < h) : c.get h = none := by
  have hl := hc.length_eq
  unfold CChain.get
  rw [if_pos (by omega)]

/-- On the chain of `t`, `Contains` is ancestry of `t`. -/
theorem IsChainOf.Contains_iff (hm : WF m) (ht : t < m.length) {q : Nat} (hq : q < m.length) :
    c.Contains m q = true ↔ IsAncestor m q t := by
  have hqn := hm.nHeight_nonneg hq
  unfold CChain.Contains
  rw [beq_iff_eq]
  by_cases hle : (m.entry q).nHeight ≤ (m.entry t).nHeight
  · rw [hc.get_eq hqn hle]
    exact ⟨fun h => ⟨_, h⟩, fun h => h.followPrev_eq hm ht⟩
  · rw [hc.get_of_lt (hm.nHeight_nonneg ht) (Or.inr (by omega))]
    exact ⟨fun h => absurd h (by simp), fun h => absurd (h.nHeight_le hm ht) hle⟩

/-- On the chain of `t`, `Next(q)` is the child of `q` that is an ancestor of `t`: there is
one for every block of the chain but the tip. -/
theorem IsChainOf.Next_eq (hm : WF m) (ht : t < m.length) {q : Nat} (hq : q < m.length) (r : Nat) :
    c.Next m q = some r ↔ IsAncestor m r t ∧ (m.entry r).pprev = some q := by
  have hqn := hm.nHeight_nonneg hq
  have htn := hm.nHeight_nonneg ht
  unfold CChain.Next
  constructor
  · intro next
    split at next
    · rename_i contained
      have ancestor := (hc.Contains_iff hm ht hq).mp contained
      by_cases below : (m.entry q).nHeight + 1 ≤ (m.entry t).nHeight
      · rw [hc.get_eq (by omega) below] at next
        refine ⟨⟨_, next⟩, ?_⟩
        have back := ancestor.followPrev_eq hm ht
        rw [show ((m.entry t).nHeight - (m.entry q).nHeight).toNat =
            ((m.entry t).nHeight - ((m.entry q).nHeight + 1)).toNat + 1 by omega,
          followPrev_add, next, Option.bind_some, followPrev_succ] at back
        cases parent : (m.entry r).pprev with
        | none => rw [parent] at back; cases back
        | some x => rw [parent, Option.bind_some, followPrev_zero] at back; rw [back]
      · rw [hc.get_of_lt htn (Or.inr (by omega))] at next
        cases next
    · cases next
  · rintro ⟨ancestor, parent⟩
    have hr := ancestor.lt_length hm ht
    have height := (hm r hr).nHeight_pprev q parent
    have qAncestor : IsAncestor m q t :=
      IsAncestor.trans ⟨1, by rw [followPrev_succ, parent, Option.bind_some, followPrev_zero]⟩ ancestor
    rw [if_pos ((hc.Contains_iff hm ht hq).mpr qAncestor), ← height,
      hc.get_eq (hm.nHeight_nonneg hr) (ancestor.nHeight_le hm ht), ancestor.followPrev_eq hm ht]

end Read

theorem findForkLoop_none (m : BlockMap) (c : CChain) (fuel : Nat) :
    findForkLoop m c fuel none = none := by
  cases fuel <;> rfl

section Fork

variable (hm : WF m) {c : CChain} {t : Nat} (hc : IsChainOf m c t) (ht : t < m.length)
include hm hc ht

/-- The loop of `FindFork` from `x`, with more fuel than the height of `x`, gives the
highest common ancestor of `x` and the tip: the first ancestor of `x` on the chain. -/
theorem findForkLoop_spec (fuel : Nat) {x : Nat} (hx : x < m.length)
    (hfuel : (m.entry x).nHeight.toNat < fuel) :
    IsHighestCommon m x t (findForkLoop m c fuel (some x)) := by
  induction fuel generalizing x with
  | zero => omega
  | succ fuel ih =>
    unfold findForkLoop
    by_cases hcon : c.Contains m x = true
    · rw [if_pos hcon]
      exact IsHighestCommon.of_isAncestor ((hc.Contains_iff hm ht hx).mp hcon)
    · rw [if_neg hcon]
      have hn : ¬IsAncestor m x t := fun h => hcon ((hc.Contains_iff hm ht hx).mpr h)
      cases hq : (m.entry x).pprev with
      | none =>
        rw [findForkLoop_none]
        exact IsHighestCommon.of_root hq hn
      | some x' =>
        have he := hm x hx
        have hx' := lt_trans (he.pprev_lt x' hq) hx
        have hh := he.nHeight_pprev x' hq
        have hnn := hm.nHeight_nonneg hx'
        exact (ih hx' (by omega)).congr fun b => (isCommon_pprev_iff hq hn b).symm

/-- `FindFork(q)` on the chain of `t` is the highest common ancestor of `q` and `t`. -/
theorem FindFork_spec {q : Nat} (hq : q < m.length) :
    ∃ r, c.FindFork m (some q) = .ok r ∧ IsHighestCommon m q t r := by
  have hqn := hm.nHeight_nonneg hq
  have htn := hm.nHeight_nonneg ht
  simp only [CChain.FindFork, hc.Height_eq htn]
  by_cases hgt : (m.entry q).nHeight > (m.entry t).nHeight
  · obtain ⟨x, hx⟩ : ∃ x, followPrev m q ((m.entry q).nHeight - (m.entry t).nHeight).toNat = some x :=
      hm.followPrev_exists hq (by omega)
    obtain ⟨hxl, -, hxh⟩ := hm.followPrev_some hq hx
    rw [if_pos hgt, GetAncestor_spec hm hq, if_neg (by omega), hx, ExceptLogic.ok_bind]
    refine ⟨_, rfl, ?_⟩
    refine (findForkLoop_spec hm hc ht _ hxl (by omega)).congr fun b => ?_
    refine (isCommon_of_isAncestor hm hq ⟨_, hx⟩ (fun b hb => ?_) b).symm
    have := hb.2.nHeight_le hm ht
    omega
  · rw [if_neg hgt, ExceptLogic.pure_eq_ok, ExceptLogic.ok_bind]
    exact ⟨_, rfl, findForkLoop_spec hm hc ht _ hq (by omega)⟩

end Fork

theorem lastCommonLoop_none (m : BlockMap) (fuel : Nat) :
    lastCommonLoop m fuel none none = (none, none) := by
  cases fuel <;> rfl

section LastCommon

variable (hm : WF m)
include hm

/-- Two different blocks at one height have the common ancestors of their parents. -/
theorem isCommon_pprev_both {a b a' b' : Nat} (ha : a < m.length) (hb : b < m.length)
    (hab : (m.entry a).nHeight = (m.entry b).nHeight) (hne : a ≠ b)
    (hqa : (m.entry a).pprev = some a') (hqb : (m.entry b).pprev = some b') (x : Nat) :
    IsCommon m a b x ↔ IsCommon m a' b' x := by
  unfold IsCommon
  rw [isAncestor_pprev_iff hqa, isAncestor_pprev_iff hqb]
  constructor
  · rintro ⟨rfl | hxa, rfl | hxb⟩
    · exact absurd rfl hne
    · exact absurd (IsAncestor.eq_of_nHeight hm hb ((isAncestor_pprev_iff hqb x).mpr (Or.inr hxb))
        (IsAncestor.refl m b) hab) hne
    · exact absurd (IsAncestor.eq_of_nHeight hm ha ((isAncestor_pprev_iff hqa x).mpr (Or.inr hxa))
        (IsAncestor.refl m a) hab.symm).symm hne
    · exact ⟨hxa, hxb⟩
  · rintro ⟨hxa, hxb⟩
    exact ⟨Or.inr hxa, Or.inr hxb⟩

/-- The loop of `LastCommonAncestor` from two blocks at one height, with more fuel than
that height, stops with both pointers at their highest common ancestor. -/
theorem lastCommonLoop_spec (fuel : Nat) {a b : Nat} (ha : a < m.length) (hb : b < m.length)
    (hab : (m.entry a).nHeight = (m.entry b).nHeight) (hfuel : (m.entry a).nHeight.toNat < fuel) :
    ∃ r, lastCommonLoop m fuel (some a) (some b) = (r, r) ∧ IsHighestCommon m a b r := by
  induction fuel generalizing a b with
  | zero => omega
  | succ fuel ih =>
    unfold lastCommonLoop
    by_cases hne : a = b
    · subst hne
      rw [if_neg (by simp)]
      exact ⟨_, rfl, IsHighestCommon.of_isAncestor (IsAncestor.refl m a)⟩
    · rw [if_pos (by simp [hne])]
      have hea := hm a ha
      have heb := hm b hb
      simp only [Option.bind_some]
      cases hqa : (m.entry a).pprev with
      | none =>
        have h0 := hea.nHeight_root hqa
        cases hqb : (m.entry b).pprev with
        | none =>
          refine ⟨none, lastCommonLoop_none m fuel, ?_⟩
          rintro x ⟨hxa, hxb⟩
          rw [isAncestor_root_iff hqa] at hxa
          subst hxa
          exact hne (hxb.eq_of_nHeight hm hb (IsAncestor.refl m b) hab)
        | some b' =>
          have := heb.nHeight_pprev b' hqb
          have := hm.nHeight_nonneg (lt_trans (heb.pprev_lt b' hqb) hb)
          omega
      | some a' =>
        have hha := hea.nHeight_pprev a' hqa
        have ha' := lt_trans (hea.pprev_lt a' hqa) ha
        cases hqb : (m.entry b).pprev with
        | none =>
          have := heb.nHeight_root hqb
          have := hm.nHeight_nonneg ha'
          omega
        | some b' =>
          have hhb := heb.nHeight_pprev b' hqb
          have hb' := lt_trans (heb.pprev_lt b' hqb) hb
          have hnn := hm.nHeight_nonneg ha'
          obtain ⟨r, hr, hhc⟩ := ih ha' hb' (by omega) (by omega)
          exact ⟨r, hr, hhc.congr fun x =>
            (isCommon_pprev_both hm ha hb hab hne hqa hqb x).symm⟩

/-- `LastCommonAncestor(pa, pb)` is the highest common ancestor of `pa` and `pb`, and its
`assert` holds. -/
theorem LastCommonAncestor_spec {pa pb : Nat} (ha : pa < m.length) (hb : pb < m.length) :
    ∃ r, LastCommonAncestor m pa pb = .ok r ∧ IsHighestCommon m pa pb r := by
  have han := hm.nHeight_nonneg ha
  have hbn := hm.nHeight_nonneg hb
  unfold LastCommonAncestor
  by_cases hgt : (m.entry pa).nHeight > (m.entry pb).nHeight
  · obtain ⟨x, hx⟩ : ∃ x,
        followPrev m pa ((m.entry pa).nHeight - (m.entry pb).nHeight).toNat = some x :=
      hm.followPrev_exists ha (by omega)
    obtain ⟨hxl, -, hxh⟩ := hm.followPrev_some ha hx
    obtain ⟨r, hr, hhc⟩ := lastCommonLoop_spec hm
      ((min (m.entry pa).nHeight (m.entry pb).nHeight).toNat + 1) hxl hb (by omega) (by omega)
    rw [if_pos hgt, GetAncestor_spec hm ha, if_neg (by omega), hx]
    simp only [ExceptLogic.ok_bind, ExceptLogic.pure_eq_ok, hr, if_pos]
    refine ⟨r, rfl, hhc.congr fun y => (isCommon_of_isAncestor hm ha ⟨_, hx⟩ (fun b hb' => ?_) y).symm⟩
    have := hb'.2.nHeight_le hm hb
    omega
  · rw [if_neg hgt]
    by_cases hlt : (m.entry pb).nHeight > (m.entry pa).nHeight
    · obtain ⟨y, hy⟩ : ∃ y,
          followPrev m pb ((m.entry pb).nHeight - (m.entry pa).nHeight).toNat = some y :=
        hm.followPrev_exists hb (by omega)
      obtain ⟨hyl, -, hyh⟩ := hm.followPrev_some hb hy
      obtain ⟨r, hr, hhc⟩ := lastCommonLoop_spec hm
        ((min (m.entry pa).nHeight (m.entry pb).nHeight).toNat + 1) ha hyl (by omega) (by omega)
      rw [if_pos hlt, GetAncestor_spec hm hb, if_neg (by omega), hy]
      simp only [ExceptLogic.ok_bind, ExceptLogic.pure_eq_ok, hr, if_pos]
      refine ⟨r, rfl, (hhc.symm.congr fun y' =>
        (isCommon_of_isAncestor hm hb ⟨_, hy⟩ (fun b hb' => ?_) y').symm).symm⟩
      have := hb'.2.nHeight_le hm ha
      omega
    · obtain ⟨r, hr, hhc⟩ := lastCommonLoop_spec hm
        ((min (m.entry pa).nHeight (m.entry pb).nHeight).toNat + 1) ha hb (by omega) (by omega)
      rw [if_neg hlt]
      simp only [ExceptLogic.ok_bind, ExceptLogic.pure_eq_ok, hr, if_pos]
      exact ⟨r, rfl, hhc⟩

end LastCommon

/-- The blocks of a locator from `p`, its `s`-th entry: `p`, then, unless `p` is at height
`0`, the locator from the ancestor of `p` `2 ^ (s - 10)` below it, or at `0` if that is
lower. -/
inductive Locator (m : BlockMap) : Nat → Nat → List Nat → Prop
  | genesis {s p : Nat} : (m.entry p).nHeight = 0 → Locator m s p [p]
  | step {s p a : Nat} {bs : List Nat} : 0 < (m.entry p).nHeight → IsAncestor m a p →
      (m.entry a).nHeight = max ((m.entry p).nHeight - 2 ^ (s - 10)) 0 →
      Locator m (s + 1) a bs → Locator m s p (p :: bs)

theorem Locator.head? {s p : Nat} {bs : List Nat} (h : Locator m s p bs) : bs.head? = some p := by
  cases h <;> rfl

/-- Every block of a locator is an ancestor of its first. -/
theorem Locator.isAncestor {s p : Nat} {bs : List Nat} (h : Locator m s p bs) :
    ∀ b ∈ bs, IsAncestor m b p := by
  induction h with
  | genesis =>
    intro b hb
    rw [List.mem_singleton] at hb
    rw [hb]
    exact IsAncestor.refl m _
  | @step s p a bs _ ha _ _ ih =>
    intro b hb
    rcases List.mem_cons.mp hb with rfl | hb
    · exact IsAncestor.refl m b
    · exact (ih b hb).trans ha

/-- A locator ends at height `0`. -/
theorem Locator.getLast? {s p : Nat} {bs : List Nat} (h : Locator m s p bs) :
    ∃ g, bs.getLast? = some g ∧ (m.entry g).nHeight = 0 := by
  induction h with
  | @genesis s p h0 => exact ⟨p, rfl, h0⟩
  | @step s p a bs _ _ _ hl ih =>
    obtain ⟨g, hg, h0⟩ := ih
    refine ⟨g, ?_, h0⟩
    cases bs with
    | nil => cases hg
    | cons b bs' => rw [List.getLast?_cons_cons, hg]

/-- From its `r`-th block to the next a locator steps `2 ^ (s + r - 10)` down, or to `0`. -/
theorem Locator.nHeight_succ {s p : Nat} {bs : List Nat} (h : Locator m s p bs) :
    ∀ r (hr : r + 1 < bs.length), (m.entry bs[r + 1]).nHeight < (m.entry bs[r]).nHeight ∧
      (m.entry bs[r + 1]).nHeight = max ((m.entry bs[r]).nHeight - 2 ^ (s + r - 10)) 0 := by
  induction h with
  | genesis =>
    intro r hr
    simp at hr
  | @step s p a bs hpos _ hah hl ih =>
    intro r hr
    cases r with
    | zero =>
      obtain ⟨bs', rfl⟩ : ∃ bs', bs = a :: bs' := by
        cases hl with
        | genesis => exact ⟨[], rfl⟩
        | step => exact ⟨_, rfl⟩
      have hpow : (1 : Int) ≤ 2 ^ (s - 10) := one_le_pow₀ (by decide)
      simp only [List.getElem_cons_succ, List.getElem_cons_zero, Nat.add_zero]
      omega
    | succ r =>
      have hr' : r + 1 < bs.length := by simp at hr; omega
      obtain ⟨hlt, heq⟩ := ih r hr'
      simp only [List.getElem_cons_succ]
      rw [show s + (r + 1) - 10 = s + 1 + r - 10 by omega]
      exact ⟨hlt, heq⟩

/-- The step after the `s`-th entry is `2 ^ (s - 10)`: it doubles once the locator has
more than ten entries. -/
theorem nStep_succ (s : Nat) :
    (if s + 1 > 10 then (2 : Int) ^ (s - 10) * 2 else 2 ^ (s - 10)) = 2 ^ (s + 1 - 10) := by
  split
  · rw [← pow_succ, show s - 10 + 1 = s + 1 - 10 by omega]
  · rw [show s - 10 = 0 by omega, show s + 1 - 10 = 0 by omega]

section GetLocator

variable (hm : WF m) {c : CChain} {t : Nat} (hc : IsChainOf m c t) (ht : t < m.length)
include hm hc ht

/-- The next block of `GetLocator` is the ancestor at the new height, whether it is read
off the chain (when the block is on it) or found by `GetAncestor`. -/
theorem locatorStep_eq {p : Nat} (hp : p < m.length) {nHeight : Int} (h0 : 0 ≤ nHeight)
    (hle : nHeight ≤ (m.entry p).nHeight) :
    (if c.Contains m p then pure (c.get nHeight) else GetAncestor m p nHeight) =
      (.ok (followPrev m p ((m.entry p).nHeight - nHeight).toNat) : Except IndexFault _) := by
  by_cases hcon : c.Contains m p = true
  · rw [if_pos hcon, ExceptLogic.pure_eq_ok]
    have hpt := (hc.Contains_iff hm ht hp).mp hcon
    have hpl := hpt.nHeight_le hm ht
    rw [hc.get_eq h0 (le_trans hle hpl),
      show ((m.entry t).nHeight - nHeight).toNat = ((m.entry t).nHeight - (m.entry p).nHeight).toNat +
        ((m.entry p).nHeight - nHeight).toNat by omega,
      followPrev_add, hpt.followPrev_eq hm ht, Option.bind_some]
  · rw [if_neg hcon, GetAncestor_spec hm hp, if_neg (by omega)]

/-- The loop of `GetLocator` from `p`, with more fuel than the height of `p`, appends the
hashes of the locator from `p`. -/
theorem locatorLoop_spec (fuel : Nat) (vHave : List uint256) {p : Nat} (hp : p < m.length)
    (hfuel : (m.entry p).nHeight.toNat < fuel) :
    ∃ bs, locatorLoop m c fuel (2 ^ (vHave.length - 10)) vHave (some p) =
        .ok (vHave ++ bs.map fun b => (m.entry b).hashBlock) ∧ Locator m vHave.length p bs := by
  have hpn := hm.nHeight_nonneg hp
  induction fuel generalizing vHave p with
  | zero => omega
  | succ fuel ih =>
    unfold locatorLoop
    by_cases h0 : (m.entry p).nHeight = 0
    · simp only [h0, if_true, ExceptLogic.pure_eq_ok]
      exact ⟨[p], rfl, Locator.genesis h0⟩
    · simp only [h0, if_false]
      have hpow : (1 : Int) ≤ 2 ^ (vHave.length - 10) := one_le_pow₀ (by decide)
      obtain ⟨a, ha⟩ : ∃ a, followPrev m p ((m.entry p).nHeight -
          max ((m.entry p).nHeight - 2 ^ (vHave.length - 10)) 0).toNat = some a :=
        hm.followPrev_exists hp (by omega)
      obtain ⟨hal, -, hah⟩ := hm.followPrev_some hp ha
      rw [locatorStep_eq hm hc ht hp (le_max_right _ _) (by omega), ha, ExceptLogic.ok_bind,
        List.length_append, List.length_singleton, nStep_succ]
      obtain ⟨bs, hbs, hl⟩ := ih (vHave ++ [(m.entry p).hashBlock]) hal (by omega)
        (hm.nHeight_nonneg hal)
      rw [List.length_append, List.length_singleton] at hbs hl
      refine ⟨p :: bs, ?_, Locator.step (by omega) ⟨_, ha⟩ (by omega) hl⟩
      rw [hbs, List.append_assoc, List.map_cons, List.singleton_append]

/-- `GetLocator(q)` on the chain of `t` lists the hashes of the locator from `q`. -/
theorem GetLocator_spec {q : Nat} (hq : q < m.length) :
    ∃ bs, c.GetLocator m (some q) = .ok (bs.map fun b => (m.entry b).hashBlock) ∧
      Locator m 0 q bs := by
  obtain ⟨bs, hbs, hl⟩ := locatorLoop_spec hm hc ht _ [] hq (Nat.lt_succ_self _)
  exact ⟨bs, hbs, hl⟩

end GetLocator

/-- A chain of a block stays its chain when the index grows. -/
theorem IsChainOf.append (hm : WF m) {c : CChain} {t : Nat} (hc : IsChainOf m c t)
    (ht : t < m.length) (l : BlockMap) : IsChainOf (m ++ l) c t := by
  refine ⟨?_, fun i hi => ?_⟩
  · rw [entry_append_lt l ht]
    exact hc.length_eq
  · rw [entry_append_lt l ht, hm.followPrev_append l ht]
    exact hc.getD_eq i hi

theorem ChainWF.append (hm : WF m) {c : CChain} (hc : ChainWF m c) (l : BlockMap) :
    ChainWF (m ++ l) c := by
  rcases hc with hnil | ⟨t, ht, htc⟩
  · exact Or.inl hnil
  · exact Or.inr ⟨t, by rw [List.length_append]; omega, htc.append hm ht l⟩

theorem SetTip_chainWF (hm : WF m) {c : CChain} (hc : ChainWF m c) {pindex : Option Nat}
    (hp : ∀ p ∈ pindex, p < m.length) : ChainWF m (c.SetTip m pindex) := by
  cases pindex with
  | none => exact Or.inl rfl
  | some p => exact Or.inr ⟨p, hp p rfl, SetTip_isChainOf hm (hp p rfl) hc⟩

/-- The steps of the block index and the active chain: a header added to the index, or
the chain set to a new tip. -/
inductive ChainStep (P : Primitives) : BlockMap × CChain → BlockMap × CChain → Prop
  | addHeader {m m' : BlockMap} {c : CChain} {block : CBlockHeader} {i : Nat} :
      block.hashPrevBlock ≠ block.GetHash P → AddToBlockIndex P m block = .ok (m', i) →
      ChainStep P (m, c) (m', c)
  | setTip {m : BlockMap} {c : CChain} {pindex : Option Nat} : (∀ p ∈ pindex, p < m.length) →
      ChainStep P (m, c) (m, c.SetTip m pindex)

/-- What every state of the index and the chain keeps. -/
def ChainInv (s : BlockMap × CChain) : Prop :=
  WF s.1 ∧ TimeMaxSet s.1 ∧ ChainWorkSet s.1 ∧ ChainWF s.1 s.2

theorem ChainInv.step {P : Primitives} {s s' : BlockMap × CChain} (h : ChainInv s)
    (hs : ChainStep P s s') : ChainInv s' := by
  obtain ⟨hm, htm, hcw, hc⟩ := h
  cases hs with
  | addHeader hself hadd =>
    obtain ⟨hm', htm', hcw', l, rfl⟩ := AddToBlockIndex_step hm htm hcw hself hadd
    exact ⟨hm', htm', hcw', hc.append hm l⟩
  | setTip hp => exact ⟨hm, htm, hcw, SetTip_chainWF hm hc hp⟩

/-- Every state reached from the empty index and the empty chain keeps the invariant. -/
theorem ChainInv.run {P : Primitives} {s : BlockMap × CChain}
    (h : Relation.ReflTransGen (ChainStep P) ([], ⟨[]⟩) s) : ChainInv s := by
  induction h with
  | refl =>
    exact ⟨fun i hi => absurd hi (Nat.not_lt_zero i), fun i hi => absurd hi (Nat.not_lt_zero i),
      fun i hi => absurd hi (Nat.not_lt_zero i), Or.inl rfl⟩
  | tail _ hs ih => exact ih.step hs

/-- In every state reached from the empty index and the empty chain, by headers added to the
index and the chain set to blocks of the index in any order, the index is well formed and the
chain is empty or the chain of a block `t` of the index: `t` is its tip at its height, the
entry at each height is the ancestor of `t` that `GetAncestor` finds, `Contains` is ancestry
of `t`, and `Next` of a block is its child towards `t`. -/
theorem reachable_chain_consistent {P : Primitives} {s : BlockMap × CChain}
    (run : Relation.ReflTransGen (ChainStep P) ([], ⟨[]⟩) s) :
    WF s.1 ∧ (s.2.vChain = [] ∨ ∃ t < s.1.length, s.2.Tip = some t ∧ s.2.Height = (s.1.entry t).nHeight ∧
      (∀ h : Int, 0 ≤ h → h ≤ (s.1.entry t).nHeight → GetAncestor s.1 t h = .ok (s.2.get h)) ∧
      ∀ q < s.1.length, (s.2.Contains s.1 q = true ↔ IsAncestor s.1 q t) ∧
        ∀ r, s.2.Next s.1 q = some r ↔ IsAncestor s.1 r t ∧ (s.1.entry r).pprev = some q) := by
  obtain ⟨hm, -, -, hc⟩ := ChainInv.run run
  rcases hc with empty | ⟨t, ht, chain⟩
  · exact ⟨hm, Or.inl empty⟩
  · refine ⟨hm, Or.inr ⟨t, ht, chain.Tip_eq, chain.Height_eq (hm.nHeight_nonneg ht), fun h h0 hle => ?_,
      fun q hq => ⟨chain.Contains_iff hm ht hq, chain.Next_eq hm ht hq⟩⟩⟩
    rw [GetAncestor_spec hm ht, if_neg (by omega), chain.get_eq h0 hle]

theorem length_take_pad (v : List UInt8) : ((v ++ List.replicate 32 0).take 32).length = 32 := by
  rw [List.length_take, List.length_append, List.length_replicate]
  omega

theorem length_zeros_20 (_ : List UInt8) : (List.replicate 20 (0 : UInt8)).length = 20 :=
  List.length_replicate

/-- Primitives whose SHA-256 keeps the first 32 bytes of its input, so that a header's hash
is its version and the start of its parent's hash. -/
def prefixPrimitives : Primitives where
  RIPEMD160 _ := List.replicate 20 0
  SHA1 _ := List.replicate 20 0
  SHA256 v := (v ++ List.replicate 32 0).take 32
  CheckLowS _ := true
  RIPEMD160_length := length_zeros_20
  SHA1_length := length_zeros_20
  SHA256_length := length_take_pad

/-- A first header, with no parent and no work. -/
def genesisHeader : CBlockHeader := ⟨1, uint256.zero, uint256.zero, 0, 0, 0⟩

/-- A header on top of `genesisHeader`. -/
def childHeader : CBlockHeader := ⟨2, genesisHeader.GetHash prefixPrimitives, uint256.zero, 1, 0, 0⟩

/-- The run that adds `genesisHeader` and `childHeader` to the empty index, the child linked
to its parent, and then sets the chain to the child. -/
theorem reachable_chain_consistent_two_headers :
    ∃ e₀ e₁ : CBlockIndex,
      AddToBlockIndex prefixPrimitives [] genesisHeader = .ok ([e₀], 0) ∧
      AddToBlockIndex prefixPrimitives [e₀] childHeader = .ok ([e₀, e₁], 1) ∧ e₁.pprev = some 0 ∧
      let s : BlockMap × CChain := ([e₀, e₁], (⟨[]⟩ : CChain).SetTip [e₀, e₁] (some 1))
      Relation.ReflTransGen (ChainStep prefixPrimitives) ([], ⟨[]⟩) s ∧
      WF s.1 ∧ (s.2.vChain = [] ∨ ∃ t < s.1.length, s.2.Tip = some t ∧ s.2.Height = (s.1.entry t).nHeight ∧
        (∀ h : Int, 0 ≤ h → h ≤ (s.1.entry t).nHeight → GetAncestor s.1 t h = .ok (s.2.get h)) ∧
        ∀ q < s.1.length, (s.2.Contains s.1 q = true ↔ IsAncestor s.1 q t) ∧
          ∀ r, s.2.Next s.1 q = some r ↔ IsAncestor s.1 r t ∧ (s.1.entry r).pprev = some q) := by
  have hwf : WF ([] : BlockMap) := fun i hi => absurd hi (Nat.not_lt_zero i)
  obtain ⟨e₀, h₀, -, hhash, -⟩ :=
    AddToBlockIndex_new prefixPrimitives hwf genesisHeader rfl (by decide)
  have step₀ : ChainStep prefixPrimitives ([], ⟨[]⟩) ([e₀], ⟨[]⟩) := .addHeader (by decide) h₀
  have hnew : BlockMap.find [e₀] (childHeader.GetHash prefixPrimitives) = none := by
    simp only [BlockMap.find, List.findIdx?_cons, List.findIdx?_nil, hhash]
    decide
  obtain ⟨e₁, h₁, -, -, hprev, -⟩ :=
    AddToBlockIndex_new prefixPrimitives (ChainInv.run (.single step₀)).1 childHeader hnew (by decide)
  have hlink : e₁.pprev = some 0 := by
    rw [hprev]
    simp only [BlockMap.find, List.findIdx?_cons, List.findIdx?_nil, hhash]
    rfl
  have step₁ : ChainStep prefixPrimitives ([e₀], ⟨[]⟩) ([e₀, e₁], ⟨[]⟩) := .addHeader (by decide) h₁
  have step₂ : ChainStep prefixPrimitives ([e₀, e₁], ⟨[]⟩)
      ([e₀, e₁], (⟨[]⟩ : CChain).SetTip [e₀, e₁] (some 1)) := .setTip fun p hp => by
    cases hp
    exact Nat.one_lt_two
  have run := ((Relation.ReflTransGen.single step₀).tail step₁).tail step₂
  exact ⟨e₀, e₁, h₀, h₁, hlink, run, reachable_chain_consistent run⟩

/-- After `SetTip(p)` on a chain that is empty or the chain of a block, whichever, the
chain has the height of `p` and holds the ancestors of `p`; `Contains` is ancestry of `p`,
`FindFork` agrees with `LastCommonAncestor` on the highest common ancestor, and
`GetLocator` lists ancestors in steps of one and then of doubling length down to height
`0`. -/
theorem SetTip_consistent (m : BlockMap) (hm : WF m) (c : CChain) (hc : ChainWF m c) (p : Nat)
    (hp : p < m.length) :
    (c.SetTip m (some p)).Height = (m.entry p).nHeight ∧
    (c.SetTip m (some p)).Tip = some p ∧
    (∀ i : Int, 0 ≤ i → i ≤ (m.entry p).nHeight →
      GetAncestor m p i = .ok ((c.SetTip m (some p)).get i)) ∧
    (∀ q < m.length, (c.SetTip m (some p)).Contains m q = true ↔ IsAncestor m q p) ∧
    (∀ q < m.length, ∃ r, (c.SetTip m (some p)).FindFork m (some q) = .ok r ∧
      LastCommonAncestor m q p = .ok r ∧ IsHighestCommon m q p r) ∧
    ∀ q < m.length, ∃ bs : List Nat, (c.SetTip m (some p)).GetLocator m (some q) =
        .ok (bs.map fun b => (m.entry b).hashBlock) ∧
      bs.head? = some q ∧ (∃ g, bs.getLast? = some g ∧ (m.entry g).nHeight = 0) ∧
      (∀ b ∈ bs, IsAncestor m b q) ∧
      ∀ r (hr : r + 1 < bs.length), (m.entry bs[r + 1]).nHeight < (m.entry bs[r]).nHeight ∧
        (m.entry bs[r + 1]).nHeight = max ((m.entry bs[r]).nHeight - 2 ^ (r - 10)) 0 := by
  have hpc := SetTip_isChainOf hm hp hc
  have hpn := hm.nHeight_nonneg hp
  refine ⟨hpc.Height_eq hpn, hpc.Tip_eq, fun i h0 hle => ?_, fun q hq => hpc.Contains_iff hm hp hq,
    fun q hq => ?_, fun q hq => ?_⟩
  · rw [GetAncestor_spec hm hp, if_neg (by omega), hpc.get_eq h0 hle]
  · obtain ⟨r, hr, hhc⟩ := FindFork_spec hm hpc hp hq
    obtain ⟨r', hr', hhc'⟩ := LastCommonAncestor_spec hm hq hp
    rw [IsHighestCommon.unique hm hq hhc' hhc] at hr'
    exact ⟨r, hr, hr', hhc⟩
  · obtain ⟨bs, hbs, hl⟩ := GetLocator_spec hm hpc hp hq
    refine ⟨bs, hbs, hl.head?, hl.getLast?, hl.isAncestor, fun r hr => ?_⟩
    simpa only [Nat.zero_add] using hl.nHeight_succ r hr

/-- A fork: blocks `2` and `3` are both children of `1`, and `4` is a child of `3`. -/
def forkTree : BlockMap :=
  [{ (default : CBlockIndex) with nHeight := 0 },
   { (default : CBlockIndex) with pprev := some 0, pskip := some 0, nHeight := 1 },
   { (default : CBlockIndex) with pprev := some 1, pskip := some 0, nHeight := 2 },
   { (default : CBlockIndex) with pprev := some 1, pskip := some 0, nHeight := 2 },
   { (default : CBlockIndex) with pprev := some 3, pskip := some 1, nHeight := 3 }]

unseal Nat.bitwise in
/-- The chain moved from the tip `2` to the tip `4` of the other branch. -/
theorem SetTip_consistent_forkTree :
    WF forkTree ∧ ChainWF forkTree (CChain.SetTip forkTree ⟨[]⟩ (some 2)) ∧ 4 < forkTree.length ∧
      (CChain.SetTip forkTree (CChain.SetTip forkTree ⟨[]⟩ (some 2)) (some 4)).Height = 3 :=
  have hm : WF forkTree := by decide
  have hc : ChainWF forkTree (CChain.SetTip forkTree ⟨[]⟩ (some 2)) :=
    SetTip_chainWF hm (Or.inl rfl) (fun _ h => by cases h; decide)
  ⟨hm, hc, by decide,
    (SetTip_consistent forkTree hm (CChain.SetTip forkTree ⟨[]⟩ (some 2)) hc 4 (by decide)).1⟩

end SalemCash.BlockTree
