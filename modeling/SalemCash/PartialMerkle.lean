import SalemCash.MerkleBranch

/-!
# Partial Merkle trees

`CPartialMerkleTree` of `merkleblock.cpp`: the part of a block's Merkle tree that proves which
transactions it holds. The constructor walks the tree from the root in preorder and writes one
bit per node, whether a matched transaction lies below it; a leaf, or a node with no match
below, also writes its hash and is not descended into (`TraverseAndBuild`). `ExtractMatches`
walks the same tree reading the bits and hashes back (`TraverseAndExtract`), recomputes the
root and collects the matched transactions with their positions.

The tree over `nTransactions` leaves has `CalcTreeWidth(height)` nodes at `height`; a level
with an odd number of nodes pairs its last node with itself. Positions, widths and counters
are `unsigned int`. The code is written over any type with `==`, the null value and the hash
of a pair, like `MerkleComputation`; the entry points run on `uint256`. With at most `2^31`
transactions the tree has at most `31` levels above the leaves, and no position, width or
leaf range of a node passes `2^32`.
-/
namespace SalemCash.PartialMerkle

open MerkleTree

/-- What the code does that the source leaves undefined or aborts on. -/
inductive PartialMerkleFault where
  /-- `assert(vTxid.size() != 0)` in `CalcHash`. -/
  | assert_failed
  /-- `vTxid[pos]` or `vMatch[p]` past the end of the vector. -/
  | out_of_bounds
  deriving DecidableEq, Repr

/-- The fields of `CPartialMerkleTree`. -/
structure CPartialMerkleTree (α : Type) where
  nTransactions : UInt32
  vBits : List Bool
  vHash : List α
  fBad : Bool

/-- `CalcTreeWidth(height)`: `(nTransactions + (1 << height) - 1) >> height`. -/
def CalcTreeWidth (nTransactions : UInt32) (height : Nat) : UInt32 :=
  (nTransactions + (1 : UInt32) <<< height.toUInt32 - 1) >>> height.toUInt32

variable {α : Type}

/-- `CalcHash(height, pos, vTxid)`: the hash of a node, from the transaction ids below it. -/
def CalcHash (Hash : α → α → α) (nTransactions : UInt32) (vTxid : List α) (height : Nat)
    (pos : UInt32) : Except PartialMerkleFault α :=
  if vTxid.length = 0 then throw .assert_failed
  else if hh : height = 0 then
    match vTxid[pos.toNat]? with
    | some txid => pure txid
    | none => throw .out_of_bounds
  else do
    let left ← CalcHash Hash nTransactions vTxid (height - 1) (pos * 2)
    -- calculate right hash if not beyond the end of the array - copy left hash otherwise
    let right ← if pos * 2 + 1 < CalcTreeWidth nTransactions (height - 1) then
        CalcHash Hash nTransactions vTxid (height - 1) (pos * 2 + 1)
      else pure left
    pure (Hash left right)
termination_by height

/-- `for (p = pos << height; p < (pos+1) << height && p < nTransactions; p++)
fParentOfMatch |= vMatch[p];` -/
def matchLoop (nTransactions : UInt32) (vMatch : List Bool) (stop p : UInt32)
    (fParentOfMatch : Bool) : Except PartialMerkleFault Bool :=
  if _hp : p < stop ∧ p < nTransactions then
    match vMatch[p.toNat]? with
    | some b => matchLoop nTransactions vMatch stop (p + 1) (fParentOfMatch || b)
    | none => throw .out_of_bounds
  else pure fParentOfMatch
termination_by nTransactions.toNat - p.toNat
decreasing_by
  have hlt : p.toNat < nTransactions.toNat := UInt32.lt_iff_toNat_lt.mp _hp.2
  rw [UInt32.toNat_add, UInt32.toNat_one, Nat.mod_eq_of_lt (by have := nTransactions.toNat_lt; omega)]
  omega

/-- `TraverseAndBuild(height, pos, vTxid, vMatch)`, with the bits and hashes written so far. -/
def TraverseAndBuild (Hash : α → α → α) (nTransactions : UInt32) (vTxid : List α)
    (vMatch : List Bool) (height : Nat) (pos : UInt32) (vBits : List Bool) (vHash : List α) :
    Except PartialMerkleFault (List Bool × List α) := do
  -- determine whether this node is the parent of at least one matched txid
  let fParentOfMatch ← matchLoop nTransactions vMatch ((pos + 1) <<< height.toUInt32)
    (pos <<< height.toUInt32) false
  let vBits := vBits ++ [fParentOfMatch]
  if hh : height = 0 ∨ fParentOfMatch = false then do
    let hash ← CalcHash Hash nTransactions vTxid height pos
    pure (vBits, vHash ++ [hash])
  else do
    let left ← TraverseAndBuild Hash nTransactions vTxid vMatch (height - 1) (pos * 2) vBits vHash
    if pos * 2 + 1 < CalcTreeWidth nTransactions (height - 1) then
      TraverseAndBuild Hash nTransactions vTxid vMatch (height - 1) (pos * 2 + 1) left.1 left.2
    else pure left
termination_by height
decreasing_by all_goals omega

/-- The counters and outputs `TraverseAndExtract` passes by reference, and `fBad`. -/
structure ExtractState (α : Type) where
  nBitsUsed : UInt32
  nHashUsed : UInt32
  vMatch : List α
  vnIndex : List UInt32
  fBad : Bool

variable [DecidableEq α]

/-- `TraverseAndExtract(height, pos, nBitsUsed, nHashUsed, vMatch, vnIndex)`: the hash of the
node, read back from the bits and hashes, with `null` (`uint256()`) where they run out. -/
def TraverseAndExtract (Hash : α → α → α) (null : α) (nTransactions : UInt32)
    (vBits : List Bool) (vHash : List α) (height : Nat) (pos : UInt32) (s : ExtractState α) :
    α × ExtractState α :=
  if hb : s.nBitsUsed.toNat < vBits.length then
    let fParentOfMatch := vBits[s.nBitsUsed.toNat]
    let s := { s with nBitsUsed := s.nBitsUsed + 1 }
    if hh : height = 0 ∨ fParentOfMatch = false then
      if hn : s.nHashUsed.toNat < vHash.length then
        let hash := vHash[s.nHashUsed.toNat]
        let s := { s with nHashUsed := s.nHashUsed + 1 }
        -- in case of height 0, we have a matched txid
        if height = 0 ∧ fParentOfMatch = true then
          (hash, { s with vMatch := s.vMatch ++ [hash], vnIndex := s.vnIndex ++ [pos] })
        else (hash, s)
      else (null, { s with fBad := true })
    else
      let left := TraverseAndExtract Hash null nTransactions vBits vHash (height - 1) (pos * 2) s
      if pos * 2 + 1 < CalcTreeWidth nTransactions (height - 1) then
        let right := TraverseAndExtract Hash null nTransactions vBits vHash (height - 1)
          (pos * 2 + 1) left.2
        -- the left and right branches should never be identical
        (Hash left.1 right.1, if right.1 = left.1 then { right.2 with fBad := true } else right.2)
      else (Hash left.1 left.1, left.2)
  else (null, { s with fBad := true })
termination_by height
decreasing_by all_goals omega

/-- `while (CalcTreeWidth(nHeight) > 1) nHeight++;`. The loop always stops by height `31`
(`CalcTreeWidth_31_le`), so the bound at `32` only makes termination evident. -/
def treeHeight (nTransactions : UInt32) (nHeight : Nat) : Nat :=
  if nHeight < 32 ∧ CalcTreeWidth nTransactions nHeight > 1 then treeHeight nTransactions (nHeight + 1)
  else nHeight
termination_by 32 - nHeight

/-- `CPartialMerkleTree(vTxid, vMatch)`. -/
def CPartialMerkleTree.create (Hash : α → α → α) (vTxid : List α) (vMatch : List Bool) :
    Except PartialMerkleFault (CPartialMerkleTree α) := do
  let nTransactions := vTxid.length.toUInt32
  let built ← TraverseAndBuild Hash nTransactions vTxid vMatch (treeHeight nTransactions 0) 0 [] []
  pure ⟨nTransactions, built.1, built.2, false⟩

/-- `MAX_BLOCK_WEIGHT / MIN_TRANSACTION_WEIGHT` of `consensus.h`, the most transactions a block
can hold. -/
def MAX_TRANSACTIONS : Nat := 4000000 / (4 * 60)

/-- `ExtractMatches(vMatch, vnIndex)`: the root, or `null` on failure, with what it leaves in
`vMatch` and `vnIndex` and in `fBad`. Only `vMatch` is cleared first: `vnIndex` keeps what
the caller passed. -/
def ExtractMatches (Hash : α → α → α) (null : α) (t : CPartialMerkleTree α)
    (vnIndex : List UInt32) : α × List α × List UInt32 × Bool :=
  -- an empty set will not work
  if t.nTransactions = 0 then (null, [], vnIndex, t.fBad)
  -- check for excessively high numbers of transactions
  else if t.nTransactions.toNat > MAX_TRANSACTIONS then (null, [], vnIndex, t.fBad)
  -- there can never be more hashes provided than one for every txid
  else if t.vHash.length > t.nTransactions.toNat then (null, [], vnIndex, t.fBad)
  -- there must be at least one bit per node in the partial tree, and at least one node per hash
  else if t.vBits.length < t.vHash.length then (null, [], vnIndex, t.fBad)
  else
    let r := TraverseAndExtract Hash null t.nTransactions t.vBits t.vHash
      (treeHeight t.nTransactions 0) 0 ⟨0, 0, [], vnIndex, t.fBad⟩
    let s := r.2
    if s.fBad then (null, s.vMatch, s.vnIndex, s.fBad)
    -- all bits consumed, except for the padding of the byte serialization
    else if ((s.nBitsUsed + 7) / 8).toNat ≠ (t.vBits.length + 7) / 8 then
      (null, s.vMatch, s.vnIndex, s.fBad)
    else if s.nHashUsed.toNat ≠ t.vHash.length then (null, s.vMatch, s.vnIndex, s.fBad)
    else (r.1, s.vMatch, s.vnIndex, s.fBad)

theorem toNat_shiftRight_height (x : UInt32) {h : Nat} (hh : h < 32) :
    (x >>> h.toUInt32).toNat = x.toNat / 2 ^ h := by
  rw [UInt32.toNat_shiftRight]
  simp [Nat.shiftRight_eq_div_pow, Nat.mod_eq_of_lt hh]

theorem toNat_shiftLeft_height (x : UInt32) {h : Nat} (hh : h < 32) :
    (x <<< h.toUInt32).toNat = x.toNat * 2 ^ h % 2 ^ 32 := by
  rw [UInt32.toNat_shiftLeft]
  simp [Nat.shiftLeft_eq, Nat.mod_eq_of_lt hh]

/-- `CalcTreeWidth` is `width` while `nTransactions + 2^height` fits in 32 bits. -/
theorem toNat_CalcTreeWidth {n : UInt32} {h : Nat} (hh : h < 32) (hn : n.toNat + 2 ^ h ≤ 2 ^ 32) :
    (CalcTreeWidth n h).toNat = width n.toNat h := by
  have hpow := Nat.two_pow_pos h
  rw [CalcTreeWidth, toNat_shiftRight_height _ hh, UInt32.toNat_sub, UInt32.toNat_add, Merkle.shiftOne_toNat hh,
    UInt32.toNat_one, width]
  congr 1
  rcases Nat.lt_or_eq_of_le hn with hlt | heq
  · rw [Nat.mod_eq_of_lt hlt]
    omega
  · rw [heq, Nat.mod_self]
    omega

/-- Any count has width at most one at height `31`: the loop of `treeHeight` stops by then. -/
theorem CalcTreeWidth_31_le (n : UInt32) : CalcTreeWidth n 31 ≤ 1 := by
  rw [UInt32.le_iff_toNat_le, CalcTreeWidth, toNat_shiftRight_height _ (by decide)]
  have := (n + (1 : UInt32) <<< (31 : Nat).toUInt32 - 1).toNat_lt
  simp only [UInt32.toNat_one]
  omega

theorem clog_le_31 {n : Nat} (hn : n ≤ 2 ^ 31) : Nat.clog 2 n ≤ 31 :=
  (Nat.clog_le_iff_le_pow (by decide)).mpr hn

/-- The height of the tree, `while (CalcTreeWidth(nHeight) > 1) nHeight++`, is the least `k`
with `nTransactions ≤ 2^k`. -/
theorem treeHeight_eq {n : UInt32} (hn : n.toNat ≤ 2 ^ 31) {k : Nat} (hk : k ≤ Nat.clog 2 n.toNat) :
    treeHeight n k = Nat.clog 2 n.toNat := by
  have h31 := clog_le_31 hn
  fun_induction treeHeight n k with
  | case1 k hc ih =>
    have hw : 1 < width n.toNat k := by
      rw [← toNat_CalcTreeWidth hc.1 (by have := Nat.pow_le_pow_right (show 0 < 2 by decide) (show k ≤ 31 by omega); omega)]
      exact UInt32.lt_iff_toNat_lt.mp hc.2
    rw [one_lt_width_iff, ← Nat.lt_clog_iff_pow_lt (by decide)] at hw
    exact ih hw
  | case2 k hc =>
    have hk32 : k < 32 := by omega
    have hw : ¬1 < width n.toNat k := by
      rw [← toNat_CalcTreeWidth hk32 (by have := Nat.pow_le_pow_right (show 0 < 2 by decide) (show k ≤ 31 by omega); omega)]
      exact fun hlt => hc ⟨hk32, UInt32.lt_iff_toNat_lt.mpr hlt⟩
    rw [one_lt_width_iff, Nat.not_lt, ← Nat.clog_le_iff_le_pow (by decide)] at hw
    omega

/-- A node that exists starts below `nTransactions`, and its right end `(pos + 1) << height`
does not wrap. -/
theorem toNat_block {n pos : UInt32} {h : Nat} (hh : h < 32) (hn : n.toNat + 2 ^ h ≤ 2 ^ 32)
    (hpos : pos.toNat < width n.toNat h) :
    (pos <<< h.toUInt32).toNat = pos.toNat * 2 ^ h ∧
      ((pos + 1) <<< h.toUInt32).toNat = (pos.toNat + 1) * 2 ^ h := by
  have hstart := lt_width_iff.mp hpos
  have hend : (pos.toNat + 1) * 2 ^ h < 2 ^ 32 := by
    rw [Nat.succ_mul]
    omega
  have hlow : pos.toNat * 2 ^ h < 2 ^ 32 := lt_of_le_of_lt (Nat.mul_le_mul_right _ (Nat.le_succ _)) hend
  have hsucc : (pos + 1).toNat = pos.toNat + 1 := by
    rw [UInt32.toNat_add, UInt32.toNat_one]
    exact Nat.mod_eq_of_lt (lt_of_le_of_lt (Nat.le_mul_of_pos_right _ (Nat.two_pow_pos h)) hend)
  rw [toNat_shiftLeft_height _ hh, toNat_shiftLeft_height _ hh, hsucc, Nat.mod_eq_of_lt hlow,
    Nat.mod_eq_of_lt hend]
  exact ⟨rfl, rfl⟩

theorem toNat_two_mul {pos : UInt32} (hpos : 2 * pos.toNat + 1 < 2 ^ 32) :
    (pos * 2).toNat = 2 * pos.toNat ∧ (pos * 2 + 1).toNat = 2 * pos.toNat + 1 := by
  have hmul : (pos * 2).toNat = 2 * pos.toNat := by
    rw [UInt32.toNat_mul, Nat.mod_eq_of_lt (by simp; omega)]
    simp [Nat.mul_comm]
  refine ⟨hmul, ?_⟩
  rw [UInt32.toNat_add, hmul, UInt32.toNat_one, Nat.mod_eq_of_lt hpos]

/-- `matchLoop` ors `fParentOfMatch` with the entries of `vMatch` from `p` up to `stop` or
`nTransactions`, while `vMatch` holds an entry for every transaction. -/
theorem matchLoop_eq {n : UInt32} {vMatch : List Bool} (hm : n.toNat ≤ vMatch.length) (stop p : UInt32)
    (acc : Bool) :
    matchLoop n vMatch stop p acc =
      .ok (acc || (List.range' p.toNat (min stop.toNat n.toNat - p.toNat)).any (vMatch.getD · false)) := by
  fun_induction matchLoop with
  | case1 p acc hp b hb ih =>
    have hlt : p.toNat < min stop.toNat n.toNat :=
      Nat.lt_min.mpr ⟨UInt32.lt_iff_toNat_lt.mp hp.1, UInt32.lt_iff_toNat_lt.mp hp.2⟩
    have hsucc : (p + 1).toNat = p.toNat + 1 := by
      rw [UInt32.toNat_add, UInt32.toNat_one, Nat.mod_eq_of_lt (by have := n.toNat_lt; omega)]
    have hget : vMatch.getD p.toNat false = b := by rw [List.getD_eq_getElem?_getD, hb]; rfl
    rw [ih, hsucc, show min stop.toNat n.toNat - p.toNat = min stop.toNat n.toNat - (p.toNat + 1) + 1 by omega,
      List.range'_succ, List.any_cons, hget, Bool.or_assoc]
  | case2 p acc hp hb =>
    have : p.toNat < vMatch.length := by have := UInt32.lt_iff_toNat_lt.mp hp.2; omega
    rw [List.getElem?_eq_getElem this] at hb
    cases hb
  | case3 p acc hp =>
    have hge : min stop.toNat n.toNat ≤ p.toNat := by
      have : ¬(p.toNat < stop.toNat ∧ p.toNat < n.toNat) := fun hlt =>
        hp ⟨UInt32.lt_iff_toNat_lt.mpr hlt.1, UInt32.lt_iff_toNat_lt.mpr hlt.2⟩
      omega
    rw [Nat.sub_eq_zero_of_le hge]
    simp

/-- The loop of `TraverseAndBuild` over the leaves below a node reads whether one of them is
matched. -/
theorem matchLoop_selects {n : UInt32} {vMatch : List Bool} (hm : n.toNat ≤ vMatch.length) {h : Nat}
    (hh : h < 32) (hn : n.toNat + 2 ^ h ≤ 2 ^ 32) {pos : UInt32} (hpos : pos.toNat < width n.toNat h) :
    matchLoop n vMatch ((pos + 1) <<< h.toUInt32) (pos <<< h.toUInt32) false =
      .ok (selects n.toNat (vMatch.getD · false) h pos.toNat) := by
  obtain ⟨hstart, hend⟩ := toNat_block hh hn hpos
  have hpow := Nat.two_pow_pos h
  rw [matchLoop_eq hm, hstart, hend, Bool.false_or, selects, leafRange]
  congr 3
  rw [Nat.succ_mul]
  omega

/-- The children of a node that exists have positions below `2^31`. -/
theorem two_mul_lt_of_lt_width {n : UInt32} (hn : n.toNat ≤ 2 ^ 31) {h : Nat} {pos : UInt32}
    (hpos : pos.toNat < width n.toNat (h + 1)) :
    2 * pos.toNat < width n.toNat h ∧ 2 * pos.toNat + 1 < 2 ^ 32 := by
  have hstart := lt_width_iff.mp hpos
  have htwo : pos.toNat * 2 ≤ pos.toNat * 2 ^ (h + 1) :=
    Nat.mul_le_mul_left _ (Nat.le_self_pow (Nat.succ_ne_zero h) 2)
  refine ⟨lt_width_iff.mpr (by rw [two_mul_mul_two_pow]; exact hstart), by omega⟩

section Build

variable (Hash : α → α → α) {n : UInt32} {vTxid : List α} {g : Nat → α}

omit [DecidableEq α] in
/-- `CalcHash` computes the node of the tree over the transaction ids. -/
theorem CalcHash_eq (hlen : vTxid.length = n.toNat) (hg : ∀ i < n.toNat, vTxid[i]? = some (g i))
    (hn : n.toNat ≤ 2 ^ 31) {h : Nat} (hh : h ≤ 31) {pos : UInt32} (hpos : pos.toNat < width n.toNat h) :
    CalcHash Hash n vTxid h pos = .ok (node Hash n.toNat g h pos.toNat) := by
  have hne : vTxid.length ≠ 0 := by
    have := lt_width_iff.mp hpos
    omega
  induction h generalizing pos with
  | zero =>
    have hlt : pos.toNat < n.toNat := by simpa using lt_width_iff.mp hpos
    rw [CalcHash, if_neg hne, dif_pos rfl, hg _ hlt, node_zero]
    rfl
  | succ h ih =>
    obtain ⟨hleft, hbound⟩ := two_mul_lt_of_lt_width hn hpos
    obtain ⟨h2, h21⟩ := toNat_two_mul hbound
    have hw := toNat_CalcTreeWidth (n := n) (h := h) (by omega)
      (by have := Nat.pow_le_pow_right (show 0 < 2 by decide) (show h ≤ 31 by omega); omega)
    rw [CalcHash, if_neg hne, dif_neg (Nat.succ_ne_zero h), Nat.add_sub_cancel,
      ih (by omega) (by rw [h2]; exact hleft), ExceptLogic.ok_bind]
    by_cases hright : 2 * pos.toNat + 1 < width n.toNat h
    · rw [if_pos (UInt32.lt_iff_toNat_lt.mpr (by rw [h21, hw]; exact hright)),
        ih (by omega) (by rw [h21]; exact hright), ExceptLogic.ok_bind, h2, h21,
        node_succ_of_lt Hash (lt_width_iff.mp hright)]
      rfl
    · rw [if_neg (fun hlt => hright (by rw [← hw, ← h21]; exact UInt32.lt_iff_toNat_lt.mp hlt)),
        pure_bind, h2, node_succ_of_le Hash (Nat.not_lt.mp (mt lt_width_iff.mpr hright))]
      rfl

omit [DecidableEq α] in
/-- `TraverseAndBuild` appends the bits and hashes of the pruned tree below the node, in
preorder. -/
theorem TraverseAndBuild_eq (hlen : vTxid.length = n.toNat) (hg : ∀ i < n.toNat, vTxid[i]? = some (g i))
    (hn : n.toNat ≤ 2 ^ 31) {vMatch : List Bool} (hm : n.toNat ≤ vMatch.length) {h : Nat} (hh : h ≤ 31)
    {pos : UInt32} (hpos : pos.toNat < width n.toNat h) (vBits : List Bool) (vHash : List α) :
    TraverseAndBuild Hash n vTxid vMatch h pos vBits vHash =
      .ok (vBits ++ (pruned Hash n.toNat g (fun i => vMatch.getD i false) h pos.toNat).1,
        vHash ++ (pruned Hash n.toNat g (fun i => vMatch.getD i false) h pos.toNat).2) := by
  have hfit : n.toNat + 2 ^ h ≤ 2 ^ 32 := by
    have := Nat.pow_le_pow_right (show 0 < 2 by decide) hh
    omega
  induction h generalizing pos vBits vHash with
  | zero =>
    rw [TraverseAndBuild, matchLoop_selects hm (by decide) hfit hpos, ExceptLogic.ok_bind,
      dif_pos (.inl rfl), CalcHash_eq Hash hlen hg hn (Nat.zero_le _) hpos, ExceptLogic.ok_bind,
      node_zero]
    rfl
  | succ h ih =>
    obtain ⟨hleft, hbound⟩ := two_mul_lt_of_lt_width hn hpos
    obtain ⟨h2, h21⟩ := toNat_two_mul hbound
    have hfit' : n.toNat + 2 ^ h ≤ 2 ^ 32 := by
      have := Nat.pow_le_pow_right (show 0 < 2 by decide) (Nat.le_succ h)
      omega
    have hw := toNat_CalcTreeWidth (n := n) (h := h) (by omega) hfit'
    rw [TraverseAndBuild, matchLoop_selects hm (by omega) hfit hpos, ExceptLogic.ok_bind]
    cases hs : selects n.toNat (fun i => vMatch.getD i false) (h + 1) pos.toNat with
    | false =>
      rw [dif_pos (.inr rfl), CalcHash_eq Hash hlen hg hn hh hpos, ExceptLogic.ok_bind,
        pruned_succ_of_not h _ hs]
      rfl
    | true =>
      rw [dif_neg (by simp), Nat.add_sub_cancel, ih (by omega) (by rw [h2]; exact hleft) _ _ hfit',
        ExceptLogic.ok_bind, h2]
      by_cases hright : 2 * pos.toNat + 1 < width n.toNat h
      · rw [if_pos (UInt32.lt_iff_toNat_lt.mpr (by rw [h21, hw]; exact hright)),
          ih (by omega) (by rw [h21]; exact hright) _ _ hfit', h21, pruned_succ_of_lt h _ hs hright]
        simp
      · rw [if_neg (fun hlt => hright (by rw [← hw, ← h21]; exact UInt32.lt_iff_toNat_lt.mp hlt)),
          pruned_succ_of_le h _ hs hright]
        simp

end Build

section Lists

variable {β : Type}

theorem getElem_of_drop_eq_cons {l : List β} {k : Nat} {b : β} {rest : List β}
    (hd : l.drop k = b :: rest) : ∃ hk : k < l.length, l[k] = b := by
  have hk : k < l.length := by
    by_contra hge
    rw [List.drop_of_length_le (Nat.le_of_not_lt hge)] at hd
    cases hd
  refine ⟨hk, ?_⟩
  have := congrArg (·[0]?) hd
  simpa [List.getElem?_drop, List.getElem?_eq_getElem hk] using this

theorem drop_add_of_drop_eq_append {l : List β} {k : Nat} {xs rest : List β}
    (hd : l.drop k = xs ++ rest) : l.drop (k + xs.length) = rest := by
  rw [← List.drop_drop, hd, List.drop_left]

/-- A counter that stays below `2^32` adds the length exactly. -/
theorem toNat_add_length {a : UInt32} {k : Nat} (hk : a.toNat + k < 2 ^ 32) :
    (a + k.toUInt32).toNat = a.toNat + k := by
  rw [UInt32.toNat_add, Nat.toUInt32, UInt32.toNat_ofNat', Nat.mod_eq_of_lt (show k < 2 ^ 32 by omega),
    Nat.mod_eq_of_lt hk]

/-- A counter that points at `xs ++ rest` in a list shorter than `2^32`, with `rest` not empty,
moves past `xs` without wrapping. -/
theorem drop_advance {l : List β} {a : UInt32} {xs rest : List β} (hl : l.length < 2 ^ 32)
    (hd : l.drop a.toNat = xs ++ rest) (hrest : rest ≠ []) :
    (a + xs.length.toUInt32).toNat = a.toNat + xs.length ∧ l.drop (a + xs.length.toUInt32).toNat = rest := by
  have hnext := drop_add_of_drop_eq_append hd
  obtain ⟨b, rest', rfl⟩ := List.exists_cons_of_ne_nil hrest
  obtain ⟨hlt, -⟩ := getElem_of_drop_eq_cons hnext
  have hval := toNat_add_length (a := a) (k := xs.length) (by omega)
  exact ⟨hval, by rw [hval, hnext]⟩

end Lists

/-- The state after a read of `bits` bits and `hashes` hashes that found the matches `found` at
the positions `index`. -/
def ExtractState.read (s : ExtractState α) (bits hashes : Nat) (found : List α)
    (index : List UInt32) : ExtractState α :=
  ⟨s.nBitsUsed + bits.toUInt32, s.nHashUsed + hashes.toUInt32, s.vMatch ++ found, s.vnIndex ++ index, s.fBad⟩

section Read

omit [DecidableEq α]

variable (s : ExtractState α) (bits hashes : Nat) (found : List α) (index : List UInt32)

@[simp] theorem ExtractState.read_nBitsUsed :
    (s.read bits hashes found index).nBitsUsed = s.nBitsUsed + bits.toUInt32 := rfl

@[simp] theorem ExtractState.read_nHashUsed :
    (s.read bits hashes found index).nHashUsed = s.nHashUsed + hashes.toUInt32 := rfl

@[simp] theorem ExtractState.read_vMatch : (s.read bits hashes found index).vMatch = s.vMatch ++ found := rfl

@[simp] theorem ExtractState.read_vnIndex : (s.read bits hashes found index).vnIndex = s.vnIndex ++ index := rfl

@[simp] theorem ExtractState.read_fBad : (s.read bits hashes found index).fBad = s.fBad := rfl

theorem ExtractState.read_read (bits' hashes' : Nat) (found' : List α) (index' : List UInt32) :
    (s.read bits hashes found index).read bits' hashes' found' index' =
      s.read (bits + bits') (hashes + hashes') (found ++ found') (index ++ index') := by
  simp [ExtractState.read, UInt32.add_assoc]

/-- Taking the bit of a node is a read of one bit. -/
theorem ExtractState.read_one_bit : { s with nBitsUsed := s.nBitsUsed + 1 } = s.read 1 0 [] [] := by
  simp [ExtractState.read]

end Read

/-- Reading back the pruned tree below a node, from a state whose counters point at its bits
and hashes: the node's hash, with the counters past them and the matched leaves below the node
appended with their positions. `fBad` stays as it was when no two siblings have one hash. -/
theorem TraverseAndExtract_pruned (Hash : α → α → α) (null : α) {n : UInt32} {g : Nat → α}
    {m : Nat → Bool} (hn : n.toNat ≤ 2 ^ 31) (hsib : DistinctSiblings Hash n.toNat g)
    {vBits : List Bool} {vHash : List α} (hbitsLen : vBits.length < 2 ^ 32)
    (hhashLen : vHash.length < 2 ^ 32) {h : Nat} (hh : h ≤ 31) {pos : UInt32}
    (hpos : pos.toNat < width n.toNat h) (s : ExtractState α) {post : List Bool} {postH : List α}
    (hbits : vBits.drop s.nBitsUsed.toNat = (pruned Hash n.toNat g m h pos.toNat).1 ++ post)
    (hhashes : vHash.drop s.nHashUsed.toNat = (pruned Hash n.toNat g m h pos.toNat).2 ++ postH) :
    TraverseAndExtract Hash null n vBits vHash h pos s =
      (node Hash n.toNat g h pos.toNat,
        s.read (pruned Hash n.toNat g m h pos.toNat).1.length (pruned Hash n.toNat g m h pos.toNat).2.length
          (((leafRange n.toNat h pos.toNat).filter m).map g)
          (((leafRange n.toNat h pos.toNat).filter m).map Nat.toUInt32)) := by
  induction h generalizing pos s post postH with
  | zero =>
    have hlt : pos.toNat < n.toNat := by simpa using lt_width_iff.mp hpos
    rw [pruned, selects_zero hlt] at hbits hhashes
    obtain ⟨hk, hget⟩ := getElem_of_drop_eq_cons hbits
    obtain ⟨hk', hget'⟩ := getElem_of_drop_eq_cons hhashes
    rw [TraverseAndExtract, dif_pos hk]
    simp only [hget]
    rw [dif_pos (Or.inl trivial), dif_pos hk']
    simp only [hget']
    cases hm : m pos.toNat <;>
      simp [hm, leafRange_zero hlt, node_zero, pruned, selects_zero hlt, ExtractState.read]
  | succ h ih =>
    obtain ⟨hleft, hbound⟩ := two_mul_lt_of_lt_width hn hpos
    obtain ⟨h2, h21⟩ := toNat_two_mul hbound
    have hfit : n.toNat + 2 ^ h ≤ 2 ^ 32 := by
      have := Nat.pow_le_pow_right (show 0 < 2 by decide) (show h ≤ 31 by omega)
      omega
    have hw := toNat_CalcTreeWidth (n := n) (h := h) (by omega) hfit
    cases hs : selects n.toNat m (h + 1) pos.toNat with
    | false =>
      rw [pruned_succ_of_not h _ hs] at hbits hhashes
      obtain ⟨hk, hget⟩ := getElem_of_drop_eq_cons hbits
      obtain ⟨hk', hget'⟩ := getElem_of_drop_eq_cons hhashes
      rw [TraverseAndExtract, dif_pos hk]
      simp only [hget]
      rw [dif_pos (by simp), dif_pos hk']
      simp [hget', pruned_succ_of_not h _ hs, filter_leafRange_of_not hs, ExtractState.read]
    | true =>
      have hleft' : (pos * 2).toNat < width n.toNat h := by rw [h2]; exact hleft
      obtain ⟨hl1, -⟩ := pruned_ne_nil (f := Hash) (n := n.toNat) (g := g) (m := m) h (2 * pos.toNat)
      by_cases hright : 2 * pos.toNat + 1 < width n.toNat h
      · have hright' : (pos * 2 + 1).toNat < width n.toNat h := by rw [h21]; exact hright
        obtain ⟨hr1, hr2⟩ := pruned_ne_nil (f := Hash) (n := n.toNat) (g := g) (m := m) h (2 * pos.toNat + 1)
        rw [pruned_succ_of_lt h _ hs hright, List.cons_append, List.append_assoc] at hbits
        rw [pruned_succ_of_lt h _ hs hright, List.append_assoc] at hhashes
        obtain ⟨hk, hget⟩ := getElem_of_drop_eq_cons hbits
        obtain ⟨-, hbits1⟩ := drop_advance hbitsLen (show _ = [true] ++ _ from hbits)
          (List.append_ne_nil_of_left_ne_nil hl1 _)
        obtain ⟨-, hbits2⟩ := drop_advance hbitsLen hbits1 (List.append_ne_nil_of_left_ne_nil hr1 _)
        obtain ⟨-, hhashes2⟩ := drop_advance hhashLen hhashes (List.append_ne_nil_of_left_ne_nil hr2 _)
        rw [TraverseAndExtract, dif_pos hk]
        simp only [hget]
        rw [dif_neg (by simp), Nat.add_sub_cancel, ExtractState.read_one_bit,
          if_pos (UInt32.lt_iff_toNat_lt.mpr (by rw [h21, hw]; exact hright)),
          ih (by omega) hleft' _ (by simpa [h2] using hbits1) (by simpa [h2] using hhashes)]
        dsimp only
        rw [ih (by omega) hright' _ (by simpa [h2, h21] using hbits2) (by simpa [h2, h21] using hhashes2),
          h2, h21, if_neg (fun heq => hsib h _ hright heq.symm), node_succ_of_lt Hash (lt_width_iff.mp hright),
          ExtractState.read_read, ExtractState.read_read, pruned_succ_of_lt h _ hs hright,
          leafRange_succ_of_lt (lt_width_iff.mp hright)]
        simp only [List.length_cons, List.length_append, List.filter_append, List.map_append, List.nil_append,
          Nat.zero_add]
        congr 2
        omega
      · rw [pruned_succ_of_le h _ hs hright, List.cons_append] at hbits
        rw [pruned_succ_of_le h _ hs hright] at hhashes
        obtain ⟨hk, hget⟩ := getElem_of_drop_eq_cons hbits
        obtain ⟨-, hbits1⟩ := drop_advance hbitsLen (show _ = [true] ++ _ from hbits)
          (List.append_ne_nil_of_left_ne_nil hl1 _)
        rw [TraverseAndExtract, dif_pos hk]
        simp only [hget]
        rw [dif_neg (by simp), Nat.add_sub_cancel, ExtractState.read_one_bit,
          if_neg (fun hlt => hright (by rw [← hw, ← h21]; exact UInt32.lt_iff_toNat_lt.mp hlt)),
          ih (by omega) hleft' _ (by simpa [h2] using hbits1) (by simpa [h2] using hhashes)]
        dsimp only
        rw [h2, node_succ_of_le Hash (Nat.not_lt.mp (mt lt_width_iff.mpr hright)), ExtractState.read_read,
          pruned_succ_of_le h _ hs hright, leafRange_succ_of_le (Nat.not_lt.mp (mt lt_width_iff.mpr hright))]
        simp only [List.length_cons, List.nil_append, Nat.zero_add]
        congr 2
        omega

theorem MAX_TRANSACTIONS_eq : MAX_TRANSACTIONS = 16666 := rfl

/-- The root node of the tree over `N` leaves holds all of them. -/
theorem leafRange_root {N : Nat} : leafRange N (Nat.clog 2 N) 0 = List.range N := by
  rw [leafRange, Nat.zero_mul, Nat.sub_zero, Nat.min_eq_right (Nat.le_pow_clog (by decide) N),
    List.range_eq_range']

/-- The bits and hashes of the pruned tree over all of `vTxid` with the flags `vMatch`, from
the root. -/
def prunedBlock (Hash : α → α → α) (null : α) (vTxid : List α) (vMatch : List Bool) : List Bool × List α :=
  pruned Hash vTxid.length (fun i => vTxid.getD i null) (fun i => vMatch.getD i false) (Nat.clog 2 vTxid.length) 0

section Block

variable (Hash : α → α → α) (null : α) {vTxid : List α} (vMatch : List Bool)

omit [DecidableEq α] in
theorem toNat_length_toUInt32 (hmax : vTxid.length ≤ MAX_TRANSACTIONS) :
    vTxid.length.toUInt32.toNat = vTxid.length := by
  rw [MAX_TRANSACTIONS_eq] at hmax
  rw [Nat.toUInt32, UInt32.toNat_ofNat', Nat.mod_eq_of_lt (by omega)]

omit [DecidableEq α] in
/-- The root of a block's tree is at its `⌈log₂ n⌉`. -/
theorem treeHeight_block (hmax : vTxid.length ≤ MAX_TRANSACTIONS) :
    treeHeight vTxid.length.toUInt32 0 = Nat.clog 2 vTxid.length := by
  have hN := toNat_length_toUInt32 hmax
  rw [MAX_TRANSACTIONS_eq] at hmax
  rw [treeHeight_eq (by omega) (Nat.zero_le _), hN]

omit [DecidableEq α] in
theorem clog_block_le (hmax : vTxid.length ≤ MAX_TRANSACTIONS) : Nat.clog 2 vTxid.length ≤ 31 := by
  rw [MAX_TRANSACTIONS_eq] at hmax
  exact clog_le_31 (by omega)

omit [DecidableEq α] in
theorem root_lt_width (hne : vTxid ≠ []) : 0 < width vTxid.length (Nat.clog 2 vTxid.length) := by
  rw [lt_width_iff]
  simpa using List.length_pos_of_ne_nil hne

omit [DecidableEq α] in
/-- The constructor stores the pruned tree over the block. -/
theorem create_eq (hmax : vTxid.length ≤ MAX_TRANSACTIONS) (hne : vTxid ≠ [])
    (hmatch : vMatch.length = vTxid.length) :
    CPartialMerkleTree.create Hash vTxid vMatch =
      .ok ⟨vTxid.length.toUInt32, (prunedBlock Hash null vTxid vMatch).1, (prunedBlock Hash null vTxid vMatch).2,
        false⟩ := by
  have hN := toNat_length_toUInt32 hmax
  have hg : ∀ i < vTxid.length.toUInt32.toNat, vTxid[i]? = some (vTxid.getD i null) := fun i hi => by
    rw [hN] at hi
    simp [List.getElem?_eq_getElem hi]
  have hbuild := TraverseAndBuild_eq Hash hN.symm hg (by rw [MAX_TRANSACTIONS_eq] at hmax; omega)
    (show _ ≤ vMatch.length by omega) (clog_block_le hmax)
    (show (0 : UInt32).toNat < _ by rw [hN]; exact root_lt_width hne) [] []
  rw [CPartialMerkleTree.create, treeHeight_block hmax, hbuild, ExceptLogic.ok_bind, hN]
  rfl

omit [DecidableEq α] in
/-- No more hashes than transactions, at most one bit per node on the way to each, and at least
one bit per hash. -/
theorem length_prunedBlock_le (hne : vTxid ≠ []) :
    (prunedBlock Hash null vTxid vMatch).2.length ≤ vTxid.length ∧
      (prunedBlock Hash null vTxid vMatch).1.length ≤ (Nat.clog 2 vTxid.length + 1) * vTxid.length ∧
      (prunedBlock Hash null vTxid vMatch).2.length ≤ (prunedBlock Hash null vTxid vMatch).1.length := by
  have hle := length_pruned_le (f := Hash) (g := fun i => vTxid.getD i null) (m := fun i => vMatch.getD i false)
    (root_lt_width hne)
  rwa [leafRange_root, List.length_range] at hle

/-- `ExtractMatches` reads the pruned tree over a block back to the root of the tree over it,
the matched ids in order and their positions after what `vnIndex` held, when no two sibling
nodes have one hash. Bits after the tree are not read, and as long as they do not fill another
byte `ExtractMatches` accepts them. -/
theorem ExtractMatches_prunedBlock (vnIndex : List UInt32) (hne : vTxid ≠ [])
    (hmax : vTxid.length ≤ MAX_TRANSACTIONS) (hsib : DistinctSiblings Hash vTxid.length (fun i => vTxid.getD i null))
    (pad : List Bool)
    (hpad : ((prunedBlock Hash null vTxid vMatch).1.length + pad.length + 7) / 8 =
      ((prunedBlock Hash null vTxid vMatch).1.length + 7) / 8) :
    ExtractMatches Hash null
        ⟨vTxid.length.toUInt32, (prunedBlock Hash null vTxid vMatch).1 ++ pad, (prunedBlock Hash null vTxid vMatch).2,
          false⟩ vnIndex =
      (root Hash null vTxid,
        ((List.range vTxid.length).filter (vMatch.getD · false)).map (vTxid.getD · null),
        vnIndex ++ ((List.range vTxid.length).filter (vMatch.getD · false)).map Nat.toUInt32, false) := by
  have hN := toNat_length_toUInt32 hmax
  have hH := treeHeight_block hmax
  have hH31 := clog_block_le hmax
  obtain ⟨hlen2, hlen1, hlen21⟩ := length_prunedBlock_le Hash null vMatch hne
  set bits := (prunedBlock Hash null vTxid vMatch).1 with hbits
  set hashes := (prunedBlock Hash null vTxid vMatch).2 with hhashes
  rw [MAX_TRANSACTIONS_eq] at hmax
  have hbitsSmall : bits.length ≤ 32 * 16666 := hlen1.trans (Nat.mul_le_mul (by omega) hmax)
  have hpadLen : pad.length < 8 := by omega
  have hbitsLen : (bits ++ pad).length < 2 ^ 32 := by
    rw [List.length_append]
    omega
  have hhashLen : hashes.length < 2 ^ 32 := by omega
  have hn0 : vTxid.length.toUInt32 ≠ 0 := fun h0 => by
    rw [h0, UInt32.toNat_zero] at hN
    exact hne (List.eq_nil_of_length_eq_zero hN.symm)
  have hext := TraverseAndExtract_pruned Hash null (m := fun i => vMatch.getD i false) (by omega)
    (by rw [hN]; exact hsib) hbitsLen hhashLen hH31
    (show (0 : UInt32).toNat < width vTxid.length.toUInt32.toNat (Nat.clog 2 vTxid.length) by
      rw [hN]; exact root_lt_width hne) ⟨0, 0, [], vnIndex, false⟩
    (show (bits ++ pad).drop (0 : UInt32).toNat =
        (pruned Hash vTxid.length.toUInt32.toNat (fun i => vTxid.getD i null) (fun i => vMatch.getD i false)
          (Nat.clog 2 vTxid.length) (0 : UInt32).toNat).1 ++ pad by rw [hN, UInt32.toNat_zero, List.drop_zero]; rfl)
    (show hashes.drop (0 : UInt32).toNat =
        (pruned Hash vTxid.length.toUInt32.toNat (fun i => vTxid.getD i null) (fun i => vMatch.getD i false)
          (Nat.clog 2 vTxid.length) (0 : UInt32).toNat).2 ++ [] by rw [hN, UInt32.toNat_zero, List.drop_zero, List.append_nil]; rfl)
  rw [hN, UInt32.toNat_zero, leafRange_root] at hext
  change _ = (node Hash vTxid.length _ _ 0, ExtractState.read _ bits.length hashes.length _ _) at hext
  have hused : ∀ k : Nat, k < 2 ^ 32 → ((0 : UInt32) + k.toUInt32).toNat = k := fun k hk => by
    rw [toNat_add_length (by rw [UInt32.toNat_zero, Nat.zero_add]; exact hk), UInt32.toNat_zero, Nat.zero_add]
  have hround : (((0 : UInt32) + bits.length.toUInt32 + 7) / 8).toNat = (bits.length + pad.length + 7) / 8 := by
    rw [UInt32.toNat_div, UInt32.toNat_add, hused _ (by omega), hpad]
    have : bits.length + 7 < 4294967296 := by omega
    simp [Nat.mod_eq_of_lt this]
  dsimp only [ExtractMatches]
  rw [if_neg hn0, if_neg (by rw [hN, MAX_TRANSACTIONS_eq]; omega), if_neg (by rw [hN]; omega),
    if_neg (by rw [List.length_append]; omega), hH, hext]
  simp only [ExtractState.read_fBad, Bool.false_eq_true, if_false, ExtractState.read_nBitsUsed,
    ExtractState.read_nHashUsed, hround, List.length_append, hused _ hhashLen, ne_eq, not_true_eq_false, if_false,
    ExtractState.read_vMatch, ExtractState.read_vnIndex, List.nil_append, root_eq_node Hash null hne]

end Block

/-- A partial Merkle tree built from at least one and at most `MAX_TRANSACTIONS` transaction
ids, with a flag for each, reads back to the root of the tree over them, the matched ids in
order and their positions after what `vnIndex` held, when no two sibling nodes have one hash. -/
theorem ExtractMatches_create (Hash : α → α → α) (null : α) (vTxid : List α) (vMatch : List Bool)
    (vnIndex : List UInt32) (hne : vTxid ≠ []) (hmax : vTxid.length ≤ MAX_TRANSACTIONS)
    (hmatch : vMatch.length = vTxid.length)
    (hsib : DistinctSiblings Hash vTxid.length (fun i => vTxid.getD i null)) :
    ∃ t, CPartialMerkleTree.create Hash vTxid vMatch = .ok t ∧
      ExtractMatches Hash null t vnIndex =
        (root Hash null vTxid,
          ((List.range vTxid.length).filter (vMatch.getD · false)).map (vTxid.getD · null),
          vnIndex ++ ((List.range vTxid.length).filter (vMatch.getD · false)).map Nat.toUInt32, false) := by
  refine ⟨_, create_eq Hash null vMatch hmax hne hmatch, ?_⟩
  have hext := ExtractMatches_prunedBlock Hash null vMatch vnIndex hne hmax hsib [] (by simp)
  rwa [List.append_nil] at hext

theorem CPartialMerkleTree_round_trip (P : Primitives) (vTxid : List uint256) (vMatch : List Bool)
    (hne : vTxid ≠ []) (hmax : vTxid.length ≤ MAX_TRANSACTIONS) (hmatch : vMatch.length = vTxid.length)
    (hsib : DistinctSiblings P.Hash vTxid.length (fun i => vTxid.getD i uint256.zero)) :
    ∃ t hash mutated, CPartialMerkleTree.create P.Hash vTxid vMatch = .ok t ∧
      Merkle.ComputeMerkleRoot P vTxid = .ok (hash, mutated) ∧
      ExtractMatches P.Hash uint256.zero t [] =
        (hash, ((List.range vTxid.length).filter (vMatch.getD · false)).map (vTxid.getD · uint256.zero),
          ((List.range vTxid.length).filter (vMatch.getD · false)).map Nat.toUInt32, false) := by
  obtain ⟨t, ht, hext⟩ := ExtractMatches_create P.Hash uint256.zero vTxid vMatch [] hne hmax hmatch hsib
  obtain ⟨mutated, hroot⟩ := Merkle.ComputeMerkleRoot_eq_root P
    (show vTxid.length ≤ 2 ^ 31 by rw [MAX_TRANSACTIONS_eq] at hmax; omega)
  refine ⟨t, root P.Hash uint256.zero vTxid, mutated, ht, hroot, ?_⟩
  rw [hext, List.nil_append]

/-- Two different transactions: the two leaves are the only siblings. -/
theorem distinctSiblings_two :
    DistinctSiblings zeroPrimitives.Hash 2 (fun i => [uint256.zero, ⟨Vector.replicate 32 1⟩].getD i uint256.zero) := by
  intro h pos hlt
  cases h with
  | zero =>
    obtain rfl : pos = 0 := by simp [width] at hlt; omega
    simp [node_zero]
    decide
  | succ h =>
    have hp : 2 ≤ 2 ^ (h + 1) := Nat.le_self_pow (Nat.succ_ne_zero h) 2
    have hone : width 2 (h + 1) = 1 := by
      rw [width]
      exact Nat.div_eq_of_lt_le (by omega) (by omega)
    omega

/-- Two transactions, the second matched. -/
theorem CPartialMerkleTree_round_trip_two :
    [uint256.zero, ⟨Vector.replicate 32 1⟩] ≠ [] ∧
      [uint256.zero, ⟨Vector.replicate 32 1⟩].length ≤ MAX_TRANSACTIONS ∧
      [false, true].length = [uint256.zero, ⟨Vector.replicate 32 1⟩].length ∧
      DistinctSiblings zeroPrimitives.Hash 2 (fun i => [uint256.zero, ⟨Vector.replicate 32 1⟩].getD i uint256.zero) ∧
      ∃ t hash mutated,
        CPartialMerkleTree.create zeroPrimitives.Hash [uint256.zero, ⟨Vector.replicate 32 1⟩] [false, true] = .ok t ∧
        Merkle.ComputeMerkleRoot zeroPrimitives [uint256.zero, ⟨Vector.replicate 32 1⟩] = .ok (hash, mutated) ∧
        ExtractMatches zeroPrimitives.Hash uint256.zero t [] =
          (hash, ((List.range 2).filter ([false, true].getD · false)).map
              ([uint256.zero, ⟨Vector.replicate 32 1⟩].getD · uint256.zero),
            ((List.range 2).filter ([false, true].getD · false)).map Nat.toUInt32, false) :=
  ⟨by simp, by decide, rfl, distinctSiblings_two,
    CPartialMerkleTree_round_trip zeroPrimitives _ _ (by simp) (by decide) rfl distinctSiblings_two⟩

end SalemCash.PartialMerkle
