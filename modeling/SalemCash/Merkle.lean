import Mathlib.Data.Nat.Bitwise
import SalemCash.Bits
import SalemCash.Sighash

/-!
# Merkle roots and branches

`MerkleComputation` of `consensus/merkle.cpp`, the constant-space calculator behind
`ComputeMerkleRoot` and `ComputeMerkleBranch`. It reads the leaves in order and keeps one
pending subtree hash per level in `inner[32]`, indexed by the bits of the running count
`count` (a `uint32_t`); a final sweep then pairs the odd nodes of the right edge with
themselves. Both phases climb the levels with the same loop, and only the leaf phase
compares the two hashes it combines (`mutated`).

The calculator uses of `uint256` only `==`, the null value `uint256()` and the hash of a
pair, so it is written over any type with these three; `ComputeMerkleRoot` and
`ComputeMerkleBranch` run it on `uint256` with `Primitives.Hash`. Over another type the pair
hash can be injective, which no function from 64 bytes to 32 can be.

The sweep adds `1 << level` to `count` as if the odd node had a twin. When more than
`2^31` leaves are not a power of two, `count` passes `2^32` at level `30`, wraps to `0`,
and the climb that follows finds no set bit below `32`: it evaluates `1 << 32`, which is
undefined for a `uint32_t`. The model stops there with `shift_out_of_range`.
-/
namespace SalemCash

/-- `Hash(p1begin, p1end, p2begin, p2end)` of `hash.h` on two `uint256`: `CHash256` of the
64 bytes, the first range before the second. -/
def Primitives.Hash (P : Primitives) (a b : uint256) : uint256 :=
  P.HashWriter (a.data.toList ++ b.data.toList)

namespace Merkle

/-- What `MerkleComputation` does that the source leaves undefined. -/
inductive MerkleFault where
  /-- `((uint32_t)1) << level` with `level ≥ 32`. -/
  | shift_out_of_range
  /-- `inner[level]` past the 32 entries of the array. -/
  | out_of_bounds
  deriving DecidableEq, Repr

variable {α : Type} [DecidableEq α]

omit [DecidableEq α] in
/-- `inner[level]`, read. -/
def innerGet (inner : List α) (level : Nat) : Except MerkleFault α :=
  if h : level < inner.length then pure inner[level] else throw .out_of_bounds

omit [DecidableEq α] in
/-- `inner[level] = h`. -/
def innerSet (inner : List α) (level : Nat) (h : α) :
    Except MerkleFault (List α) :=
  if level < inner.length then pure (inner.set level h) else throw .out_of_bounds

omit [DecidableEq α] in
/-- The `if (pbranch)` block both climbing loops run at a level before they combine:
once `h` depends on the branch leaf, the pending `inner[level]` is its sibling; at the
level where the pending hash is the one that depends on it, `h` is. -/
def trackBranch (fBranch matchh : Bool) (matchlevel : Int) (level : Nat)
    (innerLevel h : α) (branch : List α) : List α × Bool :=
  if fBranch then
    if matchh then (branch ++ [innerLevel], matchh)
    else if matchlevel = level then (branch ++ [h], true)
    else (branch, matchh)
  else (branch, matchh)

/-- The locals a climb leaves behind. -/
structure Climb (α : Type) where
  level : Nat
  h : α
  matchh : Bool
  mutated : Bool
  branch : List α

/-- While bit `level` of `count` is zero, combine the pending `inner[level]` with `h` and go
up a level: the `for` loop of the leaf phase (`checkMutated`, which also records
`mutated |= (inner[level] == h)`) and the inner `while` of the sweep (which does not). -/
def climb (Hash : α → α → α) (fBranch checkMutated : Bool)
    (inner : List α) (matchlevel : Int) (count : UInt32) (level : Nat) (h : α)
    (matchh mutated : Bool) (branch : List α) : Except MerkleFault (Climb α) :=
  if hl : level < 32 then
    if count &&& (1 : UInt32) <<< level.toUInt32 = 0 then do
      let innerLevel ← innerGet inner level
      let tracked := trackBranch fBranch matchh matchlevel level innerLevel h branch
      let mutated := if checkMutated then mutated || innerLevel == h else mutated
      climb Hash fBranch checkMutated inner matchlevel count (level + 1) (Hash innerLevel h)
        tracked.2 mutated tracked.1
    else pure ⟨level, h, matchh, mutated, branch⟩
  else throw .shift_out_of_range
termination_by 32 - level

/-- The state the leaf phase carries from one leaf to the next. -/
structure LeafState (α : Type) where
  count : UInt32
  inner : List α
  matchlevel : Int
  mutated : Bool
  branch : List α

/-- `while (count < leaves.size())`: take the leaf at `count`, climb with it from level 0 and
store the result at the level where the climb stopped. The leaves are read in order, so the
model walks the list; `count` is the number already read. -/
def leafLoop (Hash : α → α → α) (fBranch : Bool) (branchpos : UInt32) :
    List α → LeafState α → Except MerkleFault (LeafState α)
  | [], s => pure s
  | leaf :: rest, s => do
    let matchh := s.count == branchpos
    let count := s.count + 1
    let c ← climb Hash fBranch true s.inner s.matchlevel count 0 leaf matchh s.mutated s.branch
    let inner ← innerSet s.inner c.level c.h
    leafLoop Hash fBranch branchpos rest
      ⟨count, inner, if c.matchh then c.level else s.matchlevel, c.mutated, c.branch⟩

/-- `while (!(count & (((uint32_t)1) << level))) level++;` before the sweep. -/
def skipZeroBits (count : UInt32) (level : Nat) : Except MerkleFault Nat :=
  if hl : level < 32 then
    if count &&& (1 : UInt32) <<< level.toUInt32 = 0 then skipZeroBits count (level + 1)
    else pure level
  else throw .shift_out_of_range
termination_by 32 - level

theorem shiftOne_toNat {k : Nat} (hk : k < 32) : ((1 : UInt32) <<< k.toUInt32).toNat = 2 ^ k := by
  have hpow : 2 ^ k < 2 ^ 32 := Nat.pow_lt_pow_right (by decide) hk
  rw [UInt32.toNat_shiftLeft]
  simp only [UInt32.toNat_one, Nat.toUInt32, UInt32.toNat_ofNat', Nat.reducePow, Nat.one_shiftLeft]
  rw [Nat.mod_eq_of_lt (show k < 4294967296 by omega), Nat.mod_eq_of_lt hk]
  exact Nat.mod_eq_of_lt hpow

/-- The test `count & (1 << k)` of the loops reads bit `k` of the count. -/
theorem and_shiftOne_eq_zero {count : UInt32} {k : Nat} (hk : k < 32) :
    count &&& (1 : UInt32) <<< k.toUInt32 = 0 ↔ count.toNat / 2 ^ k % 2 = 0 := by
  rw [← UInt32.toNat_inj, UInt32.toNat_and, shiftOne_toNat hk, Bits.and_two_pow]
  simp

/-- A bit that is clear extends the zero low field by one place. -/
theorem mod_two_pow_succ_eq_zero {x k : Nat} (hlow : x % 2 ^ k = 0) (hbit : x / 2 ^ k % 2 = 0) :
    x % 2 ^ (k + 1) = 0 := by
  rw [Nat.mod_pow_succ, hlow, hbit, Nat.mul_zero]

/-- A count whose low 32 bits are zero is zero. -/
theorem eq_zero_of_mod_two_pow {count : UInt32} {k : Nat} (hk : 32 ≤ k)
    (hlow : count.toNat % 2 ^ k = 0) : count = 0 := by
  have hlt : count.toNat < 2 ^ k :=
    Nat.lt_of_lt_of_le count.toNat_lt (Nat.pow_le_pow_right (by decide) hk)
  rw [Nat.mod_eq_of_lt hlt] at hlow
  exact UInt32.toNat_inj.mp hlow

omit [DecidableEq α] in
theorem innerGet_of_lt {inner : List α} {level : Nat} (h : level < inner.length) :
    innerGet inner level = .ok inner[level] := by
  simp [innerGet, h]

omit [DecidableEq α] in
theorem innerSet_of_lt {inner : List α} {level : Nat} (h : level < inner.length)
    (x : α) : innerSet inner level x = .ok (inner.set level x) := by
  simp [innerSet, h]

section Climb

variable {Hash : α → α → α} {fBranch checkMutated : Bool}
  {inner : List α} {matchlevel : Int} {count : UInt32}

/-- A climb ends at or above the level it starts from. -/
theorem climb_level_ge {level : Nat} {h : α} {matchh mutated : Bool}
    {branch : List α} {c : Climb α}
    (hc : climb Hash fBranch checkMutated inner matchlevel count level h matchh mutated branch =
      .ok c) : level ≤ c.level := by
  fun_induction climb with
  | case1 level h matchh mutated branch hl hbit ih =>
    obtain ⟨innerLevel, -, hrest⟩ := ExceptLogic.bind_eq_ok.mp hc
    have := ih innerLevel hrest
    omega
  | case2 => cases hc; exact Nat.le_refl _
  | case3 => cases hc

/-- From a level below which `count` has no set bit, a climb stops at the lowest set bit of
`count`; only a zero count runs it past level 31. -/
theorem climb_spec (hinner : inner.length = 32) (hcount : count ≠ 0) {level : Nat}
    (h : α) (matchh mutated : Bool) (branch : List α)
    (hlow : count.toNat % 2 ^ level = 0) :
    ∃ c, climb Hash fBranch checkMutated inner matchlevel count level h matchh mutated branch =
      .ok c ∧ level ≤ c.level ∧ c.level < 32 ∧ count.toNat / 2 ^ c.level % 2 = 1 ∧
      count.toNat % 2 ^ c.level = 0 := by
  fun_induction climb with
  | case1 level h matchh mutated branch hl hbit ih =>
    rw [innerGet_of_lt (by omega), ExceptLogic.ok_bind]
    obtain ⟨c, hc, hge, hc32, hset, hclow⟩ :=
      ih inner[level] (mod_two_pow_succ_eq_zero hlow ((and_shiftOne_eq_zero hl).mp hbit))
    exact ⟨c, hc, by omega, hc32, hset, hclow⟩
  | case2 level h matchh mutated branch hl hbit =>
    have hset : count.toNat / 2 ^ level % 2 ≠ 0 := fun h0 => hbit ((and_shiftOne_eq_zero hl).mpr h0)
    exact ⟨_, rfl, Nat.le_refl _, hl, Nat.mod_two_ne_zero.mp hset, hlow⟩
  | case3 level h matchh mutated branch hl =>
    exact absurd (eq_zero_of_mod_two_pow (by omega) hlow) hcount

/-- With a zero count every bit is clear, so the climb reaches `1 << 32`. -/
theorem climb_zero (hinner : inner.length = 32) {level : Nat} (h : α)
    (matchh mutated : Bool) (branch : List α) :
    climb Hash fBranch checkMutated inner matchlevel 0 level h matchh mutated branch =
      .error .shift_out_of_range := by
  fun_induction climb with
  | case1 level h matchh mutated branch hl hbit ih =>
    rw [innerGet_of_lt (by omega), ExceptLogic.ok_bind]
    exact ih inner[level]
  | case2 level h matchh mutated branch hl hbit => exact absurd UInt32.zero_and hbit
  | case3 => rfl

end Climb

/-- `skipZeroBits` stops at the lowest set bit of a nonzero count. -/
theorem skipZeroBits_spec {count : UInt32} (hcount : count ≠ 0) {level : Nat}
    (hlow : count.toNat % 2 ^ level = 0) :
    ∃ k, skipZeroBits count level = .ok k ∧ level ≤ k ∧ k < 32 ∧
      count.toNat / 2 ^ k % 2 = 1 ∧ count.toNat % 2 ^ k = 0 := by
  fun_induction skipZeroBits with
  | case1 level hl hbit ih =>
    obtain ⟨k, hk, hge, hk32, hset, hklow⟩ :=
      ih (mod_two_pow_succ_eq_zero hlow ((and_shiftOne_eq_zero hl).mp hbit))
    exact ⟨k, hk, by omega, hk32, hset, hklow⟩
  | case2 level hl hbit =>
    have hset : count.toNat / 2 ^ level % 2 ≠ 0 := fun h0 => hbit ((and_shiftOne_eq_zero hl).mpr h0)
    exact ⟨_, rfl, Nat.le_refl _, hl, Nat.mod_two_ne_zero.mp hset, hlow⟩
  | case3 level hl =>
    exact absurd (eq_zero_of_mod_two_pow (by omega) hlow) hcount

/-- `while (count != (1 << level))` over the right edge: pair `h` with itself, add
`1 << level` to `count` as if its twin had been read, and climb from the level above,
without the `mutated` check. -/
def sweep (Hash : α → α → α) (fBranch : Bool) (inner : List α)
    (matchlevel : Int) (count : UInt32) (level : Nat) (h : α) (matchh : Bool)
    (branch : List α) : Except MerkleFault (α × List α) :=
  if _inRange : level < 32 then
    if count ≠ (1 : UInt32) <<< level.toUInt32 then
      let branch := if fBranch && matchh then branch ++ [h] else branch
      let count := count + (1 : UInt32) <<< level.toUInt32
      match _climbed : climb Hash fBranch false inner matchlevel count (level + 1) (Hash h h) matchh
          false branch with
      | .ok c => sweep Hash fBranch inner matchlevel count c.level c.h c.matchh c.branch
      | .error e => .error e
    else pure (h, branch)
  else throw .shift_out_of_range
termination_by 32 - level
decreasing_by have := climb_level_ge _climbed; omega

/-- `MerkleComputation(leaves, proot, pmutated, branchpos, pbranch)`, returning what it
writes through the three pointers: the root, `mutated` and the branch, which is left empty
when `pbranch` is null (`fBranch = false`). -/
def MerkleComputation (null : α) (Hash : α → α → α) (leaves : List α)
    (branchpos : UInt32) (fBranch : Bool) : Except MerkleFault (α × Bool × List α) :=
  if leaves.length = 0 then pure (null, false, [])
  else do
    let s ← leafLoop Hash fBranch branchpos leaves
      ⟨0, List.replicate 32 null, -1, false, []⟩
    let level ← skipZeroBits s.count 0
    let h ← innerGet s.inner level
    let r ← sweep Hash fBranch s.inner s.matchlevel s.count level h (s.matchlevel == level)
      s.branch
    pure (r.1, s.mutated, r.2)

/-- `ComputeMerkleRoot(leaves, mutated)`: the root, and what it writes to `*mutated`. -/
def ComputeMerkleRoot (P : Primitives) (leaves : List uint256) :
    Except MerkleFault (uint256 × Bool) := do
  let r ← MerkleComputation uint256.zero P.Hash leaves 0xFFFFFFFF false
  pure (r.1, r.2.1)

/-- `ComputeMerkleBranch(leaves, position)`. -/
def ComputeMerkleBranch (P : Primitives) (leaves : List uint256) (position : UInt32) :
    Except MerkleFault (List uint256) := do
  let r ← MerkleComputation uint256.zero P.Hash leaves position true
  pure r.2.2

/-- `ComputeMerkleRootFromBranch(leaf, vMerkleBranch, nIndex)`, with `hash` the running
value that starts at `leaf`: the low bit of `nIndex` says on which side the sibling is. -/
def ComputeMerkleRootFromBranch (P : Primitives) (hash : uint256) :
    List uint256 → UInt32 → uint256
  | [], _ => hash
  | it :: rest, nIndex =>
    ComputeMerkleRootFromBranch P (if nIndex &&& 1 ≠ 0 then P.Hash it hash else P.Hash hash it)
      rest (nIndex >>> 1)

/-- A count with no set bit below `k` can take `2^k` more before it passes `2^32`. -/
theorem add_two_pow_le {x k : Nat} (hk : k ≤ 32) (hlow : x % 2 ^ k = 0) (hx : x < 2 ^ 32) :
    x + 2 ^ k ≤ 2 ^ 32 := by
  have hsplit : 2 ^ 32 = 2 ^ k * 2 ^ (32 - k) := by rw [← Nat.pow_add, Nat.add_sub_cancel' hk]
  have hx' : x = 2 ^ k * (x / 2 ^ k) := (Nat.mul_div_cancel' (Nat.dvd_of_mod_eq_zero hlow)).symm
  have hq : x / 2 ^ k < 2 ^ (32 - k) := by
    rw [Nat.div_lt_iff_lt_mul (Nat.two_pow_pos k), Nat.mul_comm, ← hsplit]
    exact hx
  calc x + 2 ^ k = 2 ^ k * (x / 2 ^ k + 1) := by rw [Nat.mul_add, Nat.mul_one, ← hx']
    _ ≤ 2 ^ k * 2 ^ (32 - k) := Nat.mul_le_mul_left _ hq
    _ = 2 ^ 32 := hsplit.symm

/-- Adding the twin at a set bit carries: the low field grows by one place. -/
theorem mod_two_pow_succ_of_add {x k : Nat} (hlow : x % 2 ^ k = 0) (hbit : x / 2 ^ k % 2 = 1) :
    (x + 2 ^ k) % 2 ^ (k + 1) = 0 := by
  apply mod_two_pow_succ_eq_zero
  · rw [Nat.add_mod_right, hlow]
  · rw [Nat.add_div_right _ (Nat.two_pow_pos k)]
    omega

/-- The leaf phase reads every leaf without a fault while the count stays below `2^32`,
and leaves `count` at the number of leaves. -/
theorem leafLoop_count (Hash : α → α → α) (fBranch : Bool)
    (branchpos : UInt32) (leaves : List α) :
    ∀ s : LeafState α, s.inner.length = 32 → s.count.toNat + leaves.length < 2 ^ 32 →
      ∃ s', leafLoop Hash fBranch branchpos leaves s = .ok s' ∧
        s'.count.toNat = s.count.toNat + leaves.length ∧ s'.inner.length = 32 := by
  induction leaves with
  | nil => exact fun s hs _ => ⟨s, rfl, rfl, hs⟩
  | cons leaf rest ih =>
    intro s hinner hlen
    simp only [List.length_cons] at hlen
    have hcount : (s.count + 1).toNat = s.count.toNat + 1 := by
      rw [UInt32.toNat_add, UInt32.toNat_one, Nat.mod_eq_of_lt (by omega)]
    have hne : s.count + 1 ≠ 0 := fun h0 => by
      rw [h0, UInt32.toNat_zero] at hcount
      omega
    obtain ⟨c, hc, -, hc32, -, -⟩ := @climb_spec _ _ Hash fBranch true _ s.matchlevel _ hinner hne _ leaf
      (s.count == branchpos) s.mutated s.branch (by rw [Nat.pow_zero, Nat.mod_one])
    obtain ⟨s', hs', hcount', hinner'⟩ := ih
      ⟨s.count + 1, s.inner.set c.level c.h, if c.matchh then c.level else s.matchlevel,
        c.mutated, c.branch⟩ (by simp [hinner]) (by simp only [hcount]; omega)
    refine ⟨s', ?_, by dsimp only at hcount'; rw [hcount', hcount, List.length_cons]; omega, hinner'⟩
    simp only [leafLoop, hc, ExceptLogic.ok_bind, innerSet_of_lt (show c.level < s.inner.length by omega)]
    exact hs'

/-- Adding the twin `1 << level` either wraps the count to `0` or adds `2^level` exactly. -/
theorem add_shiftOne_cases {count : UInt32} {level : Nat} (hl : level < 32)
    (hlow : count.toNat % 2 ^ level = 0) :
    count + (1 : UInt32) <<< level.toUInt32 = 0 ∨
      (count + (1 : UInt32) <<< level.toUInt32).toNat = count.toNat + 2 ^ level := by
  have hval : (count + (1 : UInt32) <<< level.toUInt32).toNat =
      (count.toNat + 2 ^ level) % 2 ^ 32 := by
    rw [UInt32.toNat_add, shiftOne_toNat hl]
  rcases Nat.lt_or_eq_of_le (add_two_pow_le (Nat.le_of_lt hl) hlow count.toNat_lt) with hlt | heq
  · exact .inr (by rw [hval, Nat.mod_eq_of_lt hlt])
  · exact .inl (UInt32.toNat_inj.mp (by rw [hval, heq, Nat.mod_self, UInt32.toNat_zero]))

/-- The lowest set bit of a number in `(2^31, 2^32)` is below bit 31. -/
theorem lowest_bit_le_30 {x k : Nat} (hk : k < 32) (hx : x < 2 ^ 32) (hgt : 2 ^ 31 < x)
    (hlow : x % 2 ^ k = 0) (hbit : x / 2 ^ k % 2 = 1) : k ≤ 30 := by
  rcases Nat.lt_or_ge k 31 with h | h
  · omega
  · obtain rfl : k = 31 := by omega
    simp only [Nat.reducePow] at *
    omega

section Sweep

variable {Hash : α → α → α} {fBranch : Bool} {inner : List α}
  {matchlevel : Int}

/-- From a count of at least `2^31` whose lowest set bit is at most `30`, the sweep carries
into bit `32`: `count` wraps to `0` and the next climb shifts by `32`. -/
theorem sweep_faults (hinner : inner.length = 32) {count : UInt32} {level : Nat} (h : α)
    (matchh : Bool) (branch : List α) (hlevel : level ≤ 30) (hhigh : 2 ^ 31 ≤ count.toNat)
    (hlow : count.toNat % 2 ^ level = 0) (hbit : count.toNat / 2 ^ level % 2 = 1) :
    sweep Hash fBranch inner matchlevel count level h matchh branch =
      .error .shift_out_of_range := by
  fun_induction sweep with
  | case1 count level h matchh branch hl hne branch' count' c hc ih =>
    have hcases := add_shiftOne_cases hl hlow
    have hdef : count + (1 : UInt32) <<< level.toUInt32 = count' := rfl
    clear_value count'
    rw [hdef] at hcases
    rcases hcases with h0 | hval
    · rw [h0, climb_zero hinner] at hc
      cases hc
    · have hne' : count' ≠ 0 := fun h0 => by
        have := congrArg UInt32.toNat h0
        rw [hval, UInt32.toNat_zero] at this
        omega
      have hlow' : count'.toNat % 2 ^ (level + 1) = 0 := by
        rw [hval]
        exact mod_two_pow_succ_of_add hlow hbit
      obtain ⟨c', hc', -, hc32, hset, hclow⟩ := @climb_spec _ _ Hash fBranch false _ matchlevel _ hinner hne' _ (Hash h h) matchh false
        branch' hlow'
      obtain rfl : c' = c := Except.ok.inj (hc'.symm.trans hc)
      have hhigh' : 2 ^ 31 < count'.toNat := by
        have := Nat.two_pow_pos level
        omega
      exact ih (lowest_bit_le_30 hc32 count'.toNat_lt hhigh' hclow hset) (by omega) hclow hset
  | case2 count level h matchh branch hl hne branch' count' e hc =>
    have hcases := add_shiftOne_cases hl hlow
    have hdef : count + (1 : UInt32) <<< level.toUInt32 = count' := rfl
    clear_value count'
    rw [hdef] at hcases
    rcases hcases with h0 | hval
    · rw [h0, climb_zero hinner] at hc
      rw [Except.error.inj hc]
    · have hne' : count' ≠ 0 := fun h0 => by
        have := congrArg UInt32.toNat h0
        rw [hval, UInt32.toNat_zero] at this
        have := Nat.two_pow_pos level
        omega
      obtain ⟨c', hc', -⟩ := @climb_spec _ _ Hash fBranch false _ matchlevel _ hinner hne' _ (Hash h h) matchh false
        branch' (by rw [hval]; exact mod_two_pow_succ_of_add hlow hbit)
      cases hc'.symm.trans hc
  | case3 count level h matchh branch hl heq =>
    have hpow : count.toNat = 2 ^ level := by
      rw [show count = (1 : UInt32) <<< level.toUInt32 from not_not.mp heq, shiftOne_toNat hl]
    have := Nat.pow_le_pow_right (show 0 < 2 by decide) hlevel
    simp only [Nat.reducePow] at this hhigh
    omega
  | case4 count level h matchh branch hl => omega

end Sweep

/-- Between `2^31` and `2^32` leaves, `MerkleComputation` reads every leaf, then its sweep
wraps the count and evaluates `1 << 32`, whatever the hash, branch position or branch
pointer. -/
theorem MerkleComputation_faults (null : α) (Hash : α → α → α) (leaves : List α)
    (branchpos : UInt32) (fBranch : Bool) (hgt : 2 ^ 31 < leaves.length)
    (hlt : leaves.length < 2 ^ 32) :
    MerkleComputation null Hash leaves branchpos fBranch = .error .shift_out_of_range := by
  obtain ⟨s, hs, hcount, hinner⟩ := leafLoop_count Hash fBranch branchpos leaves
    ⟨0, List.replicate 32 null, -1, false, []⟩ List.length_replicate
    (by simpa using hlt)
  simp only [UInt32.toNat_zero, Nat.zero_add] at hcount
  have hne : s.count ≠ 0 := fun h0 => by
    rw [h0, UInt32.toNat_zero] at hcount
    omega
  obtain ⟨k, hk, -, hk32, hset, hklow⟩ := skipZeroBits_spec hne (by rw [Nat.pow_zero, Nat.mod_one])
  rw [hcount] at hset hklow
  have hk30 := lowest_bit_le_30 hk32 hlt hgt hklow hset
  unfold MerkleComputation
  rw [if_neg (by omega), hs, ExceptLogic.ok_bind, hk, ExceptLogic.ok_bind,
    innerGet_of_lt (by omega), ExceptLogic.ok_bind,
    sweep_faults hinner _ _ _ hk30 (by omega) (by rw [hcount]; exact hklow)
      (by rw [hcount]; exact hset), ExceptLogic.error_bind]

end Merkle

end SalemCash
