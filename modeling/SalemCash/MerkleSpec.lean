import SalemCash.Merkle
import SalemCash.MerkleTree

/-!
# What `MerkleComputation` computes

For at most `2^31` leaves, `MerkleComputation` returns the root of the tree that pairs an
odd node with itself (`MerkleTree.root`), and `mutated` says whether two full sibling
subtrees had the same hash (`MerkleTree.EqualSiblings`).

The leaf phase keeps, after `c` leaves, the full subtree ending at each set bit of `c` in
`inner` (`LeafInv`); the leaf climb completes the subtrees that the next leaf closes and
compares each pair it combines. The sweep then walks up the right edge with `count`
rounded up to the level it has reached: `h` is the last node of that level, a tree over the
leaves that remain past the last full block, and `inner` holds the full block before it.
-/
namespace SalemCash.Merkle

open MerkleTree

variable {α : Type} [DecidableEq α] {Hash : α → α → α}

omit [DecidableEq α] in
theorem innerGet_of_getElem? {inner : List α} {level : Nat} {x : α} (h : inner[level]? = some x) :
    innerGet inner level = .ok x := by
  obtain ⟨hlt, rfl⟩ := List.getElem?_eq_some_iff.mp h
  exact innerGet_of_lt hlt

/-- The leaf phase after the first `c` leaves of `g`: `inner` holds, at each set bit `l` of
`c`, the full subtree of `2^l` leaves that ends where the higher bits of `c` say. -/
structure LeafInv (Hash : α → α → α) (g : Nat → α) (c : Nat) (s : LeafState α) : Prop where
  count_eq : s.count.toNat = c
  length_inner : s.inner.length = 32
  inner_eq : ∀ l < 32, c / 2 ^ l % 2 = 1 →
    s.inner[l]? = some (perfect Hash l (shift g (c / 2 ^ l * 2 ^ l - 2 ^ l)))
  mutated_iff : s.mutated = true ↔ EqualSiblings Hash c g

omit [DecidableEq α] in
/-- Two full subtrees of `2^l` leaves that end at `e`, the second after the first, make the
full subtree of `2^(l+1)` leaves. -/
theorem perfect_pair_end {g : Nat → α} {e l : Nat} (he : 2 ^ (l + 1) ≤ e) :
    Hash (perfect Hash l (shift g (e - 2 ^ (l + 1)))) (perfect Hash l (shift g (e - 2 ^ l))) =
      perfect Hash (l + 1) (shift g (e - 2 ^ (l + 1))) := by
  have hpow : 2 ^ (l + 1) = 2 * 2 ^ l := by rw [Nat.pow_succ, Nat.mul_comm]
  rw [perfect_succ, shift_shift, show 2 ^ l + (e - 2 ^ (l + 1)) = e - 2 ^ l by omega]

/-- A multiple of `2^l` below `2^32` that a count reaches is not zero, so `l < 32`. -/
theorem lt_32_of_mod {count : UInt32} {l : Nat} (hpos : 0 < count.toNat)
    (hlow : count.toNat % 2 ^ l = 0) : l < 32 := by
  by_contra hge
  have := eq_zero_of_mod_two_pow (by omega) hlow
  rw [this, UInt32.toNat_zero] at hpos
  omega

/-- The climb of the leaf phase after leaf `c`: at each level where `c + 1` has a clear bit,
`inner` holds the full subtree just before the one in `h`, and the two are compared and
combined. -/
theorem climb_leaf {g : Nat → α} {c : Nat} {s : LeafState α} (hinv : LeafInv Hash g c s)
    {count : UInt32} (hcount : count.toNat = c + 1) (fBranch : Bool) (level : Nat) (h : α)
    (matchh mutated : Bool) (branch : List α) (hlow : (c + 1) % 2 ^ level = 0)
    (hh : h = perfect Hash level (shift g (c + 1 - 2 ^ level))) :
    ∃ r, climb Hash fBranch true s.inner s.matchlevel count level h matchh mutated branch =
      .ok r ∧ r.level < 32 ∧ (c + 1) / 2 ^ r.level % 2 = 1 ∧ (c + 1) % 2 ^ r.level = 0 ∧
      r.h = perfect Hash r.level (shift g (c + 1 - 2 ^ r.level)) ∧
      (r.mutated = true ↔ mutated = true ∨ ∃ k, level ≤ k ∧ k < r.level ∧
        perfect Hash k (shift g (c + 1 - 2 ^ (k + 1))) =
          perfect Hash k (shift g (c + 1 - 2 ^ k))) := by
  fun_induction climb with
  | case1 level h matchh mutated branch hl hbit ih =>
    have hclear : (c + 1) / 2 ^ level % 2 = 0 := by
      have := (and_shiftOne_eq_zero hl).mp hbit
      rwa [hcount] at this
    have hlow' := mod_two_pow_succ_eq_zero hlow hclear
    have hpos := Nat.two_pow_pos level
    obtain ⟨hcbit, hcblock⟩ := Bits.div_two_pow_of_last_block hlow' (by omega) (Nat.lt_succ_self c)
    have hge : 2 ^ (level + 1) ≤ c + 1 :=
      Nat.le_of_dvd (Nat.succ_pos c) (Nat.dvd_of_mod_eq_zero hlow')
    have hpow : 2 ^ (level + 1) = 2 * 2 ^ level := by rw [Nat.pow_succ, Nat.mul_comm]
    have hinner := hinv.inner_eq level hl hcbit
    rw [hcblock, show c + 1 - 2 ^ level - 2 ^ level = c + 1 - 2 ^ (level + 1) by omega] at hinner
    rw [innerGet_of_getElem? hinner, ExceptLogic.ok_bind]
    obtain ⟨r, hr, hr32, hrbit, hrlow, hrh, hrmut⟩ := ih _ hlow'
      (by rw [hh]; exact perfect_pair_end hge)
    refine ⟨r, hr, hr32, hrbit, hrlow, hrh, ?_⟩
    rw [hrmut]
    simp only [↓reduceDIte, Bool.or_eq_true, beq_iff_eq, hh]
    constructor
    · rintro ((hm | hp) | ⟨k, hk, hkr, hpk⟩)
      · exact .inl hm
      · exact .inr ⟨level, Nat.le_refl _, Nat.lt_of_lt_of_le (Nat.lt_succ_self _)
          (climb_level_ge hr), hp⟩
      · exact .inr ⟨k, by omega, hkr, hpk⟩
    · rintro (hm | ⟨k, hk, hkr, hpk⟩)
      · exact .inl (.inl hm)
      · rcases Nat.eq_or_lt_of_le hk with rfl | hlt
        · exact .inl (.inr hpk)
        · exact .inr ⟨k, hlt, hkr, hpk⟩
  | case2 level h matchh mutated branch hl hbit =>
    have hset : (c + 1) / 2 ^ level % 2 ≠ 0 := fun h0 =>
      hbit ((and_shiftOne_eq_zero hl).mpr (by rw [hcount]; exact h0))
    refine ⟨_, rfl, hl, Nat.mod_two_ne_zero.mp hset, hlow, hh, ?_⟩
    constructor
    · exact .inl
    · rintro (hm | ⟨k, hk, hkr, -⟩)
      · exact hm
      · dsimp only at hkr
        omega
  | case3 level h matchh mutated branch hl =>
    exact absurd (lt_32_of_mod (show 0 < count.toNat by omega)
      (show count.toNat % 2 ^ level = 0 by rw [hcount]; exact hlow)) hl

/-- A multiple of `2^t` has every bit below `t` clear. -/
theorem bit_eq_zero_of_lt {x t l : Nat} (hlow : x % 2 ^ t = 0) (hlt : l < t) :
    x / 2 ^ l % 2 = 0 := by
  have hdvd : 2 ^ (l + 1) ∣ x := Nat.dvd_trans (Nat.pow_dvd_pow 2 hlt) (Nat.dvd_of_mod_eq_zero hlow)
  have hmod : x % 2 ^ (l + 1) = x % 2 ^ l + 2 ^ l * (x / 2 ^ l % 2) := Nat.mod_pow_succ
  rw [Nat.mod_eq_zero_of_dvd hdvd] at hmod
  have := Nat.two_pow_pos l
  have : x / 2 ^ l % 2 < 2 := Nat.mod_lt _ (by decide)
  rcases Nat.lt_or_ge (x / 2 ^ l % 2) 1 with h | h
  · omega
  · have : 2 ^ l ≤ 2 ^ l * (x / 2 ^ l % 2) := Nat.le_mul_of_pos_right _ h
    omega

/-- One leaf of the leaf phase keeps `LeafInv`: the climb stops at the lowest set bit `t`
of the new count, `inner[t]` takes the subtree just completed and the higher entries stay. -/
theorem leafLoop_step {g : Nat → α} {c : Nat} {s : LeafState α} (hinv : LeafInv Hash g c s)
    (hc : c + 1 < 2 ^ 32) (fBranch : Bool) (branchpos : UInt32) :
    ∃ c', climb Hash fBranch true s.inner s.matchlevel (s.count + 1) 0 (g c) (s.count == branchpos)
        s.mutated s.branch = .ok c' ∧ c'.level < s.inner.length ∧
      LeafInv Hash g (c + 1) ⟨s.count + 1, s.inner.set c'.level c'.h,
        if c'.matchh then c'.level else s.matchlevel, c'.mutated, c'.branch⟩ := by
  have hcount : (s.count + 1).toNat = c + 1 := by
    rw [UInt32.toNat_add, UInt32.toNat_one, hinv.count_eq, Nat.mod_eq_of_lt hc]
  obtain ⟨r, hr, hr32, hrbit, hrlow, hrh, hrmut⟩ := climb_leaf hinv hcount fBranch 0 (g c)
    (s.count == branchpos) s.mutated s.branch (by rw [Nat.pow_zero, Nat.mod_one])
    (by simp)
  have hlen := hinv.length_inner
  refine ⟨r, hr, by omega, ⟨hcount, by simp [hlen], ?_, ?_⟩⟩
  · intro l hl hbit
    simp only
    rcases Nat.lt_trichotomy l r.level with hlt | rfl | hgt
    · exact absurd (bit_eq_zero_of_lt hrlow hlt) (by omega)
    · rw [List.getElem?_set_self (by omega), hrh,
        Nat.div_mul_cancel (Nat.dvd_of_mod_eq_zero hrlow)]
    · have hsame := Bits.pred_div_two_pow_eq hrlow hrbit hgt
      rw [Nat.add_sub_cancel] at hsame
      rw [List.getElem?_set_ne (by omega), hinv.inner_eq l hl (by rw [hsame]; exact hbit), hsame]
  · simp only
    rw [hrmut, hinv.mutated_iff, equalSiblings_succ_iff]
    constructor
    · rintro (h | ⟨k, -, hk, hpk⟩)
      · exact .inl h
      · exact .inr ⟨k, (Bits.mod_two_pow_succ_eq_zero_iff hrlow hrbit).mpr hk, hpk⟩
    · rintro (h | ⟨k, hk, hpk⟩)
      · exact .inl h
      · exact .inr ⟨k, Nat.zero_le _, (Bits.mod_two_pow_succ_eq_zero_iff hrlow hrbit).mp hk, hpk⟩

/-- The leaf phase over the leaves `c, c + 1, ...` of `g` keeps `LeafInv` to the end. -/
theorem leafLoop_inv (fBranch : Bool) (branchpos : UInt32) (g : Nat → α) :
    ∀ (rest : List α) (c : Nat) (s : LeafState α), LeafInv Hash g c s →
      c + rest.length < 2 ^ 32 → (∀ i < rest.length, rest[i]? = some (g (c + i))) →
      ∃ s', leafLoop Hash fBranch branchpos rest s = .ok s' ∧
        LeafInv Hash g (c + rest.length) s' := by
  intro rest
  induction rest with
  | nil => exact fun c s hinv _ _ => ⟨s, rfl, hinv⟩
  | cons leaf rest ih =>
    intro c s hinv hlen hleaves
    simp only [List.length_cons] at hlen
    have hleaf : leaf = g c := by simpa using hleaves 0 (by simp)
    obtain ⟨r, hr, hrlen, hinv'⟩ := leafLoop_step hinv (by omega) fBranch branchpos
    obtain ⟨s', hs', hinv''⟩ := ih (c + 1) _ hinv' (by omega) fun i hi => by
      simpa [Nat.add_assoc, Nat.add_comm 1 i] using hleaves (i + 1) (by simp; omega)
    refine ⟨s', ?_, by simpa [Nat.add_assoc, Nat.add_comm 1] using hinv''⟩
    simp only [leafLoop, hleaf, hr, ExceptLogic.ok_bind, innerSet_of_lt hrlen]
    exact hs'

/-- The climb of the sweep, with `count` at `d`, rounded up past the `n` leaves: at each
level where `d` has a clear bit, `h` is the last node of the level, over the leaves from
`d - 2^level` on, and `inner` holds the full block before it, which the leaf phase left. -/
theorem climb_sweep {g : Nat → α} {n : Nat} {s : LeafState α} (hinv : LeafInv Hash g n s)
    {count : UInt32} {d : Nat} (hd : count.toNat = d) (fBranch : Bool) (mutated : Bool)
    (level : Nat) (h : α) (matchh : Bool) (branch : List α) (hlow : d % 2 ^ level = 0)
    (hlo : d - 2 ^ level < n) (hhi : n < d) (hdepth : 2 ^ level < 2 * n)
    (hh : h = sub Hash level (n - (d - 2 ^ level)) (shift g (d - 2 ^ level))) :
    ∃ r, climb Hash fBranch false s.inner s.matchlevel count level h matchh mutated branch =
      .ok r ∧ r.level < 32 ∧ d / 2 ^ r.level % 2 = 1 ∧ d % 2 ^ r.level = 0 ∧
      d - 2 ^ r.level < n ∧ 2 ^ r.level < 2 * n ∧
      r.h = sub Hash r.level (n - (d - 2 ^ r.level)) (shift g (d - 2 ^ r.level)) := by
  fun_induction climb with
  | case1 level h matchh mutated branch hl hbit ih =>
    have hclear : d / 2 ^ level % 2 = 0 := by
      have := (and_shiftOne_eq_zero hl).mp hbit
      rwa [hd] at this
    have hlow' := mod_two_pow_succ_eq_zero hlow hclear
    have hpos := Nat.two_pow_pos level
    have hpow : 2 ^ (level + 1) = 2 * 2 ^ level := by rw [Nat.pow_succ, Nat.mul_comm]
    have hge : 2 ^ (level + 1) ≤ d := Nat.le_of_dvd (by omega) (Nat.dvd_of_mod_eq_zero hlow')
    obtain ⟨hnbit, hnblock⟩ := Bits.div_two_pow_of_last_block hlow' (by omega) hhi
    have hinner := hinv.inner_eq level hl hnbit
    rw [hnblock, show d - 2 ^ level - 2 ^ level = d - 2 ^ (level + 1) by omega] at hinner
    rw [innerGet_of_getElem? hinner, ExceptLogic.ok_bind]
    refine ih _ hlow' (by omega) (by omega) ?_
    rw [hh, sub_succ_of_lt Hash (by omega), shift_shift,
      show n - (d - 2 ^ (level + 1)) - 2 ^ level = n - (d - 2 ^ level) by omega,
      show 2 ^ level + (d - 2 ^ (level + 1)) = d - 2 ^ level by omega]
  | case2 level h matchh mutated branch hl hbit =>
    have hset : d / 2 ^ level % 2 ≠ 0 := fun h0 =>
      hbit ((and_shiftOne_eq_zero hl).mpr (by rw [hd]; exact h0))
    exact ⟨_, rfl, hl, Nat.mod_two_ne_zero.mp hset, hlow, hlo, hdepth, hh⟩
  | case3 level h matchh mutated branch hl =>
    exact absurd (lt_32_of_mod (show 0 < count.toNat by omega)
      (show count.toNat % 2 ^ level = 0 by rw [hd]; exact hlow)) hl

/-- The depth the sweep ends at is the least `k` with `n ≤ 2^k`. -/
theorem clog_eq_of_two_pow {n k : Nat} (hle : n ≤ 2 ^ k) (hlt : 2 ^ k < 2 * n) :
    Nat.clog 2 n = k := by
  apply Nat.le_antisymm ((Nat.clog_le_iff_le_pow (by decide)).mpr hle)
  rcases k with _ | k
  · exact Nat.zero_le _
  · apply Nat.succ_le_of_lt
    rw [Nat.lt_clog_iff_pow_lt (show 1 < 2 by decide)]
    rw [Nat.pow_succ] at hlt
    omega

/-- A count that is an odd number of blocks of `2^level` other than one holds at least
three of them. -/
theorem three_blocks_le {x level : Nat} (hlow : x % 2 ^ level = 0) (hbit : x / 2 ^ level % 2 = 1)
    (hne : x ≠ 2 ^ level) : 3 * 2 ^ level ≤ x := by
  have hsplit := Nat.div_mul_cancel (Nat.dvd_of_mod_eq_zero hlow)
  have hne1 : x / 2 ^ level ≠ 1 := fun h1 => hne (by rw [← hsplit, h1, Nat.one_mul])
  have hdiv := Nat.mod_add_div (x / 2 ^ level) 2
  have : 3 ≤ x / 2 ^ level := by omega
  calc 3 * 2 ^ level ≤ x / 2 ^ level * 2 ^ level := Nat.mul_le_mul_right _ this
    _ = x := hsplit

/-- One round of the sweep from a count `x ≠ 2^level`: the last node is paired with itself,
the count grows by `2^level` without wrapping, and the climb reaches the next set bit. -/
theorem climb_after_pair {g : Nat → α} {n : Nat} {s : LeafState α} (hinv : LeafInv Hash g n s)
    (hn : n ≤ 2 ^ 31) (fBranch : Bool) {count : UInt32} {level : Nat} {h : α} (matchh : Bool)
    (branch : List α) (hl : level < 32) (hne : count ≠ (1 : UInt32) <<< level.toUInt32)
    (hlow : count.toNat % 2 ^ level = 0) (hbit : count.toNat / 2 ^ level % 2 = 1)
    (hlo : count.toNat - 2 ^ level < n) (hhi : n ≤ count.toNat)
    (hh : h = sub Hash level (n - (count.toNat - 2 ^ level)) (shift g (count.toNat - 2 ^ level))) :
    (count + (1 : UInt32) <<< level.toUInt32).toNat = count.toNat + 2 ^ level ∧
    ∃ r, climb Hash fBranch false s.inner s.matchlevel (count + (1 : UInt32) <<< level.toUInt32)
        (level + 1) (Hash h h) matchh false branch = .ok r ∧
      r.level < 32 ∧ (count.toNat + 2 ^ level) / 2 ^ r.level % 2 = 1 ∧
      (count.toNat + 2 ^ level) % 2 ^ r.level = 0 ∧
      count.toNat + 2 ^ level - 2 ^ r.level < n ∧ n ≤ count.toNat + 2 ^ level ∧
      2 ^ r.level < 2 * n ∧
      r.h = sub Hash r.level (n - (count.toNat + 2 ^ level - 2 ^ r.level))
        (shift g (count.toNat + 2 ^ level - 2 ^ r.level)) := by
  have hpos := Nat.two_pow_pos level
  have hpow : 2 ^ (level + 1) = 2 * 2 ^ level := by rw [Nat.pow_succ, Nat.mul_comm]
  have hthree := three_blocks_le hlow hbit fun heq =>
    hne (UInt32.toNat_inj.mp (by rw [shiftOne_toNat hl, heq]))
  have h31 : (2 : Nat) ^ 31 = 2147483648 := by norm_num
  have hcount' : (count + (1 : UInt32) <<< level.toUInt32).toNat = count.toNat + 2 ^ level := by
    rw [UInt32.toNat_add, shiftOne_toNat hl, Nat.mod_eq_of_lt (by omega)]
  obtain ⟨r, hr, hr32, hrbit, hrlow, hrlo, hrdepth, hrh⟩ := climb_sweep hinv hcount' fBranch
    false (level + 1) (Hash h h) matchh branch (mod_two_pow_succ_of_add hlow hbit)
    (by omega) (by omega) (by omega) (by
      rw [show count.toNat + 2 ^ level - 2 ^ (level + 1) = count.toNat - 2 ^ level by omega,
        sub_succ_of_le Hash (by omega), hh])
  exact ⟨hcount', r, hr, hr32, hrbit, hrlow, hrlo, by omega, hrdepth, hrh⟩

/-- The sweep from a level where `count`, rounded up past the `n` leaves, has its lowest
set bit: it returns the root of the tree over the `n` leaves. Each round pairs the last node
with itself and climbs to the next set bit of the count. -/
theorem sweep_root {g : Nat → α} {n : Nat} {s : LeafState α} (hinv : LeafInv Hash g n s)
    (hn : n ≤ 2 ^ 31) (fBranch : Bool) (count : UInt32) (level : Nat) (h : α) (matchh : Bool)
    (branch : List α) (hlow : count.toNat % 2 ^ level = 0)
    (hbit : count.toNat / 2 ^ level % 2 = 1) (hlo : count.toNat - 2 ^ level < n)
    (hhi : n ≤ count.toNat) (hdepth : 2 ^ level < 2 * n)
    (hh : h = sub Hash level (n - (count.toNat - 2 ^ level)) (shift g (count.toNat - 2 ^ level))) :
    ∃ br, sweep Hash fBranch s.inner s.matchlevel count level h matchh branch =
      .ok (sub Hash (Nat.clog 2 n) n g, br) := by
  fun_induction sweep with
  | case1 count level h matchh branch hl hne branch' count' c hc ih =>
    obtain ⟨hcount', r, hr, hr32, hrbit, hrlow, hrlo, hrhi, hrdepth, hrh⟩ :=
      climb_after_pair hinv hn fBranch matchh branch' hl hne hlow hbit hlo hhi hh
    obtain rfl : r = c := Except.ok.inj (hr.symm.trans hc)
    have hc' : count'.toNat = count.toNat + 2 ^ level := hcount'
    rw [hc'] at ih
    exact ih hrlow hrbit hrlo hrhi hrdepth hrh
  | case2 count level h matchh branch hl hne branch' count' e hc =>
    obtain ⟨-, r, hr, -⟩ := climb_after_pair hinv hn fBranch matchh branch' hl hne hlow hbit hlo hhi hh
    cases hr.symm.trans hc
  | case3 count level h matchh branch hl heq =>
    have hone : count.toNat = 2 ^ level := by
      rw [show count = (1 : UInt32) <<< level.toUInt32 from not_not.mp heq, shiftOne_toNat hl]
    refine ⟨branch, ?_⟩
    rw [clog_eq_of_two_pow (hone ▸ hhi) hdepth, hh, hone, Nat.sub_self, Nat.sub_zero, shift_zero]
    rfl
  | case4 count level h matchh branch hl =>
    exact absurd (lt_32_of_mod (by omega) hlow) hl

omit [DecidableEq α] in
/-- No leaves have no siblings. -/
theorem not_equalSiblings_zero (g : Nat → α) : ¬EqualSiblings Hash 0 g :=
  fun ⟨_, hk, _⟩ => absurd hk (Nat.not_lt_zero _)

omit [DecidableEq α] in
/-- Before the first leaf: no subtree is pending and nothing was compared. -/
theorem leafInv_init (g : Nat → α) (null : α) :
    LeafInv Hash g 0 ⟨0, List.replicate 32 null, -1, false, []⟩ where
  count_eq := rfl
  length_inner := List.length_replicate
  inner_eq l _ hbit := by simp at hbit
  mutated_iff := by simpa using not_equalSiblings_zero g

/-- For at most `2^31` leaves, `MerkleComputation` returns the root of the tree over the
leaves that pairs an odd node with itself and, as `mutated`, whether two full sibling
subtrees have the same hash. -/
theorem MerkleComputation_spec (null : α) (Hash : α → α → α) (leaves : List α)
    (branchpos : UInt32) (fBranch : Bool) (hlen : leaves.length ≤ 2 ^ 31) :
    ∃ branch, MerkleComputation null Hash leaves branchpos fBranch =
      .ok (root Hash null leaves,
        decide (EqualSiblings Hash leaves.length (fun i => leaves.getD i null)), branch) := by
  by_cases hnil : leaves = []
  · subst hnil
    refine ⟨[], ?_⟩
    simp only [MerkleComputation, root, List.length_nil, if_true, decide_eq_false
      (not_equalSiblings_zero _)]
    rfl
  · have hn : 0 < leaves.length := List.length_pos_of_ne_nil hnil
    obtain ⟨s, hs, hinv⟩ := leafLoop_inv fBranch branchpos (fun i => leaves.getD i null) leaves 0
      _ (leafInv_init _ null : LeafInv Hash _ 0 _) (by omega)
      fun i hi => by simp [List.getElem?_eq_getElem hi]
    rw [Nat.zero_add] at hinv
    have hcount := hinv.count_eq
    have hne : s.count ≠ 0 := fun h0 => by
      rw [h0, UInt32.toNat_zero] at hcount
      omega
    obtain ⟨k, hk, -, hk32, hset, hklow⟩ := skipZeroBits_spec hne (by rw [Nat.pow_zero, Nat.mod_one])
    rw [hcount] at hset hklow
    have hinner := hinv.inner_eq k hk32 hset
    rw [Nat.div_mul_cancel (Nat.dvd_of_mod_eq_zero hklow)] at hinner
    have hkn : 2 ^ k ≤ leaves.length := Nat.le_of_dvd hn (Nat.dvd_of_mod_eq_zero hklow)
    obtain ⟨br, hbr⟩ := sweep_root hinv hlen fBranch s.count k _ (s.matchlevel == k) s.branch
      (by rw [hcount]; exact hklow) (by rw [hcount]; exact hset)
      (by rw [hcount]; have := Nat.two_pow_pos k; omega) (by rw [hcount]) (by omega)
      (by rw [hcount, show leaves.length - (leaves.length - 2 ^ k) = 2 ^ k by omega, sub_two_pow])
    have hmut : s.mutated =
        decide (EqualSiblings Hash leaves.length (fun i => leaves.getD i null)) :=
      Bool.eq_iff_iff.mpr (by rw [decide_eq_true_iff]; exact hinv.mutated_iff)
    refine ⟨br, ?_⟩
    unfold MerkleComputation
    rw [if_neg (by omega), hs, ExceptLogic.ok_bind, hk, ExceptLogic.ok_bind,
      innerGet_of_getElem? hinner, ExceptLogic.ok_bind, hbr, ExceptLogic.ok_bind, hmut, root,
      if_neg hnil]
    rfl

/-- A computation that returns has at most `2^31` leaves, given fewer than `2^32`. -/
theorem length_le_of_ok {null : α} {leaves : List α} {branchpos : UInt32} {fBranch : Bool}
    {r : α × Bool × List α} (hlt : leaves.length < 2 ^ 32)
    (h : MerkleComputation null Hash leaves branchpos fBranch = .ok r) : leaves.length ≤ 2 ^ 31 := by
  by_contra hgt
  rw [MerkleComputation_faults null Hash leaves branchpos fBranch (by omega) hlt] at h
  cases h

/-- What a computation that returns gives back: the root of the tree over the leaves, and
as `mutated` whether two full siblings have the same hash. -/
theorem root_mutated_of_ok {null : α} {leaves : List α} {branchpos : UInt32} {fBranch : Bool}
    {root' : α} {m : Bool} {br : List α} (hlt : leaves.length < 2 ^ 32)
    (h : MerkleComputation null Hash leaves branchpos fBranch = .ok (root', m, br)) :
    root' = root Hash null leaves ∧
      (m = true ↔ EqualSiblings Hash leaves.length (fun i => leaves.getD i null)) := by
  obtain ⟨br', hspec⟩ := MerkleComputation_spec null Hash leaves branchpos fBranch
    (length_le_of_ok hlt h)
  rw [h] at hspec
  have hres := Except.ok.inj hspec
  simp only [Prod.mk.injEq] at hres
  obtain ⟨rfl, rfl, -⟩ := hres
  exact ⟨rfl, decide_eq_true_iff⟩

theorem MerkleComputation_mutation_detected (null : α) (Hash : α → α → α)
    (hinj : ∀ a b c d, Hash a b = Hash c d → a = c ∧ b = d) (leaves leaves' : List α)
    (hleaf : ∀ a b, Hash a b ∉ leaves ∧ Hash a b ∉ leaves') (hne : leaves ≠ [])
    (hne' : leaves' ≠ []) (hdiff : leaves ≠ leaves') (hlen : leaves.length < 2 ^ 32)
    (hlen' : leaves'.length < 2 ^ 32) (branchpos branchpos' : UInt32) (fBranch fBranch' : Bool)
    (root' : α) (m m' : Bool) (br br' : List α)
    (h : MerkleComputation null Hash leaves branchpos fBranch = .ok (root', m, br))
    (h' : MerkleComputation null Hash leaves' branchpos' fBranch' = .ok (root', m', br')) :
    m = true ∨ m' = true := by
  obtain ⟨hroot, hm⟩ := root_mutated_of_ok hlen h
  obtain ⟨hroot', hm'⟩ := root_mutated_of_ok hlen' h'
  have hn := List.length_pos_of_ne_nil hne
  have hn' := List.length_pos_of_ne_nil hne'
  have heq : sub Hash (Nat.clog 2 leaves.length) leaves.length (fun i => leaves.getD i null) =
      sub Hash (Nat.clog 2 leaves'.length) leaves'.length (fun i => leaves'.getD i null) := by
    have := hroot.symm.trans hroot'
    rwa [root, root, if_neg hne, if_neg hne'] at this
  have hfirst : ∀ (l : List α), l ≠ [] → (∀ a b, Hash a b ∉ l) → ∀ y z, Hash y z ≠ l.getD 0 null :=
    fun l hl hnot y z hyz => by
      obtain ⟨x, t, rfl⟩ := List.exists_cons_of_ne_nil hl
      exact hnot y z (by simp [hyz])
  obtain ⟨-, hsame | hs | hs⟩ := eq_or_equalSiblings hinj hn
    (Nat.le_pow_clog (by decide) _) hn' (Nat.le_pow_clog (by decide) _)
    (hfirst leaves hne fun a b => (hleaf a b).1) (hfirst leaves' hne' fun a b => (hleaf a b).2) heq
  · obtain ⟨hlen_eq, hget⟩ := hsame
    refine absurd (List.ext_getElem hlen_eq fun i hi hi' => ?_) hdiff
    have := hget i hi
    simp only [List.getD_eq_getElem?_getD, List.getElem?_eq_getElem hi,
      List.getElem?_eq_getElem hi', Option.getD_some] at this
    exact this
  · exact .inl (hm.mpr hs)
  · exact .inr (hm'.mpr hs)

/-- Hashes as terms: the pair hash is the constructor `node`, which is injective and never
a leaf. -/
inductive HashTerm where
  | leaf (n : Nat)
  | node (a b : HashTerm)
  deriving DecidableEq

/-- Three leaves, and the same with the last one repeated: both trees pair leaf 3 with
itself, and only the second does so among full siblings. -/
theorem MerkleComputation_mutation_detected_dup_leaf :
    (∀ a b c d, HashTerm.node a b = HashTerm.node c d → a = c ∧ b = d) ∧
    (∀ a b, HashTerm.node a b ∉ [.leaf 1, .leaf 2, .leaf 3] ∧
      HashTerm.node a b ∉ [.leaf 1, .leaf 2, .leaf 3, .leaf 3]) ∧
    [HashTerm.leaf 1, .leaf 2, .leaf 3] ≠ [] ∧ [HashTerm.leaf 1, .leaf 2, .leaf 3, .leaf 3] ≠ [] ∧
    [HashTerm.leaf 1, .leaf 2, .leaf 3] ≠ [.leaf 1, .leaf 2, .leaf 3, .leaf 3] ∧
    [HashTerm.leaf 1, .leaf 2, .leaf 3].length < 2 ^ 32 ∧
    [HashTerm.leaf 1, .leaf 2, .leaf 3, .leaf 3].length < 2 ^ 32 ∧
    ∃ br br', MerkleComputation (.leaf 0) HashTerm.node [.leaf 1, .leaf 2, .leaf 3] 0xFFFFFFFF
        false = .ok (.node (.node (.leaf 1) (.leaf 2)) (.node (.leaf 3) (.leaf 3)), false, br) ∧
      MerkleComputation (.leaf 0) HashTerm.node [.leaf 1, .leaf 2, .leaf 3, .leaf 3] 0xFFFFFFFF
        false = .ok (.node (.node (.leaf 1) (.leaf 2)) (.node (.leaf 3) (.leaf 3)), true, br') ∧
      (false = true ∨ true = true) := by
  obtain ⟨br, hbr⟩ := MerkleComputation_spec (HashTerm.leaf 0) HashTerm.node
    [.leaf 1, .leaf 2, .leaf 3] 0xFFFFFFFF false (by decide)
  obtain ⟨br', hbr'⟩ := MerkleComputation_spec (HashTerm.leaf 0) HashTerm.node
    [.leaf 1, .leaf 2, .leaf 3, .leaf 3] 0xFFFFFFFF false (by decide)
  rw [root, if_neg (by decide), show Nat.clog 2 [HashTerm.leaf 1, .leaf 2, .leaf 3].length = 2
    from clog_eq_of_two_pow (by decide) (by decide)] at hbr
  rw [root, if_neg (by decide), show Nat.clog 2 [HashTerm.leaf 1, .leaf 2, .leaf 3, .leaf 3].length = 2
    from clog_eq_of_two_pow (by decide) (by decide)] at hbr'
  have hinj : ∀ a b c d, HashTerm.node a b = HashTerm.node c d → a = c ∧ b = d :=
    fun _ _ _ _ h => HashTerm.node.inj h
  have hleaf : ∀ a b, HashTerm.node a b ∉ [.leaf 1, .leaf 2, .leaf 3] ∧
      HashTerm.node a b ∉ [.leaf 1, .leaf 2, .leaf 3, .leaf 3] := fun a b => ⟨by simp, by simp⟩
  have h₁ : MerkleComputation (.leaf 0) HashTerm.node [.leaf 1, .leaf 2, .leaf 3] 0xFFFFFFFF
      false = .ok (.node (.node (.leaf 1) (.leaf 2)) (.node (.leaf 3) (.leaf 3)), false, br) := by
    rw [hbr]
    congr 3
  have h₂ : MerkleComputation (.leaf 0) HashTerm.node [.leaf 1, .leaf 2, .leaf 3, .leaf 3]
      0xFFFFFFFF false =
        .ok (.node (.node (.leaf 1) (.leaf 2)) (.node (.leaf 3) (.leaf 3)), true, br') := by
    rw [hbr']
    congr 3
  exact ⟨hinj, hleaf, by simp, by simp, by decide, by decide, by decide, br, br', h₁, h₂,
    MerkleComputation_mutation_detected (.leaf 0) HashTerm.node hinj _ _ hleaf (by simp)
      (by simp) (by decide) (by decide) (by decide) _ _ _ _ _ _ _ _ _ h₁ h₂⟩

omit [DecidableEq α] in
theorem not_equalSiblings_one (g : Nat → α) : ¬EqualSiblings Hash 1 g := by
  rintro ⟨k, hk, j, hj, hle, -⟩
  obtain rfl : k = 0 := by omega
  obtain rfl : j = 0 := by omega
  simp at hle

/-- No leaves and the single leaf `null` share the root `null`, and neither computation sees
two equal siblings, whatever the hash: over hash terms, where the hash is injective and no
leaf, and for `ComputeMerkleRoot` with any primitives. -/
theorem MerkleComputation_empty_collides :
    ((∀ a b c d, HashTerm.node a b = HashTerm.node c d → a = c ∧ b = d) ∧
      (∀ a b, HashTerm.node a b ∉ ([] : List HashTerm) ∧ HashTerm.node a b ∉ [.leaf 0]) ∧
      ([] : List HashTerm) ≠ [.leaf 0] ∧
      MerkleComputation (.leaf 0) HashTerm.node [] 0xFFFFFFFF false = .ok (.leaf 0, false, []) ∧
      ∃ br, MerkleComputation (.leaf 0) HashTerm.node [.leaf 0] 0xFFFFFFFF false =
        .ok (.leaf 0, false, br)) ∧
    ∀ P : Primitives, ComputeMerkleRoot P [] = .ok (uint256.zero, false) ∧
      ComputeMerkleRoot P [uint256.zero] = .ok (uint256.zero, false) := by
  have hone : ∀ {β : Type} [DecidableEq β] (null : β) (H : β → β → β),
      ∃ br, MerkleComputation null H [null] 0xFFFFFFFF false = .ok (null, false, br) := by
    intro β _ null H
    obtain ⟨br, hbr⟩ := MerkleComputation_spec null H [null] 0xFFFFFFFF false (by simp)
    refine ⟨br, ?_⟩
    rw [hbr, root, if_neg (by simp), List.length_singleton, Nat.clog_one_right,
      decide_eq_false (not_equalSiblings_one _)]
    rfl
  refine ⟨⟨fun _ _ _ _ h => HashTerm.node.inj h, fun a b => ⟨by simp, by simp⟩, by simp, rfl,
    hone _ _⟩, fun P => ⟨rfl, ?_⟩⟩
  obtain ⟨br, hbr⟩ := hone uint256.zero P.Hash
  rw [ComputeMerkleRoot, hbr, ExceptLogic.ok_bind]
  rfl

end SalemCash.Merkle
