import SalemCash.MerkleSpec

/-!
# The branch `ComputeMerkleBranch` computes

With `pbranch` set, both climbing loops of `MerkleComputation` follow the leaf at
`branchpos`: `matchh` says whether `h` depends on it, and `matchlevel` is the level of the
pending `inner` entry that does. The branch they build is `MerkleTree.branch`, the siblings
met on the way from that leaf up to the root of `MerkleTree.sub`, so that
`ComputeMerkleRootFromBranch` leads from the leaf back to the root that `ComputeMerkleRoot`
returns.

Throughout a climb the leaf lies in the node just built (`matchh`) or in the full pending
block at `matchlevel`, and the branch so far is its path inside that node
(`MerkleTree.OnPath`, `climb_branch`). The leaf phase keeps this for every prefix of the
leaves (`BranchInv`), and the sweep carries it up the right edge (`sweep_branch`).
-/
namespace SalemCash.Merkle

open MerkleTree

variable {α : Type} [DecidableEq α] {Hash : α → α → α}

/-- A number in the last block of `2^t` below a multiple `x` of `2^t` is in block
`x / 2^t - 1`. -/
theorem div_two_pow_of_prev_block {x n t : Nat} (hlow : x % 2 ^ t = 0) (hlo : x - 2 ^ t ≤ n)
    (hhi : n < x) : n / 2 ^ t = x / 2 ^ t - 1 := by
  obtain ⟨q, rfl⟩ : ∃ q, x = 2 ^ t * q :=
    ⟨x / 2 ^ t, (Nat.mul_div_cancel' (Nat.dvd_of_mod_eq_zero hlow)).symm⟩
  have hpos := Nat.two_pow_pos t
  have hq : 0 < q := Nat.pos_of_ne_zero fun h0 => by simp [h0] at hhi
  have hcomm := Nat.mul_comm q (2 ^ t)
  rw [Nat.mul_div_cancel_left q hpos]
  apply Nat.div_eq_of_lt_le
  · rw [Nat.sub_one_mul]
    omega
  · rw [Nat.sub_add_cancel hq]
    omega

omit [DecidableEq α] in
/-- The entries of `inner` the leaf phase left, read at a count `d` rounded up past `n`: at a
level where `d` has a clear bit the block before the last one is full. -/
theorem LeafInv.inner_of_last_block {g : Nat → α} {n : Nat} {s : LeafState α}
    (hinv : LeafInv Hash g n s) {d l : Nat} (hl : l < 32) (hd : d % 2 ^ (l + 1) = 0)
    (hlo : d - 2 ^ l ≤ n) (hhi : n < d) :
    s.inner[l]? = some (perfect Hash l (shift g (d - 2 ^ (l + 1)))) := by
  obtain ⟨hbit, hblock⟩ := Bits.div_two_pow_of_last_block hd hlo hhi
  have hpow : 2 ^ (l + 1) = 2 * 2 ^ l := by rw [Nat.pow_succ, Nat.mul_comm]
  have hge : 2 ^ (l + 1) ≤ d := Nat.le_of_dvd (by omega) (Nat.dvd_of_mod_eq_zero hd)
  rw [hinv.inner_eq l hl hbit, hblock, show d - 2 ^ l - 2 ^ l = d - 2 ^ (l + 1) by omega]

section Climb

omit [DecidableEq α] in
/-- One level of the `if (pbranch)` block, where the pending entry is the full node over
`[start, mid)` and `h` the node over `[mid, stop)`: when `h` depends on the leaf after it, the
leaf is in the node one level up, and the branch is its path there. -/
theorem trackBranch_onPath {g : Nat → α} {p start mid stop level : Nat} {matchlevel : Int} {h : α}
    {matchh : Bool} {branch : List α} (hmid : mid = start + 2 ^ level) (hstop : mid < stop)
    (hh : h = sub Hash level (stop - mid) (shift g mid))
    (track : matchh = true → OnPath Hash g p mid stop level branch)
    (pend : matchh = false → matchlevel = level → OnPath Hash g p start mid level branch)
    (tracked : (trackBranch true matchh matchlevel level (perfect Hash level (shift g start)) h branch).2) :
    OnPath Hash g p start stop (level + 1)
      (trackBranch true matchh matchlevel level (perfect Hash level (shift g start)) h branch).1 := by
  cases matchh with
  | true => exact (track rfl).right hmid
  | false =>
    by_cases hml : matchlevel = level
    · rw [show trackBranch true false matchlevel level _ h branch = (branch ++ [h], true) by
        simp [trackBranch, hml], hh]
      exact (pend rfl hml).left hmid hstop
    · simp [trackBranch, hml] at tracked

omit [DecidableEq α] in
/-- A level where `h` does not yet depend on the leaf leaves the branch alone. -/
theorem trackBranch_eq_false {matchlevel : Int} {level : Nat} {x h : α} {matchh : Bool}
    {branch : List α} (tracked : (trackBranch true matchh matchlevel level x h branch).2 = false) :
    matchh = false ∧ matchlevel ≠ level ∧ (trackBranch true matchh matchlevel level x h branch).1 = branch := by
  cases matchh with
  | true => simp [trackBranch] at tracked
  | false =>
    by_cases hml : matchlevel = level
    · simp [trackBranch, hml] at tracked
    · exact ⟨rfl, hml, by simp [trackBranch, hml]⟩

variable {g : Nat → α} {p E d : Nat} {checkMutated : Bool} {inner : List α} {matchlevel : Int}
  {count : UInt32}

/-- A climb with `pbranch` set, with `count` at `d` and the last node ending at `E ≤ d`. If the
leaf is in `h`, the branch so far is its path in `h`; if not, and the pending entry at
`matchlevel` depends on it, the branch is its path in that entry. At the end the leaf is in the
node the climb returns, or the climb stopped below `matchlevel` and left the branch as it
was. -/
theorem climb_branch (hd : count.toNat = d) (hE : E ≤ d)
    (hinner : ∀ l < 32, d % 2 ^ (l + 1) = 0 → d - 2 ^ l < E →
      inner[l]? = some (perfect Hash l (shift g (d - 2 ^ (l + 1)))))
    (level : Nat) (h : α) (matchh mutated : Bool) (branch : List α) (r : Climb α)
    (hr : climb Hash true checkMutated inner matchlevel count level h matchh mutated branch = .ok r)
    (hlow : d % 2 ^ level = 0) (hlo : d - 2 ^ level < E)
    (hh : h = sub Hash level (E - (d - 2 ^ level)) (shift g (d - 2 ^ level)))
    (track : matchh = true → OnPath Hash g p (d - 2 ^ level) E level branch)
    (pend : matchh = false → ∀ ℓ : Nat, matchlevel = ℓ → level ≤ ℓ → d % 2 ^ (ℓ + 1) = 0 →
      OnPath Hash g p (d - 2 ^ (ℓ + 1)) (d - 2 ^ ℓ) ℓ branch) :
    (r.matchh = true → OnPath Hash g p (d - 2 ^ r.level) E r.level r.branch) ∧
    (r.matchh = false → matchh = false ∧ r.branch = branch ∧
      ∀ ℓ : Nat, matchlevel = ℓ → level ≤ ℓ → r.level ≤ ℓ) := by
  fun_induction climb with
  | case1 level h matchh mutated branch hl hbit ih =>
    have hclear : d / 2 ^ level % 2 = 0 := by
      have := (and_shiftOne_eq_zero hl).mp hbit
      rwa [hd] at this
    have hlow' := mod_two_pow_succ_eq_zero hlow hclear
    have hpos := Nat.two_pow_pos level
    have hpow : 2 ^ (level + 1) = 2 * 2 ^ level := by rw [Nat.pow_succ, Nat.mul_comm]
    have hge : 2 ^ (level + 1) ≤ d := Nat.le_of_dvd (by omega) (Nat.dvd_of_mod_eq_zero hlow')
    have hmid : d - 2 ^ level = d - 2 ^ (level + 1) + 2 ^ level := by omega
    rw [innerGet_of_getElem? (hinner level hl hlow' hlo), ExceptLogic.ok_bind] at hr
    have hh' : Hash (perfect Hash level (shift g (d - 2 ^ (level + 1)))) h =
        sub Hash (level + 1) (E - (d - 2 ^ (level + 1))) (shift g (d - 2 ^ (level + 1))) := by
      rw [hh]
      exact sub_succ_eq_pair hmid hlo
    obtain ⟨c1, c2⟩ := ih _ hr hlow' (by omega) hh'
      (trackBranch_onPath hmid hlo hh track fun hm hml => pend hm level hml (Nat.le_refl _) hlow')
      (fun hf ℓ hmℓ hle hdℓ => by
        obtain ⟨hm, -, heq⟩ := trackBranch_eq_false hf
        rw [heq]
        exact pend hm ℓ hmℓ (by omega) hdℓ)
    refine ⟨c1, fun hf => ?_⟩
    obtain ⟨hm', hbr, hle'⟩ := c2 hf
    obtain ⟨hm, hne, heq⟩ := trackBranch_eq_false hm'
    refine ⟨hm, hbr.trans heq, fun ℓ hmℓ hle => ?_⟩
    rcases Nat.eq_or_lt_of_le hle with rfl | hlt
    · exact absurd hmℓ hne
    · exact hle' ℓ hmℓ hlt
  | case2 level h matchh mutated branch hl hbit =>
    cases hr
    exact ⟨track, fun hm => ⟨hm, rfl, fun _ _ hle => hle⟩⟩
  | case3 => cases hr

end Climb

/-- The leaf phase after the first `c` leaves, following leaf `p`: before it is read nothing is
tracked; after, the pending entry at `matchlevel` is the full block of `c` that holds it, and
the branch is its path there. -/
structure BranchInv (Hash : α → α → α) (g : Nat → α) (p c : Nat) (s : LeafState α) : Prop where
  before : c ≤ p → s.matchlevel = -1 ∧ s.branch = []
  after : p < c → ∃ ℓ : Nat, s.matchlevel = ℓ ∧ c / 2 ^ ℓ % 2 = 1 ∧
    OnPath Hash g p (c / 2 ^ ℓ * 2 ^ ℓ - 2 ^ ℓ) (c / 2 ^ ℓ * 2 ^ ℓ) ℓ s.branch

/-- One leaf of the leaf phase keeps `BranchInv`. The climb with leaf `c` either holds leaf `p`
at the end (it is leaf `c`, or its block was combined on the way) and stores it at the level
it stops at, or stops below the block that holds it, which the new count keeps. -/
theorem branchInv_step {g : Nat → α} {p c : Nat} {s : LeafState α} {position : UInt32}
    (hinv : LeafInv Hash g c s) (hb : BranchInv Hash g p c s) (hc : c + 1 < 2 ^ 32)
    (hp : position.toNat = p) {r : Climb α}
    (hr : climb Hash true true s.inner s.matchlevel (s.count + 1) 0 (g c) (s.count == position)
      s.mutated s.branch = .ok r) :
    BranchInv Hash g p (c + 1) ⟨s.count + 1, s.inner.set r.level r.h,
      if r.matchh then r.level else s.matchlevel, r.mutated, r.branch⟩ := by
  have hcount : (s.count + 1).toNat = c + 1 := by
    rw [UInt32.toNat_add, UInt32.toNat_one, hinv.count_eq, Nat.mod_eq_of_lt hc]
  obtain ⟨r', hr', -, hrbit, hrlow, -⟩ := climb_leaf hinv hcount true 0 (g c)
    (s.count == position) s.mutated s.branch (by rw [Nat.pow_zero, Nat.mod_one]) (by simp)
  obtain rfl : r = r' := Except.ok.inj (hr.symm.trans hr')
  have hmatch : (s.count == position) = true ↔ c = p := by
    rw [beq_iff_eq, ← UInt32.toNat_inj, hinv.count_eq, hp]
  obtain ⟨c1, c2⟩ := climb_branch (p := p) (E := c + 1) hcount (Nat.le_refl _)
    (fun l hl hd hlo => hinv.inner_of_last_block hl hd (by omega) (Nat.lt_succ_self c))
    0 (g c) (s.count == position) s.mutated s.branch r hr (by rw [Nat.pow_zero, Nat.mod_one])
    (by simp) (by simp)
    (fun hm => by
      obtain rfl := hmatch.mp hm
      exact ⟨by omega, by omega, by rw [(hb.before (Nat.le_refl _)).2]; rfl⟩)
    (fun hm ℓ hmℓ _ hd => by
      have hne : c ≠ p := fun heq => by simp [hmatch.mpr heq] at hm
      rcases Nat.lt_or_ge p c with hlt | hge
      · obtain ⟨ℓ', hmℓ', -, hon⟩ := hb.after hlt
        obtain rfl : ℓ = ℓ' := by omega
        obtain ⟨-, hblock⟩ := Bits.div_two_pow_of_last_block hd (by omega) (Nat.lt_succ_self c)
        have hpow : 2 ^ (ℓ + 1) = 2 * 2 ^ ℓ := by rw [Nat.pow_succ, Nat.mul_comm]
        rwa [hblock, show c + 1 - 2 ^ ℓ - 2 ^ ℓ = c + 1 - 2 ^ (ℓ + 1) by omega] at hon
      · have := (hb.before hge).1
        omega)
  have hpos := Nat.two_pow_pos r.level
  have hend : (c + 1) / 2 ^ r.level * 2 ^ r.level = c + 1 :=
    Nat.div_mul_cancel (Nat.dvd_of_mod_eq_zero hrlow)
  constructor
  · intro hle
    have hfalse : r.matchh = false := by
      by_contra ht
      have := (c1 (by simpa using ht)).hi
      omega
    obtain ⟨-, hbr, -⟩ := c2 hfalse
    simp only [hfalse, Bool.false_eq_true, if_false, hbr]
    exact hb.before (by omega)
  · intro hlt
    cases hm : r.matchh with
    | true =>
      refine ⟨r.level, by simp, hrbit, ?_⟩
      rw [hend]
      exact c1 hm
    | false =>
      obtain ⟨hmf, hbr, hle⟩ := c2 hm
      have hne : c ≠ p := fun heq => by simp [hmatch.mpr heq] at hmf
      obtain ⟨ℓ, hmℓ, hbit, hon⟩ := hb.after (by omega)
      have hlt' : r.level < ℓ := by
        rcases Nat.eq_or_lt_of_le (hle ℓ hmℓ (Nat.zero_le _)) with heq | hlt'
        · have hprev := div_two_pow_of_prev_block hrlow (by omega) (Nat.lt_succ_self c)
          rw [← heq] at hbit
          omega
        · exact hlt'
      have hsame := Bits.pred_div_two_pow_eq hrlow hrbit hlt'
      rw [Nat.add_sub_cancel] at hsame
      refine ⟨ℓ, by simpa using hmℓ, by rw [← hsame]; exact hbit, ?_⟩
      rw [← hsame, hbr]
      exact hon

/-- The leaf phase over the leaves `c, c + 1, ...` of `g` keeps `BranchInv` to the end. -/
theorem leafLoop_branch (g : Nat → α) (p : Nat) (position : UInt32) (hp : position.toNat = p) :
    ∀ (rest : List α) (c : Nat) (s : LeafState α), LeafInv Hash g c s → BranchInv Hash g p c s →
      c + rest.length < 2 ^ 32 → (∀ i < rest.length, rest[i]? = some (g (c + i))) →
      ∀ s', leafLoop Hash true position rest s = .ok s' → BranchInv Hash g p (c + rest.length) s' := by
  intro rest
  induction rest with
  | nil =>
    intro c s _ hb _ _ s' hs'
    cases hs'
    exact hb
  | cons leaf rest ih =>
    intro c s hinv hb hlen hleaves s' hs'
    simp only [List.length_cons] at hlen
    have hleaf : leaf = g c := by simpa using hleaves 0 (by simp)
    obtain ⟨r, hr, hrlen, hinv'⟩ := leafLoop_step hinv (by omega) true position
    simp only [leafLoop, hleaf, hr, ExceptLogic.ok_bind, innerSet_of_lt hrlen] at hs'
    have hb'' := ih (c + 1) _ hinv' (branchInv_step hinv hb (by omega) hp hr) (by omega)
      (fun i hi => by simpa [Nat.add_assoc, Nat.add_comm 1 i] using hleaves (i + 1) (by simp; omega)) s' hs'
    simpa [Nat.add_assoc, Nat.add_comm 1] using hb''

/-- The sweep from a level where `count`, rounded up past the `n` leaves, has its lowest set
bit, following leaf `p`: either `h` holds it and the branch is its path in `h`, or the pending
entry at `matchlevel`, above `level`, is the full block of `n` that holds it. The sweep ends
with the branch of leaf `p` in the tree over the `n` leaves. -/
theorem sweep_branch {g : Nat → α} {n p : Nat} {s : LeafState α} (hinv : LeafInv Hash g n s)
    (hn : n ≤ 2 ^ 31) (count : UInt32) (level : Nat) (h : α) (matchh : Bool) (branch : List α)
    {r : α × List α} (hr : sweep Hash true s.inner s.matchlevel count level h matchh branch = .ok r)
    (hlow : count.toNat % 2 ^ level = 0) (hbit : count.toNat / 2 ^ level % 2 = 1)
    (hlo : count.toNat - 2 ^ level < n) (hhi : n ≤ count.toNat) (hdepth : 2 ^ level < 2 * n)
    (hh : h = sub Hash level (n - (count.toNat - 2 ^ level)) (shift g (count.toNat - 2 ^ level)))
    (track : matchh = true → OnPath Hash g p (count.toNat - 2 ^ level) n level branch)
    (pend : matchh = false → ∃ ℓ : Nat, s.matchlevel = ℓ ∧ level < ℓ ∧ n / 2 ^ ℓ % 2 = 1 ∧
      OnPath Hash g p (n / 2 ^ ℓ * 2 ^ ℓ - 2 ^ ℓ) (n / 2 ^ ℓ * 2 ^ ℓ) ℓ branch) :
    r.2 = MerkleTree.branch Hash (Nat.clog 2 n) n g p := by
  fun_induction sweep with
  | case1 count level h matchh branch hl hne branch' count' c hc ih =>
    obtain ⟨hcount', r', hr', -, hrbit, hrlow, hrlo, hrhi, hrdepth, hrh⟩ :=
      climb_after_pair hinv hn true matchh branch' hl hne hlow hbit hlo hhi hh
    obtain rfl : c = r' := Except.ok.inj (hc.symm.trans hr')
    have hc' : count'.toNat = count.toNat + 2 ^ level := hcount'
    have hpos := Nat.two_pow_pos level
    have hpow : 2 ^ (level + 1) = 2 * 2 ^ level := by rw [Nat.pow_succ, Nat.mul_comm]
    have hge : 2 ^ level ≤ count.toNat := Nat.le_of_dvd (by omega) (by
      rw [← Nat.div_mul_cancel (Nat.dvd_of_mod_eq_zero hlow)]
      exact Nat.dvd_mul_left _ _)
    have hstart : count.toNat + 2 ^ level - 2 ^ (level + 1) = count.toNat - 2 ^ level := by omega
    obtain ⟨c1, c2⟩ := climb_branch (p := p) (E := n) hc' (by omega)
      (fun l hl hd hlo' => hinv.inner_of_last_block hl hd (by omega) (by omega))
      (level + 1) (Hash h h) matchh false branch' c hc (mod_two_pow_succ_of_add hlow hbit)
      (by omega) (by rw [hstart, sub_succ_of_le Hash (by omega), hh])
      (fun hm => by
        subst hm
        have hcopy := (track rfl).copy (show n - (count.toNat - 2 ^ level) ≤ 2 ^ level by omega)
        rw [← hh, ← hstart] at hcopy
        exact hcopy)
      (fun hm ℓ hmℓ hle hd => by
        subst hm
        obtain ⟨ℓ', hmℓ', -, -, hon⟩ := pend rfl
        obtain rfl : ℓ = ℓ' := by omega
        have hℓ : 2 ^ (level + 1) ≤ 2 ^ ℓ := Nat.pow_le_pow_right (by decide) hle
        have hpowℓ : 2 ^ (ℓ + 1) = 2 * 2 ^ ℓ := by rw [Nat.pow_succ, Nat.mul_comm]
        have hgeℓ : 2 ^ (ℓ + 1) ≤ count.toNat + 2 ^ level :=
          Nat.le_of_dvd (by omega) (Nat.dvd_of_mod_eq_zero hd)
        obtain ⟨-, hblock⟩ := Bits.div_two_pow_of_last_block hd (by omega) (show n < count.toNat + 2 ^ level by omega)
        rw [hblock, show count.toNat + 2 ^ level - 2 ^ ℓ - 2 ^ ℓ = count.toNat + 2 ^ level - 2 ^ (ℓ + 1) by omega] at hon
        exact hon)
    rw [hc'] at ih
    refine ih hr hrlow hrbit hrlo hrhi hrdepth hrh c1 fun hf => ?_
    obtain ⟨hm, hbr, hle⟩ := c2 hf
    obtain ⟨ℓ, hmℓ, hlt, hnbit, hon⟩ := pend hm
    refine ⟨ℓ, hmℓ, ?_, hnbit, ?_⟩
    · rcases Nat.eq_or_lt_of_le (hle ℓ hmℓ hlt) with heq | hlt'
      · have hprev := div_two_pow_of_prev_block hrlow (by omega) (show n < count.toNat + 2 ^ level by omega)
        rw [heq] at hprev hrbit
        omega
      · exact hlt'
    · subst hm
      rw [hbr]
      exact hon
  | case2 count level h matchh branch hl hne branch' count' e hc =>
    obtain ⟨-, r, hr, -⟩ := climb_after_pair hinv hn true matchh branch' hl hne hlow hbit hlo hhi hh
    cases hr.symm.trans hc
  | case3 count level h matchh branch hl heq =>
    have hone : count.toNat = 2 ^ level := by
      rw [show count = (1 : UInt32) <<< level.toUInt32 from not_not.mp heq, shiftOne_toNat hl]
    cases hr
    rw [clog_eq_of_two_pow (hone ▸ hhi) hdepth]
    cases matchh with
    | true =>
      have hpath := (track rfl).branch_eq
      rwa [hone, Nat.sub_self, Nat.sub_zero, Nat.sub_zero, shift_zero] at hpath
    | false =>
      obtain ⟨ℓ, -, hlt, hnbit, -⟩ := pend rfl
      have hsmall : n < 2 ^ ℓ := Nat.lt_of_le_of_lt (hone ▸ hhi) (Nat.pow_lt_pow_right (by decide) hlt)
      rw [Nat.div_eq_of_lt hsmall] at hnbit
      exact absurd hnbit (by decide)
  | case4 count level h matchh branch hl =>
    exact absurd (lt_32_of_mod (by omega) hlow) hl

omit [DecidableEq α] in
/-- Before the first leaf nothing is tracked. -/
theorem branchInv_init (g : Nat → α) (p : Nat) (null : α) :
    BranchInv Hash g p 0 ⟨0, List.replicate 32 null, -1, false, []⟩ where
  before _ := ⟨rfl, rfl⟩
  after hlt := absurd hlt (Nat.not_lt_zero p)

/-- For at most `2^31` leaves and a position among them, the branch `MerkleComputation`
returns is the branch of that leaf in the tree over the leaves. -/
theorem MerkleComputation_branch (null : α) (Hash : α → α → α) (leaves : List α)
    (position : UInt32) (hlen : leaves.length ≤ 2 ^ 31) (hp : position.toNat < leaves.length)
    {r : α × Bool × List α} (h : MerkleComputation null Hash leaves position true = .ok r) :
    r.2.2 = MerkleTree.branch Hash (Nat.clog 2 leaves.length) leaves.length
      (fun i => leaves.getD i null) position.toNat := by
  have hn : 0 < leaves.length := by omega
  have hleaves : ∀ i < leaves.length, leaves[i]? = some (leaves.getD (0 + i) null) :=
    fun i hi => by simp [List.getElem?_eq_getElem hi]
  obtain ⟨s, hs, hinv⟩ := leafLoop_inv true position (fun i => leaves.getD i null) leaves 0 _
    (leafInv_init _ null : LeafInv Hash _ 0 _) (by omega) hleaves
  have hb := leafLoop_branch (fun i => leaves.getD i null) _ position rfl leaves 0 _
    (leafInv_init _ null : LeafInv Hash _ 0 _)
    (branchInv_init _ _ null) (by omega) hleaves s hs
  rw [Nat.zero_add] at hinv hb
  have hcount := hinv.count_eq
  have hne : s.count ≠ 0 := fun h0 => by
    rw [h0, UInt32.toNat_zero] at hcount
    omega
  obtain ⟨k, hk, -, hk32, hset, hklow⟩ := skipZeroBits_spec hne (by rw [Nat.pow_zero, Nat.mod_one])
  rw [hcount] at hset hklow
  have hinner := hinv.inner_eq k hk32 hset
  have hend : leaves.length / 2 ^ k * 2 ^ k = leaves.length := Nat.div_mul_cancel (Nat.dvd_of_mod_eq_zero hklow)
  rw [hend] at hinner
  have hkn : 2 ^ k ≤ leaves.length := Nat.le_of_dvd hn (Nat.dvd_of_mod_eq_zero hklow)
  unfold MerkleComputation at h
  rw [if_neg (by omega), hs, ExceptLogic.ok_bind, hk, ExceptLogic.ok_bind,
    innerGet_of_getElem? hinner, ExceptLogic.ok_bind] at h
  obtain ⟨r', hr', hres⟩ := ExceptLogic.bind_eq_ok.mp h
  cases hres
  obtain ⟨ℓ, hmℓ, hbit, hon⟩ := hb.after hp
  refine sweep_branch hinv hlen s.count k _ _ s.branch hr' (by rw [hcount]; exact hklow)
    (by rw [hcount]; exact hset) (by rw [hcount]; have := Nat.two_pow_pos k; omega) (by rw [hcount])
    (by omega) (by rw [hcount, show leaves.length - (leaves.length - 2 ^ k) = 2 ^ k by omega, sub_two_pow])
    (fun hm => ?_) (fun hm => ⟨ℓ, hmℓ, ?_, hbit, hon⟩)
  · obtain rfl : k = ℓ := by
      have := beq_iff_eq.mp hm
      omega
    rw [hcount]
    rwa [hend] at hon
  · have hne : ℓ ≠ k := fun heq => by simp [hmℓ, heq] at hm
    rcases Nat.lt_or_ge ℓ k with hlt | hge
    · exact absurd (bit_eq_zero_of_lt hklow hlt) (by omega)
    · omega

/-- `ComputeMerkleRootFromBranch` is `fromBranch` on the number `nIndex`: the test
`nIndex & 1` reads its low bit and `nIndex >>= 1` halves it. -/
theorem ComputeMerkleRootFromBranch_eq (P : Primitives) (hash : uint256) (xs : List uint256)
    (nIndex : UInt32) :
    ComputeMerkleRootFromBranch P hash xs nIndex = fromBranch P.Hash hash xs nIndex.toNat := by
  induction xs generalizing hash nIndex with
  | nil => rfl
  | cons it rest ih =>
    have hbit : nIndex &&& 1 ≠ 0 ↔ nIndex.toNat % 2 = 1 := by
      rw [ne_eq, ← UInt32.toNat_inj, UInt32.toNat_and, UInt32.toNat_one, Nat.and_one_is_mod,
        UInt32.toNat_zero]
      omega
    have hhalf : (nIndex >>> 1).toNat = nIndex.toNat / 2 := by
      rw [UInt32.toNat_shiftRight]
      simp [Nat.shiftRight_eq_div_pow]
    rw [ComputeMerkleRootFromBranch, fromBranch, ih, hhalf, if_congr hbit rfl rfl]

/-- `ComputeMerkleRoot` returns the root of the tree over at most `2^31` leaves, and as
`mutated` whether two full sibling subtrees have equal roots. -/
theorem ComputeMerkleRoot_spec (P : Primitives) {leaves : List uint256} (hlen : leaves.length ≤ 2 ^ 31) :
    ComputeMerkleRoot P leaves = .ok (root P.Hash uint256.zero leaves,
      decide (EqualSiblings P.Hash leaves.length (fun i => leaves.getD i uint256.zero))) := by
  obtain ⟨br, hroot⟩ := MerkleComputation_spec uint256.zero P.Hash leaves 0xFFFFFFFF false hlen
  rw [ComputeMerkleRoot, hroot]
  rfl

theorem ComputeMerkleRoot_eq_root (P : Primitives) {leaves : List uint256} (hlen : leaves.length ≤ 2 ^ 31) :
    ∃ mutated, ComputeMerkleRoot P leaves = .ok (root P.Hash uint256.zero leaves, mutated) :=
  ⟨_, ComputeMerkleRoot_spec P hlen⟩

/-- `ComputeMerkleBranch` at a leaf returns the leaf's branch in the tree. -/
theorem ComputeMerkleBranch_eq_branch (P : Primitives) {leaves : List uint256} {position : UInt32}
    (hlen : leaves.length ≤ 2 ^ 31) (hp : position.toNat < leaves.length) :
    ComputeMerkleBranch P leaves position = .ok (branch P.Hash (Nat.clog 2 leaves.length)
      leaves.length (fun i => leaves.getD i uint256.zero) position.toNat) := by
  obtain ⟨br, hbr⟩ := MerkleComputation_spec uint256.zero P.Hash leaves position true hlen
  have hpath := MerkleComputation_branch uint256.zero P.Hash leaves position hlen hp hbr
  rw [ComputeMerkleBranch, hbr, ← hpath]
  rfl

/-- A leaf's branch leads `ComputeMerkleRootFromBranch` from the leaf to the root. -/
theorem ComputeMerkleRootFromBranch_branch (P : Primitives) {leaves : List uint256}
    {position : UInt32} (hp : position.toNat < leaves.length) :
    ComputeMerkleRootFromBranch P leaves[position.toNat]
        (branch P.Hash (Nat.clog 2 leaves.length) leaves.length
          (fun i => leaves.getD i uint256.zero) position.toNat) position =
      root P.Hash uint256.zero leaves := by
  have hleaf : leaves[position.toNat] = (fun i => leaves.getD i uint256.zero) position.toNat :=
    (List.getD_eq_getElem _ _ hp).symm
  rw [ComputeMerkleRootFromBranch_eq, root, if_neg (List.ne_nil_of_length_pos (by omega)), hleaf]
  exact fromBranch_branch P.Hash (fun i => leaves.getD i uint256.zero) hp (Nat.le_pow_clog (by decide) _)

theorem ComputeMerkleBranch_verifies (P : Primitives) (leaves : List uint256) (position : UInt32)
    (hlen : leaves.length ≤ 2 ^ 31) (hp : position.toNat < leaves.length) :
    ∃ hash mutated vMerkleBranch, ComputeMerkleRoot P leaves = .ok (hash, mutated) ∧
      ComputeMerkleBranch P leaves position = .ok vMerkleBranch ∧
      vMerkleBranch.length = Nat.clog 2 leaves.length ∧
      ComputeMerkleRootFromBranch P leaves[position.toNat] vMerkleBranch position = hash :=
  ⟨_, _, _, ComputeMerkleRoot_spec P hlen, ComputeMerkleBranch_eq_branch P hlen hp,
    length_branch _ _ _ _ _, ComputeMerkleRootFromBranch_branch P hp⟩

theorem ComputeMerkleBranch_verifies_third :
    [uint256.zero, uint256.zero, uint256.zero].length ≤ 2 ^ 31 ∧
      (2 : UInt32).toNat < [uint256.zero, uint256.zero, uint256.zero].length ∧
      ∃ hash mutated vMerkleBranch,
        ComputeMerkleRoot zeroPrimitives [uint256.zero, uint256.zero, uint256.zero] = .ok (hash, mutated) ∧
        ComputeMerkleBranch zeroPrimitives [uint256.zero, uint256.zero, uint256.zero] 2 = .ok vMerkleBranch ∧
        vMerkleBranch.length = Nat.clog 2 [uint256.zero, uint256.zero, uint256.zero].length ∧
        ComputeMerkleRootFromBranch zeroPrimitives [uint256.zero, uint256.zero, uint256.zero][(2 : UInt32).toNat]
          vMerkleBranch 2 = hash :=
  ⟨by simp, by simp, ComputeMerkleBranch_verifies zeroPrimitives _ 2 (by simp) (by simp)⟩

end SalemCash.Merkle
