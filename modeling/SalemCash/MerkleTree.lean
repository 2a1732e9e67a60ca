import Mathlib.Data.Nat.Log
import Mathlib.Tactic.Ring

/-!
# Merkle trees that pair an odd node with itself

The leaves are a function `g` from positions to values, and `f` combines two nodes. In a
tree over `n` leaves each level with an odd number of nodes pairs its last node with
itself. Read top down, the tree of depth `k + 1` over `n ≤ 2^(k+1)` leaves has the first
`2^k` leaves in its left half; its right half holds the others, or is a copy of the left
half when there are none. `perfect k g` is the full tree over `2^k` leaves and `sub k n g`
the tree over `n` of them.

`EqualSiblings n g` says that two sibling subtrees, both full and within the first `n`
leaves, have the same root. When `f` is injective, two trees with the same root either
have the same leaves or one of them has such siblings (`eq_or_equalSiblings`), which is
what a check of sibling subtrees for equality can detect.

`node n g h pos` is the node at height `h` and position `pos`, the form in which code that
walks the tree by height and position (`width n h` nodes at height `h`) reads it.

A pruned tree keeps, of the tree over `n` leaves, the nodes on the paths to the leaves that `m`
selects. Each kept node is one bit, whether a selected leaf lies below it; a leaf, or a node
with no selected leaf below, also keeps its hash and is not descended into.
-/
namespace MerkleTree

variable {α : Type} (f : α → α → α)

/-- The leaves of `g` from position `b` on. -/
def shift (g : Nat → α) (b : Nat) : Nat → α := fun i => g (i + b)

/-- The root of the full tree over the first `2^k` leaves of `g`. -/
def perfect : Nat → (Nat → α) → α
  | 0, g => g 0
  | k + 1, g => f (perfect k g) (perfect k (shift g (2 ^ k)))

/-- The root of the tree of depth `k` over the first `n` leaves of `g`, for
`1 ≤ n ≤ 2^k`: a right half with no leaves is a copy of the left one. -/
def sub : Nat → Nat → (Nat → α) → α
  | 0, _, g => g 0
  | k + 1, n, g =>
    if n ≤ 2 ^ k then f (sub k n g) (sub k n g)
    else f (perfect f k g) (sub k (n - 2 ^ k) (shift g (2 ^ k)))

/-- Two sibling subtrees, both full and within the first `n` leaves, with the same root. -/
def EqualSiblings (n : Nat) (g : Nat → α) : Prop :=
  ∃ k < n, ∃ j < n, (2 * j + 2) * 2 ^ k ≤ n ∧
    perfect f k (shift g (2 * j * 2 ^ k)) = perfect f k (shift g ((2 * j + 1) * 2 ^ k))

instance [DecidableEq α] (n : Nat) (g : Nat → α) : Decidable (EqualSiblings f n g) :=
  inferInstanceAs (Decidable (∃ k < n, ∃ j < n, (2 * j + 2) * 2 ^ k ≤ n ∧
    perfect f k (shift g (2 * j * 2 ^ k)) = perfect f k (shift g ((2 * j + 1) * 2 ^ k))))

/-- The root over the leaves of a list, `null` when there are none; the depth is the least
`k` with `n ≤ 2^k`. -/
def root (null : α) (leaves : List α) : α :=
  if leaves = [] then null
  else sub f (Nat.clog 2 leaves.length) leaves.length (fun i => leaves.getD i null)

@[simp] theorem shift_apply (g : Nat → α) (b i : Nat) : shift g b i = g (i + b) := rfl

@[simp] theorem shift_shift (g : Nat → α) (a b : Nat) : shift (shift g a) b = shift g (b + a) := by
  funext i
  simp only [shift_apply, Nat.add_assoc]

@[simp] theorem shift_zero (g : Nat → α) : shift g 0 = g := rfl

@[simp] theorem perfect_zero (g : Nat → α) : perfect f 0 g = g 0 := rfl

theorem perfect_succ (k : Nat) (g : Nat → α) :
    perfect f (k + 1) g = f (perfect f k g) (perfect f k (shift g (2 ^ k))) := rfl

@[simp] theorem sub_zero (n : Nat) (g : Nat → α) : sub f 0 n g = g 0 := rfl

theorem sub_succ_of_le {k n : Nat} (h : n ≤ 2 ^ k) (g : Nat → α) :
    sub f (k + 1) n g = f (sub f k n g) (sub f k n g) := by
  simp only [sub, if_pos h]

theorem sub_succ_of_lt {k n : Nat} (h : 2 ^ k < n) (g : Nat → α) :
    sub f (k + 1) n g = f (perfect f k g) (sub f k (n - 2 ^ k) (shift g (2 ^ k))) := by
  simp only [sub, if_neg (Nat.not_le.mpr h)]

/-- A tree over at least `2^k` leaves is the full one. -/
theorem sub_of_two_pow_le {k n : Nat} (hn : 2 ^ k ≤ n) (g : Nat → α) :
    sub f k n g = perfect f k g := by
  induction k generalizing n g with
  | zero => rfl
  | succ k ih =>
    have hpow : 2 ^ (k + 1) = 2 ^ k + 2 ^ k := by rw [Nat.pow_succ, Nat.mul_two]
    have := Nat.two_pow_pos k
    rw [sub_succ_of_lt f (by omega), perfect_succ, ih (by omega)]

/-- The tree over all `2^k` leaves is the full one. -/
theorem sub_two_pow (k : Nat) (g : Nat → α) : sub f k (2 ^ k) g = perfect f k g :=
  sub_of_two_pow_le f (Nat.le_refl _) g

theorem EqualSiblings.mono {n n' : Nat} {g : Nat → α} (h : EqualSiblings f n g) (hn : n ≤ n') :
    EqualSiblings f n' g := by
  obtain ⟨k, hk, j, hj, hle, heq⟩ := h
  exact ⟨k, by omega, j, by omega, by omega, heq⟩

/-- The two halves of a full tree over the first `2^(k+1)` leaves are siblings. -/
theorem equalSiblings_of_halves {k n : Nat} {g : Nat → α}
    (heq : perfect f k g = perfect f k (shift g (2 ^ k))) (hn : 2 ^ (k + 1) ≤ n) :
    EqualSiblings f n g := by
  have hk : k < 2 ^ k := Nat.lt_two_pow_self
  have hpow : 2 ^ (k + 1) = 2 * 2 ^ k := by rw [Nat.pow_succ, Nat.mul_comm]
  exact ⟨k, by omega, 0, by omega, by omega, by simpa using heq⟩

/-- Siblings among the leaves from `2^d` on are siblings of the whole tree, shifted by a
whole number of pairs. -/
theorem EqualSiblings.of_shift {m n d : Nat} {g : Nat → α}
    (h : EqualSiblings f m (shift g (2 ^ d))) (hm : m ≤ 2 ^ d) (hn : 2 ^ d + m ≤ n) :
    EqualSiblings f n g := by
  obtain ⟨k, hk, j, hj, hle, heq⟩ := h
  have hkd : k + 1 ≤ d := by
    have : 2 ^ (k + 1) ≤ 2 ^ d := by
      calc 2 ^ (k + 1) = 2 * 2 ^ k := by rw [Nat.pow_succ, Nat.mul_comm]
        _ ≤ (2 * j + 2) * 2 ^ k := Nat.mul_le_mul_right _ (by omega)
        _ ≤ 2 ^ d := Nat.le_trans hle hm
    exact (Nat.pow_le_pow_iff_right (by decide)).mp this
  obtain ⟨e, he⟩ : ∃ e, 2 ^ d = 2 * e * 2 ^ k := ⟨2 ^ (d - (k + 1)), by
    rw [Nat.mul_comm 2, Nat.mul_assoc, ← Nat.pow_succ', ← Nat.pow_add, Nat.sub_add_cancel hkd]⟩
  have hpos := Nat.two_pow_pos k
  refine ⟨k, by omega, j + e, ?_, ?_, ?_⟩
  · have : 2 * (j + e) + 2 ≤ (2 * (j + e) + 2) * 2 ^ k := Nat.le_mul_of_pos_right _ hpos
    have : (2 * (j + e) + 2) * 2 ^ k = (2 * j + 2) * 2 ^ k + 2 ^ d := by
      rw [he, Nat.mul_add 2 j e, Nat.add_right_comm, Nat.add_mul]
    omega
  · rw [show (2 * (j + e) + 2) * 2 ^ k = (2 * j + 2) * 2 ^ k + 2 ^ d by
      rw [he, Nat.mul_add 2 j e, Nat.add_right_comm, Nat.add_mul]]
    omega
  · simp only [shift_shift] at heq
    rwa [show 2 * (j + e) * 2 ^ k = 2 * j * 2 ^ k + 2 ^ d by
        rw [he, Nat.mul_add, Nat.add_mul],
      show (2 * (j + e) + 1) * 2 ^ k = (2 * j + 1) * 2 ^ k + 2 ^ d by
        rw [he, Nat.mul_add 2 j e, Nat.add_right_comm, Nat.add_mul]]

/-- One more leaf adds the sibling pairs that end at it, one for each level `k` at which the
new count is a multiple of `2^(k+1)`. -/
theorem equalSiblings_succ_iff {c : Nat} {g : Nat → α} :
    EqualSiblings f (c + 1) g ↔ EqualSiblings f c g ∨
      ∃ k, (c + 1) % 2 ^ (k + 1) = 0 ∧
        perfect f k (shift g (c + 1 - 2 ^ (k + 1))) = perfect f k (shift g (c + 1 - 2 ^ k)) := by
  constructor
  · rintro ⟨k, hk, j, hj, hle, heq⟩
    have hpos := Nat.two_pow_pos k
    have hk2 : k < 2 ^ k := Nat.lt_two_pow_self
    have hmul : 2 * j + 2 ≤ (2 * j + 2) * 2 ^ k := Nat.le_mul_of_pos_right _ hpos
    rcases Nat.lt_or_eq_of_le hle with hlt | heq'
    · have : 2 * 2 ^ k ≤ (2 * j + 2) * 2 ^ k := Nat.mul_le_mul_right _ (by omega)
      exact .inl ⟨k, by omega, j, by omega, by omega, heq⟩
    · have hpow : 2 ^ (k + 1) = 2 * 2 ^ k := by rw [Nat.pow_succ, Nat.mul_comm]
      have hends : c + 1 = 2 ^ (k + 1) * (j + 1) := by
        rw [← heq', hpow, Nat.mul_assoc, Nat.mul_comm (2 ^ k), ← Nat.mul_assoc, Nat.mul_add,
          Nat.mul_one]
      have hsplit : (2 * j + 2) * 2 ^ k = 2 * j * 2 ^ k + 2 ^ k + 2 ^ k := by
        rw [Nat.add_mul, Nat.add_assoc, ← Nat.two_mul, Nat.mul_comm 2 (2 ^ k)]
      refine .inr ⟨k, ?_, ?_⟩
      · rw [hends, Nat.mul_mod_right]
      · rwa [show c + 1 - 2 ^ (k + 1) = 2 * j * 2 ^ k by omega,
          show c + 1 - 2 ^ k = (2 * j + 1) * 2 ^ k by rw [Nat.add_mul, Nat.one_mul]; omega]
  · rintro (h | ⟨k, hk, heq⟩)
    · exact h.mono f (Nat.le_succ c)
    · obtain ⟨q, hq⟩ : ∃ q, c + 1 = 2 ^ (k + 1) * q :=
        ⟨(c + 1) / 2 ^ (k + 1), (Nat.mul_div_cancel' (Nat.dvd_of_mod_eq_zero hk)).symm⟩
      have hpos := Nat.two_pow_pos k
      have hk2 : k < 2 ^ k := Nat.lt_two_pow_self
      have hpow : 2 ^ (k + 1) = 2 * 2 ^ k := by rw [Nat.pow_succ, Nat.mul_comm]
      obtain ⟨p, rfl⟩ : ∃ p, q = p + 1 :=
        ⟨q - 1, (Nat.sub_add_cancel (Nat.pos_of_ne_zero fun h0 => by simp [h0] at hq)).symm⟩
      have hq' : c + 1 = 2 * p * 2 ^ k + 2 ^ k + 2 ^ k := by
        rw [hq, hpow]
        ring
      have hj : p < 2 * p * 2 ^ k + 2 ^ k + 2 ^ k := by
        have : p ≤ p * 2 ^ k := Nat.le_mul_of_pos_right _ hpos
        rw [Nat.mul_assoc]
        omega
      refine ⟨k, by omega, p, by omega, ?_, ?_⟩
      · rw [Nat.add_mul]
        omega
      · rwa [show 2 * p * 2 ^ k = c + 1 - 2 ^ (k + 1) by omega,
          show (2 * p + 1) * 2 ^ k = c + 1 - 2 ^ k by rw [Nat.add_mul, Nat.one_mul]; omega]

/-- The number of nodes at height `h` of the tree over `n` leaves. -/
def width (n h : Nat) : Nat := (n + 2 ^ h - 1) / 2 ^ h

/-- The node at height `h` and position `pos` of the tree over the first `n` leaves of `g`:
the tree of depth `h` over the leaves from `pos * 2^h` on. -/
def node (n : Nat) (g : Nat → α) (h pos : Nat) : α :=
  sub f h (n - pos * 2 ^ h) (shift g (pos * 2 ^ h))

/-- The positions of the leaves below the node at height `h` and position `pos`. -/
def leafRange (n h pos : Nat) : List Nat :=
  List.range' (pos * 2 ^ h) (min (2 ^ h) (n - pos * 2 ^ h))

/-- A node exists when its first leaf does. -/
theorem lt_width_iff {n h pos : Nat} : pos < width n h ↔ pos * 2 ^ h < n := by
  have hpos := Nat.two_pow_pos h
  rw [width, Nat.lt_iff_add_one_le, Nat.le_div_iff_mul_le hpos, Nat.succ_mul]
  generalize pos * 2 ^ h = a
  omega

theorem one_lt_width_iff {n h : Nat} : 1 < width n h ↔ 2 ^ h < n := by
  rw [lt_width_iff, Nat.one_mul]

theorem node_zero (n : Nat) (g : Nat → α) (pos : Nat) : node f n g 0 pos = g pos := by
  simp [node]

theorem node_root (n : Nat) (g : Nat → α) (h : Nat) : node f n g h 0 = sub f h n g := by
  simp [node]

/-- The two halves of `2 * pos` blocks of `2^h` leaves make `pos` blocks of `2^(h+1)`. -/
theorem two_mul_mul_two_pow (pos h : Nat) : 2 * pos * 2 ^ h = pos * 2 ^ (h + 1) := by
  rw [Nat.pow_succ]
  ring

/-- A node whose right child exists combines its two children. -/
theorem node_succ_of_lt {n : Nat} {g : Nat → α} {h pos : Nat}
    (hright : (2 * pos + 1) * 2 ^ h < n) :
    node f n g (h + 1) pos = f (node f n g h (2 * pos)) (node f n g h (2 * pos + 1)) := by
  have hsplit : (2 * pos + 1) * 2 ^ h = pos * 2 ^ (h + 1) + 2 ^ h := by
    rw [Nat.add_mul, Nat.one_mul, two_mul_mul_two_pow]
  have := Nat.two_pow_pos h
  rw [hsplit] at hright
  have hleft : 2 ^ h ≤ n - pos * 2 ^ (h + 1) := by omega
  rw [node, sub_succ_of_lt f (by omega), node, node, two_mul_mul_two_pow,
    sub_of_two_pow_le f hleft, hsplit, shift_shift, Nat.add_comm (2 ^ h), Nat.sub_sub]

/-- A node whose right child is missing pairs its left child with itself. -/
theorem node_succ_of_le {n : Nat} {g : Nat → α} {h pos : Nat}
    (hright : n ≤ (2 * pos + 1) * 2 ^ h) :
    node f n g (h + 1) pos = f (node f n g h (2 * pos)) (node f n g h (2 * pos)) := by
  have hsplit : (2 * pos + 1) * 2 ^ h = pos * 2 ^ (h + 1) + 2 ^ h := by
    rw [Nat.add_mul, Nat.one_mul, two_mul_mul_two_pow]
  have := Nat.two_pow_pos h
  rw [hsplit] at hright
  rw [node, sub_succ_of_le f (by omega), node, two_mul_mul_two_pow]

/-- The root of a non-empty list is its node at height `clog 2 n` and position `0`. -/
theorem root_eq_node (null : α) {leaves : List α} (hne : leaves ≠ []) :
    root f null leaves =
      node f leaves.length (fun i => leaves.getD i null) (Nat.clog 2 leaves.length) 0 := by
  rw [root, if_neg hne, node_root]

theorem leafRange_zero {n pos : Nat} (hpos : pos < n) : leafRange n 0 pos = [pos] := by
  simp only [leafRange, Nat.pow_zero, Nat.mul_one]
  rw [Nat.min_eq_left (by omega)]
  rfl

theorem leafRange_succ_of_lt {n h pos : Nat} (hright : (2 * pos + 1) * 2 ^ h < n) :
    leafRange n (h + 1) pos = leafRange n h (2 * pos) ++ leafRange n h (2 * pos + 1) := by
  have hsplit : (2 * pos + 1) * 2 ^ h = pos * 2 ^ (h + 1) + 2 ^ h := by
    rw [Nat.add_mul, Nat.one_mul, two_mul_mul_two_pow]
  have hpow : 2 ^ (h + 1) = 2 ^ h + 2 ^ h := by rw [Nat.pow_succ, Nat.mul_two]
  rw [hsplit] at hright
  rw [leafRange, leafRange, leafRange, two_mul_mul_two_pow, hsplit]
  generalize pos * 2 ^ (h + 1) = a at hright ⊢
  rw [hpow, Nat.min_eq_left (show 2 ^ h ≤ n - a by omega), List.range'_append_1]
  congr 1
  omega

theorem leafRange_succ_of_le {n h pos : Nat} (hright : n ≤ (2 * pos + 1) * 2 ^ h) :
    leafRange n (h + 1) pos = leafRange n h (2 * pos) := by
  have hsplit : (2 * pos + 1) * 2 ^ h = pos * 2 ^ (h + 1) + 2 ^ h := by
    rw [Nat.add_mul, Nat.one_mul, two_mul_mul_two_pow]
  have := Nat.two_pow_pos h
  have hpow : 2 ^ (h + 1) = 2 ^ h + 2 ^ h := by rw [Nat.pow_succ, Nat.mul_two]
  rw [hsplit] at hright
  rw [leafRange, leafRange, two_mul_mul_two_pow, Nat.min_eq_right (by omega),
    Nat.min_eq_right (by omega)]

/-- `x` is built by `k` applications of `f` down its left side, ending at the leaf `a`. -/
def LeftSpine (a : α) : Nat → α → Prop
  | 0, x => x = a
  | k + 1, x => ∃ y z, x = f y z ∧ LeftSpine a k y

theorem perfect_leftSpine (k : Nat) (g : Nat → α) : LeftSpine f (g 0) k (perfect f k g) := by
  induction k with
  | zero => rfl
  | succ k ih => exact ⟨_, _, rfl, ih⟩

theorem sub_leftSpine (k n : Nat) (g : Nat → α) : LeftSpine f (g 0) k (sub f k n g) := by
  induction k generalizing n g with
  | zero => rfl
  | succ k ih =>
    by_cases hle : n ≤ 2 ^ k
    · exact ⟨_, _, sub_succ_of_le f hle g, ih n g⟩
    · exact ⟨_, _, sub_succ_of_lt f (Nat.lt_of_not_le hle) g, perfect_leftSpine f k g⟩

section Injective

variable {f} (hinj : ∀ a b c d, f a b = f c d → a = c ∧ b = d)
include hinj

/-- A full tree determines its leaves. -/
theorem perfect_inj {k : Nat} {g g' : Nat → α} (h : perfect f k g = perfect f k g') :
    ∀ i < 2 ^ k, g i = g' i := by
  induction k generalizing g g' with
  | zero =>
    intro i hi
    obtain rfl : i = 0 := by omega
    exact h
  | succ k ih =>
    obtain ⟨hl, hr⟩ := hinj _ _ _ _ h
    intro i hi
    rcases Nat.lt_or_ge i (2 ^ k) with hlt | hge
    · exact ih hl i hlt
    · have := ih hr (i - 2 ^ k) (by rw [Nat.pow_succ] at hi; omega)
      simpa only [shift_apply, Nat.sub_add_cancel hge] using this

/-- A tree determines the leaves it is built over. -/
theorem sub_inj {k n : Nat} {g g' : Nat → α} (hn : 1 ≤ n) (hk : n ≤ 2 ^ k)
    (h : sub f k n g = sub f k n g') : ∀ i < n, g i = g' i := by
  induction k generalizing n g g' with
  | zero =>
    intro i hi
    obtain rfl : i = 0 := by omega
    exact h
  | succ k ih =>
    by_cases hle : n ≤ 2 ^ k
    · rw [sub_succ_of_le f hle, sub_succ_of_le f hle] at h
      exact ih hn hle (hinj _ _ _ _ h).1
    · have hlt : 2 ^ k < n := Nat.lt_of_not_le hle
      rw [sub_succ_of_lt f hlt, sub_succ_of_lt f hlt] at h
      obtain ⟨hl, hr⟩ := hinj _ _ _ _ h
      intro i hi
      rcases Nat.lt_or_ge i (2 ^ k) with hlt' | hge
      · exact perfect_inj hinj hl i hlt'
      · have := ih (by omega) (by rw [Nat.pow_succ] at hk; omega) hr (i - 2 ^ k) (by omega)
        simpa only [shift_apply, Nat.sub_add_cancel hge] using this

/-- A full tree with the root of a tree over fewer leaves has two equal full siblings. -/
theorem equalSiblings_of_perfect_eq_sub {k m : Nat} {g g' : Nat → α} (hm : 1 ≤ m)
    (hmk : m < 2 ^ k) (h : perfect f k g = sub f k m g') : EqualSiblings f (2 ^ k) g := by
  induction k generalizing m g g' with
  | zero => omega
  | succ k ih =>
    rw [perfect_succ] at h
    by_cases hle : m ≤ 2 ^ k
    · rw [sub_succ_of_le f hle] at h
      obtain ⟨hl, hr⟩ := hinj _ _ _ _ h
      exact equalSiblings_of_halves f (hl.trans hr.symm) (Nat.le_refl _)
    · have hlt : 2 ^ k < m := Nat.lt_of_not_le hle
      rw [sub_succ_of_lt f hlt] at h
      have hpow : 2 ^ (k + 1) = 2 ^ k + 2 ^ k := by rw [Nat.pow_succ, Nat.mul_two]
      exact (ih (by omega) (by omega) (hinj _ _ _ _ h).2).of_shift f (Nat.le_refl _)
        (by omega)

/-- Two trees of one depth over different numbers of leaves with the same root: one of
them has two equal full siblings. -/
theorem equalSiblings_of_sub_eq_sub {k n n' : Nat} {g g' : Nat → α} (hn : 1 ≤ n)
    (hnn : n < n') (hk : n' ≤ 2 ^ k) (h : sub f k n g = sub f k n' g') :
    EqualSiblings f n g ∨ EqualSiblings f n' g' := by
  induction k generalizing n n' g g' with
  | zero => omega
  | succ k ih =>
    have hpow : 2 ^ (k + 1) = 2 ^ k + 2 ^ k := by rw [Nat.pow_succ, Nat.mul_two]
    by_cases hle' : n' ≤ 2 ^ k
    · rw [sub_succ_of_le f (by omega), sub_succ_of_le f hle'] at h
      exact ih hn hnn hle' (hinj _ _ _ _ h).1
    · have hlt' : 2 ^ k < n' := Nat.lt_of_not_le hle'
      rw [sub_succ_of_lt f hlt'] at h
      by_cases hle : n ≤ 2 ^ k
      · rw [sub_succ_of_le f hle] at h
        obtain ⟨hl, hr⟩ := hinj _ _ _ _ h
        have hhalves : perfect f k g' = sub f k (n' - 2 ^ k) (shift g' (2 ^ k)) := hl.symm.trans hr
        right
        rcases Nat.lt_or_ge (n' - 2 ^ k) (2 ^ k) with hlt | hge
        · exact (equalSiblings_of_perfect_eq_sub hinj (by omega) hlt hhalves).mono f (by omega)
        · rw [show n' - 2 ^ k = 2 ^ k by omega, sub_two_pow] at hhalves
          exact equalSiblings_of_halves f hhalves (by omega)
      · have hlt : 2 ^ k < n := Nat.lt_of_not_le hle
        rw [sub_succ_of_lt f hlt] at h
        rcases ih (by omega) (by omega) (by omega) (hinj _ _ _ _ h).2 with hs | hs
        · exact .inl (hs.of_shift f (by omega) (by omega))
        · exact .inr (hs.of_shift f (by omega) (by omega))

/-- Trees whose first leaves are not values of `f` have their depth fixed by their root:
the root's left spine reaches a leaf after exactly that many steps. -/
theorem LeftSpine.depth_eq {a a' x : α} {k k' : Nat} (h : LeftSpine f a k x)
    (h' : LeftSpine f a' k' x) (ha : ∀ y z, f y z ≠ a) (ha' : ∀ y z, f y z ≠ a') : k = k' := by
  induction k generalizing k' x with
  | zero =>
    cases k' with
    | zero => rfl
    | succ k' =>
      obtain ⟨y, z, rfl, -⟩ := h'
      exact absurd h (ha y z)
  | succ k ih =>
    obtain ⟨y, z, rfl, hy⟩ := h
    cases k' with
    | zero => exact absurd h' (ha' y z)
    | succ k' =>
      obtain ⟨y', z', hyz, hy'⟩ := h'
      obtain ⟨rfl, -⟩ := hinj _ _ _ _ hyz
      rw [ih hy hy']

/-- Two trees with the same root, over leaves whose first one is not a value of `f`: they
have one depth, and either the same leaves or two equal full siblings on one side. -/
theorem eq_or_equalSiblings {k k' n n' : Nat} {g g' : Nat → α} (hn : 1 ≤ n) (hk : n ≤ 2 ^ k)
    (hn' : 1 ≤ n') (hk' : n' ≤ 2 ^ k') (hg : ∀ y z, f y z ≠ g 0) (hg' : ∀ y z, f y z ≠ g' 0)
    (h : sub f k n g = sub f k' n' g') :
    k = k' ∧ ((n = n' ∧ ∀ i < n, g i = g' i) ∨ EqualSiblings f n g ∨ EqualSiblings f n' g') := by
  have hkk : k = k' := (sub_leftSpine f k n g).depth_eq hinj (h ▸ sub_leftSpine f k' n' g') hg hg'
  subst hkk
  refine ⟨rfl, ?_⟩
  rcases Nat.lt_trichotomy n n' with hlt | rfl | hgt
  · exact .inr (equalSiblings_of_sub_eq_sub hinj hn hlt hk' h)
  · exact .inl ⟨rfl, sub_inj hinj hn hk h⟩
  · exact .inr (equalSiblings_of_sub_eq_sub hinj hn' hgt hk h.symm).symm

end Injective

/-- The siblings met on the way from leaf `p` up to the root of `sub f k n g`, the lowest
first: at each level the other half, or the copy of the left half when the right one holds
no leaves. -/
def branch : Nat → Nat → (Nat → α) → Nat → List α
  | 0, _, _, _ => []
  | k + 1, n, g, p =>
    if n ≤ 2 ^ k then branch k n g p ++ [sub f k n g]
    else if p < 2 ^ k then branch k (2 ^ k) g p ++ [sub f k (n - 2 ^ k) (shift g (2 ^ k))]
    else branch k (n - 2 ^ k) (shift g (2 ^ k)) (p - 2 ^ k) ++ [perfect f k g]

theorem branch_succ_of_le {k n : Nat} (h : n ≤ 2 ^ k) (g : Nat → α) (p : Nat) :
    branch f (k + 1) n g p = branch f k n g p ++ [sub f k n g] := by
  simp only [branch, if_pos h]

theorem branch_succ_of_lt_left {k n p : Nat} (h : 2 ^ k < n) (left : p < 2 ^ k) (g : Nat → α) :
    branch f (k + 1) n g p = branch f k (2 ^ k) g p ++ [sub f k (n - 2 ^ k) (shift g (2 ^ k))] := by
  simp only [branch, if_neg (Nat.not_le.mpr h), if_pos left]

theorem branch_succ_of_lt_right {k n p : Nat} (h : 2 ^ k < n) (right : 2 ^ k ≤ p) (g : Nat → α) :
    branch f (k + 1) n g p = branch f k (n - 2 ^ k) (shift g (2 ^ k)) (p - 2 ^ k) ++ [perfect f k g] := by
  simp only [branch, if_neg (Nat.not_le.mpr h), if_neg (Nat.not_lt.mpr right)]

/-- The root a branch leads to from a node at position `i`: bit `j` of `i` says on which side
sibling `j` stands. -/
def fromBranch (h : α) : List α → Nat → α
  | [], _ => h
  | s :: rest, i => fromBranch (if i % 2 = 1 then f s h else f h s) rest (i / 2)

@[simp] theorem length_branch (k n : Nat) (g : Nat → α) (p : Nat) : (branch f k n g p).length = k := by
  induction k generalizing n g p with
  | zero => rfl
  | succ k ih =>
    unfold branch
    split
    · simp [ih]
    · split <;> simp [ih]

/-- The last sibling is met at the bit of the position above all the others. -/
theorem fromBranch_append (h : α) (xs : List α) (s : α) (i : Nat) :
    fromBranch f h (xs ++ [s]) i =
      if i / 2 ^ xs.length % 2 = 1 then f s (fromBranch f h xs i) else f (fromBranch f h xs i) s := by
  induction xs generalizing h i with
  | nil => simp [fromBranch]
  | cons x xs ih =>
    rw [List.cons_append, fromBranch, fromBranch, ih, List.length_cons, Nat.pow_succ, Nat.mul_comm,
      Nat.div_div_eq_div_mul]

/-- A branch reads only the bits of the position below its length. -/
theorem fromBranch_congr (h : α) (xs : List α) {i j : Nat} (same : i % 2 ^ xs.length = j % 2 ^ xs.length) :
    fromBranch f h xs i = fromBranch f h xs j := by
  induction xs generalizing h i j with
  | nil => rfl
  | cons x xs ih =>
    rw [List.length_cons, Nat.pow_succ, Nat.mul_comm] at same
    have low : i % 2 = j % 2 := by
      rw [← Nat.mod_mod_of_dvd i (Nat.dvd_mul_right 2 (2 ^ xs.length)), same, Nat.mod_mod_of_dvd j (Nat.dvd_mul_right 2 _)]
    have high : i / 2 % 2 ^ xs.length = j / 2 % 2 ^ xs.length := by
      rw [← Nat.mod_mul_right_div_self, ← Nat.mod_mul_right_div_self, same]
    rw [fromBranch, fromBranch, low, ih _ high]

/-- The branch of a leaf leads from the leaf to the root. -/
theorem fromBranch_branch {k n : Nat} (g : Nat → α) {p : Nat} (hp : p < n) (hn : n ≤ 2 ^ k) :
    fromBranch f (g p) (branch f k n g p) p = sub f k n g := by
  induction k generalizing n g p with
  | zero =>
    obtain rfl : p = 0 := by rw [Nat.pow_zero] at hn; omega
    rfl
  | succ k ih =>
    have hpow : 2 ^ (k + 1) = 2 ^ k + 2 ^ k := by rw [Nat.pow_succ, Nat.mul_two]
    unfold branch
    rw [sub]
    split
    · rw [fromBranch_append, length_branch, if_neg (by rw [Nat.div_eq_of_lt (by omega)]; decide),
        ih g hp (by assumption)]
    · split
      · rw [fromBranch_append, length_branch, if_neg (by rw [Nat.div_eq_of_lt (by assumption)]; decide),
          ih g (by assumption) (Nat.le_refl _), sub_two_pow]
      · have one : p / 2 ^ k = 1 := Nat.div_eq_of_lt_le (by omega) (by omega)
        have leaf : g p = shift g (2 ^ k) (p - 2 ^ k) := by rw [shift_apply, Nat.sub_add_cancel (by omega)]
        have low : p % 2 ^ k = (p - 2 ^ k) % 2 ^ k := by
          rw [← Nat.add_mod_right (p - 2 ^ k), Nat.sub_add_cancel (by omega)]
        rw [fromBranch_append, length_branch, one, if_pos rfl, leaf,
          fromBranch_congr f _ _ (i := p) (j := p - 2 ^ k) (by rw [length_branch]; exact low),
          ih (shift g (2 ^ k)) (by omega) (by omega)]

/-- Leaf `p` lies in the node of depth `level` over the leaves `[start, stop)`, and `br` is its
branch inside that node: what code that builds a branch from the bottom up, while it builds
the nodes, knows at each step. -/
structure OnPath (g : Nat → α) (p start stop level : Nat) (br : List α) : Prop where
  lo : start ≤ p
  hi : p < stop
  branch_eq : br = branch f level (stop - start) (shift g start) (p - start)

section OnPath

variable {f} {g : Nat → α} {p start stop level : Nat} {br : List α}

/-- A full node of depth `level` and the node over `[mid, stop)` to its right make the node
one level up. -/
theorem sub_succ_eq_pair {mid : Nat} (hmid : mid = start + 2 ^ level) (hstop : mid < stop) :
    f (perfect f level (shift g start)) (sub f level (stop - mid) (shift g mid)) =
      sub f (level + 1) (stop - start) (shift g start) := by
  subst hmid
  rw [sub_succ_of_lt f (by omega), shift_shift, Nat.add_comm (2 ^ level),
    show stop - start - 2 ^ level = stop - (start + 2 ^ level) by omega]

/-- A node whose right half would hold no leaves is paired with its copy. -/
theorem OnPath.copy (h : OnPath f g p start stop level br) (hfit : stop - start ≤ 2 ^ level) :
    OnPath f g p start stop (level + 1) (br ++ [sub f level (stop - start) (shift g start)]) :=
  ⟨h.lo, h.hi, by rw [branch_succ_of_le f hfit, h.branch_eq]⟩

/-- The leaf is in a full left node: its sibling is the node over `[mid, stop)`. -/
theorem OnPath.left {mid : Nat} (h : OnPath f g p start mid level br) (hmid : mid = start + 2 ^ level)
    (hstop : mid < stop) :
    OnPath f g p start stop (level + 1) (br ++ [sub f level (stop - mid) (shift g mid)]) := by
  have hp := h.hi
  have hpos := Nat.two_pow_pos level
  subst hmid
  refine ⟨h.lo, by omega, ?_⟩
  rw [branch_succ_of_lt_left f (by omega) (by omega), shift_shift, h.branch_eq, Nat.add_sub_cancel_left,
    Nat.add_comm (2 ^ level), show stop - start - 2 ^ level = stop - (start + 2 ^ level) by omega]

/-- The leaf is in the right node over `[mid, stop)`: its sibling is the full node to its left. -/
theorem OnPath.right {mid : Nat} (h : OnPath f g p mid stop level br) (hmid : mid = start + 2 ^ level) :
    OnPath f g p start stop (level + 1) (br ++ [perfect f level (shift g start)]) := by
  have hp := h.lo
  have hq := h.hi
  have hpos := Nat.two_pow_pos level
  subst hmid
  refine ⟨by omega, hq, ?_⟩
  rw [branch_succ_of_lt_right f (by omega) (by omega), shift_shift, h.branch_eq, Nat.add_comm (2 ^ level),
    show stop - start - 2 ^ level = stop - (start + 2 ^ level) by omega,
    show p - start - 2 ^ level = p - (start + 2 ^ level) by omega]

end OnPath

/-- Whether a leaf that `m` selects lies below the node. -/
def selects (n : Nat) (m : Nat → Bool) (h pos : Nat) : Bool := (leafRange n h pos).any m

/-- The bits and hashes of the pruned tree below the node, in preorder. -/
def pruned (n : Nat) (g : Nat → α) (m : Nat → Bool) : Nat → Nat → List Bool × List α
  | 0, pos => ([selects n m 0 pos], [g pos])
  | h + 1, pos =>
    if selects n m (h + 1) pos then
      let l := pruned n g m h (2 * pos)
      let r := if 2 * pos + 1 < width n h then pruned n g m h (2 * pos + 1) else ([], [])
      (true :: (l.1 ++ r.1), l.2 ++ r.2)
    else ([false], [node f n g (h + 1) pos])

section Pruned

variable {f} {n : Nat} {g : Nat → α} {m : Nat → Bool}

theorem pruned_succ_of_not (h pos : Nat) (hs : selects n m (h + 1) pos = false) :
    pruned f n g m (h + 1) pos = ([false], [node f n g (h + 1) pos]) := by
  simp [pruned, hs]

theorem pruned_succ_of_lt (h pos : Nat) (hs : selects n m (h + 1) pos = true) (hright : 2 * pos + 1 < width n h) :
    pruned f n g m (h + 1) pos =
      (true :: ((pruned f n g m h (2 * pos)).1 ++ (pruned f n g m h (2 * pos + 1)).1),
        (pruned f n g m h (2 * pos)).2 ++ (pruned f n g m h (2 * pos + 1)).2) := by
  simp [pruned, hs, hright]

theorem pruned_succ_of_le (h pos : Nat) (hs : selects n m (h + 1) pos = true) (hright : ¬2 * pos + 1 < width n h) :
    pruned f n g m (h + 1) pos = (true :: (pruned f n g m h (2 * pos)).1, (pruned f n g m h (2 * pos)).2) := by
  simp [pruned, hs, hright]

/-- Every node of a pruned tree writes a bit, and at least one hash below it. -/
theorem pruned_ne_nil (h pos : Nat) : (pruned f n g m h pos).1 ≠ [] ∧ (pruned f n g m h pos).2 ≠ [] := by
  induction h generalizing pos with
  | zero => simp [pruned]
  | succ h ih =>
    cases hs : selects n m (h + 1) pos with
    | false => simp [pruned_succ_of_not h pos hs]
    | true =>
      by_cases hright : 2 * pos + 1 < width n h
      · simp [pruned_succ_of_lt h pos hs hright, (ih (2 * pos)).2]
      · simp [pruned_succ_of_le h pos hs hright, (ih (2 * pos)).2]

theorem selects_zero {pos : Nat} (hpos : pos < n) : selects n m 0 pos = m pos := by
  simp [selects, leafRange_zero hpos]

/-- A node below which nothing is selected has no selected leaves. -/
theorem filter_leafRange_of_not {h pos : Nat} (hs : selects n m h pos = false) :
    (leafRange n h pos).filter m = [] := by
  rw [List.filter_eq_nil_iff]
  intro p hp
  simpa using List.any_eq_false.mp hs p hp

/-- A node that exists has a leaf below it. -/
theorem one_le_length_leafRange {h pos : Nat} (hpos : pos < width n h) : 1 ≤ (leafRange n h pos).length := by
  rw [lt_width_iff] at hpos
  simp only [leafRange, List.length_range']
  have := Nat.two_pow_pos h
  omega

/-- Every kept hash stands for at least one leaf, and every kept node for at most `h + 1` nodes
per leaf, one on each level. -/
theorem length_pruned_le {h pos : Nat} (hpos : pos < width n h) :
    (pruned f n g m h pos).2.length ≤ (leafRange n h pos).length ∧
      (pruned f n g m h pos).1.length ≤ (h + 1) * (leafRange n h pos).length ∧
      (pruned f n g m h pos).2.length ≤ (pruned f n g m h pos).1.length := by
  have hleaf := one_le_length_leafRange hpos
  induction h generalizing pos with
  | zero => simpa [pruned] using hleaf
  | succ h ih =>
    have hleft : 2 * pos < width n h := by
      rw [lt_width_iff, two_mul_mul_two_pow]
      exact lt_width_iff.mp hpos
    have hL := one_le_length_leafRange hleft
    cases hs : selects n m (h + 1) pos with
    | false =>
      rw [pruned_succ_of_not h pos hs]
      simp only [List.length_singleton]
      exact ⟨hleaf, Nat.le_mul_of_pos_left _ (Nat.succ_pos _) |>.trans' hleaf, Nat.le_refl _⟩
    | true =>
      obtain ⟨l2, l1, l21⟩ := ih hleft hL
      by_cases hright : 2 * pos + 1 < width n h
      · obtain ⟨r2, r1, r21⟩ := ih hright (one_le_length_leafRange hright)
        rw [pruned_succ_of_lt h pos hs hright, leafRange_succ_of_lt (lt_width_iff.mp hright)]
        simp only [List.length_cons, List.length_append]
        refine ⟨by omega, ?_, by omega⟩
        rw [Nat.add_mul (h + 1) 1, Nat.one_mul, Nat.mul_add]
        omega
      · rw [pruned_succ_of_le h pos hs hright, leafRange_succ_of_le (Nat.not_lt.mp (mt lt_width_iff.mpr hright))]
        simp only [List.length_cons]
        refine ⟨l2, ?_, by omega⟩
        rw [Nat.add_mul (h + 1) 1, Nat.one_mul]
        omega

end Pruned

/-- No two sibling nodes of the tree over `n` leaves have the same hash. -/
def DistinctSiblings (n : Nat) (g : Nat → α) : Prop :=
  ∀ h pos, 2 * pos + 1 < width n h → node f n g h (2 * pos) ≠ node f n g h (2 * pos + 1)

end MerkleTree
