import Mathlib.Algebra.BigOperators.Group.Finset.Basic

/-!
# Heights grouped in periods

Consensus rules that change every `n` blocks read a height through its period
index `h / n`. A sum over whole periods of such a quantity is a sum over the
period indices, each counted `n` times; a sum that runs past the heights where
the quantity vanishes is the sum up to them.
-/
namespace Periods

variable {M : Type} [AddCommMonoid M]

/-- Summing over `k` periods of length `n` a function of the period index. -/
theorem sum_range_mul_div (g : ℕ → M) {n : ℕ} (hn : 0 < n) (k : ℕ) :
    ∑ h ∈ Finset.range (k * n), g (h / n) = ∑ j ∈ Finset.range k, n • g j := by
  induction k with
  | zero => simp
  | succ k ih =>
    rw [Nat.succ_mul, Finset.sum_range_add, ih, Finset.sum_range_succ]
    congr 1
    have hdiv : ∀ x ∈ Finset.range n, (k * n + x) / n = k := by
      intro x hx
      rw [Finset.mem_range] at hx
      rw [Nat.add_comm, Nat.add_mul_div_right _ _ hn, Nat.div_eq_of_lt hx, Nat.zero_add]
    rw [Finset.sum_congr rfl fun x hx => congrArg g (hdiv x hx)]
    simp

/-- A sum over the first `n` heights of a quantity that is zero from `m` on is the sum
over the first `m`. -/
theorem sum_range_eq_of_zero {f : ℕ → M} {m n : ℕ} (hmn : m ≤ n)
    (hzero : ∀ h, m ≤ h → f h = 0) :
    ∑ h ∈ Finset.range n, f h = ∑ h ∈ Finset.range m, f h := by
  refine (Finset.sum_subset (Finset.range_subset_range.mpr hmn) fun h _ hh => ?_).symm
  rw [Finset.mem_range, not_lt] at hh
  exact hzero h hh

end Periods
