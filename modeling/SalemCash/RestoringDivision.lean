import Mathlib.Data.Nat.Size
import Mathlib.Tactic.Ring

/-!
# Restoring division

Long division in base two. The divisor is shifted up until its top bit stands under
the dividend's; then, from that position down to `0`, it is subtracted wherever it
fits, and the quotient gets a one at that position. Before the round at position `s`
the quotient holds its bits above `s` and the remainder is below the divisor shifted
to `s + 1` (`Partial`); after the round at `0` they are the quotient and the remainder
of the division.
-/

namespace RestoringDivision

/-- The rounds of the division of `a` by `d` above position `s` are done: the quotient
`q` has no bit below `s`, and the remainder `num` is below the divisor shifted to `s`. -/
def Partial (a d s num q : Nat) : Prop :=
  ∃ Q, q = 2 ^ s * Q ∧ a = q * d + num ∧ num < d * 2 ^ s

variable {a d s num q : Nat}

theorem Partial.start (h : a < d * 2 ^ s) : Partial a d s a 0 :=
  ⟨0, by simp, by simp, h⟩

/-- The divisor shifted to `s` fits: subtract it and set bit `s`. -/
theorem Partial.subtract (h : Partial a d (s + 1) num q) (hle : d * 2 ^ s ≤ num) :
    Partial a d s (num - d * 2 ^ s) (q ||| 2 ^ s) := by
  obtain ⟨Q, rfl, ha, hnum⟩ := h
  have hor : 2 ^ (s + 1) * Q ||| 2 ^ s = 2 ^ (s + 1) * Q + 2 ^ s :=
    (Nat.two_pow_add_eq_or_of_lt (Nat.pow_lt_pow_succ (by decide)) Q).symm
  have hsucc : d * 2 ^ (s + 1) = d * 2 ^ s + d * 2 ^ s := by rw [Nat.pow_succ]; ring
  refine ⟨2 * Q + 1, ?_, ?_, ?_⟩
  · rw [hor, Nat.pow_succ]
    ring
  · rw [hor, add_mul, Nat.mul_comm (2 ^ s) d]
    omega
  · omega

/-- The divisor shifted to `s` does not fit: the quotient keeps a zero at `s`. -/
theorem Partial.keep (h : Partial a d (s + 1) num q) (hlt : num < d * 2 ^ s) :
    Partial a d s num q := by
  obtain ⟨Q, rfl, ha, -⟩ := h
  exact ⟨2 * Q, by rw [Nat.pow_succ]; ring, ha, hlt⟩

/-- After the round at position `0`: the quotient and the remainder of the division. -/
theorem Partial.finish (h : Partial a d 0 num q) : q = a / d ∧ num = a % d := by
  obtain ⟨Q, -, ha, hnum⟩ := h
  rw [Nat.pow_zero, Nat.mul_one] at hnum
  have hd : 0 < d := by omega
  constructor
  · rw [ha, Nat.add_comm, Nat.add_mul_div_right _ _ hd, Nat.div_eq_of_lt hnum, Nat.zero_add]
  · rw [ha, Nat.add_comm, Nat.add_mul_mod_self_right, Nat.mod_eq_of_lt hnum]

/-- A positive divisor is at least the power of two below its top bit. -/
theorem two_pow_size_sub_one_le (hd : 0 < d) : 2 ^ (d.size - 1) ≤ d := by
  have := Nat.size_pos.mpr hd
  exact Nat.lt_size.mp (by omega)

/-- The divisor shifted one place past the dividend's top bit exceeds the dividend. -/
theorem lt_mul_two_pow_size_sub (hd : 0 < d) (a : Nat) :
    a < d * 2 ^ (a.size - d.size + 1) := by
  have hsize := Nat.size_pos.mpr hd
  calc a < 2 ^ a.size := Nat.lt_size_self a
    _ ≤ 2 ^ (d.size - 1 + (a.size - d.size + 1)) := Nat.pow_le_pow_right (by decide) (by omega)
    _ = 2 ^ (d.size - 1) * 2 ^ (a.size - d.size + 1) := Nat.pow_add _ _ _
    _ ≤ d * 2 ^ (a.size - d.size + 1) := Nat.mul_le_mul_right _ (two_pow_size_sub_one_le hd)

/-- The divisor shifted under the dividend's top bit stays below any power of two above
the dividend. -/
theorem mul_two_pow_size_sub_lt {w : Nat} (ha : a < 2 ^ w) (hle : d.size ≤ a.size) :
    d * 2 ^ (a.size - d.size) < 2 ^ w := by
  have haw : a.size ≤ w := Nat.size_le.mpr ha
  calc d * 2 ^ (a.size - d.size) < 2 ^ d.size * 2 ^ (a.size - d.size) :=
        Nat.mul_lt_mul_of_pos_right (Nat.lt_size_self d) (Nat.two_pow_pos _)
    _ = 2 ^ a.size := by rw [← Nat.pow_add, Nat.add_sub_cancel' hle]
    _ ≤ 2 ^ w := Nat.pow_le_pow_right (by decide) haw

/-- A divisor with more bits than the dividend exceeds it. -/
theorem lt_of_size_lt (h : a.size < d.size) : a < d :=
  calc a < 2 ^ a.size := Nat.lt_size_self a
    _ ≤ 2 ^ (d.size - 1) := Nat.pow_le_pow_right (by decide) (by omega)
    _ ≤ d := two_pow_size_sub_one_le (Nat.size_pos.mp (by omega))

end RestoringDivision
