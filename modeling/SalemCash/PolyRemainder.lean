import Mathlib.Algebra.Polynomial.Div

/-!
# Remainders of polynomials built by Horner's rule

A list read one element at a time, each step multiplying by `X` and adding the next
coefficient, is Horner's rule (`horner`). Modulo a monic `G` of degree `n + 1`, one step on a
remainder `r` is `r * X + C a` less `C (r.coeff n) * G` (`modByMonic_mul_X_add_C`), which is
how a checksum register reduces as it shifts. The remainder of a Horner sum depends only on the
remainder of where it starts (`modByMonic_horner`). When the constant term of `G` is no zero
divisor, `G` divides no non-zero constant times a power of `X` (`not_dvd_C_mul_X_pow`), so a
code with generator `G` detects every change of one coefficient.
-/

namespace PolyRemainder

open Polynomial

variable {R : Type*} [CommRing R] {α : Type*}

/-- Horner's rule from `p`: each element of the list is the next coefficient, through `f`. -/
noncomputable def horner (f : α → R) (p : R[X]) (xs : List α) : R[X] :=
  xs.foldl (fun p a => p * X + C (f a)) p

section Horner

variable (f : α → R)

@[simp] theorem horner_nil (p : R[X]) : horner f p [] = p := rfl

theorem horner_cons (p : R[X]) (a : α) (xs : List α) :
    horner f p (a :: xs) = horner f (p * X + C (f a)) xs := rfl

theorem horner_append (p : R[X]) (xs ys : List α) : horner f p (xs ++ ys) = horner f (horner f p xs) ys := by
  rw [horner, List.foldl_append]
  rfl

/-- The start is shifted up past the whole list. -/
theorem horner_eq (p : R[X]) (xs : List α) : horner f p xs = p * X ^ xs.length + horner f 0 xs := by
  induction xs generalizing p with
  | nil => simp
  | cons a xs ih =>
    rw [horner_cons, horner_cons, ih, ih (0 * X + C (f a)), List.length_cons, pow_succ]
    ring

/-- Horner's rule from `0` is the sum of each coefficient times its power of `X`, the first
element the highest. -/
theorem horner_zero_eq_sum (xs : List α) :
    horner f 0 xs = ∑ i : Fin xs.length, C (f xs[i]) * X ^ (xs.length - 1 - i) := by
  induction xs with
  | nil => simp
  | cons a xs ih =>
    show _ = ∑ i : Fin (xs.length + 1), C (f (a :: xs)[i]) * X ^ (xs.length + 1 - 1 - i)
    rw [horner_cons, horner_eq, ih, Fin.sum_univ_succ]
    simp only [zero_mul, zero_add, Fin.val_zero, Fin.getElem_fin, Fin.val_succ, List.getElem_cons_zero,
      List.getElem_cons_succ]
    congr 1
    exact Finset.sum_congr rfl fun i _ => by rw [show xs.length + 1 - 1 - (i + 1) = xs.length - 1 - i by omega]

theorem horner_zero_cons (a : α) (xs : List α) :
    horner f 0 (a :: xs) = C (f a) * X ^ xs.length + horner f 0 xs := by
  rw [horner_cons, horner_eq, zero_mul, zero_add]

theorem degree_horner_zero_lt (xs : List α) : (horner f 0 xs).degree < xs.length := by
  induction xs with
  | nil => simp
  | cons a xs ih =>
    rw [horner_zero_cons, List.length_cons]
    refine lt_of_le_of_lt (degree_add_le _ _) (max_lt ?_ (ih.trans (by exact_mod_cast Nat.lt_succ_self _)))
    exact lt_of_le_of_lt (degree_C_mul_X_pow_le _ _) (by exact_mod_cast Nat.lt_succ_self _)

/-- Element `i` is the coefficient of `X ^ (xs.length - 1 - i)`. -/
theorem coeff_horner_zero (xs : List α) {i : ℕ} (hi : i < xs.length) :
    (horner f 0 xs).coeff (xs.length - 1 - i) = f xs[i] := by
  induction xs generalizing i with
  | nil => exact absurd hi (Nat.not_lt_zero i)
  | cons a xs ih =>
    rw [horner_zero_cons, coeff_add, coeff_C_mul_X_pow]
    cases i with
    | zero =>
      rw [List.length_cons, show xs.length + 1 - 1 - 0 = xs.length by omega, if_pos rfl,
        coeff_eq_zero_of_degree_lt (degree_horner_zero_lt f xs), add_zero, List.getElem_cons_zero]
    | succ i =>
      have inside : i < xs.length := by simpa using hi
      rw [List.length_cons, show xs.length + 1 - 1 - (i + 1) = xs.length - 1 - i by omega, if_neg (by omega),
        zero_add, ih inside, List.getElem_cons_succ]

/-- Lists of one length whose elements `f` tells apart have different Horner sums. -/
theorem horner_zero_injective {xs ys : List α} (length : xs.length = ys.length)
    (inj : ∀ a ∈ xs, ∀ b ∈ ys, f a = f b → a = b) (same : horner f 0 xs = horner f 0 ys) : xs = ys := by
  apply List.ext_getElem length
  intro i hx hy
  apply inj _ (List.getElem_mem hx) _ (List.getElem_mem hy)
  rw [← coeff_horner_zero f xs hx, ← coeff_horner_zero f ys hy, same, length]

/-- Changing the element at `k` changes the sum by the difference of the two coefficients at the
power of that position. -/
theorem horner_set (p : R[X]) (xs : List α) {k : ℕ} (hk : k < xs.length) (a : α) :
    horner f p (xs.set k a) = horner f p xs + C (f a - f xs[k]) * X ^ (xs.length - 1 - k) := by
  induction xs generalizing p k with
  | nil => exact absurd hk (Nat.not_lt_zero k)
  | cons x xs ih =>
    cases k with
    | zero =>
      rw [List.set_cons_zero, horner_cons, horner_cons, horner_eq, horner_eq f (p * X + C (f x)), C_sub,
        List.length_cons, List.getElem_cons_zero, show xs.length + 1 - 1 - 0 = xs.length by omega]
      ring
    | succ k =>
      rw [List.set_cons_succ, horner_cons, horner_cons, ih _ (by simpa using hk), List.getElem_cons_succ,
        show (x :: xs).length - 1 - (k + 1) = xs.length - 1 - k by simp only [List.length_cons]; omega]

end Horner

variable {G : R[X]}

/-- The remainder of a Horner sum depends only on the remainder of its start. -/
theorem modByMonic_horner (f : α → R) (monic : G.Monic) (p : R[X]) (xs : List α) :
    horner f p xs %ₘ G = horner f (p %ₘ G) xs %ₘ G := by
  apply modByMonic_eq_of_dvd_sub monic
  rw [horner_eq, horner_eq f (p %ₘ G), add_sub_add_right_eq_sub, ← sub_mul]
  apply Dvd.dvd.mul_right
  exact ⟨p /ₘ G, by rw [sub_eq_iff_eq_add', modByMonic_add_div]⟩

variable [Nontrivial R] {n : ℕ}

/-- One step of Horner's rule on a remainder, reduced: the coefficient that moves up to degree
`n + 1` is cancelled by that multiple of `G`. -/
theorem modByMonic_mul_X_add_C (monic : G.Monic) (degree : G.natDegree = n + 1) {r : R[X]}
    (small : r.degree < ↑(n + 1)) (a : R) :
    (r * X + C a) %ₘ G = r * X + C a - C (r.coeff n) * G := by
  refine (div_modByMonic_unique (C (r.coeff n)) _ monic ⟨by ring, ?_⟩).2
  rw [degree_eq_natDegree monic.ne_zero, degree, degree_lt_iff_coeff_zero]
  intro m le
  obtain ⟨k, rfl⟩ : ∃ k, m = k + 1 := ⟨m - 1, by omega⟩
  rw [coeff_sub, coeff_add, coeff_mul_X, coeff_C, if_neg (Nat.succ_ne_zero k), coeff_C_mul]
  by_cases top : k = n
  · subst top
    rw [← degree, monic.coeff_natDegree]
    ring
  · have above : (↑(n + 1) : WithBot ℕ) ≤ ↑k := by exact_mod_cast (show n + 1 ≤ k by omega)
    rw [coeff_eq_zero_of_degree_lt (lt_of_lt_of_le small above), coeff_eq_zero_of_natDegree_lt (p := G) (n := k + 1) (by omega)]
    ring

/-- With a constant term that is no zero divisor, `G` divides no non-zero constant times a power
of `X`. The induction is on the power: each step is one reduced step of Horner's rule, whose
constant coefficient is the top coefficient times the constant term of `G`. -/
theorem not_dvd_C_mul_X_pow (monic : G.Monic) (degree : G.natDegree = n + 1)
    (cancel : ∀ y : R, G.coeff 0 * y = 0 → y = 0) {u : R} (nonzero : u ≠ 0) (m : ℕ) :
    ¬ G ∣ C u * X ^ m := by
  have degreeG : G.degree = ↑(n + 1) := by rw [degree_eq_natDegree monic.ne_zero, degree]
  rw [← modByMonic_eq_zero_iff_dvd monic]
  induction m with
  | zero =>
    have constant : (C u).degree < G.degree := by
      rw [degreeG]
      exact lt_of_le_of_lt degree_C_le (by exact_mod_cast Nat.succ_pos n)
    rw [pow_zero, mul_one, (modByMonic_eq_self_iff monic).mpr constant]
    exact C_ne_zero.mpr nonzero
  | succ m ih =>
    set r := C u * X ^ m %ₘ G
    have step : C u * X ^ (m + 1) %ₘ G = (r * X + C 0) %ₘ G := by
      have shifted := modByMonic_horner id monic (C u * X ^ m) [(0 : R)]
      simp only [horner_cons, horner_nil, id] at shifted
      rw [pow_succ, ← mul_assoc, ← add_zero (C u * X ^ m * X), ← C_0, shifted]
    have small : r.degree < ↑(n + 1) := degreeG ▸ degree_modByMonic_lt _ monic
    rw [step, modByMonic_mul_X_add_C monic degree small]
    intro zero
    have low := congrArg (coeff · 0) zero
    simp only [coeff_sub, coeff_add, coeff_mul_X_zero, coeff_C_zero, coeff_C_mul, coeff_zero, zero_add,
      zero_sub, neg_eq_zero] at low
    have top : r.coeff n = 0 := cancel _ (by rw [mul_comm]; exact low)
    rw [top, C_0, zero_mul, sub_zero, add_zero] at zero
    apply ih
    ext k
    rw [← coeff_mul_X r k, zero, coeff_zero, coeff_zero]

/-- A code whose words are Horner sums with remainder fixed by `G` detects every change of one
element that changes its coefficient. -/
theorem horner_set_modByMonic_ne (f : α → R) (monic : G.Monic) (degree : G.natDegree = n + 1)
    (cancel : ∀ y : R, G.coeff 0 * y = 0 → y = 0) (p : R[X]) {xs : List α} {k : ℕ} (hk : k < xs.length)
    {a : α} (changed : f a ≠ f xs[k]) :
    horner f p (xs.set k a) %ₘ G ≠ horner f p xs %ₘ G := by
  intro same
  apply not_dvd_C_mul_X_pow monic degree cancel (sub_ne_zero.mpr changed) (xs.length - 1 - k)
  rw [← modByMonic_eq_zero_iff_dvd monic, ← add_sub_cancel_left (horner f p xs) (C (f a - f xs[k]) * _),
    ← horner_set f p xs hk a, sub_modByMonic, same, sub_self]

end PolyRemainder
