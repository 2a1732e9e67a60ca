/-!
# Lower bound by halving

`std::lower_bound` as libstdc++ writes it, on the positions `[first, first + len)` of a
sequence, with `comp i` saying that the element at `i` is below the value sought: while
`len > 0` it looks at the middle `first + len / 2`, and either moves `first` past it or
cuts `len` to the half before it. When `comp` holds on a prefix of the range and fails
after it (`Partitioned`), the result is the end of that prefix.
-/

namespace LowerBound

/-- The loop of `std::__lower_bound`, with fuel. -/
def loop (comp : Nat → Bool) : Nat → Nat → Nat → Nat
  | 0, first, _ => first
  | fuel + 1, first, len =>
    if len > 0 then
      let half := len >>> 1
      let middle := first + half
      if comp middle then loop comp fuel (middle + 1) (len - half - 1)
      else loop comp fuel first half
    else first

/-- `std::lower_bound(first, first + len, val, comp)`; the loop runs at most `len` times. -/
def lowerBound (comp : Nat → Bool) (first len : Nat) : Nat :=
  loop comp len first len

/-- `comp` holds on a prefix of `[lo, hi)` and fails on the rest. -/
def Partitioned (comp : Nat → Bool) (lo hi : Nat) : Prop :=
  ∀ i j, lo ≤ i → i ≤ j → j < hi → comp j = true → comp i = true

variable {comp : Nat → Bool} {lo hi : Nat}

/-- The loop keeps `comp` true below `first` and false from `first + len` on; it stops
with `len = 0`, where the two meet. -/
theorem loop_spec (hp : Partitioned comp lo hi) (fuel first len : Nat) (hlo : lo ≤ first)
    (hhi : first + len ≤ hi) (hfuel : len ≤ fuel)
    (hbelow : ∀ i, lo ≤ i → i < first → comp i = true)
    (habove : ∀ i, first + len ≤ i → i < hi → comp i = false) :
    first ≤ loop comp fuel first len ∧ loop comp fuel first len ≤ first + len ∧
      (∀ i, lo ≤ i → i < loop comp fuel first len → comp i = true) ∧
      ∀ i, loop comp fuel first len ≤ i → i < hi → comp i = false := by
  induction fuel generalizing first len with
  | zero =>
    obtain rfl : len = 0 := by omega
    simp only [loop]
    exact ⟨Nat.le_refl _, Nat.le_add_right _ _, hbelow, fun i hi₁ hi₂ => habove i hi₁ hi₂⟩
  | succ fuel ih =>
    unfold loop
    by_cases hlen : len > 0
    · have hhalf : len >>> 1 = len / 2 := by rw [Nat.shiftRight_eq_div_pow, Nat.pow_one]
      rw [if_pos hlen]
      dsimp only
      rw [hhalf]
      by_cases hmid : comp (first + len / 2) = true
      · rw [if_pos hmid]
        obtain ⟨h₁, h₂, h₃, h₄⟩ := ih (first + len / 2 + 1) (len - len / 2 - 1) (by omega)
          (by omega) (by omega)
          (fun i hli hi' => by
            rcases Nat.lt_or_ge i first with hlt | hge
            · exact hbelow i hli hlt
            · exact hp i (first + len / 2) hli (by omega) (by omega) hmid)
          (fun i hi₁ hi₂ => habove i (by omega) hi₂)
        exact ⟨by omega, by omega, h₃, h₄⟩
      · rw [if_neg hmid]
        have hfalse : comp (first + len / 2) = false := by simpa using hmid
        obtain ⟨h₁, h₂, h₃, h₄⟩ := ih first (len / 2) hlo (by omega) (by omega) hbelow
          (fun i hi₁ hi₂ => by
            rcases Nat.lt_or_ge i (first + len) with hlt | hge
            · cases hci : comp i with
              | false => rfl
              | true =>
                have := hp (first + len / 2) i (by omega) hi₁ hi₂ hci
                rw [hfalse] at this
                cases this
            · exact habove i hge hi₂)
        exact ⟨h₁, by omega, h₃, h₄⟩
    · rw [if_neg hlen]
      obtain rfl : len = 0 := by omega
      exact ⟨Nat.le_refl _, Nat.le_add_right _ _, hbelow, fun i hi₁ hi₂ => habove i hi₁ hi₂⟩

/-- On a partitioned range, `lowerBound` is the end of the prefix where `comp` holds. -/
theorem lowerBound_spec {first len : Nat} (hp : Partitioned comp first (first + len)) :
    first ≤ lowerBound comp first len ∧ lowerBound comp first len ≤ first + len ∧
      (∀ i, first ≤ i → i < lowerBound comp first len → comp i = true) ∧
      ∀ i, lowerBound comp first len ≤ i → i < first + len → comp i = false :=
  loop_spec hp len first len (Nat.le_refl _) (Nat.le_refl _) (Nat.le_refl _)
    (fun _ h₁ h₂ => absurd h₂ (by omega))
    (fun _ h₁ h₂ => absurd h₂ (by omega))

end LowerBound
