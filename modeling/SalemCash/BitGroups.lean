import Mathlib.Data.Nat.Digits.Lemmas
import Mathlib.Tactic.Ring

/-!
# Numbers as groups of bits

A list of `w`-bit digits, most significant first, spells the number `value w ds`.
Regrouping code reads digits of one width into an accumulator, shifting and masking it,
and emits digits of another width from its top bits. `Pending` says what such an
accumulator holds between steps: the digits emitted so far spell the number read so far
without its last `bits` bits, and those bits are the accumulator's low bits. Reading,
emitting and padding keep it (`Pending.read`, `Pending.emit`, `Pending.pad`).
-/

namespace BitGroups

/-- The number the `w`-bit digits `ds` spell, most significant first. -/
def value (w : Nat) (ds : List Nat) : Nat := Nat.ofDigits (2 ^ w) ds.reverse

@[simp] theorem value_nil (w : Nat) : value w [] = 0 := rfl

@[simp] theorem value_append_singleton (w : Nat) (ds : List Nat) (d : Nat) :
    value w (ds ++ [d]) = value w ds * 2 ^ w + d := by
  rw [value, value, List.reverse_append, List.reverse_singleton, List.singleton_append,
    Nat.ofDigits_cons]
  ring

theorem value_cons (w d : Nat) (ds : List Nat) :
    value w (d :: ds) = d * 2 ^ (w * ds.length) + value w ds := by
  rw [value, value, List.reverse_cons, Nat.ofDigits_append, Nat.ofDigits_singleton,
    List.length_reverse, ← pow_mul]
  ring

/-- Digits of one width and one length are determined by their number. -/
theorem value_inj {w : Nat} (positive : 0 < w) {ds es : List Nat} (length : ds.length = es.length)
    (ds_lt : ∀ d ∈ ds, d < 2 ^ w) (es_lt : ∀ e ∈ es, e < 2 ^ w) (same : value w ds = value w es) :
    ds = es :=
  List.reverse_inj.mp (Nat.ofDigits_inj_of_len_eq (Nat.one_lt_two_pow positive.ne')
    (by simpa using length) (fun d mem => ds_lt d (List.mem_reverse.mp mem))
    (fun e mem => es_lt e (List.mem_reverse.mp mem)) same)

theorem shiftLeft_or {a x n : Nat} (small : x < 2 ^ n) : a <<< n ||| x = a * 2 ^ n + x := by
  rw [← Nat.shiftLeft_add_eq_or_of_lt small, Nat.shiftLeft_eq]

theorem and_mask (x n : Nat) : x &&& ((1 <<< n) - 1) = x % 2 ^ n := by
  rw [Nat.one_shiftLeft, Nat.and_two_pow_sub_one_eq_mod]

/-- Two lengths of whole groups plus a remainder shorter than a group are equal only
part by part. -/
theorem mul_add_eq_mul_add {t a b c d : Nat} (hb : b < t) (hd : d < t) (eq : t * a + b = t * c + d) :
    a = c ∧ b = d := by
  have first := (Nat.div_mod_unique (by omega : 0 < t)).mpr ⟨(by omega : b + t * a = t * c + d), hb⟩
  have second := (Nat.div_mod_unique (by omega : 0 < t)).mpr ⟨(by ring : d + t * c = t * c + d), hd⟩
  exact ⟨first.1.symm.trans second.1, first.2.symm.trans second.2⟩

/-- The `t`-bit digits `out` spell `V` without its last `bits` bits, and `acc` agrees with
`V` on those bits. -/
structure Pending (t V : Nat) (out : List Nat) (acc bits : Nat) : Prop where
  lt : ∀ d ∈ out, d < 2 ^ t
  value : value t out = V / 2 ^ bits
  low : acc ≡ V [MOD 2 ^ bits]

variable {t V acc bits : Nat} {out : List Nat}

theorem Pending.start (t acc : Nat) : Pending t 0 [] acc 0 where
  lt := by simp
  value := rfl
  low := Nat.modEq_one

/-- Read the digit `x` of width `f` into an accumulator masked to `m ≥ bits + f` bits. -/
theorem Pending.read {x f m : Nat} (pending : Pending t V out acc bits) (small : x < 2 ^ f)
    (fits : bits + f ≤ m) : Pending t (V * 2 ^ f + x) out ((acc * 2 ^ f + x) % 2 ^ m) (bits + f) where
  lt := pending.lt
  value := by
    rw [pending.value, pow_add, mul_comm (2 ^ bits) (2 ^ f), ← Nat.div_div_eq_div_mul, add_comm,
      Nat.add_mul_div_right _ _ (Nat.two_pow_pos f), Nat.div_eq_of_lt small, zero_add]
  low := by
    have masked : (acc * 2 ^ f + x) % 2 ^ m ≡ acc * 2 ^ f + x [MOD 2 ^ (bits + f)] :=
      Nat.ModEq.of_dvd (Nat.pow_dvd_pow 2 fits) (Nat.mod_modEq _ _)
    have shifted : acc * 2 ^ f + x ≡ V * 2 ^ f + x [MOD 2 ^ (bits + f)] := by
      rw [pow_add]
      exact (pending.low.mul_right' (2 ^ f)).add_right x
    exact masked.trans shifted

/-- The group of the top `t` of the pending bits. -/
theorem group_eq (le : t ≤ bits) (low : acc ≡ V [MOD 2 ^ bits]) :
    acc / 2 ^ (bits - t) % 2 ^ t = V / 2 ^ (bits - t) % 2 ^ t := by
  have split : 2 ^ bits = 2 ^ (bits - t) * 2 ^ t := by rw [← pow_add, Nat.sub_add_cancel le]
  rw [← Nat.mod_mul_right_div_self, ← Nat.mod_mul_right_div_self, ← split, low]

/-- Emit the top `t` of the pending bits as a digit. -/
theorem Pending.emit (pending : Pending t V out acc bits) (le : t ≤ bits) :
    Pending t V (out ++ [acc / 2 ^ (bits - t) % 2 ^ t]) acc (bits - t) where
  lt d mem := by
    rcases List.mem_append.mp mem with mem | mem
    · exact pending.lt d mem
    · rw [List.mem_singleton.mp mem]
      exact Nat.mod_lt _ (Nat.two_pow_pos t)
  value := by
    have above : V / 2 ^ bits = V / 2 ^ (bits - t) / 2 ^ t := by
      rw [Nat.div_div_eq_div_mul, ← pow_add, Nat.sub_add_cancel le]
    rw [value_append_singleton, pending.value, group_eq le pending.low, above, Nat.div_add_mod']
  low := Nat.ModEq.of_dvd (Nat.pow_dvd_pow 2 (Nat.sub_le bits t)) pending.low

/-- The pending bits moved to the top of one more digit, with zero bits below. -/
theorem last_group (le : bits ≤ t) (low : acc ≡ V [MOD 2 ^ bits]) :
    acc * 2 ^ (t - bits) % 2 ^ t = V % 2 ^ bits * 2 ^ (t - bits) := by
  have split : 2 ^ t = 2 ^ bits * 2 ^ (t - bits) := by rw [← pow_add, Nat.add_sub_cancel' le]
  rw [split, Nat.mul_mod_mul_right, low]

/-- Padding the pending bits to a whole digit multiplies the number by the zero bits added. -/
theorem Pending.pad (pending : Pending t V out acc bits) (le : bits ≤ t) :
    BitGroups.value t (out ++ [acc * 2 ^ (t - bits) % 2 ^ t]) = V * 2 ^ (t - bits) := by
  rw [value_append_singleton, pending.value, last_group le pending.low]
  have split : 2 ^ t = 2 ^ bits * 2 ^ (t - bits) := by rw [← pow_add, Nat.add_sub_cancel' le]
  rw [split, ← mul_assoc, ← add_mul, Nat.div_add_mod']

/-- The padded last digit is zero exactly when the pending bits are. -/
theorem Pending.pad_eq_zero_iff (pending : Pending t V out acc bits) (le : bits ≤ t) :
    acc * 2 ^ (t - bits) % 2 ^ t = 0 ↔ V % 2 ^ bits = 0 := by
  rw [last_group le pending.low, Nat.mul_eq_zero]
  simp

end BitGroups
