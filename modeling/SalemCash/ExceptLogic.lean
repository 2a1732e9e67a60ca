import Mathlib.Logic.Basic
import Mathlib.Tactic.GCongr

/-!
# Two logics for fallible computations

Programs that stop at the first failed check are modelled in `Except ε`.
Two relations over such computations carry the proofs about them.

`Refines m m'` says that every success of `m'` is also a success of `m`, with
the same value: `m` checks no more than `m'` does. A computation that only
adds failure branches to another one is refined by it.

`Spec m Q E` is the weakest-precondition reading of one run: a success
satisfies `Q` and a failure satisfies `E`. Its bind rule threads the facts a
guard establishes into the rest of the program.
-/
namespace ExceptLogic

variable {ε α β : Type}

@[simp] theorem ok_bind (a : α) (f : α → Except ε β) :
    (Except.ok a >>= f) = f a := rfl

@[simp] theorem error_bind (e : ε) (f : α → Except ε β) :
    (Except.error e >>= f : Except ε β) = .error e := rfl

@[simp] theorem pure_eq_ok (a : α) : (pure a : Except ε α) = .ok a := rfl

@[simp] theorem throw_eq_error (e : ε) : (throw e : Except ε α) = .error e := rfl

theorem bind_eq_ok {m : Except ε α} {f : α → Except ε β} {b : β} :
    (m >>= f) = .ok b ↔ ∃ a, m = .ok a ∧ f a = .ok b := by
  cases m with
  | error e => simp
  | ok a => simp

/-- Every success of `m'` is a success of `m` with the same value. -/
def Refines (m m' : Except ε α) : Prop :=
  ∀ a, m' = .ok a → m = .ok a

@[refl] theorem Refines.refl (m : Except ε α) : Refines m m := fun _ h => h

theorem Refines.trans {m m' m'' : Except ε α} (h : Refines m m') (h' : Refines m' m'') :
    Refines m m'' := fun a ha => h a (h' a ha)

theorem Refines.of_error (m : Except ε α) (e : ε) : Refines m (.error e) := by
  intro a h
  cases h

/-- A computation that can only succeed with `a` is refined by `pure a`. -/
theorem Refines.pure_of {m' : Except ε α} {a : α} (h : ∀ b, m' = .ok b → b = a) :
    Refines (pure a) m' := by
  intro b hb
  rw [h b hb]
  rfl

@[gcongr] theorem Refines.bind {m m' : Except ε α} {f f' : α → Except ε β}
    (hm : Refines m m') (hf : ∀ a, Refines (f a) (f' a)) :
    Refines (m >>= f) (m' >>= f') := by
  intro b hb
  obtain ⟨a, ha, hfa⟩ := bind_eq_ok.mp hb
  rw [hm a ha, ok_bind]
  exact hf a b hfa

theorem Refines.ite {c c' : Prop} [Decidable c] [Decidable c'] {m₁ m₂ m₁' m₂' : Except ε α}
    (hc : c ↔ c') (h₁ : Refines m₁ m₁') (h₂ : Refines m₂ m₂') :
    Refines (if c then m₁ else m₂) (if c' then m₁' else m₂') := by
  by_cases h : c
  · rw [if_pos h, if_pos (hc.mp h)]
    exact h₁
  · rw [if_neg h, if_neg (fun h' => h (hc.mpr h'))]
    exact h₂

/-- The congruence rule for a condition shared by both sides, for `gcongr`. -/
@[gcongr] theorem Refines.ite_same {c : Prop} [Decidable c] {m₁ m₂ m₁' m₂' : Except ε α}
    (h₁ : Refines m₁ m₁') (h₂ : Refines m₂ m₂') :
    Refines (if c then m₁ else m₂) (if c then m₁' else m₂') :=
  Refines.ite Iff.rfl h₁ h₂

/-- A guard `if c then throw e` is refined by a stronger guard `if c' then throw e'`. -/
theorem Refines.guard {c c' : Prop} [Decidable c] [Decidable c'] {e e' : ε}
    {m m' : Except ε α} (hc : c → c') (h : Refines m m') :
    Refines (if c then .error e else m) (if c' then .error e' else m') := by
  by_cases h' : c'
  · rw [if_pos h']
    exact Refines.of_error _ _
  · rw [if_neg (fun hc' => h' (hc hc')), if_neg h']
    exact h

/-- A check `m` run before the rest only removes successes. -/
theorem Refines.of_bind {k : Except ε α} {m : Except ε β} {f : β → Except ε α}
    (h : ∀ b, Refines k (f b)) : Refines k (m >>= f) := by
  intro a ha
  obtain ⟨b, -, hb⟩ := bind_eq_ok.mp ha
  exact h b a hb

/-- A check run only when `c` holds is refined by the same check run whenever `c'`
holds, for a weaker `c'`. -/
theorem Refines.when_mono {c c' : Prop} [Decidable c] [Decidable c'] {m : Except ε Unit}
    (hc : c → c') : Refines (if c then m else pure ()) (if c' then m else pure ()) := by
  by_cases h : c
  · rw [if_pos h, if_pos (hc h)]
  · rw [if_neg h]
    exact Refines.pure_of fun _ _ => rfl

/-- The shape `do` gives to `if c then m` followed by the rest: the check is refined by
the same check under a weaker condition `c'`, provided that the rest after `m` on the
right refines the rest that the left runs when it skips the check. -/
theorem Refines.when_bind {c c' : Prop} [Decidable c] [Decidable c'] {m : Except ε β}
    {g g' : β → Except ε α} {k k' : Except ε α} (hc : c → c')
    (hg : ∀ b, Refines (g b) (g' b)) (hk : Refines k k') (hgk : ∀ b, Refines k (g' b)) :
    Refines (if c then m >>= g else k) (if c' then m >>= g' else k') := by
  by_cases h' : c'
  · rw [if_pos h']
    by_cases hc' : c
    · rw [if_pos hc']
      exact Refines.bind (Refines.refl m) hg
    · rw [if_neg hc']
      exact Refines.of_bind hgk
  · rw [if_neg (fun hc' => h' (hc hc')), if_neg h']
    exact hk

/-- `Refines.when_bind` for a check whose result the rest ignores. -/
theorem Refines.when_seq {c c' : Prop} [Decidable c] [Decidable c'] (m : Except ε β)
    {k k' : Except ε α} (hc : c → c') (h : Refines k k') :
    Refines (if c then m >>= fun _ => k else k) (if c' then m >>= fun _ => k' else k') :=
  Refines.when_bind hc (fun _ => h) h fun _ => h

/-- A check that only one side makes. -/
theorem Refines.of_when {c : Prop} [Decidable c] (m : Except ε β) {k k' : Except ε α}
    (h : Refines k k') : Refines k (if c then m >>= fun _ => k' else k') := by
  split
  · exact Refines.of_bind fun _ => h
  · exact h

@[gcongr] theorem Refines.dite_same {c : Prop} [Decidable c] {m₁ m₁' : c → Except ε α}
    {m₂ m₂' : ¬c → Except ε α} (h₁ : ∀ hc, Refines (m₁ hc) (m₁' hc))
    (h₂ : ∀ hc, Refines (m₂ hc) (m₂' hc)) : Refines (dite c m₁ m₂) (dite c m₁' m₂') := by
  by_cases hc : c
  · rw [dif_pos hc, dif_pos hc]
    exact h₁ hc
  · rw [dif_neg hc, dif_neg hc]
    exact h₂ hc

/-- Every success of `m'` is matched by a success of `m` related to it by `R`. With
`R` the equality this is `Refines`; a weaker `R` forgets the parts of the results that
the rest of the program does not read. -/
def RefinesBy {γ : Type} (R : α → γ → Prop) (m : Except ε α) (m' : Except ε γ) : Prop :=
  ∀ b, m' = .ok b → ∃ a, m = .ok a ∧ R a b

section RefinesBy

variable {γ δ : Type} {R : α → γ → Prop} {S : β → δ → Prop}

theorem Refines.refinesBy {m m' : Except ε α} {R : α → α → Prop} (h : Refines m m')
    (hR : ∀ a, R a a) : RefinesBy R m m' :=
  fun a ha => ⟨a, h a ha, hR a⟩

/-- On `Unit` the relation does not matter. -/
theorem RefinesBy.refines {m m' : Except ε Unit} {R : Unit → Unit → Prop}
    (h : RefinesBy R m m') : Refines m m' := by
  intro u hu
  obtain ⟨v, hv, -⟩ := h u hu
  rw [hv]

theorem RefinesBy.pure {a : α} {m' : Except ε γ} (h : ∀ b, m' = .ok b → R a b) :
    RefinesBy R (pure a) m' :=
  fun b hb => ⟨a, rfl, h b hb⟩

theorem RefinesBy.bind {m : Except ε α} {m' : Except ε γ} {f : α → Except ε β}
    {f' : γ → Except ε δ} (hm : RefinesBy R m m') (hf : ∀ a b, R a b → RefinesBy S (f a) (f' b)) :
    RefinesBy S (m >>= f) (m' >>= f') := by
  intro d hd
  obtain ⟨b, hb, hfb⟩ := bind_eq_ok.mp hd
  obtain ⟨a, ha, hab⟩ := hm b hb
  rw [ha, ok_bind]
  exact hf a b hab d hfb

/-- A `Refines` prefix followed by continuations related by `RefinesBy`. -/
theorem RefinesBy.bind_refines {m m' : Except ε α} {f : α → Except ε β} {f' : α → Except ε δ}
    (hm : Refines m m') (hf : ∀ a, RefinesBy S (f a) (f' a)) :
    RefinesBy S (m >>= f) (m' >>= f') :=
  RefinesBy.bind (hm.refinesBy (R := Eq) fun _ => rfl) fun a _ hab => hab ▸ hf a

theorem RefinesBy.ite_same {c : Prop} [Decidable c] {m₁ m₂ : Except ε α} {m₁' m₂' : Except ε γ}
    (h₁ : RefinesBy R m₁ m₁') (h₂ : RefinesBy R m₂ m₂') :
    RefinesBy R (if c then m₁ else m₂) (if c then m₁' else m₂') := by
  split
  · exact h₁
  · exact h₂

/-- The shape `do` gives to `let x ← if c then m₁ else m₂` followed by the rest. -/
theorem RefinesBy.ite_bind {c c' : Prop} [Decidable c] [Decidable c']
    {m₁ m₂ : Except ε α} {m₁' m₂' : Except ε γ} {f : α → Except ε β} {f' : γ → Except ε δ}
    (hm : RefinesBy R (if c then m₁ else m₂) (if c' then m₁' else m₂'))
    (hf : ∀ a b, R a b → RefinesBy S (f a) (f' b)) :
    RefinesBy S (if c then m₁ >>= f else m₂ >>= f) (if c' then m₁' >>= f' else m₂' >>= f') := by
  have hl : (if c then m₁ >>= f else m₂ >>= f) = (if c then m₁ else m₂) >>= f := by
    split <;> rfl
  have hr : (if c' then m₁' >>= f' else m₂' >>= f') = (if c' then m₁' else m₂') >>= f' := by
    split <;> rfl
  rw [hl, hr]
  exact RefinesBy.bind hm hf

/-- `Refines.guard` up to a relation. -/
theorem RefinesBy.guard {c c' : Prop} [Decidable c] [Decidable c'] {e e' : ε}
    {m : Except ε α} {m' : Except ε γ} (hc : c → c') (h : RefinesBy R m m') :
    RefinesBy R (if c then .error e else m) (if c' then .error e' else m') := by
  by_cases h' : c'
  · rw [if_pos h']
    intro b hb
    cases hb
  · rw [if_neg (fun hc' => h' (hc hc')), if_neg h']
    exact h

end RefinesBy

/-- A run of `m` ends in a success satisfying `Q` or a failure satisfying `E`. -/
def Spec (m : Except ε α) (Q : α → Prop) (E : ε → Prop) : Prop :=
  match m with
  | .ok a => Q a
  | .error e => E e

variable {Q Q' : α → Prop} {E E' : ε → Prop}

@[simp] theorem Spec.ok_iff (a : α) : Spec (.ok a) Q E ↔ Q a := Iff.rfl

@[simp] theorem Spec.error_iff (e : ε) : Spec (.error e : Except ε α) Q E ↔ E e := Iff.rfl

theorem Spec.pure {a : α} (h : Q a) : Spec (pure a) Q E := h

theorem Spec.throw {e : ε} (h : E e) : Spec (throw e : Except ε α) Q E := h

theorem Spec.mono {m : Except ε α} (h : Spec m Q E) (hQ : ∀ a, Q a → Q' a)
    (hE : ∀ e, E e → E' e) : Spec m Q' E' := by
  cases m with
  | ok a => exact hQ a h
  | error e => exact hE e h

theorem Spec.bind {m : Except ε α} {f : α → Except ε β} {R : β → Prop}
    (h : Spec m (fun a => Spec (f a) R E) E) : Spec (m >>= f) R E := by
  cases m with
  | ok a => exact h
  | error e => exact h

/-- The bind rule in the form proofs use it: the postcondition of the first step is
what the rest may assume. -/
theorem Spec.bind_of {m : Except ε α} {f : α → Except ε β} {R : β → Prop}
    (hm : Spec m Q E) (hf : ∀ a, Q a → Spec (f a) R E) : Spec (m >>= f) R E :=
  Spec.bind (Spec.mono hm hf fun _ h => h)

theorem Spec.ite {c : Prop} [Decidable c] {m₁ m₂ : Except ε α}
    (h₁ : c → Spec m₁ Q E) (h₂ : ¬c → Spec m₂ Q E) : Spec (if c then m₁ else m₂) Q E := by
  by_cases h : c
  · rw [if_pos h]
    exact h₁ h
  · rw [if_neg h]
    exact h₂ h

theorem Spec.dite {c : Prop} [Decidable c] {m₁ : c → Except ε α} {m₂ : ¬c → Except ε α}
    (h₁ : ∀ hc, Spec (m₁ hc) Q E) (h₂ : ∀ hc, Spec (m₂ hc) Q E) : Spec (dite c m₁ m₂) Q E := by
  by_cases h : c
  · rw [dif_pos h]
    exact h₁ h
  · rw [dif_neg h]
    exact h₂ h

theorem Spec.of_error {m : Except ε α} {e : ε} (hm : m = .error e) (h : Spec m Q E) : E e := by
  subst hm
  exact h

end ExceptLogic
