import Mathlib.Data.List.Sigma

/-!
# Folds of per-key steps

A loop over the entries of a map with distinct keys, each step of which changes
the target only at the entry's key, ends in the pointwise result: at a key of the
list, the step's value computed from the start; elsewhere, the start. The steps
may fail; a step whose precondition holds at the start of the loop still holds
when the loop reaches it, since no earlier step touched its key.
-/

namespace KeyedFold

variable {α : Type*} {β : α → Type*} {M δ ε : Type*} [DecidableEq α]

/-- A step `upd m a b` that changes what `get` reads only at `a`, to `F a b` of the old
value, and succeeds when `ok a b` holds of the old value. -/
def LocalStep (get : M → α → δ) (upd : M → (a : α) → β a → Except ε M)
    (ok : (a : α) → β a → δ → Prop) (F : (a : α) → β a → δ → δ) : Prop :=
  ∀ m a b, ok a b (get m a) →
    ∃ m', upd m a b = .ok m' ∧ get m' a = F a b (get m a) ∧ ∀ a', a' ≠ a → get m' a' = get m a'

/-- The value at `a` after the steps of `l` from a target that reads `v`. -/
def after (F : (a : α) → β a → δ → δ) (l : List (Sigma β)) (v : α → δ) (a : α) : δ :=
  match l.dlookup a with
  | some b => F a b (v a)
  | none => v a

section

variable {get : M → α → δ} {F : (a : α) → β a → δ → δ}

/-- The first step of the loop decides the value at its own key; the rest decide the others. -/
theorem after_cons {s : Sigma β} {l : List (Sigma β)} (hs : s.1 ∉ l.keys) (v w : α → δ)
    (hw : w s.1 = F s.1 s.2 (v s.1)) (hrest : ∀ a, a ≠ s.1 → w a = v a) (a : α) :
    after F l w a = after F (s :: l) v a := by
  obtain ⟨a₀, b₀⟩ := s
  by_cases ha : a = a₀
  · subst ha
    have hnone : l.dlookup a = none := List.dlookup_eq_none.mpr hs
    simp only [after, hnone, List.dlookup_cons_eq]
    exact hw
  · simp only [after, List.dlookup_cons_ne l ⟨a₀, b₀⟩ ha, hrest a ha]

variable {upd : M → (a : α) → β a → Except ε M} {ok : (a : α) → β a → δ → Prop}

/-- The loop of local steps over distinct keys succeeds when each step's precondition holds
at the start, and ends in the pointwise result. -/
theorem foldlM_ok (h : LocalStep get upd ok F) {l : List (Sigma β)} (hl : l.NodupKeys) (m : M)
    (hok : ∀ s ∈ l, ok s.1 s.2 (get m s.1)) :
    ∃ m', l.foldlM (fun m s => upd m s.1 s.2) m = .ok m' ∧
      ∀ a, get m' a = after F l (get m) a := by
  induction l generalizing m with
  | nil => exact ⟨m, rfl, fun _ => rfl⟩
  | cons s l ih =>
    rw [List.nodupKeys_cons] at hl
    obtain ⟨m₁, hstep, hat, hframe⟩ := h m s.1 s.2 (hok s List.mem_cons_self)
    have hok₁ : ∀ s' ∈ l, ok s'.1 s'.2 (get m₁ s'.1) := by
      intro s' hs'
      have hne : s'.1 ≠ s.1 := fun he => hl.1 (he ▸ List.mem_keys_of_mem hs')
      rw [hframe _ hne]
      exact hok s' (List.mem_cons_of_mem _ hs')
    obtain ⟨m', hfold, hget⟩ := ih hl.2 m₁ hok₁
    refine ⟨m', ?_, fun a => ?_⟩
    · rw [List.foldlM_cons, hstep]
      exact hfold
    · rw [hget a]
      exact after_cons hl.1 (get m) (get m₁) hat hframe a

/-- The loop of steps that cannot fail. -/
theorem foldl_get (get : M → α → δ) (F : (a : α) → β a → δ → δ) {upd : M → (a : α) → β a → M}
    (h : ∀ m a b, get (upd m a b) a = F a b (get m a) ∧
      ∀ a', a' ≠ a → get (upd m a b) a' = get m a')
    {l : List (Sigma β)} (hl : l.NodupKeys) (m : M) (a : α) :
    get (l.foldl (fun m s => upd m s.1 s.2) m) a = after F l (get m) a := by
  induction l generalizing m with
  | nil => rfl
  | cons s l ih =>
    rw [List.nodupKeys_cons] at hl
    rw [List.foldl_cons, ih hl.2]
    exact after_cons hl.1 (get m) (get (upd m s.1 s.2)) (h m s.1 s.2).1 (h m s.1 s.2).2 a

end

end KeyedFold
