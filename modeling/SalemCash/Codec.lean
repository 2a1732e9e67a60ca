import Mathlib.Logic.Basic

/-!
# Readers of a token stream

A reader takes tokens from the front of a stream and may fail: state passing over the
unread tokens in `Except`. `Reads read write P` says that `read` takes back, from the front
of any stream, exactly what `write a` wrote for every value `a` with `P a`, and leaves the
rest. `Accepts read write Q` is the converse: whatever `read` accepts is `write` of the value
it returns, and that value has `Q`. Together they make `write` a bijection between the
values with `P` and the inputs `read` accepts.

Both properties compose along `bind` (`run_bind_of_run`, `run_bind_eq_ok`) and along
counted sequences (`Reads.readCount`, `Accepts.readCount`). A sequence read in rounds, as a
vector grows by `resize` and fills its new slots, is the same read (`readRounds_eq`).
-/

namespace Codec

/-- A reader of tokens `τ` that fails with `ε`. -/
abbrev Reader (τ ε α : Type) := StateT (List τ) (Except ε) α

variable {τ ε α β : Type}

theorem run_pure (a : α) (s : List τ) : (pure a : Reader τ ε α).run s = .ok (a, s) := rfl

theorem run_bind_of_run {x : Reader τ ε α} {s s' : List τ} {a : α} (h : x.run s = .ok (a, s'))
    (f : α → Reader τ ε β) : (x >>= f).run s = (f a).run s' := by
  rw [StateT.run_bind, h]
  rfl

theorem run_bind_of_error {x : Reader τ ε α} {s : List τ} {e : ε} (h : x.run s = .error e)
    (f : α → Reader τ ε β) : (x >>= f).run s = .error e := by
  rw [StateT.run_bind, h]
  rfl

theorem run_throw_bind (e : ε) (f : α → Reader τ ε β) (s : List τ) :
    ((throw e : Reader τ ε α) >>= f).run s = .error e := rfl

/-- A composed read succeeds exactly when its first part does and the rest succeeds on
what the first part left. -/
theorem run_bind_eq_ok {x : Reader τ ε α} {f : α → Reader τ ε β} {s rest : List τ} {b : β} :
    (x >>= f).run s = .ok (b, rest) ↔ ∃ a s', x.run s = .ok (a, s') ∧ (f a).run s' = .ok (b, rest) := by
  cases h : x.run s with
  | error e =>
    rw [run_bind_of_error h]
    constructor
    · intro failed
      cases failed
    · rintro ⟨a, s', first, -⟩
      cases first
  | ok p =>
    obtain ⟨a, s'⟩ := p
    rw [run_bind_of_run h]
    constructor
    · intro run
      exact ⟨a, s', rfl, run⟩
    · rintro ⟨a', s'', same, run⟩
      cases same
      exact run

/-- `read` takes back what `write` wrote of every value with `P`, leaving the rest. -/
def Reads (read : Reader τ ε α) (write : α → List τ) (P : α → Prop) : Prop :=
  ∀ a, P a → ∀ rest, read.run (write a ++ rest) = .ok (a, rest)

/-- Whatever `read` accepts is what `write` writes of the value it returns, which has `Q`. -/
def Accepts (read : Reader τ ε α) (write : α → List τ) (Q : α → Prop) : Prop :=
  ∀ s a rest, read.run s = .ok (a, rest) → Q a ∧ s = write a ++ rest

theorem Reads.mono {read : Reader τ ε α} {write : α → List τ} {P P' : α → Prop} (h : Reads read write P)
    (le : ∀ a, P' a → P a) : Reads read write P' :=
  fun a pa rest => h a (le a pa) rest

theorem Accepts.mono {read : Reader τ ε α} {write : α → List τ} {Q Q' : α → Prop} (h : Accepts read write Q)
    (le : ∀ a, Q a → Q' a) : Accepts read write Q' := by
  intro s a rest run
  obtain ⟨qa, split⟩ := h s a rest run
  exact ⟨le a qa, split⟩

/-- Read `n` values one after another. -/
def readCount (read : Reader τ ε α) : Nat → Reader τ ε (List α)
  | 0 => pure []
  | n + 1 => do
    let a ← read
    let as ← readCount read n
    pure (a :: as)

@[simp] theorem readCount_zero (read : Reader τ ε α) : readCount read 0 = pure [] := rfl

theorem readCount_succ (read : Reader τ ε α) (n : Nat) :
    readCount read (n + 1) = read >>= fun a => readCount read n >>= fun as => pure (a :: as) := rfl

variable {read : Reader τ ε α} {write : α → List τ}

theorem Reads.readCount {P : α → Prop} (h : Reads read write P) (n : Nat) :
    Reads (Codec.readCount read n) (fun as => as.flatMap write) (fun as => as.length = n ∧ ∀ a ∈ as, P a) := by
  induction n with
  | zero =>
    rintro as ⟨length, -⟩ rest
    rw [List.length_eq_zero_iff.mp length]
    rfl
  | succ n ih =>
    rintro as ⟨length, each⟩ rest
    obtain ⟨a, as, rfl⟩ := List.exists_cons_of_length_eq_add_one length
    have first := h a (each a (List.mem_cons_self ..)) (as.flatMap write ++ rest)
    have others := ih as ⟨by simpa using length, fun x mem => each x (List.mem_cons_of_mem a mem)⟩ rest
    dsimp only at others ⊢
    rw [readCount_succ, List.flatMap_cons, List.append_assoc, run_bind_of_run first, run_bind_of_run others]
    rfl

theorem Accepts.readCount {Q : α → Prop} (h : Accepts read write Q) (n : Nat) :
    Accepts (Codec.readCount read n) (fun as => as.flatMap write) (fun as => as.length = n ∧ ∀ a ∈ as, Q a) := by
  induction n with
  | zero =>
    intro s as rest run
    cases run
    exact ⟨⟨rfl, by simp⟩, rfl⟩
  | succ n ih =>
    intro s as rest run
    dsimp only
    rw [readCount_succ, run_bind_eq_ok] at run
    obtain ⟨a, s', first, run⟩ := run
    rw [run_bind_eq_ok] at run
    obtain ⟨as', s'', others, done⟩ := run
    cases done
    obtain ⟨qa, rfl⟩ := h s a s' first
    obtain ⟨⟨length, each⟩, rfl⟩ := ih s' as' rest others
    refine ⟨⟨by simp [length], ?_⟩, by simp⟩
    intro x mem
    rcases List.mem_cons.mp mem with rfl | mem
    · exact qa
    · exact each x mem

theorem readCount_length {n : Nat} {s rest : List τ} {as : List α}
    (run : (Codec.readCount read n).run s = .ok (as, rest)) : as.length = n := by
  induction n generalizing s as with
  | zero =>
    cases run
    rfl
  | succ n ih =>
    rw [readCount_succ, run_bind_eq_ok] at run
    obtain ⟨a, s', -, run⟩ := run
    rw [run_bind_eq_ok] at run
    obtain ⟨as', s'', others, done⟩ := run
    cases done
    simp [ih others]

/-- Counted reads concatenate. -/
theorem readCount_add (read : Reader τ ε α) (k m : Nat) :
    Codec.readCount read (k + m) =
      Codec.readCount read k >>= fun xs => Codec.readCount read m >>= fun ys => pure (xs ++ ys) := by
  induction k with
  | zero => simp
  | succ k ih =>
    rw [Nat.add_right_comm, readCount_succ, ih, readCount_succ]
    simp [bind_assoc]

/-- The loop `while (v.size() < n) { v.resize(min(v.size() + step, n)); for (; i < v.size(); i++)
read(v[i]); }`: each round reads the slots the `resize` added. At most `fuel` rounds run. -/
def readRounds (read : Reader τ ε α) (step n : Nat) : Nat → List α → Reader τ ε (List α)
  | 0, acc => pure acc
  | fuel + 1, acc =>
    if acc.length < n then do
      let more ← Codec.readCount read (min (acc.length + step) n - acc.length)
      readRounds read step n fuel (acc ++ more)
    else pure acc

/-- A round of a positive step reads as many values as its count says, so `n - acc.length`
rounds are enough, and the rounds read what one counted read of the missing values reads. -/
theorem readRounds_eq {step : Nat} (positive : 0 < step) (n : Nat) :
    ∀ (fuel : Nat) (acc : List α), n - acc.length ≤ fuel →
      readRounds read step n fuel acc = (Codec.readCount read (n - acc.length) >>= fun more => pure (acc ++ more))
  | 0, acc, enough => by
    rw [show n - acc.length = 0 by omega]
    simp [readRounds]
  | fuel + 1, acc, enough => by
    rw [readRounds]
    by_cases short : acc.length < n
    · rw [if_pos short]
      obtain ⟨k, m, round, total⟩ : ∃ k m, min (acc.length + step) n - acc.length = k ∧ n - acc.length = k + m :=
        ⟨min (acc.length + step) n - acc.length, n - min (acc.length + step) n, rfl, by omega⟩
      rw [round, total, readCount_add, bind_assoc]
      apply StateT.ext
      intro s
      cases first : (Codec.readCount read k).run s with
      | error e => rw [run_bind_of_error first, run_bind_of_error first]
      | ok p =>
        obtain ⟨more, s'⟩ := p
        have length := readCount_length first
        have later : n - (acc ++ more).length ≤ fuel := by
          rw [List.length_append, length]
          omega
        rw [run_bind_of_run first, run_bind_of_run first, readRounds_eq positive n fuel (acc ++ more) later]
        simp only [List.length_append, length, bind_assoc, pure_bind, List.append_assoc]
        rw [show n - (acc.length + k) = m by omega]
    · rw [if_neg short, show n - acc.length = 0 by omega]
      simp

end Codec
