import SalemCash.CashCache
import SalemCash.ExceptLogic

/-!
# A stack of caches behaves like one map

The simulation of `cash_cache_simulation_test`: caches stacked over a backing
store, the top one read and written, any one uncached or flushed, a new top
pushed, the top flushed and popped. Each cache's `base` is the stack under it.
Every step keeps the flag protocol of every cache against the view under it,
and changes the view of the whole stack as the same operation changes a map of
outpoints to coins; flushing every cache leaves that map in the store.
-/

namespace SalemCash

open CCashViewCache

variable {β : Type} (B : CashBackend β)

/-- `BatchWrite` of the view made of these caches, the top first, over the store. -/
def stackBatchWrite : List CCashViewCache → β → CCashMap →
    Except CashError (List CCashViewCache × β)
  | [], b, mapCash => .ok ([], B.BatchWrite b mapCash)
  | c :: rest, b, mapCash => do
    let c' ← c.BatchWrite mapCash
    pure (c' :: rest, b)

/-- `GetCash` of the view made of these caches over the store, with the caches and the store
after the fetches it makes all the way down. -/
def stackGetCash : List CCashViewCache → β → COutPoint →
    Option Cash × List CCashViewCache × β
  | [], b, outpoint => (B.GetCash b outpoint, [], b)
  | c :: rest, b, outpoint =>
    let r := c.GetCash ⟨(rest, b), fun k => stackGetCash rest b k, stackBatchWrite B rest b⟩ outpoint
    (r.1, r.2.1 :: r.2.2.1, r.2.2.2)

/-- The `base` pointer of the cache on top of these. -/
def stackBase (rest : List CCashViewCache) (b : β) : CCashViewBase (List CCashViewCache × β) :=
  ⟨(rest, b), stackGetCash B rest b, stackBatchWrite B rest b⟩

/-- `Flush` of the cache at this depth, into the one under it. -/
def stackFlush : Nat → List CCashViewCache → β → Except CashError (List CCashViewCache × β)
  | 0, c :: rest, b => do
    let r ← c.Flush (stackBase B rest b)
    pure (r.1 :: r.2.1, r.2.2)
  | d + 1, c :: rest, b => do
    let r ← stackFlush d rest b
    pure (c :: r.1, r.2)
  | _, [], b => pure ([], b)

/-- The test's stack: a top cache over the others, the top first, over the store. -/
structure CashStack (β : Type) where
  top : CCashViewCache
  below : List CCashViewCache
  base : β

namespace CashStack

/-- The stack after a method of the top cache. -/
def ofTop (top : CCashViewCache) (p : List CCashViewCache × β) : CashStack β := ⟨top, p.1, p.2⟩

def GetCash (s : CashStack β) (outpoint : COutPoint) : Option Cash × CashStack β :=
  let r := s.top.GetCash (stackBase B s.below s.base) outpoint
  (r.1, ofTop r.2.1 r.2.2)

def AccessCash (s : CashStack β) (outpoint : COutPoint) : Cash × CashStack β :=
  let r := s.top.AccessCash (stackBase B s.below s.base) outpoint
  (r.1, ofTop r.2.1 r.2.2)

def HaveCash (s : CashStack β) (outpoint : COutPoint) : Bool × CashStack β :=
  let r := s.top.HaveCash (stackBase B s.below s.base) outpoint
  (r.1, ofTop r.2.1 r.2.2)

def AddCash (s : CashStack β) (outpoint : COutPoint) (cash : Cash) (possible_overwrite : Bool) :
    Except CashError (CashStack β) := do
  let top' ← s.top.AddCash outpoint cash possible_overwrite
  pure { s with top := top' }

def SpendCash (s : CashStack β) (outpoint : COutPoint) : Option Cash × CashStack β :=
  let r := s.top.SpendCash (stackBase B s.below s.base) outpoint
  (r.1, ofTop r.2.1 r.2.2)

/-- `Uncache` on the cache at this depth. -/
def Uncache (s : CashStack β) : Nat → COutPoint → CashStack β
  | 0, outpoint => { s with top := s.top.Uncache outpoint }
  | d + 1, outpoint => { s with below := s.below.modify d (·.Uncache outpoint) }

/-- `Flush` of the cache at this depth. -/
def Flush (s : CashStack β) : Nat → Except CashError (CashStack β)
  | 0 => do
    let r ← s.top.Flush (stackBase B s.below s.base)
    pure (ofTop r.1 r.2)
  | d + 1 => do
    let r ← stackFlush B d s.below s.base
    pure { s with below := r.1, base := r.2 }

/-- A new cache on top. -/
def Push (s : CashStack β) : CashStack β := ⟨default, s.top :: s.below, s.base⟩

/-- The top cache flushed and deleted; when it was the last one, the test puts a new cache over
the store. -/
def FlushPop (s : CashStack β) : Except CashError (CashStack β) := do
  let r ← s.top.Flush (stackBase B s.below s.base)
  match r.2.1 with
  | top' :: below' => pure ⟨top', below', r.2.2⟩
  | [] => pure ⟨default, [], r.2.2⟩

end CashStack

/-- One operation of the simulation. -/
inductive CashOp
  | GetCash (outpoint : COutPoint)
  | AccessCash (outpoint : COutPoint)
  | HaveCash (outpoint : COutPoint)
  | AddCash (outpoint : COutPoint) (cash : Cash) (possible_overwrite : Bool)
  | SpendCash (outpoint : COutPoint)
  | Uncache (depth : Nat) (outpoint : COutPoint)
  | Flush (depth : Nat)
  | Push
  | FlushPop

namespace CashOp

/-- One operation on the stack. A read is a step, since it fills the caches. -/
def step (s : CashStack β) : CashOp → Except CashError (CashStack β)
  | GetCash outpoint => .ok (s.GetCash B outpoint).2
  | AccessCash outpoint => .ok (s.AccessCash B outpoint).2
  | HaveCash outpoint => .ok (s.HaveCash B outpoint).2
  | AddCash outpoint cash possible_overwrite => s.AddCash outpoint cash possible_overwrite
  | SpendCash outpoint => .ok (s.SpendCash B outpoint).2
  | Uncache depth outpoint => .ok (s.Uncache depth outpoint)
  | Flush depth => s.Flush B depth
  | Push => .ok s.Push
  | FlushPop => s.FlushPop B

/-- The operations of a run, one after the other. -/
def run (s : CashStack β) (ops : List CashOp) : Except CashError (CashStack β) :=
  ops.foldlM (step B) s

/-- How the caller uses `AddCash`: an unspent coin, and `possible_overwrite` unless `HaveCash`
at the top is false. -/
def Allowed (s : CashStack β) : CashOp → Bool
  | AddCash outpoint cash possible_overwrite =>
    !cash.IsSpent && (possible_overwrite || !(s.HaveCash B outpoint).1)
  | _ => true

/-- Each operation of the run is allowed in the state the run has reached. -/
def RunAllowed : CashStack β → List CashOp → Bool
  | _, [] => true
  | s, op :: ops =>
    Allowed B s op &&
      match step B s op with
      | .ok s' => RunAllowed s' ops
      | .error _ => true

/-- The same operation on a map of outpoints to coins: an unspendable coin is not added. -/
def ref (m : CashView) : CashOp → CashView
  | AddCash outpoint cash _ =>
    if IsUnspendable cash.out.scriptPubKey then m else Function.update m outpoint (some cash)
  | SpendCash outpoint => Function.update m outpoint none
  | _ => m

def refRun (m : CashView) (ops : List CashOp) : CashView := ops.foldl ref m

end CashOp

/-- The coins the view made of these caches over the store reports. -/
def stackSem : List CCashViewCache → β → CashView
  | [], b => B.sem b
  | c :: rest, b => c.sem (stackSem rest b)

/-- Each cache keeps the flag protocol against the view under it. -/
def StackInv : List CCashViewCache → β → Prop
  | [], _ => True
  | c :: rest, b => c.Inv (stackSem B rest b) ∧ StackInv rest b

/-- A state of the caches under a cache that keeps the protocol and reports `v`. -/
def Keeps (v : CashView) (p : List CCashViewCache × β) : Prop :=
  StackInv B p.1 p.2 ∧ stackSem B p.1 p.2 = v

namespace CashStack

def sem (s : CashStack β) : CashView := s.top.sem (stackSem B s.below s.base)

def Inv (s : CashStack β) : Prop := s.top.Inv (stackSem B s.below s.base) ∧ StackInv B s.below s.base

end CashStack

section Proofs

variable {B}

theorem CCashViewCache.sem_empty (v : CashView) : (⟨∅⟩ : CCashViewCache).sem v = v := by
  funext k
  exact sem_of_lookup_none (AList.lookup_empty k)

theorem Keeps.refl {rest : List CCashViewCache} {b : β} (h : StackInv B rest b) :
    Keeps B (stackSem B rest b) (rest, b) := ⟨h, rfl⟩

/-- A cache that keeps the protocol over a stack reporting `v`, with that stack under it. -/
theorem Keeps.cons {c : CCashViewCache} {v : CashView} {p : List CCashViewCache × β}
    (hc : c.Inv v) (h : Keeps B v p) : Keeps B (c.sem v) (c :: p.1, p.2) := by
  refine ⟨⟨?_, h.1⟩, ?_⟩
  · change c.Inv (stackSem B p.1 p.2)
    rw [h.2]
    exact hc
  · change c.sem (stackSem B p.1 p.2) = c.sem v
    rw [h.2]

theorem stackGetCash_cons (c : CCashViewCache) (rest : List CCashViewCache) (b : β) (k : COutPoint) :
    stackGetCash B (c :: rest) b k =
      ((c.GetCash (stackBase B rest b) k).1, (c.GetCash (stackBase B rest b) k).2.1 ::
        (c.GetCash (stackBase B rest b) k).2.2.1, (c.GetCash (stackBase B rest b) k).2.2.2) := rfl

/-- A method of a cache over the stack leaves the stack under it as it was, or as `GetCash` of
the stack leaves it. -/
theorem keeps_of_base {rest : List CCashViewCache} {b : β} {k : COutPoint}
    {p : List CCashViewCache × β} (hrest : StackInv B rest b)
    (hget : Keeps B (stackSem B rest b) (stackGetCash B rest b k).2)
    (hp : p = (stackBase B rest b).self ∨ p = ((stackBase B rest b).GetCash k).2) :
    Keeps B (stackSem B rest b) p := by
  rcases hp with rfl | rfl
  · exact Keeps.refl hrest
  · exact hget

/-- `GetCash` of a stack reports its view, and its fetches keep every cache's protocol and
view. -/
theorem stackGetCash_spec : ∀ {layers : List CCashViewCache} {b : β}, StackInv B layers b →
    ∀ k, (stackGetCash B layers b k).1.bind Cash.toOption = stackSem B layers b k ∧
      Keeps B (stackSem B layers b) (stackGetCash B layers b k).2
  | [], _, _, _ => ⟨rfl, trivial, rfl⟩
  | c :: rest, b, ⟨hc, hrest⟩, k => by
    have ih := stackGetCash_spec hrest k
    have hbase : ((stackBase B rest b).GetCash k).1.bind Cash.toOption = stackSem B rest b k := ih.1
    rcases hf : c.FetchCash (stackBase B rest b) k with ⟨it, c', p'⟩
    obtain ⟨hc', hsem, -, -, hp'⟩ := FetchCash_spec hc hbase hf
    have hkeep := keeps_of_base hrest ih.2 hp'
    have hres := FetchCash_sem hc hbase
    rw [hf] at hres
    rw [stackGetCash_cons, GetCash_eq, hf]
    refine ⟨?_, ?_⟩
    · dsimp only
      rw [Option.bind_assoc]
      simp only [Cash.toOption_bind]
      exact hres
    · change Keeps B (c.sem (stackSem B rest b)) (c' :: p'.1, p'.2)
      rw [← hsem]
      exact Keeps.cons hc' hkeep

/-- The base of a cache over a stack reports the stack's view. -/
theorem stackBase_GetCash {rest : List CCashViewCache} {b : β} (hrest : StackInv B rest b)
    (k : COutPoint) :
    ((stackBase B rest b).GetCash k).1.bind Cash.toOption = stackSem B rest b k :=
  (stackGetCash_spec hrest k).1

variable (hB : B.Lawful)
include hB

/-- A child that keeps the protocol over the stack writes its own view into the stack, keeping
every protocol and the number of caches. -/
theorem stackBatchWrite_spec : ∀ {layers : List CCashViewCache} {b : β}, StackInv B layers b →
    ∀ {d : CCashViewCache}, d.Inv (stackSem B layers b) →
    ∃ p, stackBatchWrite B layers b d.cacheCash = .ok p ∧
      Keeps B (d.sem (stackSem B layers b)) p ∧ p.1.length = layers.length
  | [], b, _, d, hd => by
    have hd' : d.Inv (B.sem b) := hd
    refine ⟨([], B.BatchWrite b d.cacheCash), rfl, ⟨trivial, ?_⟩, rfl⟩
    change B.sem (B.BatchWrite b d.cacheCash) = d.sem (B.sem b)
    rw [hB.BatchWrite_sem, writeSem_of_Inv hd']
  | c :: rest, b, ⟨hc, hrest⟩, d, hd => by
    have hd' : d.Inv (c.sem (stackSem B rest b)) := hd
    obtain ⟨c', hbw, hc', hsem'⟩ := BatchWrite_spec hc fun k e he hf => hd'.base_none_of_fresh he hf
    refine ⟨(c' :: rest, b), by simp [stackBatchWrite, hbw], ⟨⟨hc', hrest⟩, ?_⟩, rfl⟩
    change c'.sem (stackSem B rest b) = d.sem (c.sem (stackSem B rest b))
    rw [hsem', writeSem_of_Inv hd']

/-- `Flush` of a cache over the stack empties it and writes its view into the stack. -/
theorem Flush_spec {c : CCashViewCache} {rest : List CCashViewCache} {b : β}
    (hrest : StackInv B rest b) (hc : c.Inv (stackSem B rest b)) :
    ∃ r, c.Flush (stackBase B rest b) = .ok r ∧ r.1 = ⟨∅⟩ ∧
      Keeps B (c.sem (stackSem B rest b)) r.2 ∧ r.2.1.length = rest.length := by
  obtain ⟨p, hp, hkeep, hlen⟩ := stackBatchWrite_spec hB hrest hc
  refine ⟨(⟨∅⟩, p), ?_, rfl, hkeep, hlen⟩
  simp only [Flush, stackBase, hp, ExceptLogic.ok_bind, ExceptLogic.pure_eq_ok]

omit hB in
/-- An emptied cache over a stack that reports `v` reports `v`. -/
theorem keeps_empty_cons {v : CashView} {p : List CCashViewCache × β} (h : Keeps B v p) :
    Keeps B v ((⟨∅⟩ : CCashViewCache) :: p.1, p.2) := by
  have := Keeps.cons (Inv.empty v) h
  rwa [sem_empty] at this

/-- `Flush` at any depth keeps every protocol and the stack's view. -/
theorem stackFlush_spec : ∀ (d : Nat) {layers : List CCashViewCache} {b : β},
    StackInv B layers b →
    ∃ p, stackFlush B d layers b = .ok p ∧ Keeps B (stackSem B layers b) p
  | 0, c :: rest, b, ⟨hc, hrest⟩ => by
    obtain ⟨r, hr, hr1, hkeep, -⟩ := Flush_spec hB hrest hc
    refine ⟨(r.1 :: r.2.1, r.2.2), by simp [stackFlush, hr], ?_⟩
    rw [hr1]
    exact keeps_empty_cons hkeep
  | d + 1, c :: rest, b, ⟨hc, hrest⟩ => by
    obtain ⟨p, hp, hkeep⟩ := stackFlush_spec d hrest
    exact ⟨(c :: p.1, p.2), by simp [stackFlush, hp], Keeps.cons hc hkeep⟩
  | _, [], b, _ => ⟨([], b), by cases ‹Nat› <;> rfl, trivial, rfl⟩

omit hB in
/-- `Uncache` at any depth keeps every protocol and the stack's view. -/
theorem stackUncache_spec (k : COutPoint) : ∀ (d : Nat) {layers : List CCashViewCache} {b : β},
    StackInv B layers b → Keeps B (stackSem B layers b) (layers.modify d (·.Uncache k), b)
  | 0, c :: rest, b, ⟨hc, hrest⟩ => by
    obtain ⟨hc', hsem⟩ := Uncache_spec hc
    rw [List.modify_zero_cons]
    exact ⟨⟨hc', hrest⟩, hsem⟩
  | d + 1, c :: rest, b, ⟨hc, hrest⟩ => by
    rw [List.modify_succ_cons]
    exact Keeps.cons hc (stackUncache_spec k d hrest)
  | d, [], b, _ => by
    rw [List.modify_nil]
    exact ⟨trivial, rfl⟩

namespace CashStack

variable {s : CashStack β}

omit hB

/-- The stack after a method of the top cache, when the new top keeps the protocol over a stack
under it that reports what the old one did. -/
theorem ofTop_spec {top : CCashViewCache} {v : CashView} {p : List CCashViewCache × β}
    (htop : top.Inv v) (hp : Keeps B v p) : (ofTop top p).Inv B ∧ (ofTop top p).sem B = top.sem v := by
  obtain ⟨hinv, hsem⟩ := Keeps.cons htop hp
  exact ⟨hinv, hsem⟩

/-- The fetches of a read keep every protocol and the stack's view. -/
theorem fetch_spec (hs : s.Inv B) (k : COutPoint) :
    (ofTop (s.top.FetchCash (stackBase B s.below s.base) k).2.1
        (s.top.FetchCash (stackBase B s.below s.base) k).2.2).Inv B ∧
      (ofTop (s.top.FetchCash (stackBase B s.below s.base) k).2.1
        (s.top.FetchCash (stackBase B s.below s.base) k).2.2).sem B = s.sem B := by
  have hbase := stackBase_GetCash hs.2 k
  rcases hf : s.top.FetchCash (stackBase B s.below s.base) k with ⟨it, c', p'⟩
  obtain ⟨hc', hsem, -, -, hp'⟩ := FetchCash_spec hs.1 hbase hf
  have hkeep := keeps_of_base hs.2 (stackGetCash_spec hs.2 k).2 hp'
  obtain ⟨hinv, hsem'⟩ := ofTop_spec hc' hkeep
  exact ⟨hinv, hsem'.trans hsem⟩

/-- The three reads at the top report the stack's view, and keep it. -/
theorem reads_spec (hs : s.Inv B) (k : COutPoint) :
    (s.GetCash B k).1 = s.sem B k ∧ (s.AccessCash B k).1.toOption = s.sem B k ∧
      (s.HaveCash B k).1 = (s.sem B k).isSome := by
  have hbase := stackBase_GetCash hs.2 k
  exact ⟨GetCash_sem hs.1 hbase, AccessCash_sem hs.1 hbase, HaveCash_sem hs.1 hbase⟩

theorem GetCash_state (s : CashStack β) (k : COutPoint) :
    (s.GetCash B k).2 = ofTop (s.top.FetchCash (stackBase B s.below s.base) k).2.1
      (s.top.FetchCash (stackBase B s.below s.base) k).2.2 := by
  simp only [GetCash, GetCash_eq]

theorem AccessCash_state (s : CashStack β) (k : COutPoint) :
    (s.AccessCash B k).2 = ofTop (s.top.FetchCash (stackBase B s.below s.base) k).2.1
      (s.top.FetchCash (stackBase B s.below s.base) k).2.2 := by
  simp only [AccessCash, AccessCash_eq]

theorem HaveCash_state (s : CashStack β) (k : COutPoint) :
    (s.HaveCash B k).2 = ofTop (s.top.FetchCash (stackBase B s.below s.base) k).2.1
      (s.top.FetchCash (stackBase B s.below s.base) k).2.2 := by
  simp only [HaveCash, HaveCash_eq]

/-- `SpendCash` at the top takes the coin out of the stack's view; it moves out the coin. -/
theorem SpendCash_spec (hs : s.Inv B) (k : COutPoint) :
    (s.SpendCash B k).2.Inv B ∧ (s.SpendCash B k).2.sem B = Function.update (s.sem B) k none ∧
      (s.SpendCash B k).1.bind Cash.toOption = s.sem B k := by
  have hbase := stackBase_GetCash hs.2 k
  obtain ⟨hc', hsem, hres, hp'⟩ := CCashViewCache.SpendCash_spec hs.1 hbase
  have hkeep := keeps_of_base hs.2 (stackGetCash_spec hs.2 k).2 hp'
  obtain ⟨hinv, hsem'⟩ := ofTop_spec hc' hkeep
  exact ⟨hinv, hsem'.trans hsem, hres⟩

/-- `AddCash` at the top, as the caller uses it, does not throw and adds the coin to the
stack's view. -/
theorem AddCash_spec (hs : s.Inv B) {k : COutPoint} {cash : Cash} (hcash : cash.IsSpent = false)
    {possible_overwrite : Bool} (hpo : possible_overwrite = false → (s.HaveCash B k).1 = false) :
    ∃ s', s.AddCash k cash possible_overwrite = .ok s' ∧ s'.Inv B ∧
      s'.sem B = CashOp.ref (s.sem B) (.AddCash k cash possible_overwrite) := by
  have hnone : possible_overwrite = false → s.top.sem (stackSem B s.below s.base) k = none := by
    intro hp
    have := hpo hp
    rw [(reads_spec hs k).2.2] at this
    have hk : s.sem B k = none := Option.not_isSome_iff_eq_none.mp (by simpa using this)
    exact hk
  obtain ⟨c', hadd, hc', hsem⟩ := CCashViewCache.AddCash_spec hs.1 hcash hnone
  refine ⟨{ s with top := c' }, by simp [AddCash, hadd], ⟨hc', hs.2⟩, ?_⟩
  exact hsem

/-- `Uncache` at any depth keeps every protocol and the stack's view. -/
theorem Uncache_spec (hs : s.Inv B) (d : Nat) (k : COutPoint) :
    (s.Uncache d k).Inv B ∧ (s.Uncache d k).sem B = s.sem B := by
  cases d with
  | zero =>
    obtain ⟨hc', hsem⟩ := CCashViewCache.Uncache_spec hs.1
    exact ⟨⟨hc', hs.2⟩, hsem⟩
  | succ d =>
    exact ofTop_spec hs.1 (stackUncache_spec k d hs.2)

/-- A new cache on top reports the stack under it. -/
theorem Push_spec (hs : s.Inv B) : s.Push.Inv B ∧ s.Push.sem B = s.sem B := by
  have h := ofTop_spec (Inv.empty _) (Keeps.cons hs.1 (Keeps.refl hs.2))
  rw [sem_empty] at h
  exact h

include hB

/-- `Flush` at any depth does not throw, and keeps every protocol and the stack's view. -/
theorem Flush_spec (hs : s.Inv B) (d : Nat) :
    ∃ s', s.Flush B d = .ok s' ∧ s'.Inv B ∧ s'.sem B = s.sem B := by
  cases d with
  | zero =>
    obtain ⟨r, hr, hr1, hkeep, -⟩ := SalemCash.Flush_spec hB hs.2 hs.1
    have h := ofTop_spec (Inv.empty _) hkeep
    rw [sem_empty] at h
    refine ⟨ofTop r.1 r.2, by simp [Flush, hr], ?_⟩
    rw [hr1]
    exact h
  | succ d =>
    obtain ⟨p, hp, hkeep⟩ := stackFlush_spec hB d hs.2
    exact ⟨ofTop s.top p, by simp [Flush, hp]; rfl, ofTop_spec hs.1 hkeep⟩

/-- `FlushPop` does not throw, keeps every protocol and the stack's view, and takes one cache
off; the last one is replaced by an empty cache over the store. -/
theorem FlushPop_spec (hs : s.Inv B) :
    ∃ s', s.FlushPop B = .ok s' ∧ s'.Inv B ∧ s'.sem B = s.sem B ∧
      s'.below.length = s.below.length - 1 ∧ (s.below = [] → s'.top = default ∧ s'.below = []) := by
  obtain ⟨r, hr, -, hkeep, hlen⟩ := SalemCash.Flush_spec hB hs.2 hs.1
  obtain ⟨hinv, hsem⟩ := hkeep
  rcases r with ⟨top', below', b'⟩
  dsimp only at hinv hsem hlen
  cases below' with
  | nil =>
    refine ⟨⟨default, [], b'⟩, by simp [FlushPop, hr], ⟨Inv.empty _, trivial⟩, ?_, ?_, fun _ => ⟨rfl, rfl⟩⟩
    · change (⟨∅⟩ : CCashViewCache).sem (B.sem b') = s.top.sem (stackSem B s.below s.base)
      rw [sem_empty]
      exact hsem
    · simp only [List.length_nil] at hlen ⊢
      omega
  | cons c rest =>
    refine ⟨⟨c, rest, b'⟩, by simp [FlushPop, hr], hinv, hsem, ?_, fun h => ?_⟩
    · simp only [List.length_cons] at hlen ⊢
      omega
    · rw [h] at hlen
      simp at hlen

end CashStack

namespace CashOp

/-- Each allowed operation does not throw, keeps every protocol, and changes the stack's view as
it changes a map. -/
theorem step_spec {s : CashStack β} (hs : s.Inv B) (op : CashOp) (hop : Allowed B s op = true) :
    ∃ s', step B s op = .ok s' ∧ s'.Inv B ∧ s'.sem B = ref (s.sem B) op := by
  cases op with
  | GetCash k =>
    rw [step, CashStack.GetCash_state]
    exact ⟨_, rfl, CashStack.fetch_spec hs k⟩
  | AccessCash k =>
    rw [step, CashStack.AccessCash_state]
    exact ⟨_, rfl, CashStack.fetch_spec hs k⟩
  | HaveCash k =>
    rw [step, CashStack.HaveCash_state]
    exact ⟨_, rfl, CashStack.fetch_spec hs k⟩
  | AddCash k cash possible_overwrite =>
    simp only [Allowed, Bool.and_eq_true, Bool.not_eq_eq_eq_not, Bool.not_true,
      Bool.or_eq_true] at hop
    obtain ⟨hcash, hpo⟩ := hop
    have hpo' : possible_overwrite = false → (s.HaveCash B k).1 = false := by
      intro hp
      rcases hpo with h | h
      · simp_all
      · simpa using h
    exact CashStack.AddCash_spec hs hcash hpo'
  | SpendCash k =>
    obtain ⟨hinv, hsem, -⟩ := CashStack.SpendCash_spec hs k
    exact ⟨_, rfl, hinv, hsem⟩
  | Uncache d k => exact ⟨_, rfl, CashStack.Uncache_spec hs d k⟩
  | Flush d => exact CashStack.Flush_spec hB hs d
  | Push => exact ⟨_, rfl, CashStack.Push_spec hs⟩
  | FlushPop =>
    obtain ⟨s', h, hinv, hsem, -⟩ := CashStack.FlushPop_spec hB hs
    exact ⟨s', h, hinv, hsem⟩

/-- A run of allowed operations does not throw, keeps every protocol, and leaves the stack's
view equal to the map the same operations make. -/
theorem run_spec (ops : List CashOp) :
    ∀ {s : CashStack β}, s.Inv B → RunAllowed B s ops = true →
      ∃ s', run B s ops = .ok s' ∧ s'.Inv B ∧ s'.sem B = refRun (s.sem B) ops := by
  induction ops with
  | nil => intro s hs _; exact ⟨s, rfl, hs, rfl⟩
  | cons op ops ih =>
    intro s hs hrun
    simp only [RunAllowed, Bool.and_eq_true] at hrun
    obtain ⟨s₁, hstep, hs₁, hsem₁⟩ := step_spec hB hs op hrun.1
    rw [hstep] at hrun
    obtain ⟨s', hrun', hs', hsem'⟩ := ih hs₁ hrun.2
    refine ⟨s', ?_, hs', ?_⟩
    · simp only [run, List.foldlM_cons, hstep, ExceptLogic.ok_bind]
      exact hrun'
    · rw [hsem', hsem₁]
      rfl

/-- Flushing and popping every cache leaves one empty cache over the store, and the stack's view
in the store. -/
theorem flushPop_all :
    ∀ (n : Nat) {s : CashStack β}, s.Inv B → s.below.length = n →
      ∃ s', run B s (List.replicate (n + 1) FlushPop) = .ok s' ∧
        s'.top = default ∧ s'.below = [] ∧ s'.Inv B ∧ s'.sem B = s.sem B := by
  intro n
  induction n with
  | zero =>
    intro s hs hlen
    obtain ⟨s', h, hinv, hsem, -, hlast⟩ := CashStack.FlushPop_spec hB hs
    obtain ⟨htop, hbelow⟩ := hlast (List.length_eq_zero_iff.mp hlen)
    exact ⟨s', by simp [run, step, h], htop, hbelow, hinv, hsem⟩
  | succ n ih =>
    intro s hs hlen
    obtain ⟨s₁, h, hinv, hsem, hlen₁, -⟩ := CashStack.FlushPop_spec hB hs
    obtain ⟨s', hrun, htop, hbelow, hinv', hsem'⟩ := ih hinv (by omega)
    refine ⟨s', ?_, htop, hbelow, hinv', hsem'.trans hsem⟩
    rw [List.replicate_succ]
    simp only [run, List.foldlM_cons, step, h, ExceptLogic.ok_bind]
    exact hrun

end CashOp

omit hB in
/-- Fresh caches over any store keep the protocol. -/
theorem CashStack.Inv_fresh (b : β) (n : Nat) :
    (⟨default, List.replicate n default, b⟩ : CashStack β).Inv B := by
  refine ⟨Inv.empty _, ?_⟩
  induction n with
  | zero => trivial
  | succ n ih => exact ⟨Inv.empty _, ih⟩

end Proofs

/-- The layered UTXO cache behaves like a single map. From a stack whose caches keep the flag
protocol (fresh caches do), every run of operations used as the caller uses them does not throw;
afterwards the reads at the top agree with the map the same operations make, and flushing and
popping every cache leaves that map in the store. -/
theorem cash_cache_simulation (B : CashBackend β) (hB : B.Lawful) (s₀ : CashStack β)
    (h₀ : s₀.Inv B) (ops : List CashOp) (hops : CashOp.RunAllowed B s₀ ops = true) :
    ∃ s, CashOp.run B s₀ ops = .ok s ∧
      (∀ k, (s.GetCash B k).1 = CashOp.refRun (s₀.sem B) ops k ∧
        (s.AccessCash B k).1.toOption = CashOp.refRun (s₀.sem B) ops k ∧
        (s.HaveCash B k).1 = (CashOp.refRun (s₀.sem B) ops k).isSome) ∧
      ∃ s', CashOp.run B s (List.replicate (s.below.length + 1) .FlushPop) = .ok s' ∧
        B.sem s'.base = CashOp.refRun (s₀.sem B) ops := by
  obtain ⟨s, hrun, hs, hsem⟩ := CashOp.run_spec hB ops h₀ hops
  refine ⟨s, hrun, fun k => ?_, ?_⟩
  · rw [← hsem]
    exact CashStack.reads_spec hs k
  · obtain ⟨s', hflush, htop, hbelow, -, hsem'⟩ := CashOp.flushPop_all hB s.below.length hs rfl
    refine ⟨s', hflush, ?_⟩
    rw [← hsem, ← hsem']
    change B.sem s'.base = s'.top.sem (stackSem B s'.below s'.base)
    rw [htop, hbelow]
    exact (sem_empty _).symm

/-- An outpoint of the witness run. -/
def simulationOutpoint : COutPoint := ⟨uint256.zero, 0⟩

/-- A coin of 5 units with an empty script, at height 1. -/
def simulationCash : Cash := ⟨⟨5, []⟩, false, 1⟩

/-- A run over an empty test store: a coin added, a cache pushed, the coin spent, the top
flushed and popped, the coin added again, written to the store and read back. -/
def simulationOps : List CashOp :=
  [.AddCash simulationOutpoint simulationCash false, .Push, .SpendCash simulationOutpoint,
    .FlushPop, .AddCash simulationOutpoint simulationCash false, .Flush 0,
    .AccessCash simulationOutpoint]

/-- One fresh cache over an empty `CCashViewTest` whose draws hide spent entries on read and
keep them on write. -/
def simulationStart : CashStack CCashViewTest := ⟨default, [], ⟨∅, fun _ => true, fun _ => false⟩⟩

theorem cash_cache_simulation_test :
    CCashViewTest.backend.Lawful ∧ simulationStart.Inv CCashViewTest.backend ∧
      CashOp.RunAllowed CCashViewTest.backend simulationStart simulationOps = true ∧
      ∃ s, CashOp.run CCashViewTest.backend simulationStart simulationOps = .ok s ∧
        (∀ k, (s.GetCash CCashViewTest.backend k).1 =
            CashOp.refRun (simulationStart.sem CCashViewTest.backend) simulationOps k ∧
          (s.AccessCash CCashViewTest.backend k).1.toOption =
            CashOp.refRun (simulationStart.sem CCashViewTest.backend) simulationOps k ∧
          (s.HaveCash CCashViewTest.backend k).1 =
            (CashOp.refRun (simulationStart.sem CCashViewTest.backend) simulationOps k).isSome) ∧
        ∃ s', CashOp.run CCashViewTest.backend s (List.replicate (s.below.length + 1) .FlushPop) =
            .ok s' ∧
          CCashViewTest.backend.sem s'.base =
            CashOp.refRun (simulationStart.sem CCashViewTest.backend) simulationOps :=
  ⟨CCashViewTest.lawful, CashStack.Inv_fresh _ 0, by decide,
    cash_cache_simulation CCashViewTest.backend CCashViewTest.lawful simulationStart
      (CashStack.Inv_fresh _ 0) simulationOps (by decide)⟩

end SalemCash
