import Mathlib.Data.List.AList
import SalemCash.Transaction

/-!
# The UTXO view and its cache

The classes of `cash.h` and the methods of `cash.cpp`. A `CCashViewCache` holds a
map from outpoints to cache entries, each a `Cash` with its `DIRTY` and `FRESH`
flags, over a `base` view. The `base` pointer is virtual: it is another cache or a
backing store. A cache calls two of its methods, `GetCash` on a miss and `BatchWrite`
on a flush; `CCashViewBase` is that pointer, the base's state with the two methods
bound to it, so that every method of the cache returns the base's state after the
call.

A backing store at the bottom is any `CashBackend`; `CCashViewTest` of `cash_tests.cpp`
is one, which may keep spent entries and may report them as absent or as spent. The
memory accounting (`cachedCashUsage`) and the best-block hash are left out: no modelled
function reads them.
-/

namespace SalemCash

/-- `CTxOut::IsNull`: the value -1 that `SetNull` writes. -/
def CTxOut.IsNull (out : CTxOut) : Bool := out.nValue == -1

/-- A UTXO entry. The source stores `nHeight` in a 31-bit field; heights stay below 2^31. -/
structure Cash where
  out : CTxOut
  fCashBase : Bool
  nHeight : Nat
  deriving DecidableEq, Repr

namespace Cash

/-- `Cash()`: a null output at height 0. -/
instance : Inhabited Cash := ⟨⟨CTxOut.null, false, 0⟩⟩

def IsSpent (cash : Cash) : Bool := cash.out.IsNull

def IsCashBase (cash : Cash) : Bool := cash.fCashBase

/-- `Cash::Clear`: the output set null, not a cashbase, height 0. -/
def Clear (_ : Cash) : Cash := ⟨CTxOut.null, false, 0⟩

/-- The unspent coin a `Cash` stands for, as `GetCash` reports it. -/
def toOption (cash : Cash) : Option Cash := if cash.IsSpent then none else some cash

end Cash

/-- A cache entry; `dirty` and `fresh` are the two bits of `flags`. -/
structure CCashCacheEntry where
  cash : Cash
  /-- `DIRTY`: this entry is potentially different from the version in the parent view. -/
  dirty : Bool
  /-- `FRESH`: the parent view does not have this entry (or it is pruned). -/
  fresh : Bool
  deriving DecidableEq, Repr

/-- `CCashCacheEntry()`: an empty `Cash`, no flag set. -/
instance : Inhabited CCashCacheEntry := ⟨⟨default, false, false⟩⟩

abbrev CCashMap := AList fun _ : COutPoint => CCashCacheEntry

/-- What the cache code throws, or an `assert` that fails. -/
inductive CashError
  | logic_error (what : String)
  | assertion_failure
  deriving DecidableEq, Repr

/-- The `base` pointer of a cache: the base view's state, with `GetCash` and `BatchWrite`
bound to it; each returns the base's state after the call. -/
structure CCashViewBase (σ : Type) where
  self : σ
  GetCash : COutPoint → Option Cash × σ
  BatchWrite : CCashMap → Except CashError σ

structure CCashViewCache where
  cacheCash : CCashMap

/-- `CCashViewCache(base)`: nothing cached yet. -/
instance : Inhabited CCashViewCache := ⟨⟨∅⟩⟩

namespace CCashViewCache

variable {σ : Type}

/-- The entry `FetchCash` makes of what the base returns: `FRESH` when the parent only has an
empty entry for this outpoint. -/
def fetchedEntry (tmp : Cash) : CCashCacheEntry :=
  ⟨tmp, false, tmp.IsSpent⟩

/-- `CCashViewCache::FetchCash`: the cache's entry for `outpoint`, copied in from the base on a
miss; `none` is the end iterator. -/
def FetchCash (c : CCashViewCache) (base : CCashViewBase σ) (outpoint : COutPoint) :
    Option CCashCacheEntry × CCashViewCache × σ :=
  match c.cacheCash.lookup outpoint with
  | some e => (some e, c, base.self)
  | none =>
    match base.GetCash outpoint with
    | (none, base') => (none, c, base')
    | (some tmp, base') =>
      (some (fetchedEntry tmp), ⟨c.cacheCash.insert outpoint (fetchedEntry tmp)⟩, base')

/-- `CCashViewCache::GetCash`: `some` of the entry's `Cash` exactly when it is found unspent. -/
def GetCash (c : CCashViewCache) (base : CCashViewBase σ) (outpoint : COutPoint) :
    Option Cash × CCashViewCache × σ :=
  match c.FetchCash base outpoint with
  | (some e, c', base') => (e.cash.toOption, c', base')
  | (none, c', base') => (none, c', base')

/-- `cashEmpty`, what `AccessCash` returns for an outpoint it cannot find. -/
def cashEmpty : Cash := default

/-- `CCashViewCache::AccessCash`: the entry's `Cash`, or a pruned one if not found. -/
def AccessCash (c : CCashViewCache) (base : CCashViewBase σ) (outpoint : COutPoint) :
    Cash × CCashViewCache × σ :=
  match c.FetchCash base outpoint with
  | (some e, c', base') => (e.cash, c', base')
  | (none, c', base') => (cashEmpty, c', base')

/-- `CCashViewCache::HaveCash`: an entry is found and it is not spent. -/
def HaveCash (c : CCashViewCache) (base : CCashViewBase σ) (outpoint : COutPoint) :
    Bool × CCashViewCache × σ :=
  match c.FetchCash base outpoint with
  | (some e, c', base') => (!e.cash.IsSpent, c', base')
  | (none, c', base') => (false, c', base')

/-- `CCashViewCache::HaveCashInCache`: as `HaveCash`, without asking the base. -/
def HaveCashInCache (c : CCashViewCache) (outpoint : COutPoint) : Bool :=
  match c.cacheCash.lookup outpoint with
  | some e => !e.cash.IsSpent
  | none => false

/-- `CCashViewCache::AddCash`. The entry is emplaced without asking the base: a new one is
`CCashCacheEntry()`. Without `possible_overwrite` it must be pruned, and it becomes `FRESH`
unless it was `DIRTY`. -/
def AddCash (c : CCashViewCache) (outpoint : COutPoint) (cash : Cash)
    (possible_overwrite : Bool) : Except CashError CCashViewCache :=
  if cash.IsSpent then .error .assertion_failure
  else if IsUnspendable cash.out.scriptPubKey then .ok c
  else
    let entry := (c.cacheCash.lookup outpoint).getD default
    if !possible_overwrite && !entry.cash.IsSpent then
      .error (.logic_error "Adding new cash that replaces non-pruned entry")
    else
      let fresh := !possible_overwrite && !entry.dirty
      .ok ⟨c.cacheCash.insert outpoint ⟨cash, true, entry.fresh || fresh⟩⟩

/-- `CCashViewCache::SpendCash`: `some` of the moved-out `Cash` when an entry is found (the
`true` result). A `FRESH` entry is erased; another is marked `DIRTY` and cleared. -/
def SpendCash (c : CCashViewCache) (base : CCashViewBase σ) (outpoint : COutPoint) :
    Option Cash × CCashViewCache × σ :=
  match c.FetchCash base outpoint with
  | (none, c', base') => (none, c', base')
  | (some e, c', base') =>
    if e.fresh then (some e.cash, ⟨c'.cacheCash.erase outpoint⟩, base')
    else (some e.cash, ⟨c'.cacheCash.insert outpoint ⟨e.cash.Clear, true, e.fresh⟩⟩, base')

/-- `CCashViewCache::Uncache`: the entry is dropped if no flag is set. -/
def Uncache (c : CCashViewCache) (outpoint : COutPoint) : CCashViewCache :=
  match c.cacheCash.lookup outpoint with
  | some e => if !e.dirty && !e.fresh then ⟨c.cacheCash.erase outpoint⟩ else c
  | none => c

/-- One iteration of the loop of `CCashViewCache::BatchWrite`: the child's entry for
`outpoint` written into this cache's map. -/
def batchWriteEntry (cacheCash : CCashMap) (outpoint : COutPoint) (child : CCashCacheEntry) :
    Except CashError CCashMap :=
  -- Ignore non-dirty entries (optimization).
  if !child.dirty then .ok cacheCash
  else
    match cacheCash.lookup outpoint with
    | none =>
      -- a FRESH child entry that is pruned need not be created in the parent
      if child.fresh && child.cash.IsSpent then .ok cacheCash
      else .ok (cacheCash.insert outpoint ⟨child.cash, true, child.fresh⟩)
    | some us =>
      if child.fresh && !us.cash.IsSpent then
        .error (.logic_error
          "FRESH flag misapplied to cache entry for base transaction with spendable outputs")
      -- the grandparent does not have an entry and the child prunes it: delete it here
      else if us.fresh && child.cash.IsSpent then .ok (cacheCash.erase outpoint)
      -- a normal modification; the child's FRESH flag is not copied
      else .ok (cacheCash.insert outpoint ⟨child.cash, true, us.fresh⟩)

/-- `CCashViewCache::BatchWrite`: the child's entries written in, one after the other. -/
def BatchWrite (c : CCashViewCache) (mapCash : CCashMap) : Except CashError CCashViewCache := do
  let cacheCash ← mapCash.entries.foldlM (fun acc s => batchWriteEntry acc s.1 s.2) c.cacheCash
  pure ⟨cacheCash⟩

/-- `CCashViewCache::Flush`: the map written into the base, then cleared. -/
def Flush (c : CCashViewCache) (base : CCashViewBase σ) :
    Except CashError (CCashViewCache × σ) := do
  let base' ← base.BatchWrite c.cacheCash
  pure (⟨∅⟩, base')

end CCashViewCache

/-- A `CCashView` that is not a cache, at the bottom of a stack. Its `GetCash` may return a
spent `Cash`, and changes nothing. -/
structure CashBackend (β : Type) where
  GetCash : β → COutPoint → Option Cash
  BatchWrite : β → CCashMap → β

/-- The `base` pointer of a cache right over a backing store. -/
def CashBackend.toBase {β : Type} (B : CashBackend β) (b : β) : CCashViewBase β :=
  ⟨b, fun outpoint => (B.GetCash b outpoint, b), fun mapCash => .ok (B.BatchWrite b mapCash)⟩

/-- The state of `CCashViewTest`: its map, and for each outpoint the outcome of the random
draws its methods make there. -/
structure CCashViewTest where
  map_ : AList fun _ : COutPoint => Cash
  /-- `InsecureRandBool() == 0` in `GetCash`: a spent entry is reported as absent. -/
  hideSpent : COutPoint → Bool
  /-- `InsecureRandRange(3) == 0` in `BatchWrite`: a spent entry is deleted on write. -/
  eraseSpent : COutPoint → Bool

namespace CCashViewTest

def GetCash (v : CCashViewTest) (outpoint : COutPoint) : Option Cash :=
  match v.map_.lookup outpoint with
  | none => none
  | some cash => if cash.IsSpent && v.hideSpent outpoint then none else some cash

/-- One iteration of `CCashViewTest::BatchWrite`: a dirty entry is written, and a spent one
may then be deleted. -/
def writeEntry (eraseSpent : COutPoint → Bool) (map_ : AList fun _ : COutPoint => Cash)
    (outpoint : COutPoint) (e : CCashCacheEntry) : AList fun _ : COutPoint => Cash :=
  if e.dirty then
    if e.cash.IsSpent && eraseSpent outpoint then (map_.insert outpoint e.cash).erase outpoint
    else map_.insert outpoint e.cash
  else map_

def backend : CashBackend CCashViewTest where
  GetCash := GetCash
  BatchWrite v mapCash :=
    { v with map_ := mapCash.entries.foldl (fun m s => writeEntry v.eraseSpent m s.1 s.2) v.map_ }

end CCashViewTest

end SalemCash
