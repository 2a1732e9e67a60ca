import SalemCash.Cash
import SalemCash.KeyedFold

/-!
# One cache over its base

What a `CCashViewCache` reports, and the protocol its flags follow, outpoint by
outpoint against the coins `v` its base reports: an entry that is not `DIRTY`
agrees with the base, and a `FRESH` entry has no unspent coin under it. Every
method keeps the protocol. The reads change nothing a view reports; `AddCash` and
`SpendCash` change it at their outpoint as a map would; `BatchWrite` of a child
that keeps the protocol over this cache makes this cache report what the child
reported, without the `FRESH` logic error.
-/

namespace SalemCash

open KeyedFold

/-- A view: the unspent coin at each outpoint. -/
abbrev CashView := COutPoint → Option Cash

/-- The coin at one outpoint of a cache: its entry's, else the base's. -/
def entrySem : Option CCashCacheEntry → Option Cash → Option Cash
  | some e, _ => e.cash.toOption
  | none, w => w

/-- The flag protocol at one outpoint, against the base's coin `w` there. -/
def EntryInv : Option CCashCacheEntry → Option Cash → Prop
  | some e, w => (e.dirty = false → e.cash.toOption = w) ∧ (e.fresh = true → w = none)
  | none, _ => True

/-- What a backing store reports: a spent `Cash` it returns is no coin. -/
def CashBackend.sem {β : Type} (B : CashBackend β) (b : β) : CashView :=
  fun outpoint => (B.GetCash b outpoint).bind Cash.toOption

/-- The view after a write of `mapCash` over `v`: the dirty entries' coins. -/
def writeSem (mapCash : CCashMap) (v : CashView) : CashView :=
  fun outpoint =>
    match mapCash.lookup outpoint with
    | some e => if e.dirty then e.cash.toOption else v outpoint
    | none => v outpoint

/-- A backing store writes the dirty entries it is given, and nothing else. -/
structure CashBackend.Lawful {β : Type} (B : CashBackend β) : Prop where
  BatchWrite_sem : ∀ b mapCash, B.sem (B.BatchWrite b mapCash) = writeSem mapCash (B.sem b)

@[simp] theorem Cash.toOption_Clear (cash : Cash) : cash.Clear.toOption = none := rfl

@[simp] theorem Cash.toOption_default : (default : Cash).toOption = none := rfl

@[simp] theorem CCashCacheEntry.default_dirty : (default : CCashCacheEntry).dirty = false := rfl

@[simp] theorem CCashCacheEntry.default_fresh : (default : CCashCacheEntry).fresh = false := rfl

/-- What `GetCash` reports of a cache is already a coin. -/
@[simp] theorem Cash.toOption_bind (cash : Cash) : cash.toOption.bind Cash.toOption = cash.toOption := by
  unfold Cash.toOption
  split <;> simp_all

theorem Cash.toOption_of_not_spent {cash : Cash} (h : cash.IsSpent = false) :
    cash.toOption = some cash := by
  simp [Cash.toOption, h]

theorem Cash.toOption_of_spent {cash : Cash} (h : cash.IsSpent = true) : cash.toOption = none := by
  simp [Cash.toOption, h]

theorem Cash.IsSpent_of_toOption_eq_none {cash : Cash} (h : cash.toOption = none) :
    cash.IsSpent = true := by
  unfold Cash.toOption at h
  split at h
  · assumption
  · cases h

theorem lookup_insert_apply (m : CCashMap) (k k' : COutPoint) (e : CCashCacheEntry) :
    (m.insert k e).lookup k' = if k' = k then some e else m.lookup k' := by
  split
  · subst k'
    exact AList.lookup_insert m
  · exact AList.lookup_insert_ne ‹_›

theorem lookup_erase_apply (m : CCashMap) (k k' : COutPoint) :
    (m.erase k).lookup k' = if k' = k then none else m.lookup k' := by
  split
  · subst k'
    exact AList.lookup_erase k m
  · exact AList.lookup_erase_ne ‹_›

namespace CCashViewCache

variable {σ : Type}

/-- The view of a cache over a base that reports `v`. -/
def sem (c : CCashViewCache) (v : CashView) : CashView :=
  fun outpoint => entrySem (c.cacheCash.lookup outpoint) (v outpoint)

/-- The flag protocol of a cache over a base that reports `v`. -/
def Inv (c : CCashViewCache) (v : CashView) : Prop :=
  ∀ outpoint, EntryInv (c.cacheCash.lookup outpoint) (v outpoint)

section Entries

variable {c : CCashViewCache} {v : CashView} {k : COutPoint}

theorem Inv.empty (v : CashView) : Inv ⟨∅⟩ v := fun _ => by
  simp [AList.lookup_empty, EntryInv]

theorem Inv.insert (h : c.Inv v) {e : CCashCacheEntry} (he : EntryInv (some e) (v k)) :
    Inv ⟨c.cacheCash.insert k e⟩ v := by
  intro k'
  rw [lookup_insert_apply]
  split
  · subst k'
    exact he
  · exact h k'

theorem Inv.erase (h : c.Inv v) : Inv ⟨c.cacheCash.erase k⟩ v := by
  intro k'
  rw [lookup_erase_apply]
  split
  · trivial
  · exact h k'

theorem sem_insert (e : CCashCacheEntry) :
    sem ⟨c.cacheCash.insert k e⟩ v = Function.update (c.sem v) k e.cash.toOption := by
  funext k'
  simp only [sem, lookup_insert_apply, Function.update_apply]
  split <;> rfl

theorem sem_erase : sem ⟨c.cacheCash.erase k⟩ v = Function.update (c.sem v) k (v k) := by
  funext k'
  simp only [sem, lookup_erase_apply, Function.update_apply]
  split
  · subst k'
    rfl
  · rfl

/-- A cache reports its base where it has no entry. -/
theorem sem_of_lookup_none (h : c.cacheCash.lookup k = none) : c.sem v k = v k := by
  simp [sem, h, entrySem]

theorem sem_of_lookup_some {e : CCashCacheEntry} (h : c.cacheCash.lookup k = some e) :
    c.sem v k = e.cash.toOption := by
  simp [sem, h, entrySem]

/-- Under the protocol, a `FRESH` entry's outpoint has no coin in the base. -/
theorem Inv.base_none_of_fresh (h : c.Inv v) {e : CCashCacheEntry}
    (he : c.cacheCash.lookup k = some e) (hfresh : e.fresh = true) : v k = none := by
  have := h k
  rw [he] at this
  exact this.2 hfresh

theorem Inv.toOption_of_clean (h : c.Inv v) {e : CCashCacheEntry}
    (he : c.cacheCash.lookup k = some e) (hclean : e.dirty = false) : e.cash.toOption = v k := by
  have := h k
  rw [he] at this
  exact this.1 hclean

end Entries

section Reads

variable {c c' : CCashViewCache} {base : CCashViewBase σ} {v : CashView} {k : COutPoint}
  {it : Option CCashCacheEntry} {b' : σ}

/-- `FetchCash` on a base that reports `v` at the outpoint keeps the protocol and the view; the
entry it returns is the one now in the cache, there is none only where the base has no coin,
and the base's state is the one it had or the one its `GetCash` left. -/
theorem FetchCash_spec (hinv : c.Inv v) (hbase : (base.GetCash k).1.bind Cash.toOption = v k)
    (h : c.FetchCash base k = (it, c', b')) :
    c'.Inv v ∧ c'.sem v = c.sem v ∧ c'.cacheCash.lookup k = it ∧ (it = none → v k = none) ∧
      (b' = base.self ∨ b' = (base.GetCash k).2) := by
  unfold FetchCash at h
  split at h
  · rename_i e he
    cases h
    exact ⟨hinv, rfl, he, (fun h => nomatch h), Or.inl rfl⟩
  · rename_i hmiss
    split at h
    · rename_i base' hget
      cases h
      rw [hget] at hbase
      exact ⟨hinv, rfl, hmiss, fun _ => hbase.symm, Or.inr (by rw [hget])⟩
    · rename_i tmp base' hget
      cases h
      rw [hget] at hbase
      have hentry : EntryInv (some (fetchedEntry tmp)) (v k) := by
        refine ⟨fun _ => hbase, fun hfresh => ?_⟩
        rw [← hbase]
        exact Cash.toOption_of_spent hfresh
      refine ⟨hinv.insert hentry, ?_, AList.lookup_insert _, (fun h => nomatch h),
        Or.inr (by rw [hget])⟩
      rw [sem_insert]
      funext k'
      by_cases hk : k' = k
      · subst hk
        rw [Function.update_self, sem_of_lookup_none hmiss, ← hbase]
        rfl
      · rw [Function.update_of_ne hk]

/-- What `FetchCash` returns is the cache's view at the outpoint. -/
theorem FetchCash_sem (hinv : c.Inv v) (hbase : (base.GetCash k).1.bind Cash.toOption = v k) :
    (c.FetchCash base k).1.bind (·.cash.toOption) = c.sem v k := by
  rcases h : c.FetchCash base k with ⟨it, c', b'⟩
  obtain ⟨_, hsem, hlookup, hnone, _⟩ := FetchCash_spec hinv hbase h
  rw [← hsem]
  cases it with
  | none => rw [sem_of_lookup_none hlookup, hnone rfl]; rfl
  | some e => exact (sem_of_lookup_some hlookup).symm

theorem GetCash_eq (c : CCashViewCache) (base : CCashViewBase σ) (k : COutPoint) :
    c.GetCash base k = ((c.FetchCash base k).1.bind (·.cash.toOption), (c.FetchCash base k).2) := by
  unfold GetCash
  split <;> simp_all

theorem AccessCash_eq (c : CCashViewCache) (base : CCashViewBase σ) (k : COutPoint) :
    c.AccessCash base k = (((c.FetchCash base k).1.map (·.cash)).getD cashEmpty,
      (c.FetchCash base k).2) := by
  unfold AccessCash
  split <;> simp_all

theorem HaveCash_eq (c : CCashViewCache) (base : CCashViewBase σ) (k : COutPoint) :
    c.HaveCash base k = (((c.FetchCash base k).1.bind (·.cash.toOption)).isSome,
      (c.FetchCash base k).2) := by
  unfold HaveCash
  split
  · rename_i e c' b' h
    rw [h]
    simp only [Option.bind_some, Cash.toOption]
    split <;> simp_all
  · rename_i c' b' h
    simp [h]

/-- `GetCash` reports the view. -/
theorem GetCash_sem (hinv : c.Inv v) (hbase : (base.GetCash k).1.bind Cash.toOption = v k) :
    (c.GetCash base k).1 = c.sem v k := by
  rw [GetCash_eq, FetchCash_sem hinv hbase]

/-- `AccessCash` returns a spent `Cash` where the view has no coin, and the coin where it has one. -/
theorem AccessCash_sem (hinv : c.Inv v) (hbase : (base.GetCash k).1.bind Cash.toOption = v k) :
    (c.AccessCash base k).1.toOption = c.sem v k := by
  rw [AccessCash_eq, ← FetchCash_sem hinv hbase]
  cases (c.FetchCash base k).1 <;> rfl

theorem HaveCash_sem (hinv : c.Inv v) (hbase : (base.GetCash k).1.bind Cash.toOption = v k) :
    (c.HaveCash base k).1 = (c.sem v k).isSome := by
  rw [HaveCash_eq, FetchCash_sem hinv hbase]

end Reads

section Writes

variable {c c' : CCashViewCache} {base : CCashViewBase σ} {v : CashView} {k : COutPoint}

/-- `SpendCash` removes the coin from the view and keeps the protocol; what it moves out is
the coin that was there. -/
theorem SpendCash_spec (hinv : c.Inv v) (hbase : (base.GetCash k).1.bind Cash.toOption = v k) :
    (c.SpendCash base k).2.1.Inv v ∧
      (c.SpendCash base k).2.1.sem v = Function.update (c.sem v) k none ∧
      (c.SpendCash base k).1.bind Cash.toOption = c.sem v k ∧
      ((c.SpendCash base k).2.2 = base.self ∨ (c.SpendCash base k).2.2 = (base.GetCash k).2) := by
  rcases hf : c.FetchCash base k with ⟨it, c₁, b₁⟩
  obtain ⟨hinv₁, hsem₁, hlookup, hnone, hbase₁⟩ := FetchCash_spec hinv hbase hf
  unfold SpendCash
  rw [hf, ← hsem₁]
  cases it with
  | none =>
    have hk : c₁.sem v k = none := by rw [sem_of_lookup_none hlookup, hnone rfl]
    refine ⟨hinv₁, ?_, hk.symm, hbase₁⟩
    rw [← hk, Function.update_eq_self]
  | some e =>
    have hcoin : c₁.sem v k = e.cash.toOption := sem_of_lookup_some hlookup
    dsimp only
    split
    · rename_i hfresh
      refine ⟨hinv₁.erase, ?_, hcoin.symm, hbase₁⟩
      rw [sem_erase, hinv₁.base_none_of_fresh hlookup hfresh]
    · rename_i hfresh
      have hentry : EntryInv (some ⟨e.cash.Clear, true, e.fresh⟩) (v k) :=
        ⟨(fun h => nomatch h), fun h => absurd h hfresh⟩
      exact ⟨hinv₁.insert hentry, by rw [sem_insert, Cash.toOption_Clear], hcoin.symm, hbase₁⟩

/-- Without `possible_overwrite`, `AddCash` finds a pruned entry wherever the view has no coin:
an entry that is there agrees with the view. -/
theorem AddCash_entry_spent (hk : c.sem v k = none) :
    ((c.cacheCash.lookup k).getD default).cash.IsSpent = true := by
  cases hl : c.cacheCash.lookup k with
  | none => rfl
  | some e =>
    rw [sem_of_lookup_some hl] at hk
    exact Cash.IsSpent_of_toOption_eq_none hk

/-- `AddCash` of an unspent coin, with `possible_overwrite` unless the view has no coin there,
does not throw, keeps the protocol, and puts the coin in the view unless its script is
unspendable. -/
theorem AddCash_spec (hinv : c.Inv v) {cash : Cash} (hcash : cash.IsSpent = false)
    {possible_overwrite : Bool} (hpo : possible_overwrite = false → c.sem v k = none) :
    ∃ c', c.AddCash k cash possible_overwrite = .ok c' ∧ c'.Inv v ∧
      c'.sem v = if IsUnspendable cash.out.scriptPubKey then c.sem v
        else Function.update (c.sem v) k (some cash) := by
  unfold AddCash
  rw [if_neg (by simp [hcash])]
  by_cases hu : IsUnspendable cash.out.scriptPubKey = true
  · simp only [hu, if_true]
    exact ⟨c, rfl, hinv, rfl⟩
  · simp only [hu, Bool.false_eq_true, if_false]
    set entry := (c.cacheCash.lookup k).getD default with hentry
    have hnothrow : (!possible_overwrite && !entry.cash.IsSpent) = false := by
      cases hp : possible_overwrite
      · simp [AddCash_entry_spent (hpo hp), entry]
      · rfl
    rw [if_neg (by simp [hnothrow])]
    have hfresh : (entry.fresh || (!possible_overwrite && !entry.dirty)) = true → v k = none := by
      cases hl : c.cacheCash.lookup k with
      | none =>
        intro hf
        have hp : possible_overwrite = false := by simpa [entry, hl] using hf
        have hbase : c.sem v k = v k := sem_of_lookup_none hl
        rw [← hbase]
        exact hpo hp
      | some e =>
        simp only [entry, hl, Option.getD_some, Bool.or_eq_true, Bool.and_eq_true,
          Bool.not_eq_eq_eq_not, Bool.not_true]
        rintro (hf | ⟨hp, hd⟩)
        · exact hinv.base_none_of_fresh hl hf
        · rw [← hinv.toOption_of_clean hl hd, ← sem_of_lookup_some hl]
          exact hpo hp
    refine ⟨_, rfl, hinv.insert ⟨(fun h => nomatch h), hfresh⟩, ?_⟩
    rw [sem_insert, Cash.toOption_of_not_spent hcash]

/-- `Uncache` drops only a clean entry, which agrees with the base: nothing the view reports
changes. -/
theorem Uncache_spec (hinv : c.Inv v) : (c.Uncache k).Inv v ∧ (c.Uncache k).sem v = c.sem v := by
  unfold Uncache
  split
  · rename_i e he
    split
    · rename_i hflags
      have hclean : e.dirty = false := by simp_all
      refine ⟨hinv.erase, ?_⟩
      rw [sem_erase, ← hinv.toOption_of_clean he hclean, ← sem_of_lookup_some he,
        Function.update_eq_self]
    · exact ⟨hinv, rfl⟩
  · exact ⟨hinv, rfl⟩

end Writes

section BatchWrite

/-- What one step of `BatchWrite` leaves at its own outpoint, from the entry there. -/
def mergeEntry (child : CCashCacheEntry) (us : Option CCashCacheEntry) : Option CCashCacheEntry :=
  if !child.dirty then us
  else
    match us with
    | none => if child.fresh && child.cash.IsSpent then none else some ⟨child.cash, true, child.fresh⟩
    | some us => if us.fresh && child.cash.IsSpent then none else some ⟨child.cash, true, us.fresh⟩

/-- The `FRESH` logic error is not thrown at this outpoint. -/
def MergeOk (child : CCashCacheEntry) (us : Option CCashCacheEntry) : Prop :=
  child.dirty = true → child.fresh = true → ∀ u, us = some u → u.cash.IsSpent = true

/-- Each step of `BatchWrite` changes its own outpoint only. -/
theorem batchWriteEntry_local :
    LocalStep (fun (m : CCashMap) k => m.lookup k) batchWriteEntry
      (fun _ e us => MergeOk e us) (fun _ e us => mergeEntry e us) := by
  intro m k e hok
  unfold batchWriteEntry mergeEntry
  by_cases hd : e.dirty = true
  · simp only [hd, Bool.not_true, Bool.false_eq_true, if_false]
    cases hl : m.lookup k with
    | none =>
      dsimp only
      split
      · exact ⟨m, rfl, hl, fun _ _ => rfl⟩
      · exact ⟨_, rfl, AList.lookup_insert m, fun _ hk => AList.lookup_insert_ne hk⟩
    | some us =>
      have hthrow : ¬((e.fresh && !us.cash.IsSpent) = true) := by
        intro h
        simp only [Bool.and_eq_true, Bool.not_eq_eq_eq_not, Bool.not_true] at h
        have := hok hd h.1 us (hl ▸ rfl)
        simp_all
      dsimp only
      rw [if_neg hthrow]
      split
      · exact ⟨_, rfl, AList.lookup_erase k m, fun _ hk => AList.lookup_erase_ne hk⟩
      · exact ⟨_, rfl, AList.lookup_insert m, fun _ hk => AList.lookup_insert_ne hk⟩
  · have hd' : e.dirty = false := by simpa using hd
    simp only [hd', Bool.not_false, if_true]
    exact ⟨m, rfl, rfl, fun _ _ => rfl⟩

/-- `BatchWrite` ends with each outpoint merged, and throws nowhere the child's `FRESH` flags
are right. -/
theorem BatchWrite_lookup (c : CCashViewCache) {m : CCashMap}
    (hok : ∀ k e, m.lookup k = some e → MergeOk e (c.cacheCash.lookup k)) :
    ∃ c', c.BatchWrite m = .ok c' ∧ ∀ k, c'.cacheCash.lookup k =
      after (fun _ e us => mergeEntry e us) m.entries (fun k => c.cacheCash.lookup k) k := by
  have hok' : ∀ s ∈ m.entries, MergeOk s.2 (c.cacheCash.lookup s.1) :=
    fun s hs => hok s.1 s.2 (AList.mem_lookup_iff.mpr hs)
  obtain ⟨map', hfold, hget⟩ :=
    foldlM_ok batchWriteEntry_local m.nodupKeys c.cacheCash hok'
  refine ⟨⟨map'⟩, ?_, fun k => hget k⟩
  unfold BatchWrite
  rw [hfold]
  rfl

variable {e : CCashCacheEntry} {us : Option CCashCacheEntry} {w : Option Cash}

/-- One outpoint of a write from a child whose `FRESH` entries have no coin under them: no
throw, the protocol kept, and the child's coin where it is dirty. -/
theorem mergeEntry_spec (hus : EntryInv us w) (hchild : e.fresh = true → entrySem us w = none) :
    MergeOk e us ∧ EntryInv (mergeEntry e us) w ∧
      entrySem (mergeEntry e us) w = if e.dirty then e.cash.toOption else entrySem us w := by
  unfold mergeEntry
  cases hd : e.dirty
  · exact ⟨fun h => by simp [hd] at h, by simpa using hus, by simp⟩
  · simp only [Bool.not_true, Bool.false_eq_true, if_false, if_true]
    cases us with
    | none =>
      have hw : e.fresh = true → w = none := hchild
      refine ⟨(fun _ _ _ h => nomatch h), ?_, ?_⟩
      · dsimp only
        split
        · trivial
        · exact ⟨(fun h => nomatch h), hw⟩
      · dsimp only
        split
        · rename_i hfs
          simp only [Bool.and_eq_true] at hfs
          rw [entrySem, hw hfs.1, Cash.toOption_of_spent hfs.2]
        · rfl
    | some u =>
      have hok : MergeOk e (some u) := by
        intro _ hf u' hu'
        cases hu'
        exact Cash.IsSpent_of_toOption_eq_none (hchild hf)
      refine ⟨hok, ?_, ?_⟩
      · dsimp only
        split
        · trivial
        · exact ⟨(fun h => nomatch h), hus.2⟩
      · dsimp only
        split
        · rename_i hfs
          simp only [Bool.and_eq_true] at hfs
          rw [entrySem, hus.2 hfs.1, Cash.toOption_of_spent hfs.2]
        · rfl

/-- `BatchWrite` of a map whose `FRESH` entries have no coin in this cache's view: no throw, the
protocol kept, and the dirty entries' coins in the view. -/
theorem BatchWrite_spec {c : CCashViewCache} {v : CashView} {m : CCashMap} (hinv : c.Inv v)
    (hchild : ∀ k e, m.lookup k = some e → e.fresh = true → c.sem v k = none) :
    ∃ c', c.BatchWrite m = .ok c' ∧ c'.Inv v ∧ c'.sem v = writeSem m (c.sem v) := by
  have hmerge : ∀ k e, m.lookup k = some e →
      MergeOk e (c.cacheCash.lookup k) ∧ EntryInv (mergeEntry e (c.cacheCash.lookup k)) (v k) ∧
        entrySem (mergeEntry e (c.cacheCash.lookup k)) (v k) =
          if e.dirty then e.cash.toOption else c.sem v k :=
    fun k e he => mergeEntry_spec (hinv k) (hchild k e he)
  obtain ⟨c', hbatch, hlookup⟩ := c.BatchWrite_lookup fun k e he => (hmerge k e he).1
  refine ⟨c', hbatch, fun k => ?_, funext fun k => ?_⟩
  all_goals
    have hl : m.lookup k = m.entries.dlookup k := rfl
    simp only [sem, writeSem, hlookup k, after, ← hl]
  · cases hm : m.lookup k with
    | none => exact hinv k
    | some e => exact (hmerge k e hm).2.1
  · cases hm : m.lookup k with
    | none => rfl
    | some e => exact (hmerge k e hm).2.2

/-- A cache that keeps the protocol over `v` writes, as a child, exactly its own view. -/
theorem writeSem_of_Inv {d : CCashViewCache} {v : CashView} (hinv : d.Inv v) :
    writeSem d.cacheCash v = d.sem v := by
  funext k
  cases hl : d.cacheCash.lookup k with
  | none => simp [writeSem, hl, sem_of_lookup_none hl]
  | some e =>
    simp only [writeSem, hl, sem_of_lookup_some hl]
    split
    · rfl
    · exact (hinv.toOption_of_clean hl (Bool.of_not_eq_true ‹_›)).symm

end BatchWrite

end CCashViewCache

section Backends

/-- A store of `Cash` that writes each dirty entry's coin, in whatever form, and leaves the
other outpoints alone, ends up reporting the write of the map. -/
theorem foldl_write_sem (write : (AList fun _ : COutPoint => Cash) → COutPoint → CCashCacheEntry →
      AList fun _ : COutPoint => Cash)
    (hwrite : ∀ db k e, ((write db k e).lookup k).bind Cash.toOption =
        (if e.dirty then e.cash.toOption else (db.lookup k).bind Cash.toOption) ∧
      ∀ k', k' ≠ k → (write db k e).lookup k' = db.lookup k')
    (db : AList fun _ : COutPoint => Cash) (m : CCashMap) :
    (fun k => ((m.entries.foldl (fun db s => write db s.1 s.2) db).lookup k).bind Cash.toOption) =
      writeSem m fun k => (db.lookup k).bind Cash.toOption := by
  funext k
  have hstep : ∀ db k e, ((write db k e).lookup k).bind Cash.toOption =
        (if e.dirty then e.cash.toOption else (db.lookup k).bind Cash.toOption) ∧
      ∀ k', k' ≠ k → ((write db k e).lookup k').bind Cash.toOption = (db.lookup k').bind Cash.toOption :=
    fun db k e => ⟨(hwrite db k e).1, fun k' hk => by rw [(hwrite db k e).2 k' hk]⟩
  rw [foldl_get (fun db k => (db.lookup k).bind Cash.toOption)
    (fun _ e old => if e.dirty then e.cash.toOption else old) hstep m.nodupKeys db k]
  have hl : m.lookup k = m.entries.dlookup k := rfl
  simp only [after, writeSem, ← hl]
  cases m.lookup k <;> rfl

/-- Hiding a spent entry hides no coin. -/
theorem CCashViewTest.sem_eq (v : CCashViewTest) :
    CCashViewTest.backend.sem v = fun k => (v.map_.lookup k).bind Cash.toOption := by
  funext k
  simp only [CashBackend.sem, backend, GetCash]
  cases v.map_.lookup k with
  | none => rfl
  | some cash =>
    dsimp only
    split
    · rename_i hs
      simp only [Bool.and_eq_true] at hs
      simp [Cash.toOption_of_spent hs.1]
    · rfl

theorem CCashViewTest.lawful : CCashViewTest.backend.Lawful := by
  constructor
  intro v m
  rw [sem_eq, sem_eq]
  apply foldl_write_sem
  intro map_ k e
  unfold writeEntry
  split
  · split
    · rename_i hs
      simp only [Bool.and_eq_true] at hs
      refine ⟨by simp [AList.lookup_erase, Cash.toOption_of_spent hs.1], fun _ h => ?_⟩
      rw [AList.lookup_erase_ne h, AList.lookup_insert_ne h]
    · exact ⟨by simp [AList.lookup_insert, Cash.toOption], fun _ h => AList.lookup_insert_ne h⟩
  · exact ⟨by simp_all, fun _ _ => rfl⟩

end Backends

end SalemCash
