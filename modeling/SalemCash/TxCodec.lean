import SalemCash.Unserialize

/-!
# Reading a transaction

`Unserialize` of `std::vector` and `prevector` in `serialize.h`, the `SerializationOp`s of
`COutPoint`, `CTxIn` and `CTxOut`, and `UnserializeTransaction` of `transaction.h`. A vector
of bytes is read in blocks of at most five million bytes, a vector of other elements in
rounds of `5000000 / sizeof(T)` elements; both read back what `serializeBytes` and
`serializeVector` write, and accept nothing else.

`UnserializeTransaction` first reads the inputs. An empty input vector, on a stream that
allows witnesses, is the marker of the extended format: a flags byte follows, and with flag
`1` the inputs, the outputs and then one witness stack per input. The reader takes back every
transaction with an input in either format. Every input it accepts is what
`SerializeTransaction` writes of the result, with one exception: the extended format with
flag `1` whose witness stacks are all empty, which `SerializeTransaction` writes in the basic
format.
-/
set_option autoImplicit false

namespace SalemCash

/-- The loop of `Unserialize_impl` for a vector of bytes (`std::vector` or `prevector`):
`v.resize(i + blk)` and `is.read(&v[i], blk)` with `blk = min(nSize - i, 1 + 4999999 /
sizeof(T))`, until `nSize` bytes are read, so that a bogus size cannot allocate much before
the data runs out. At most `fuel` blocks are read. -/
def readByteBlocks (nSize : Nat) : Nat → List UInt8 → Unserializer (List UInt8)
  | 0, v => pure v
  | fuel + 1, v =>
    if v.length < nSize then do
      let blk := min (nSize - v.length) (1 + 4999999 / 1)
      let more ← CDataStream.read blk
      readByteBlocks nSize fuel (v ++ more)
    else pure v

/-- `Unserialize` of a vector of bytes, such as a `CScript` or a witness item. The size is
read into an `unsigned int`; every block holds at least one byte, so `nSize` blocks are
enough. -/
def unserializeBytes : Unserializer (List UInt8) := do
  let nSize := (← ReadCompactSize).toUInt32.toNat
  readByteBlocks nSize nSize []

/-- `Unserialize` of a `std::vector<T>` of other elements: rounds of `5000000 / sizeof(T)`
elements, each read by `read` into a slot that `resize` added. -/
def unserializeVector {α : Type} (sizeofT : Nat) (read : Unserializer α) : Unserializer (List α) := do
  let nSize := (← ReadCompactSize).toUInt32.toNat
  Codec.readRounds read (5000000 / sizeofT) nSize nSize []

/-- `sizeof(CTxIn)`, `sizeof(CTxOut)` and `sizeof(std::vector<unsigned char>)` on a 64-bit
build, where `prevector` is packed: they only set how many elements one round reads. -/
def sizeof_CTxIn : Nat := 96

def sizeof_CTxOut : Nat := 40

def sizeof_valtype : Nat := 24

def COutPoint.unserialize : Unserializer COutPoint := do
  let hash ← uint256.unserialize
  let n ← ser_readdata32
  pure ⟨hash, n⟩

/-- `CTxIn`'s `SerializationOp`, reading into the default input that `resize` made: the
witness is not part of it and stays empty. -/
def CTxIn.unserialize : Unserializer CTxIn := do
  let prevout ← COutPoint.unserialize
  let scriptSig ← unserializeBytes
  let nSequence ← ser_readdata32
  pure ⟨prevout, scriptSig, nSequence, ⟨[]⟩⟩

/-- `CTxOut`'s `SerializationOp`: `nValue` from the 64 bits of its two's complement, then the
script. -/
def CTxOut.unserialize : Unserializer CTxOut := do
  let nValue := (← ser_readdata64).toInt64.toInt
  let scriptPubKey ← unserializeBytes
  pure ⟨nValue, scriptPubKey⟩

def readVin : Unserializer (List CTxIn) := unserializeVector sizeof_CTxIn CTxIn.unserialize

def readVout : Unserializer (List CTxOut) := unserializeVector sizeof_CTxOut CTxOut.unserialize

/-- `s >> tx.vin` and what follows it in `UnserializeTransaction`: the flags byte (`0` when
none is read), the inputs and the outputs. -/
def readInputsOutputs (fAllowWitness : Bool) : Unserializer (UInt8 × List CTxIn × List CTxOut) := do
  -- try to read the vin; in case the dummy is there, it is read as an empty vector.
  let vin ← readVin
  if vin.length = 0 ∧ fAllowWitness then do
    -- a dummy or an empty vin
    let flags ← ser_readdata8
    if flags ≠ 0 then do
      let vin ← readVin
      let vout ← readVout
      pure (flags, vin, vout)
    else pure (flags, vin, [])
  else do
    -- a non-empty vin: a normal vout follows.
    let vout ← readVout
    pure (0, vin, vout)

/-- The loop `for (i < tx.vin.size()) s >> tx.vin[i].scriptWitness.stack`. -/
def readWitnesses : List CTxIn → Unserializer (List CTxIn)
  | [] => pure []
  | txin :: vin => do
    let stack ← unserializeVector sizeof_valtype unserializeBytes
    let vin ← readWitnesses vin
    pure ({ txin with scriptWitness := ⟨stack⟩ } :: vin)

/-- `if ((flags & 1) && fAllowWitness) { flags ^= 1; ... }`: the inputs with their witnesses,
and the flags that are left. -/
def readWitnessData (fAllowWitness : Bool) (flags : UInt8) (vin : List CTxIn) :
    Unserializer (UInt8 × List CTxIn) :=
  if flags &&& 1 ≠ 0 ∧ fAllowWitness then do
    -- the witness flag is present, and we support witnesses.
    let vin ← readWitnesses vin
    pure (flags ^^^ 1, vin)
  else pure (flags, vin)

def UnserializeTransaction (fAllowWitness : Bool) : Unserializer CTransaction := do
  let nVersion := (← ser_readdata32).toInt32
  let (flags, vin, vout) ← readInputsOutputs fAllowWitness
  let (flags, vin) ← readWitnessData fAllowWitness flags vin
  -- an unknown flag in the serialization
  if flags ≠ 0 then throw ⟨"Unknown transaction optional data"⟩
  let nLockTime ← ser_readdata32
  pure ⟨vin, vout, nVersion, nLockTime⟩

theorem CDataStream.run_read (n : Nat) (s : List UInt8) :
    (CDataStream.read n).run s =
      if s.length < n then .error ⟨"CDataStream::read(): end of data"⟩ else .ok (s.take n, s.drop n) := rfl

theorem CDataStream.read_zero : CDataStream.read 0 = pure [] := by
  apply StateT.ext
  intro s
  rw [CDataStream.run_read, if_neg (Nat.not_lt_zero _), List.take_zero, List.drop_zero]
  rfl

/-- Two reads in a row read what one read of both counts reads. -/
theorem CDataStream.read_add (k m : Nat) :
    CDataStream.read (k + m) =
      CDataStream.read k >>= fun xs => CDataStream.read m >>= fun ys => pure (xs ++ ys) := by
  apply StateT.ext
  intro s
  by_cases first : s.length < k
  · rw [CDataStream.run_read, if_pos (by omega), Codec.run_bind_of_error (by rw [CDataStream.run_read, if_pos first])]
  · rw [Codec.run_bind_of_run (by rw [CDataStream.run_read, if_neg first])]
    by_cases second : s.length < k + m
    · rw [CDataStream.run_read, if_pos second,
        Codec.run_bind_of_error (by rw [CDataStream.run_read, if_pos (by rw [List.length_drop]; omega)])]
    · rw [CDataStream.run_read, if_neg second, Codec.run_bind_of_run (by rw [CDataStream.run_read,
        if_neg (by rw [List.length_drop]; omega)]), List.take_add, List.drop_drop]
      rfl

/-- The block loop reads the missing bytes as one read does: every block is non-empty
while bytes are missing, so `nSize - v.length` blocks are enough. -/
theorem readByteBlocks_eq (nSize : Nat) :
    ∀ (fuel : Nat) (v : List UInt8), nSize - v.length ≤ fuel →
      readByteBlocks nSize fuel v = (CDataStream.read (nSize - v.length) >>= fun more => pure (v ++ more))
  | 0, v, enough => by
    rw [show nSize - v.length = 0 by omega, CDataStream.read_zero, pure_bind, List.append_nil]
    rfl
  | fuel + 1, v, enough => by
    rw [readByteBlocks]
    by_cases short : v.length < nSize
    · rw [if_pos short]
      obtain ⟨blk, m, block, total⟩ : ∃ blk m, min (nSize - v.length) (1 + 4999999 / 1) = blk ∧
          nSize - v.length = blk + m :=
        ⟨min (nSize - v.length) (1 + 4999999 / 1), nSize - v.length - min (nSize - v.length) (1 + 4999999 / 1),
          rfl, by omega⟩
      have positive : 0 < blk := by omega
      dsimp only
      rw [block, total, CDataStream.read_add, bind_assoc]
      apply StateT.ext
      intro s
      cases first : (CDataStream.read blk).run s with
      | error e => rw [Codec.run_bind_of_error first, Codec.run_bind_of_error first]
      | ok p =>
        obtain ⟨more, s'⟩ := p
        obtain ⟨length, -⟩ := CDataStream.read_accepts blk s more s' first
        have later : nSize - (v ++ more).length ≤ fuel := by
          rw [List.length_append, length]
          omega
        rw [Codec.run_bind_of_run first, Codec.run_bind_of_run first, readByteBlocks_eq nSize fuel (v ++ more) later]
        simp only [List.length_append, length, bind_assoc, pure_bind, List.append_assoc]
        rw [show nSize - (v.length + blk) = m by omega]
    · rw [if_neg short, show nSize - v.length = 0 by omega, CDataStream.read_zero, pure_bind, List.append_nil]

/-- A size `ReadCompactSize` accepts fits the `unsigned int` it is read into. -/
theorem toNat_toUInt32_of_le {n : UInt64} (small : n.toNat ≤ MAX_SIZE) : n.toUInt32.toNat = n.toNat := by
  have max : MAX_SIZE = 0x02000000 := rfl
  rw [UInt64.toNat_toUInt32]
  omega

/-- The count of a vector within `MAX_SIZE` is read back. -/
theorem ReadCompactSize_length {β : Type} (k : Nat) (small : k ≤ MAX_SIZE) (f : Nat → Unserializer β)
    (rest : List UInt8) :
    (ReadCompactSize >>= fun n => f n.toUInt32.toNat).run (WriteCompactSize k ++ rest) = (f k).run rest := by
  have size : (UInt64.ofNat k).toNat = k := by
    rw [UInt64.toNat_ofNat', Nat.mod_eq_of_lt (Nat.lt_of_le_of_lt small (by decide))]
  have count := ReadCompactSize_reads (UInt64.ofNat k) (show (UInt64.ofNat k).toNat ≤ MAX_SIZE by rw [size]; exact small)
    rest
  dsimp only at count
  rw [size] at count
  rw [Codec.run_bind_of_run count, toNat_toUInt32_of_le (by rw [size]; exact small), size]

/-- What follows an accepted count is read with that count. -/
theorem ReadCompactSize_length_eq_ok {β : Type} {f : Nat → Unserializer β} {s rest : List UInt8} {b : β}
    (run : (ReadCompactSize >>= fun n => f n.toUInt32.toNat).run s = .ok (b, rest)) :
    ∃ k s', k ≤ MAX_SIZE ∧ s = WriteCompactSize k ++ s' ∧ (f k).run s' = .ok (b, rest) := by
  rw [Codec.run_bind_eq_ok] at run
  obtain ⟨n, s', count, run⟩ := run
  obtain ⟨small, rfl⟩ := ReadCompactSize_accepts s n s' count
  rw [toNat_toUInt32_of_le small] at run
  exact ⟨n.toNat, s', small, rfl, run⟩

theorem unserializeBytes_eq :
    unserializeBytes = ReadCompactSize >>= fun n => readByteBlocks n.toUInt32.toNat n.toUInt32.toNat [] := rfl

theorem unserializeBytes_reads : Codec.Reads unserializeBytes serializeBytes (fun v => v.length ≤ MAX_SIZE) := by
  intro v small rest
  rw [unserializeBytes_eq, serializeBytes, List.append_assoc,
    ReadCompactSize_length v.length small (fun k => readByteBlocks k k []), readByteBlocks_eq _ _ _ (by simp),
    List.length_nil, Nat.sub_zero, Codec.run_bind_of_run (CDataStream.read_append v rest)]
  rfl

theorem unserializeBytes_accepts : Codec.Accepts unserializeBytes serializeBytes (fun v => v.length ≤ MAX_SIZE) := by
  intro s v rest run
  rw [unserializeBytes_eq] at run
  obtain ⟨k, s', small, rfl, blocks⟩ := ReadCompactSize_length_eq_ok (f := fun k => readByteBlocks k k []) run
  rw [readByteBlocks_eq _ _ _ (by simp), List.length_nil, Nat.sub_zero, Codec.run_bind_eq_ok] at blocks
  obtain ⟨bytes, s'', read, done⟩ := blocks
  obtain ⟨length, rfl⟩ := CDataStream.read_accepts k s' bytes s'' read
  cases done
  refine ⟨show ([] ++ bytes).length ≤ MAX_SIZE by rw [List.nil_append, length]; exact small, ?_⟩
  rw [List.nil_append, serializeBytes, length, List.append_assoc]
  rfl

section Vectors

variable {α : Type} {sizeofT : Nat} {read : Unserializer α} {write : α → List UInt8}

theorem unserializeVector_eq :
    unserializeVector sizeofT read =
      ReadCompactSize >>= fun n => Codec.readRounds read (5000000 / sizeofT) n.toUInt32.toNat n.toUInt32.toNat [] :=
  rfl

theorem unserializeVector_reads (positive : 0 < 5000000 / sizeofT) {P : α → Prop} (h : Codec.Reads read write P) :
    Codec.Reads (unserializeVector sizeofT read) (serializeVector write)
      (fun v => v.length ≤ MAX_SIZE ∧ ∀ a ∈ v, P a) := by
  rintro v ⟨small, each⟩ rest
  rw [unserializeVector_eq, serializeVector, List.append_assoc,
    ReadCompactSize_length v.length small (fun k => Codec.readRounds read _ k k []),
    Codec.readRounds_eq positive _ _ [] (by simp), List.length_nil, Nat.sub_zero,
    Codec.run_bind_of_run ((h.readCount v.length) v ⟨rfl, each⟩ rest)]
  rfl

theorem unserializeVector_accepts (positive : 0 < 5000000 / sizeofT) {Q : α → Prop} (h : Codec.Accepts read write Q) :
    Codec.Accepts (unserializeVector sizeofT read) (serializeVector write)
      (fun v => v.length ≤ MAX_SIZE ∧ ∀ a ∈ v, Q a) := by
  intro s v rest run
  rw [unserializeVector_eq] at run
  obtain ⟨k, s', small, rfl, rounds⟩ :=
    ReadCompactSize_length_eq_ok (f := fun k => Codec.readRounds read (5000000 / sizeofT) k k []) run
  rw [Codec.readRounds_eq positive _ _ [] (by simp), List.length_nil, Nat.sub_zero, Codec.run_bind_eq_ok] at rounds
  obtain ⟨as, s'', elements, done⟩ := rounds
  obtain ⟨⟨length, each⟩, rfl⟩ := (h.readCount k) s' as s'' elements
  cases done
  refine ⟨⟨show ([] ++ as).length ≤ MAX_SIZE by rw [List.nil_append, length]; exact small, by simpa using each⟩, ?_⟩
  rw [List.nil_append, serializeVector, length, List.append_assoc]

end Vectors

/-- An input as `CTxIn`'s `SerializationOp` reads it: without its witness. -/
def CTxIn.withoutWitness (txin : CTxIn) : CTxIn := { txin with scriptWitness := ⟨[]⟩ }

/-- The transaction a stream that does not allow witnesses reads back. -/
def CTransaction.withoutWitness (tx : CTransaction) : CTransaction :=
  { tx with vin := tx.vin.map CTxIn.withoutWitness }

/-- An input that `CTxIn.unserialize` returns: a script within `MAX_SIZE` and no witness. -/
def CTxIn.Bare (txin : CTxIn) : Prop := txin.scriptSig.length ≤ MAX_SIZE ∧ txin.scriptWitness = ⟨[]⟩

/-- A witness of at most `MAX_SIZE` items of at most `MAX_SIZE` bytes. -/
def CTxIn.WitnessWithin (txin : CTxIn) : Prop :=
  txin.scriptWitness.stack.length ≤ MAX_SIZE ∧ ∀ item ∈ txin.scriptWitness.stack, item.length ≤ MAX_SIZE

/-- An output whose value fits `int64_t` and whose script is within `MAX_SIZE`. -/
def CTxOut.WithinLimits (txout : CTxOut) : Prop :=
  (-2 ^ 63 ≤ txout.nValue ∧ txout.nValue < 2 ^ 63) ∧ txout.scriptPubKey.length ≤ MAX_SIZE

/-- Every count of the transaction is within `MAX_SIZE`, the bound of `ReadCompactSize`, and
every value fits `int64_t`. -/
structure CTransaction.WithinLimits (tx : CTransaction) : Prop where
  vin : tx.vin.length ≤ MAX_SIZE
  vout : tx.vout.length ≤ MAX_SIZE
  scriptSig : ∀ txin ∈ tx.vin, txin.scriptSig.length ≤ MAX_SIZE
  witness : ∀ txin ∈ tx.vin, txin.WitnessWithin
  outputs : ∀ txout ∈ tx.vout, txout.WithinLimits

theorem CTxIn.withoutWitness_of_empty {txin : CTxIn} (empty : txin.scriptWitness.stack = []) :
    txin.withoutWitness = txin := by
  obtain ⟨prevout, scriptSig, nSequence, ⟨stack⟩⟩ := txin
  dsimp only at empty
  rw [empty]
  rfl

theorem serializeVector_withoutWitness (vin : List CTxIn) :
    serializeVector CTxIn.serialize (vin.map CTxIn.withoutWitness) = serializeVector CTxIn.serialize vin := by
  rw [serializeVector, serializeVector, List.length_map, List.flatMap_map]
  rfl

theorem COutPoint.unserialize_reads : Codec.Reads COutPoint.unserialize COutPoint.serialize (fun _ => True) := by
  intro o _ rest
  rw [COutPoint.serialize, List.append_assoc, COutPoint.unserialize,
    Codec.run_bind_of_run (uint256.unserialize_reads o.hash trivial _),
    Codec.run_bind_of_run (ser_readdata32_reads o.n trivial rest)]
  rfl

theorem COutPoint.unserialize_accepts : Codec.Accepts COutPoint.unserialize COutPoint.serialize (fun _ => True) := by
  intro s o rest run
  rw [COutPoint.unserialize, Codec.run_bind_eq_ok] at run
  obtain ⟨hash, s₁, first, fields⟩ := run
  obtain ⟨-, rfl⟩ := uint256.unserialize_accepts s hash s₁ first
  rw [Codec.run_bind_eq_ok] at fields
  obtain ⟨n, s₂, second, done⟩ := fields
  obtain ⟨-, rfl⟩ := ser_readdata32_accepts s₁ n s₂ second
  cases done
  exact ⟨trivial, by rw [COutPoint.serialize, List.append_assoc]⟩

theorem CTxIn.unserialize_reads : Codec.Reads CTxIn.unserialize CTxIn.serialize CTxIn.Bare := by
  rintro ⟨prevout, scriptSig, nSequence, witness⟩ ⟨small, empty⟩ rest
  dsimp only at small empty
  subst empty
  rw [CTxIn.serialize, List.append_assoc, List.append_assoc, CTxIn.unserialize,
    Codec.run_bind_of_run (COutPoint.unserialize_reads prevout trivial _),
    Codec.run_bind_of_run (unserializeBytes_reads scriptSig small _),
    Codec.run_bind_of_run (ser_readdata32_reads nSequence trivial rest)]
  rfl

theorem CTxIn.unserialize_accepts : Codec.Accepts CTxIn.unserialize CTxIn.serialize CTxIn.Bare := by
  intro s txin rest run
  rw [CTxIn.unserialize, Codec.run_bind_eq_ok] at run
  obtain ⟨prevout, s₁, first, fields⟩ := run
  obtain ⟨-, rfl⟩ := COutPoint.unserialize_accepts s prevout s₁ first
  rw [Codec.run_bind_eq_ok] at fields
  obtain ⟨scriptSig, s₂, second, fields⟩ := fields
  obtain ⟨small, rfl⟩ := unserializeBytes_accepts s₁ scriptSig s₂ second
  rw [Codec.run_bind_eq_ok] at fields
  obtain ⟨nSequence, s₃, third, done⟩ := fields
  obtain ⟨-, rfl⟩ := ser_readdata32_accepts s₂ nSequence s₃ third
  cases done
  exact ⟨⟨small, rfl⟩, by rw [CTxIn.serialize, List.append_assoc, List.append_assoc]⟩

/-- The 64 bits of an amount that fits `int64_t` give the amount back. -/
theorem toInt_toInt64_toUInt64 {nValue : CAmount} (low : -2 ^ 63 ≤ nValue) (high : nValue < 2 ^ 63) :
    (Int.toInt64 nValue).toUInt64.toInt64.toInt = nValue := by
  rw [Int64.toInt64_toUInt64]
  exact Int64.toInt_ofInt_of_le low high

theorem CTxOut.unserialize_reads : Codec.Reads CTxOut.unserialize CTxOut.serialize CTxOut.WithinLimits := by
  rintro ⟨nValue, scriptPubKey⟩ ⟨⟨low, high⟩, small⟩ rest
  rw [CTxOut.serialize, List.append_assoc, CTxOut.unserialize,
    Codec.run_bind_of_run (ser_readdata64_reads _ trivial _)]
  dsimp only
  rw [Codec.run_bind_of_run (unserializeBytes_reads scriptPubKey small rest), toInt_toInt64_toUInt64 low high]
  rfl

theorem CTxOut.unserialize_accepts : Codec.Accepts CTxOut.unserialize CTxOut.serialize CTxOut.WithinLimits := by
  intro s txout rest run
  rw [CTxOut.unserialize, Codec.run_bind_eq_ok] at run
  obtain ⟨bits, s₁, first, fields⟩ := run
  obtain ⟨-, rfl⟩ := ser_readdata64_accepts s bits s₁ first
  dsimp only at fields
  rw [Codec.run_bind_eq_ok] at fields
  obtain ⟨scriptPubKey, s₂, second, done⟩ := fields
  obtain ⟨small, rfl⟩ := unserializeBytes_accepts s₁ scriptPubKey s₂ second
  cases done
  refine ⟨⟨⟨Int64.le_toInt _, Int64.toInt_lt _⟩, small⟩, ?_⟩
  rw [CTxOut.serialize, show Int.toInt64 bits.toInt64.toInt = bits.toInt64 from Int64.ofInt_toInt _,
    UInt64.toUInt64_toInt64, List.append_assoc]

theorem readVin_reads :
    Codec.Reads readVin (serializeVector CTxIn.serialize) (fun vin => vin.length ≤ MAX_SIZE ∧ ∀ txin ∈ vin, txin.Bare) :=
  unserializeVector_reads (by decide) CTxIn.unserialize_reads

theorem readVin_accepts :
    Codec.Accepts readVin (serializeVector CTxIn.serialize) (fun vin => vin.length ≤ MAX_SIZE ∧ ∀ txin ∈ vin, txin.Bare) :=
  unserializeVector_accepts (by decide) CTxIn.unserialize_accepts

theorem readVout_reads :
    Codec.Reads readVout (serializeVector CTxOut.serialize)
      (fun vout => vout.length ≤ MAX_SIZE ∧ ∀ txout ∈ vout, txout.WithinLimits) :=
  unserializeVector_reads (by decide) CTxOut.unserialize_reads

theorem readVout_accepts :
    Codec.Accepts readVout (serializeVector CTxOut.serialize)
      (fun vout => vout.length ≤ MAX_SIZE ∧ ∀ txout ∈ vout, txout.WithinLimits) :=
  unserializeVector_accepts (by decide) CTxOut.unserialize_accepts

theorem readStack_reads :
    Codec.Reads (unserializeVector sizeof_valtype unserializeBytes) (serializeVector serializeBytes)
      (fun stack => stack.length ≤ MAX_SIZE ∧ ∀ item ∈ stack, item.length ≤ MAX_SIZE) :=
  unserializeVector_reads (by decide) unserializeBytes_reads

theorem readStack_accepts :
    Codec.Accepts (unserializeVector sizeof_valtype unserializeBytes) (serializeVector serializeBytes)
      (fun stack => stack.length ≤ MAX_SIZE ∧ ∀ item ∈ stack, item.length ≤ MAX_SIZE) :=
  unserializeVector_accepts (by decide) unserializeBytes_accepts

/-- The loop reads back the witness of every input, whatever the input held before. -/
theorem readWitnesses_reads (vin : List CTxIn) (small : ∀ txin ∈ vin, txin.WitnessWithin) (rest : List UInt8) :
    (readWitnesses (vin.map CTxIn.withoutWitness)).run
        (vin.flatMap (fun txin => serializeVector serializeBytes txin.scriptWitness.stack) ++ rest) = .ok (vin, rest) := by
  induction vin with
  | nil => rfl
  | cons txin vin ih =>
    rw [List.map_cons, readWitnesses, List.flatMap_cons, List.append_assoc,
      Codec.run_bind_of_run (readStack_reads _ (small txin List.mem_cons_self) _),
      Codec.run_bind_of_run (ih (fun t mem => small t (List.mem_cons_of_mem _ mem)))]
    rfl

/-- The loop changes only the witnesses, and reads one stack per input. -/
theorem readWitnesses_accepts {vin vin' : List CTxIn} {s rest : List UInt8}
    (run : (readWitnesses vin).run s = .ok (vin', rest)) :
    vin'.map CTxIn.withoutWitness = vin.map CTxIn.withoutWitness ∧ (∀ txin ∈ vin', txin.WitnessWithin) ∧
      s = vin'.flatMap (fun txin => serializeVector serializeBytes txin.scriptWitness.stack) ++ rest := by
  induction vin generalizing s vin' with
  | nil =>
    cases run
    simp
  | cons txin vin ih =>
    rw [readWitnesses, Codec.run_bind_eq_ok] at run
    obtain ⟨stack, s₁, first, others⟩ := run
    obtain ⟨small, rfl⟩ := readStack_accepts s stack s₁ first
    rw [Codec.run_bind_eq_ok] at others
    obtain ⟨vin'', s₂, later, done⟩ := others
    cases done
    obtain ⟨same, each, rfl⟩ := ih later
    refine ⟨?_, ?_, ?_⟩
    · rw [List.map_cons, List.map_cons, same]
      rfl
    · intro t mem
      rcases List.mem_cons.mp mem with rfl | mem
      · exact small
      · exact each t mem
    · rw [List.flatMap_cons, List.append_assoc]

theorem readWitnessData_no_flag (fAllowWitness : Bool) (vin : List CTxIn) :
    readWitnessData fAllowWitness 0 vin = pure (0, vin) := by
  rw [readWitnessData, if_neg (fun h => h.1 (by decide))]

theorem readWitnessData_flag (vin : List CTxIn) (small : ∀ txin ∈ vin, txin.WitnessWithin) (rest : List UInt8) :
    (readWitnessData true 1 (vin.map CTxIn.withoutWitness)).run
        (vin.flatMap (fun txin => serializeVector serializeBytes txin.scriptWitness.stack) ++ rest) = .ok ((0, vin), rest) := by
  rw [readWitnessData, if_pos ⟨by decide, rfl⟩, Codec.run_bind_of_run (readWitnesses_reads vin small rest)]
  rfl

/-- When no flag is left, either flag `1` was there and the witnesses were read, or there
was no flag and nothing was read. -/
theorem readWitnessData_accepts {flags flags' : UInt8} {vin vin' : List CTxIn} {s rest : List UInt8}
    (run : (readWitnessData true flags vin).run s = .ok ((flags', vin'), rest)) (known : flags' = 0) :
    (flags = 1 ∧ vin'.map CTxIn.withoutWitness = vin.map CTxIn.withoutWitness ∧ (∀ txin ∈ vin', txin.WitnessWithin) ∧
        s = vin'.flatMap (fun txin => serializeVector serializeBytes txin.scriptWitness.stack) ++ rest) ∨
      (flags = 0 ∧ vin' = vin ∧ s = rest) := by
  unfold readWitnessData at run
  by_cases bit : flags &&& 1 ≠ 0 ∧ true = true
  · rw [if_pos bit, Codec.run_bind_eq_ok] at run
    obtain ⟨vin₁, s₁, witnesses, done⟩ := run
    cases done
    have one : flags = 1 := by
      have undo := congrArg (· ^^^ 1) known
      simpa [UInt8.xor_assoc, UInt8.xor_self] using undo
    exact .inl ⟨one, readWitnesses_accepts witnesses⟩
  · rw [if_neg bit] at run
    cases run
    exact .inr ⟨known, rfl, rfl⟩

theorem readInputsOutputs_basic (fAllowWitness : Bool) {vin : List CTxIn} {vout : List CTxOut} (nonempty : vin ≠ [])
    (inputs : vin.length ≤ MAX_SIZE ∧ ∀ txin ∈ vin, txin.Bare)
    (outputs : vout.length ≤ MAX_SIZE ∧ ∀ txout ∈ vout, txout.WithinLimits) (rest : List UInt8) :
    (readInputsOutputs fAllowWitness).run
        (serializeVector CTxIn.serialize vin ++ serializeVector CTxOut.serialize vout ++ rest) =
      .ok ((0, vin, vout), rest) := by
  have read : ¬(vin.length = 0 ∧ fAllowWitness = true) := fun h => nonempty (List.length_eq_zero_iff.mp h.1)
  rw [readInputsOutputs, List.append_assoc, Codec.run_bind_of_run (readVin_reads vin inputs _), if_neg read,
    Codec.run_bind_of_run (readVout_reads vout outputs rest)]
  rfl

theorem readInputsOutputs_extended {flags : UInt8} (nonzero : flags ≠ 0) {vin : List CTxIn} {vout : List CTxOut}
    (inputs : vin.length ≤ MAX_SIZE ∧ ∀ txin ∈ vin, txin.Bare)
    (outputs : vout.length ≤ MAX_SIZE ∧ ∀ txout ∈ vout, txout.WithinLimits) (rest : List UInt8) :
    (readInputsOutputs true).run (serializeVector CTxIn.serialize [] ++ ser_writedata8 flags ++
        serializeVector CTxIn.serialize vin ++ serializeVector CTxOut.serialize vout ++ rest) =
      .ok ((flags, vin, vout), rest) := by
  have none : ([] : List CTxIn).length ≤ MAX_SIZE ∧ ∀ txin ∈ ([] : List CTxIn), txin.Bare :=
    ⟨by simp [MAX_SIZE], by simp⟩
  simp only [List.append_assoc]
  rw [readInputsOutputs, Codec.run_bind_of_run (readVin_reads [] none _), if_pos ⟨rfl, rfl⟩,
    Codec.run_bind_of_run (ser_readdata8_reads flags trivial _), if_pos nonzero,
    Codec.run_bind_of_run (readVin_reads vin inputs _), Codec.run_bind_of_run (readVout_reads vout outputs rest)]
  rfl

/-- On a stream that allows witnesses, the reader of the inputs and the outputs accepts the
basic layout with a non-empty input vector, the marker with a flags byte `0` and nothing else,
or the marker, a flags byte that is not `0`, the inputs and the outputs. -/
theorem readInputsOutputs_accepts {flags : UInt8} {vin : List CTxIn} {vout : List CTxOut} {s rest : List UInt8}
    (run : (readInputsOutputs true).run s = .ok ((flags, vin, vout), rest)) :
    (vin.length ≤ MAX_SIZE ∧ ∀ txin ∈ vin, txin.Bare) ∧
      (vout.length ≤ MAX_SIZE ∧ ∀ txout ∈ vout, txout.WithinLimits) ∧
      ((flags = 0 ∧ vin ≠ [] ∧ s = serializeVector CTxIn.serialize vin ++ serializeVector CTxOut.serialize vout ++ rest) ∨
        (flags = 0 ∧ vin = [] ∧ vout = []) ∨
        (flags ≠ 0 ∧ s = serializeVector CTxIn.serialize [] ++ ser_writedata8 flags ++
          serializeVector CTxIn.serialize vin ++ serializeVector CTxOut.serialize vout ++ rest)) := by
  rw [readInputsOutputs, Codec.run_bind_eq_ok] at run
  obtain ⟨vin₀, s₁, first, body⟩ := run
  obtain ⟨inputs₀, rfl⟩ := readVin_accepts s vin₀ s₁ first
  by_cases marker : vin₀.length = 0 ∧ true = true
  · rw [if_pos marker, Codec.run_bind_eq_ok] at body
    obtain ⟨flags₀, s₂, flagsRead, body⟩ := body
    obtain ⟨-, rfl⟩ := ser_readdata8_accepts s₁ flags₀ s₂ flagsRead
    obtain rfl : vin₀ = [] := List.length_eq_zero_iff.mp marker.1
    by_cases nonzero : flags₀ ≠ 0
    · rw [if_pos nonzero, Codec.run_bind_eq_ok] at body
      obtain ⟨vin₁, s₃, second, body⟩ := body
      obtain ⟨inputs, rfl⟩ := readVin_accepts s₂ vin₁ s₃ second
      rw [Codec.run_bind_eq_ok] at body
      obtain ⟨vout₁, s₄, third, done⟩ := body
      obtain ⟨outputs, rfl⟩ := readVout_accepts s₃ vout₁ s₄ third
      cases done
      exact ⟨inputs, outputs, .inr (.inr ⟨nonzero, by simp only [List.append_assoc]⟩)⟩
    · rw [if_neg nonzero] at body
      cases body
      exact ⟨inputs₀, ⟨by simp [MAX_SIZE], by simp⟩, .inr (.inl ⟨not_not.mp nonzero, rfl, rfl⟩)⟩
  · rw [if_neg marker, Codec.run_bind_eq_ok] at body
    obtain ⟨vout₁, s₂, second, done⟩ := body
    obtain ⟨outputs, rfl⟩ := readVout_accepts s₁ vout₁ s₂ second
    cases done
    exact ⟨inputs₀, outputs, .inl ⟨rfl, fun empty => marker ⟨by rw [empty]; rfl, rfl⟩, by rw [List.append_assoc]⟩⟩

/-- The basic format: the version, the inputs, the outputs and the lock time. -/
def basicFormat (tx : CTransaction) : List UInt8 :=
  ser_writedata32 tx.nVersion.toUInt32 ++ serializeVector CTxIn.serialize tx.vin ++
    serializeVector CTxOut.serialize tx.vout ++ ser_writedata32 tx.nLockTime

/-- The extended format with flags `1`: the version, the marker (an empty input vector), the
flags, the inputs, the outputs, one witness stack per input and the lock time. -/
def extendedFormat (tx : CTransaction) : List UInt8 :=
  ser_writedata32 tx.nVersion.toUInt32 ++ serializeVector CTxIn.serialize [] ++ ser_writedata8 1 ++
    serializeVector CTxIn.serialize tx.vin ++ serializeVector CTxOut.serialize tx.vout ++
    tx.vin.flatMap (fun txin => serializeVector serializeBytes txin.scriptWitness.stack) ++
    ser_writedata32 tx.nLockTime

theorem SerializeTransaction_eq_basicFormat {fAllowWitness : Bool} {tx : CTransaction}
    (h : fAllowWitness = false ∨ tx.HasWitness = false) : SerializeTransaction fAllowWitness tx = basicFormat tx :=
  SerializeTransaction_basic h

theorem SerializeTransaction_eq_extendedFormat {tx : CTransaction} (h : tx.HasWitness = true) :
    SerializeTransaction true tx = extendedFormat tx := by
  simp [SerializeTransaction, extendedFormat, h]

theorem HasWitness_eq_false_iff (tx : CTransaction) :
    tx.HasWitness = false ↔ ∀ txin ∈ tx.vin, txin.scriptWitness.stack = [] := by
  simp [CTransaction.HasWitness]

theorem withoutWitness_of_HasWitness {tx : CTransaction} (h : tx.HasWitness = false) : tx.withoutWitness = tx := by
  obtain ⟨vin, vout, nVersion, nLockTime⟩ := tx
  have each := (HasWitness_eq_false_iff _).mp h
  rw [CTransaction.withoutWitness, List.map_congr_left (fun txin mem => CTxIn.withoutWitness_of_empty (each txin mem)),
    List.map_id']

/-- The inputs of a transaction as `CTxIn.unserialize` reads them back. -/
theorem bare_withoutWitness {tx : CTransaction} (limits : tx.WithinLimits) :
    (tx.vin.map CTxIn.withoutWitness).length ≤ MAX_SIZE ∧ ∀ txin ∈ tx.vin.map CTxIn.withoutWitness, txin.Bare := by
  refine ⟨by rw [List.length_map]; exact limits.vin, ?_⟩
  intro txin mem
  obtain ⟨original, inside, rfl⟩ := List.mem_map.mp mem
  exact ⟨limits.scriptSig original inside, rfl⟩

theorem UnserializeTransaction_basicFormat (fAllowWitness : Bool) {tx : CTransaction} (nonempty : tx.vin ≠ [])
    (limits : tx.WithinLimits) (rest : List UInt8) :
    (UnserializeTransaction fAllowWitness).run (basicFormat tx ++ rest) = .ok (tx.withoutWitness, rest) := by
  have io := readInputsOutputs_basic fAllowWitness (by simpa using nonempty) (bare_withoutWitness limits)
    ⟨limits.vout, limits.outputs⟩ (ser_writedata32 tx.nLockTime ++ rest)
  rw [serializeVector_withoutWitness] at io
  simp only [basicFormat, List.append_assoc] at io ⊢
  rw [UnserializeTransaction, Codec.run_bind_of_run (ser_readdata32_reads _ trivial _)]
  dsimp only
  rw [Codec.run_bind_of_run io]
  dsimp only
  rw [readWitnessData_no_flag, pure_bind]
  dsimp only
  rw [if_neg (not_not.mpr rfl), Codec.run_bind_of_run (ser_readdata32_reads _ trivial rest), Int32.toInt32_toUInt32]
  rfl

theorem UnserializeTransaction_extendedFormat {tx : CTransaction} (limits : tx.WithinLimits) (rest : List UInt8) :
    (UnserializeTransaction true).run (extendedFormat tx ++ rest) = .ok (tx, rest) := by
  have io := readInputsOutputs_extended (show (1 : UInt8) ≠ 0 by decide) (bare_withoutWitness limits)
    ⟨limits.vout, limits.outputs⟩
    (tx.vin.flatMap (fun txin => serializeVector serializeBytes txin.scriptWitness.stack) ++
      ser_writedata32 tx.nLockTime ++ rest)
  rw [serializeVector_withoutWitness] at io
  simp only [extendedFormat, List.append_assoc] at io ⊢
  rw [UnserializeTransaction, Codec.run_bind_of_run (ser_readdata32_reads _ trivial _)]
  dsimp only
  rw [Codec.run_bind_of_run io]
  dsimp only
  rw [Codec.run_bind_of_run (readWitnessData_flag tx.vin limits.witness _)]
  dsimp only
  rw [if_neg (not_not.mpr rfl), Codec.run_bind_of_run (ser_readdata32_reads _ trivial rest), Int32.toInt32_toUInt32]
  rfl

/-- The inputs the witness loop returns, from inputs read without witnesses, are the inputs
of a transaction within the limits. -/
theorem inputs_of_witnesses {vin vin' : List CTxIn} (bare : vin.length ≤ MAX_SIZE ∧ ∀ txin ∈ vin, txin.Bare)
    (same : vin'.map CTxIn.withoutWitness = vin.map CTxIn.withoutWitness) :
    vin'.length ≤ MAX_SIZE ∧ ∀ txin ∈ vin', txin.scriptSig.length ≤ MAX_SIZE := by
  have lengths := congrArg List.length same
  rw [List.length_map, List.length_map] at lengths
  refine ⟨by rw [lengths]; exact bare.1, ?_⟩
  intro txin mem
  obtain ⟨original, inside, same⟩ := List.mem_map.mp (same ▸ List.mem_map_of_mem mem)
  have scriptSig := congrArg CTxIn.scriptSig same
  dsimp only [CTxIn.withoutWitness] at scriptSig
  rw [← scriptSig]
  exact (bare.2 original inside).1

/-- On a stream that allows witnesses, a transaction with an input is read only from the
basic format, where it has no witness, or from the extended format with flags `1`. -/
theorem UnserializeTransaction_accepts {s rest : List UInt8} {tx : CTransaction}
    (run : (UnserializeTransaction true).run s = .ok (tx, rest)) (nonempty : tx.vin ≠ []) :
    tx.WithinLimits ∧ ((tx.HasWitness = false ∧ s = basicFormat tx ++ rest) ∨ s = extendedFormat tx ++ rest) := by
  rw [UnserializeTransaction, Codec.run_bind_eq_ok] at run
  obtain ⟨version, s₁, first, body⟩ := run
  obtain ⟨-, rfl⟩ := ser_readdata32_accepts s version s₁ first
  rw [Codec.run_bind_eq_ok] at body
  obtain ⟨⟨flags, vin, vout⟩, s₂, io, body⟩ := body
  obtain ⟨inputs, outputs, shape⟩ := readInputsOutputs_accepts io
  rw [Codec.run_bind_eq_ok] at body
  obtain ⟨⟨flags', vin'⟩, s₃, witnessData, body⟩ := body
  dsimp only at body
  by_cases unknown : flags' ≠ 0
  · rw [if_pos unknown, Codec.run_throw_bind] at body
    cases body
  rw [if_neg unknown, Codec.run_bind_eq_ok] at body
  obtain ⟨nLockTime, s₄, last, done⟩ := body
  obtain ⟨-, rfl⟩ := ser_readdata32_accepts s₃ nLockTime s₄ last
  cases done
  rcases readWitnessData_accepts witnessData (not_not.mp unknown) with ⟨one, same, witnesses, rfl⟩ | ⟨zero, rfl, rfl⟩
  · rcases shape with ⟨zero, -, -⟩ | ⟨zero, -, -⟩ | ⟨-, rfl⟩
    · exact absurd (one ▸ zero) (by decide)
    · exact absurd (one ▸ zero) (by decide)
    · subst one
      have bare : vin.map CTxIn.withoutWitness = vin :=
        List.map_congr_left (fun txin mem => CTxIn.withoutWitness_of_empty (by rw [(inputs.2 txin mem).2])) |>.trans
          (List.map_id' vin)
      obtain ⟨length, scriptSig⟩ := inputs_of_witnesses inputs same
      refine ⟨⟨length, outputs.1, scriptSig, witnesses, outputs.2⟩, .inr ?_⟩
      rw [extendedFormat, ← serializeVector_withoutWitness vin', same, bare, UInt32.toUInt32_toInt32]
      simp only [List.append_assoc]
  · rcases shape with ⟨-, -, rfl⟩ | ⟨-, empty, -⟩ | ⟨nonzero, -⟩
    · have empty : ∀ txin ∈ vin', txin.scriptWitness.stack = [] := fun txin mem => by rw [(inputs.2 txin mem).2]
      refine ⟨⟨inputs.1, outputs.1, fun txin mem => (inputs.2 txin mem).1,
        fun txin mem => ⟨by rw [empty txin mem]; simp [MAX_SIZE], by simp [empty txin mem]⟩, outputs.2⟩,
        .inl ⟨(HasWitness_eq_false_iff _).mpr empty, ?_⟩⟩
      rw [basicFormat, UInt32.toUInt32_toInt32]
      simp only [List.append_assoc]
    · exact absurd empty nonempty
    · exact absurd zero nonzero

/-- `UnserializeTransaction` reads back what `SerializeTransaction` writes of a transaction
with an input, with the witnesses dropped on a stream that does not allow them. In witness
mode an accepted transaction with an input was written by `SerializeTransaction`, or else it
has no witness and came in the extended format. -/
theorem UnserializeTransaction_round_trip :
    (∀ (fAllowWitness : Bool) (tx : CTransaction), tx.vin ≠ [] → tx.WithinLimits → ∀ rest : List UInt8,
      (UnserializeTransaction fAllowWitness).run (SerializeTransaction fAllowWitness tx ++ rest) =
        .ok (if fAllowWitness then tx else tx.withoutWitness, rest)) ∧
    (∀ (s : List UInt8) (tx : CTransaction) (rest : List UInt8), (UnserializeTransaction true).run s = .ok (tx, rest) →
      tx.vin ≠ [] → tx.WithinLimits ∧
        (s = SerializeTransaction true tx ++ rest ∨ (tx.HasWitness = false ∧ s = extendedFormat tx ++ rest))) := by
  constructor
  · intro fAllowWitness tx nonempty limits rest
    cases fAllowWitness with
    | false =>
      rw [SerializeTransaction_eq_basicFormat (.inl rfl)]
      exact UnserializeTransaction_basicFormat false nonempty limits rest
    | true =>
      cases witness : tx.HasWitness with
      | false =>
        rw [SerializeTransaction_eq_basicFormat (.inr witness), UnserializeTransaction_basicFormat true nonempty limits,
          withoutWitness_of_HasWitness witness]
        rfl
      | true =>
        rw [SerializeTransaction_eq_extendedFormat witness]
        exact UnserializeTransaction_extendedFormat limits rest
  · intro s tx rest run nonempty
    obtain ⟨limits, ⟨witness, basic⟩ | extended⟩ := UnserializeTransaction_accepts run nonempty
    · exact ⟨limits, .inl (by rw [SerializeTransaction_eq_basicFormat (.inr witness), basic])⟩
    · cases witness : tx.HasWitness with
      | false => exact ⟨limits, .inr ⟨rfl, extended⟩⟩
      | true => exact ⟨limits, .inl (by rw [SerializeTransaction_eq_extendedFormat witness, extended])⟩

/-- A transaction with one input, read from the extended format with flags `1`, at the top,
has an empty witness, so it is written back in the three bytes shorter basic format. -/
theorem UnserializeTransaction_superfluous_witness :
    (UnserializeTransaction true).run
        ([1, 0, 0, 0, 0, 1, 1] ++ List.replicate 36 0 ++ [0, 0xff, 0xff, 0xff, 0xff, 0, 0, 0, 0, 0, 0]) =
      .ok (⟨[⟨⟨uint256.zero, 0⟩, [], 0xffffffff, ⟨[]⟩⟩], [], 1, 0⟩, []) ∧
    SerializeTransaction true ⟨[⟨⟨uint256.zero, 0⟩, [], 0xffffffff, ⟨[]⟩⟩], [], 1, 0⟩ =
      [1, 0, 0, 0, 1] ++ List.replicate 36 0 ++ [0, 0xff, 0xff, 0xff, 0xff, 0, 0, 0, 0, 0] :=
  ⟨rfl, rfl⟩

/-- A transaction with a witness in both directions. -/
theorem UnserializeTransaction_round_trip_witness_input :
    (UnserializeTransaction true).run
        (SerializeTransaction true ⟨[⟨⟨uint256.zero, 0⟩, [], 0xffffffff, ⟨[[7]]⟩⟩], [⟨5, [0x51]⟩], 2, 0⟩) =
      .ok (⟨[⟨⟨uint256.zero, 0⟩, [], 0xffffffff, ⟨[[7]]⟩⟩], [⟨5, [0x51]⟩], 2, 0⟩, []) := by
  have limits : CTransaction.WithinLimits ⟨[⟨⟨uint256.zero, 0⟩, [], 0xffffffff, ⟨[[7]]⟩⟩], [⟨5, [0x51]⟩], 2, 0⟩ :=
    ⟨by decide, by decide, by simp [MAX_SIZE], by simp [CTxIn.WitnessWithin, MAX_SIZE],
      by simp [CTxOut.WithinLimits, MAX_SIZE]⟩
  simpa using UnserializeTransaction_round_trip.1 true _ (by simp) limits []

end SalemCash
