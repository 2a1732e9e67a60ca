import Mathlib.Data.List.Sort

/-!
# Block indices

A `CBlockIndex` of `chain.h` is reached from the tip through its `pprev` pointers, so
it is modelled by the timestamps of the block and of every block before it, the
nearest first. Its height is the number of blocks before it, `pprev` drops the
first timestamp, and `GetAncestor` drops as many as the heights differ: that is the
block the skip-list walk of `chain.cpp` arrives at.
-/
namespace SalemCash

structure CBlockIndex where
  nTime : UInt32
  /-- The `nTime` of each block before this one, the parent's first. -/
  prevTimes : List UInt32
  deriving DecidableEq, Repr

namespace CBlockIndex

def nHeight (b : CBlockIndex) : Int := b.prevTimes.length

/-- The block behind a list of timestamps, nearest first. -/
def ofTimes : List UInt32 → Option CBlockIndex
  | [] => none
  | t :: ts => some ⟨t, ts⟩

def pprev (b : CBlockIndex) : Option CBlockIndex := ofTimes b.prevTimes

def GetBlockTime (b : CBlockIndex) : Int := b.nTime.toNat

def nMedianTimeSpan : Nat := 11

/-- `GetMedianTimePast`: the median of the times of the block and of the ten before it,
or of as many as there are. -/
def GetMedianTimePast (b : CBlockIndex) : Int :=
  let pmedian := ((b.nTime :: b.prevTimes).take nMedianTimeSpan).map fun t => (t.toNat : Int)
  let sorted := pmedian.insertionSort (· ≤ ·)
  sorted.getD (sorted.length / 2) 0

/-- `GetAncestor(height)`: the block of that height on the way back, `nullptr` outside
`[0, nHeight]`. -/
def GetAncestor (b : CBlockIndex) (height : Int) : Option CBlockIndex :=
  if height > b.nHeight ∨ height < 0 then none
  else ofTimes ((b.nTime :: b.prevTimes).drop (b.nHeight - height).toNat)

end CBlockIndex

end SalemCash
