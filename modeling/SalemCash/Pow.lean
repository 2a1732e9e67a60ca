import Mathlib.Data.Nat.Digits.Defs
import SalemCash.ChainTime
import SalemCash.Compact

/-!
# Difficulty retargeting

`CalculateNextWorkRequired` and `CheckProofOfWork` of `pow.cpp`. The retarget decodes the
last target, multiplies it by the clamped timespan and divides by the target timespan, all
in `arith_uint256`, and writes the result, capped at `powLimit`, in compact form. The
multiplication is `operator*=(uint32_t)`, so the timespan enters as its low 32 bits; with
a target timespan whose four-fold fits in 32 bits and a `powLimit` small enough, nothing
wraps and the result is the retarget computed over the naturals, which `CheckProofOfWork`'s
range check accepts.
-/
namespace SalemCash

/-- The fields of `Consensus::Params` that `pow.cpp` reads, with `powLimit` already made an
`arith_uint256` by `UintToArith256`. -/
structure PowParams where
  powLimit : arith_uint256
  nPowTargetTimespan : Int64
  fPowNoRetargeting : Bool

/-- `CMainParams` and `CTestNetParams`: the limit `0x00000000ffff...ff` and two weeks. -/
def mainPowParams : PowParams where
  powLimit := BitVec.ofNat 256 (2 ^ 224 - 1)
  nPowTargetTimespan := 14 * 24 * 60 * 60
  fPowNoRetargeting := false

/-- `UintToArith256`: the bytes of a `uint256`, least significant first. -/
def UintToArith256 (a : uint256) : arith_uint256 :=
  BitVec.ofNat 256 (Nat.ofDigits 256 (a.data.toList.map UInt8.toNat))

def CalculateNextWorkRequired (pindexLast : BlockTree.CBlockIndex) (nFirstBlockTime : Int64)
    (params : PowParams) : Except BlockTree.IndexFault UInt32 :=
  if params.fPowNoRetargeting then .ok pindexLast.nBits
  else
    -- Limit adjustment step
    let nActualTimespan := pindexLast.GetBlockTime - nFirstBlockTime
    let nActualTimespan :=
      if nActualTimespan < params.nPowTargetTimespan / 4 then params.nPowTargetTimespan / 4
      else nActualTimespan
    let nActualTimespan :=
      if nActualTimespan > params.nPowTargetTimespan * 4 then params.nPowTargetTimespan * 4
      else nActualTimespan
    -- Retarget
    let bnPowLimit := params.powLimit
    let bnNew := (SetCompact pindexLast.nBits).1
    let bnNew := base_uint.mulUInt32 bnNew nActualTimespan.toUInt64.toUInt32
    match base_uint.div bnNew (BitVec.ofNat 256 params.nPowTargetTimespan.toUInt64.toNat) with
    | .error e => .error (.arith e)
    | .ok bnNew =>
      let bnNew := if bnNew > bnPowLimit then bnPowLimit else bnNew
      match GetCompact bnNew false with
      | some nCompact => .ok nCompact
      | none => .error (.assertion_failure "GetCompact")

def CheckProofOfWork (hash : uint256) (nBits : UInt32) (params : PowParams) : Bool :=
  let bnTarget := (SetCompact nBits).1
  let fNegative := (SetCompact nBits).2.1
  let fOverflow := (SetCompact nBits).2.2
  -- Check range
  if fNegative || bnTarget == 0 || fOverflow || bnTarget > params.powLimit then false
  -- Check proof of work matches claimed amount
  else if UintToArith256 hash > bnTarget then false
  else true

section Retarget

theorem toInt_GetBlockTime (b : BlockTree.CBlockIndex) : b.GetBlockTime.toInt = b.nTime.toNat :=
  BlockTree.toInt_ofNat_toNat b.nTime

/-- The two adjustment steps clamp the timespan between the bounds. -/
theorem clamp_toInt (d lo hi : Int64) (ordered : lo.toInt ≤ hi.toInt) :
    (if (if d < lo then lo else d) > hi then hi else if d < lo then lo else d).toInt =
      min (max d.toInt lo.toInt) hi.toInt := by
  by_cases below : d < lo
  · rw [if_pos below, if_neg (by rw [gt_iff_lt, Int64.lt_iff_toInt_lt]; omega)]
    rw [Int64.lt_iff_toInt_lt] at below
    omega
  · rw [if_neg below]
    rw [Int64.lt_iff_toInt_lt] at below
    by_cases above : d > hi
    · rw [if_pos above]
      rw [gt_iff_lt, Int64.lt_iff_toInt_lt] at above
      omega
    · rw [if_neg above]
      rw [gt_iff_lt, Int64.lt_iff_toInt_lt] at above
      omega

variable {params : PowParams} {pindexLast : BlockTree.CBlockIndex} {nFirstBlockTime : Int64}

/-- With a positive target timespan whose four-fold fits in 32 bits, a limit that leaves room
for the product, and block times whose difference is an `int64_t`,
`CalculateNextWorkRequired` writes the retarget computed over the naturals. -/
theorem CalculateNextWorkRequired_eq (retargeting : params.fPowNoRetargeting = false)
    (positive : 0 < params.nPowTargetTimespan.toInt) (fits : 4 * params.nPowTargetTimespan.toInt < 2 ^ 32)
    (limit : params.powLimit.toNat * (4 * params.nPowTargetTimespan.toInt.toNat) < 2 ^ 256)
    (noWrap : (pindexLast.nTime.toNat : Int) - nFirstBlockTime.toInt < 2 ^ 63)
    (targetLe : (SetCompact pindexLast.nBits).1 ≤ params.powLimit) :
    ∃ c, GetCompact (BitVec.ofNat 256 (min params.powLimit.toNat
        ((SetCompact pindexLast.nBits).1.toNat *
          (min (max ((pindexLast.nTime.toNat : Int) - nFirstBlockTime.toInt)
            (params.nPowTargetTimespan.toInt / 4)) (4 * params.nPowTargetTimespan.toInt)).toNat /
          params.nPowTargetTimespan.toInt.toNat))) false = some c ∧
      CalculateNextWorkRequired pindexLast nFirstBlockTime params = .ok c := by
  have time := pindexLast.nTime.toNat_lt
  have firstLower := Int64.le_toInt nFirstBlockTime
  have firstUpper := Int64.toInt_lt nFirstBlockTime
  have tsUpper := Int64.toInt_lt params.nPowTargetTimespan
  unfold CalculateNextWorkRequired
  rw [if_neg (by simp [retargeting])]
  dsimp only
  generalize (SetCompact pindexLast.nBits).1 = T at targetLe ⊢
  generalize hd : pindexLast.GetBlockTime - nFirstBlockTime = d
  generalize hlo : params.nPowTargetTimespan / 4 = lo
  generalize hhi : params.nPowTargetTimespan * 4 = hi
  have dInt : d.toInt = pindexLast.nTime.toNat - nFirstBlockTime.toInt := by
    rw [← hd, Int64.toInt_sub, toInt_GetBlockTime]
    exact bmod_of_range (by omega) (by omega)
  have loInt : lo.toInt = params.nPowTargetTimespan.toInt / 4 := by
    rw [← hlo, Int64.toInt_div, show (4 : Int64).toInt = 4 from rfl, Int.tdiv_eq_ediv_of_nonneg (by omega)]
    exact bmod_of_range (by omega) (by omega)
  have hiInt : hi.toInt = 4 * params.nPowTargetTimespan.toInt := by
    rw [← hhi, Int64.toInt_mul, show (4 : Int64).toInt = 4 from rfl, bmod_of_range (by omega) (by omega)]
    ring
  have spanInt := clamp_toInt d lo hi (by omega)
  generalize (if (if d < lo then lo else d) > hi then hi else if d < lo then lo else d) = span at spanInt ⊢
  rw [dInt, loInt, hiInt] at spanInt
  rw [← spanInt]
  have spanNonneg : 0 ≤ span.toInt := by omega
  have span32 : span.toUInt64.toUInt32.toNat = span.toInt.toNat := by
    rw [UInt64.toNat_toUInt32, toUInt64_toNat_of_nonneg span spanNonneg, Nat.mod_eq_of_lt (by omega)]
  have bound : T.toNat * span.toInt.toNat < 2 ^ 256 :=
    Nat.lt_of_le_of_lt (Nat.mul_le_mul (BitVec.le_def.mp targetLe) (by omega)) limit
  have product : base_uint.mulUInt32 T span.toUInt64.toUInt32 = BitVec.ofNat 256 (T.toNat * span.toInt.toNat) := by
    apply BitVec.eq_of_toNat_eq
    rw [base_uint.mulUInt32, BitVec.toNat_mul, BitVec.toNat_ofNat, BitVec.toNat_ofNat, span32,
      Nat.mod_eq_of_lt (show span.toInt.toNat < 2 ^ 256 by omega)]
  have divisor : (BitVec.ofNat 256 params.nPowTargetTimespan.toUInt64.toNat : arith_uint256) ≠ 0 := by
    intro zero
    have read := congrArg BitVec.toNat zero
    rw [BitVec.toNat_ofNat, toUInt64_toNat_of_nonneg _ (by omega), Nat.mod_eq_of_lt (by omega)] at read
    change _ = 0 at read
    omega
  rw [product, base_uint.div_eq _ _ divisor]
  have capped : (if BitVec.ofNat 256 (T.toNat * span.toInt.toNat) / BitVec.ofNat 256 params.nPowTargetTimespan.toUInt64.toNat >
        params.powLimit then params.powLimit
      else BitVec.ofNat 256 (T.toNat * span.toInt.toNat) / BitVec.ofNat 256 params.nPowTargetTimespan.toUInt64.toNat) =
      BitVec.ofNat 256 (min params.powLimit.toNat (T.toNat * span.toInt.toNat / params.nPowTargetTimespan.toInt.toNat)) := by
    have quotient : (BitVec.ofNat 256 (T.toNat * span.toInt.toNat) /
        BitVec.ofNat 256 params.nPowTargetTimespan.toUInt64.toNat : arith_uint256).toNat =
        T.toNat * span.toInt.toNat / params.nPowTargetTimespan.toInt.toNat := by
      rw [BitVec.toNat_udiv, BitVec.toNat_ofNat, BitVec.toNat_ofNat, toUInt64_toNat_of_nonneg _ (by omega),
        Nat.mod_eq_of_lt bound, Nat.mod_eq_of_lt (by omega)]
    apply BitVec.eq_of_toNat_eq
    rw [BitVec.toNat_ofNat, Nat.mod_eq_of_lt (Nat.lt_of_le_of_lt (Nat.min_le_left _ _) params.powLimit.isLt)]
    split
    · rename_i above
      rw [gt_iff_lt, BitVec.lt_def, quotient] at above
      omega
    · rename_i within
      rw [gt_iff_lt, BitVec.lt_def, quotient] at within
      rw [quotient]
      omega
  simp only [capped]
  exact ⟨_, Compact.GetCompact_eq _ false, by rw [Compact.GetCompact_eq]⟩

/-- The range check of `CheckProofOfWork` accepts a compact target that `GetCompact` wrote for
a number within `powLimit`, unless it decodes to zero; what is left is the hash comparison. -/
theorem CheckProofOfWork_GetCompact {x : arith_uint256} {c : UInt32} (written : GetCompact x false = some c)
    (within : x ≤ params.powLimit) (nonzero : (SetCompact c).1 ≠ 0) (hash : uint256) :
    CheckProofOfWork hash c params = decide (UintToArith256 hash ≤ (SetCompact c).1) := by
  obtain ⟨c', written', value, negative, overflow⟩ := Compact.SetCompact_GetCompact x false
  obtain rfl : c' = c := Option.some.inj (written'.symm.trans written)
  have below : ¬ params.powLimit < (SetCompact c').1 := by
    rw [BitVec.lt_def, value]
    exact Nat.not_lt.mpr (Nat.le_trans (Compact.truncate_le _ _) (BitVec.le_def.mp within))
  unfold CheckProofOfWork
  rw [negative, overflow, Bool.false_and]
  simp only [beq_iff_eq, nonzero, gt_iff_lt, below, decide_false, Bool.or_false, Bool.false_or, if_false]
  split <;> simp_all

end Retarget

theorem CalculateNextWorkRequired_in_range (params : PowParams) (pindexLast : BlockTree.CBlockIndex)
    (nFirstBlockTime : Int64) (retargeting : params.fPowNoRetargeting = false)
    (positive : 0 < params.nPowTargetTimespan.toInt) (fits : 4 * params.nPowTargetTimespan.toInt < 2 ^ 32)
    (limit : params.powLimit.toNat * (4 * params.nPowTargetTimespan.toInt.toNat) < 2 ^ 256)
    (noWrap : (pindexLast.nTime.toNat : Int) - nFirstBlockTime.toInt < 2 ^ 63)
    (targetLe : (SetCompact pindexLast.nBits).1 ≤ params.powLimit) :
    ∃ c, GetCompact (BitVec.ofNat 256 (min params.powLimit.toNat
        ((SetCompact pindexLast.nBits).1.toNat *
          (min (max ((pindexLast.nTime.toNat : Int) - nFirstBlockTime.toInt)
            (params.nPowTargetTimespan.toInt / 4)) (4 * params.nPowTargetTimespan.toInt)).toNat /
          params.nPowTargetTimespan.toInt.toNat))) false = some c ∧
      CalculateNextWorkRequired pindexLast nFirstBlockTime params = .ok c ∧
      ((SetCompact c).1 ≠ 0 → ∀ hash, CheckProofOfWork hash c params = decide (UintToArith256 hash ≤ (SetCompact c).1)) := by
  obtain ⟨c, written, result⟩ := CalculateNextWorkRequired_eq retargeting positive fits limit noWrap targetLe
  refine ⟨c, written, result, fun nonzero hash => CheckProofOfWork_GetCompact written ?_ nonzero hash⟩
  rw [BitVec.le_def, BitVec.toNat_ofNat]
  exact Nat.le_trans (Nat.mod_le _ _) (Nat.min_le_left _ _)

/-- A last block of the main network's initial target, two weeks after the first. -/
def twoWeeksIndex : BlockTree.CBlockIndex := { (default : BlockTree.CBlockIndex) with nTime := 1209600, nBits := 0x1d00ffff }

theorem CalculateNextWorkRequired_in_range_main :
    ∃ c, GetCompact (BitVec.ofNat 256 (min mainPowParams.powLimit.toNat
        ((SetCompact twoWeeksIndex.nBits).1.toNat *
          (min (max ((twoWeeksIndex.nTime.toNat : Int) - (0 : Int64).toInt)
            (mainPowParams.nPowTargetTimespan.toInt / 4)) (4 * mainPowParams.nPowTargetTimespan.toInt)).toNat /
          mainPowParams.nPowTargetTimespan.toInt.toNat))) false = some c ∧
      CalculateNextWorkRequired twoWeeksIndex 0 mainPowParams = .ok c ∧
      ((SetCompact c).1 ≠ 0 → ∀ hash, CheckProofOfWork hash c mainPowParams =
        decide (UintToArith256 hash ≤ (SetCompact c).1)) :=
  CalculateNextWorkRequired_in_range mainPowParams twoWeeksIndex 0 rfl (by decide) (by decide) (by decide)
    (by decide) (by decide)

/-- Parameters whose `powLimit` times four timespans stays below `2 ^ 256`, with a target
timespan of `2 ^ 31` seconds, whose four-fold does not fit in 32 bits. -/
def wideTimespanParams : PowParams := ⟨BitVec.ofNat 256 (2 ^ 200), 2147483648, false⟩

/-- A last block whose target is one. -/
def unitTargetIndex : BlockTree.CBlockIndex := { (default : BlockTree.CBlockIndex) with nBits := 0x03000001 }

theorem CalculateNextWorkRequired_truncated_timespan :
    CalculateNextWorkRequired unitTargetIndex (-4294967296) wideTimespanParams = .ok 0 ∧
      GetCompact (BitVec.ofNat 256 (min (2 ^ 200) (1 * 4294967296 / 2147483648))) false = some 0x01020000 ∧
      CalculateNextWorkRequired unitTargetIndex 0 { wideTimespanParams with nPowTargetTimespan := 0 } =
        .error (.arith ⟨"Division by zero"⟩) :=
  ⟨rfl, rfl, rfl⟩

end SalemCash
