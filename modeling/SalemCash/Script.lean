import Mathlib.Data.List.Basic

/-!
# Scripts, opcodes and instruction decoding

A `CScript` is a byte string. `GetOp2` reads one instruction at a position and
returns, as the source does through its reference arguments, the position after
what it consumed also when it fails on a truncated push. The predicates of
`script.cpp` used by verification (`IsPushOnly`, `IsPayToScriptHash`,
`IsWitnessProgram`, `IsUnspendable`) and `FindAndDelete` are stated over it.
-/
namespace SalemCash

/-- `std::vector<unsigned char>`: a stack element or a pushed value. -/
abbrev valtype := List UInt8

/-- `CScript`, a `prevector<28, unsigned char>` read as its byte sequence. -/
abbrev CScript := List UInt8

def OP_0 : UInt8 := 0x00
def OP_PUSHDATA1 : UInt8 := 0x4c
def OP_PUSHDATA2 : UInt8 := 0x4d
def OP_PUSHDATA4 : UInt8 := 0x4e
def OP_1NEGATE : UInt8 := 0x4f
def OP_1 : UInt8 := 0x51
def OP_16 : UInt8 := 0x60
def OP_NOP : UInt8 := 0x61
def OP_IF : UInt8 := 0x63
def OP_NOTIF : UInt8 := 0x64
def OP_ELSE : UInt8 := 0x67
def OP_ENDIF : UInt8 := 0x68
def OP_VERIFY : UInt8 := 0x69
def OP_RETURN : UInt8 := 0x6a
def OP_TOALTSTACK : UInt8 := 0x6b
def OP_FROMALTSTACK : UInt8 := 0x6c
def OP_2DROP : UInt8 := 0x6d
def OP_2DUP : UInt8 := 0x6e
def OP_3DUP : UInt8 := 0x6f
def OP_2OVER : UInt8 := 0x70
def OP_2ROT : UInt8 := 0x71
def OP_2SWAP : UInt8 := 0x72
def OP_IFDUP : UInt8 := 0x73
def OP_DEPTH : UInt8 := 0x74
def OP_DROP : UInt8 := 0x75
def OP_DUP : UInt8 := 0x76
def OP_NIP : UInt8 := 0x77
def OP_OVER : UInt8 := 0x78
def OP_PICK : UInt8 := 0x79
def OP_ROLL : UInt8 := 0x7a
def OP_ROT : UInt8 := 0x7b
def OP_SWAP : UInt8 := 0x7c
def OP_TUCK : UInt8 := 0x7d
def OP_CAT : UInt8 := 0x7e
def OP_SUBSTR : UInt8 := 0x7f
def OP_LEFT : UInt8 := 0x80
def OP_RIGHT : UInt8 := 0x81
def OP_SIZE : UInt8 := 0x82
def OP_INVERT : UInt8 := 0x83
def OP_AND : UInt8 := 0x84
def OP_OR : UInt8 := 0x85
def OP_XOR : UInt8 := 0x86
def OP_EQUAL : UInt8 := 0x87
def OP_EQUALVERIFY : UInt8 := 0x88
def OP_1ADD : UInt8 := 0x8b
def OP_1SUB : UInt8 := 0x8c
def OP_2MUL : UInt8 := 0x8d
def OP_2DIV : UInt8 := 0x8e
def OP_NEGATE : UInt8 := 0x8f
def OP_ABS : UInt8 := 0x90
def OP_NOT : UInt8 := 0x91
def OP_0NOTEQUAL : UInt8 := 0x92
def OP_ADD : UInt8 := 0x93
def OP_SUB : UInt8 := 0x94
def OP_MUL : UInt8 := 0x95
def OP_DIV : UInt8 := 0x96
def OP_MOD : UInt8 := 0x97
def OP_LSHIFT : UInt8 := 0x98
def OP_RSHIFT : UInt8 := 0x99
def OP_BOOLAND : UInt8 := 0x9a
def OP_BOOLOR : UInt8 := 0x9b
def OP_NUMEQUAL : UInt8 := 0x9c
def OP_NUMEQUALVERIFY : UInt8 := 0x9d
def OP_NUMNOTEQUAL : UInt8 := 0x9e
def OP_LESSTHAN : UInt8 := 0x9f
def OP_GREATERTHAN : UInt8 := 0xa0
def OP_LESSTHANOREQUAL : UInt8 := 0xa1
def OP_GREATERTHANOREQUAL : UInt8 := 0xa2
def OP_MIN : UInt8 := 0xa3
def OP_MAX : UInt8 := 0xa4
def OP_WITHIN : UInt8 := 0xa5
def OP_RIPEMD160 : UInt8 := 0xa6
def OP_SHA1 : UInt8 := 0xa7
def OP_SHA256 : UInt8 := 0xa8
def OP_HASH160 : UInt8 := 0xa9
def OP_HASH256 : UInt8 := 0xaa
def OP_CODESEPARATOR : UInt8 := 0xab
def OP_CHECKSIG : UInt8 := 0xac
def OP_CHECKSIGVERIFY : UInt8 := 0xad
def OP_CHECKMULTISIG : UInt8 := 0xae
def OP_CHECKMULTISIGVERIFY : UInt8 := 0xaf
def OP_NOP1 : UInt8 := 0xb0
def OP_CHECKLOCKTIMEVERIFY : UInt8 := 0xb1
def OP_CHECKSEQUENCEVERIFY : UInt8 := 0xb2
def OP_NOP4 : UInt8 := 0xb3
def OP_NOP10 : UInt8 := 0xb9
def OP_INVALIDOPCODE : UInt8 := 0xff

def MAX_SCRIPT_ELEMENT_SIZE : Nat := 520
def MAX_OPS_PER_SCRIPT : Nat := 201
def MAX_PUBKEYS_PER_MULTISIG : Int := 20
def MAX_SCRIPT_SIZE : Nat := 10000
def MAX_STACK_SIZE : Nat := 1000

def ReadLE16 (script : CScript) (pc : Nat) : Nat :=
  (script.getD pc 0).toNat + 256 * (script.getD (pc + 1) 0).toNat

def ReadLE32 (script : CScript) (pc : Nat) : Nat :=
  ReadLE16 script pc + 65536 * ReadLE16 script (pc + 2)

def WriteLE16 (n : Nat) : List UInt8 :=
  [(n % 256).toUInt8, (n / 256 % 256).toUInt8]

def WriteLE32 (n : Nat) : List UInt8 :=
  WriteLE16 (n % 65536) ++ WriteLE16 (n / 65536 % 65536)

/-- What `CScript::GetOp2` leaves in its result and reference arguments. -/
structure GetOpResult where
  fRet : Bool
  pc : Nat
  opcodeRet : UInt8
  vchRet : valtype
  deriving DecidableEq, Repr

/-- The size of an immediate operand and the position after its length bytes, or
`none` when the length bytes themselves are cut off. -/
def pushSize (script : CScript) (opcode : UInt8) (pc : Nat) : Option (Nat × Nat) :=
  if opcode < OP_PUSHDATA1 then some (opcode.toNat, pc)
  else if opcode = OP_PUSHDATA1 then
    if script.length - pc < 1 then none else some ((script.getD pc 0).toNat, pc + 1)
  else if opcode = OP_PUSHDATA2 then
    if script.length - pc < 2 then none else some (ReadLE16 script pc, pc + 2)
  -- the remaining case, `opcode == OP_PUSHDATA4`
  else if script.length - pc < 4 then none else some (ReadLE32 script pc, pc + 4)

def GetOp2 (script : CScript) (pc : Nat) : GetOpResult :=
  if script.length ≤ pc then ⟨false, pc, OP_INVALIDOPCODE, []⟩
  else
    let opcode := script.getD pc 0
    if opcode ≤ OP_PUSHDATA4 then
      match pushSize script opcode (pc + 1) with
      | none => ⟨false, pc + 1, OP_INVALIDOPCODE, []⟩
      | some (nSize, pc') =>
        if script.length - pc' < nSize then ⟨false, pc', OP_INVALIDOPCODE, []⟩
        else ⟨true, pc' + nSize, opcode, (script.drop pc').take nSize⟩
    else ⟨true, pc + 1, opcode, []⟩

theorem pushSize_pc {script : CScript} {opcode : UInt8} {pc nSize pc' : Nat}
    (h : pushSize script opcode pc = some (nSize, pc')) : pc ≤ pc' ∧ pc' ≤ max pc script.length := by
  unfold pushSize at h
  split_ifs at h <;> cases h <;> omega

/-- A successful read consumes at least one byte and stays inside the script. -/
theorem GetOp2_pc {script : CScript} {pc : Nat} (h : (GetOp2 script pc).fRet = true) :
    pc < (GetOp2 script pc).pc ∧ (GetOp2 script pc).pc ≤ script.length := by
  unfold GetOp2 at h ⊢
  by_cases hpc : script.length ≤ pc
  · simp [hpc] at h
  · simp only [hpc, if_false] at h ⊢
    by_cases hop : script.getD pc 0 ≤ OP_PUSHDATA4
    · simp only [hop, if_true] at h ⊢
      cases hs : pushSize script (script.getD pc 0) (pc + 1) with
      | none =>
        simp only [hs] at h
        cases h
      | some p =>
        obtain ⟨nSize, pc'⟩ := p
        have := pushSize_pc hs
        simp only [hs] at h ⊢
        by_cases hlen : script.length - pc' < nSize
        · simp only [hlen, if_true] at h
          cases h
        · simp only [hlen, if_false]
          omega
    · simp only [hop, if_false]
      omega

/-- `CScript::operator<<(const std::vector<unsigned char>&)` on an empty script:
the shortest of a direct push, `OP_PUSHDATA1`, `OP_PUSHDATA2` and `OP_PUSHDATA4`. -/
def pushVector (b : valtype) : CScript :=
  if b.length < OP_PUSHDATA1.toNat then b.length.toUInt8 :: b
  else if b.length ≤ 0xff then OP_PUSHDATA1 :: b.length.toUInt8 :: b
  else if b.length ≤ 0xffff then OP_PUSHDATA2 :: WriteLE16 b.length ++ b
  else OP_PUSHDATA4 :: WriteLE32 b.length ++ b

/-- `CScript::IsPushOnly(pc)`: every remaining instruction decodes and is at most `OP_16`. -/
def IsPushOnlyFrom (script : CScript) (pc : Nat) : Bool :=
  if pc < script.length then
    let r := GetOp2 script pc
    if hr : r.fRet = true then
      if OP_16 < r.opcodeRet then false
      else
        have := GetOp2_pc hr
        IsPushOnlyFrom script r.pc
    else false
  else true
termination_by script.length - pc

def IsPushOnly (script : CScript) : Bool := IsPushOnlyFrom script 0

def IsPayToScriptHash (script : CScript) : Bool :=
  script.length == 23 && script.getD 0 0 == OP_HASH160 && script.getD 1 0 == 0x14 &&
    script.getD 22 0 == OP_EQUAL

/-- `CScript::DecodeOP_N`, whose `assert` fails outside `OP_0` and `OP_1 .. OP_16`. -/
def DecodeOP_N (opcode : UInt8) : Option Nat :=
  if opcode = OP_0 then some 0
  else if OP_1 ≤ opcode ∧ opcode ≤ OP_16 then some (opcode.toNat - (OP_1.toNat - 1))
  else none

/-- `CScript::IsWitnessProgram`: a version opcode followed by one direct push of 2 to 40
bytes, returned as the version and the program. -/
def IsWitnessProgram (script : CScript) : Option (Nat × valtype) :=
  if script.length < 4 ∨ 42 < script.length then none
  else if script.getD 0 0 ≠ OP_0 ∧ (script.getD 0 0 < OP_1 ∨ OP_16 < script.getD 0 0) then none
  else if (script.getD 1 0).toNat + 2 = script.length then
    (DecodeOP_N (script.getD 0 0)).map fun version => (version, script.drop 2)
  else none

/-- The inner `while` of `CScript::FindAndDelete`: skip the copies of `b` that start at `pc`,
counting them. -/
def skipMatches (script b : CScript) (hb : b ≠ []) (pc nFound : Nat) : Nat × Nat :=
  if h : b.length ≤ script.length - pc ∧ (script.drop pc).take b.length = b then
    have := List.length_pos_of_ne_nil hb
    skipMatches script b hb (pc + b.length) (nFound + 1)
  else (pc, nFound)
termination_by script.length - pc

theorem skipMatches_pc (script b : CScript) (hb : b ≠ []) (pc nFound : Nat) :
    pc ≤ (skipMatches script b hb pc nFound).1 := by
  fun_induction skipMatches script b hb pc nFound with
  | case1 pc nFound _ _ ih => omega
  | case2 => exact Nat.le_refl _

/-- The `do ... while (GetOp(pc, opcode))` loop of `CScript::FindAndDelete`: copy the last
instruction read, skip the matches that follow it, read the next instruction. Returns the
copied bytes, the position `pc2` where the copy stopped and the count of matches. -/
def findAndDeleteLoop (script b : CScript) (hb : b ≠ []) (pc pc2 : Nat) (result : CScript)
    (nFound : Nat) : CScript × Nat × Nat :=
  let result := result ++ (script.drop pc2).take (pc - pc2)
  match hs : skipMatches script b hb pc nFound with
  | (pc', nFound') =>
    let r := GetOp2 script pc'
    if hr : r.fRet = true then
      have := GetOp2_pc hr
      have : pc ≤ pc' := by simpa [hs] using skipMatches_pc script b hb pc nFound
      findAndDeleteLoop script b hb r.pc pc' result nFound'
    else (result, pc', nFound')
termination_by script.length - pc

/-- `CScript::FindAndDelete(b)`: the script with every copy of `b` that starts at an
instruction boundary removed, and the number removed. -/
def FindAndDelete (script b : CScript) : CScript × Nat :=
  if hb : b = [] then (script, 0)
  else
    let r := findAndDeleteLoop script b hb 0 0 [] 0
    if 0 < r.2.2 then (r.1 ++ script.drop r.2.1, r.2.2) else (script, r.2.2)

/-- `CScript::IsUnspendable`: an `OP_RETURN` first byte or more than `MAX_SCRIPT_SIZE` bytes. -/
def IsUnspendable (script : CScript) : Bool :=
  (0 < script.length && script.getD 0 0 == OP_RETURN) || MAX_SCRIPT_SIZE < script.length

end SalemCash
