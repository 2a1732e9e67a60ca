import Mathlib.Data.List.GetD
import SalemCash.Script

/-!
# Scripts as instruction sequences

A script that `GetOp` reads to its end is the concatenation of its instructions, each
the bytes one `GetOp` call consumes. An `OP_CODESEPARATOR` instruction is the single
byte `0xab`, and a byte `0xab` at an instruction boundary is such an instruction, so
`FindAndDelete(CScript(OP_CODESEPARATOR))` removes exactly the `OP_CODESEPARATOR`
instructions. That is the fact the two signature hashes of `interpreter.cpp` and
`sighash_tests.cpp` share.
-/
namespace SalemCash

/-- `GetOp` reads every instruction from `pc` up to the end of the script. -/
def GetOpParsesFrom (script : CScript) (pc : Nat) : Bool :=
  if pc < script.length then
    let r := GetOp2 script pc
    if hr : r.fRet = true then
      have := GetOp2_pc hr
      GetOpParsesFrom script r.pc
    else false
  else true
termination_by script.length - pc

/-- The instructions from `pc` on, each as the bytes `GetOp` consumes for it, up to the
first one that does not decode. -/
def instructionsFrom (script : CScript) (pc : Nat) : List CScript :=
  let r := GetOp2 script pc
  if hr : r.fRet = true then
    have := GetOp2_pc hr
    (script.drop pc).take (r.pc - pc) :: instructionsFrom script r.pc
  else []
termination_by script.length - pc

section Decode

variable {script : CScript} {pc : Nat}

theorem GetOp2_of_length_le (h : script.length ≤ pc) :
    GetOp2 script pc = ⟨false, pc, OP_INVALIDOPCODE, []⟩ := by
  rw [GetOp2, if_pos h]

/-- An opcode above `OP_PUSHDATA4` is an instruction of one byte. -/
theorem GetOp2_of_PUSHDATA4_lt (hpc : pc < script.length) (hop : OP_PUSHDATA4 < script.getD pc 0) :
    GetOp2 script pc = ⟨true, pc + 1, script.getD pc 0, []⟩ := by
  rw [GetOp2, if_neg (Nat.not_le.mpr hpc), if_neg (UInt8.not_le.mpr hop)]

/-- The opcode of an instruction is its first byte. -/
theorem GetOp2_opcodeRet (hr : (GetOp2 script pc).fRet = true) :
    (GetOp2 script pc).opcodeRet = script.getD pc 0 := by
  unfold GetOp2 at hr ⊢
  by_cases hpc : script.length ≤ pc
  · simp only [hpc, if_true] at hr
    cases hr
  simp only [hpc, if_false] at hr ⊢
  by_cases hop : script.getD pc 0 ≤ OP_PUSHDATA4
  · simp only [hop, if_true] at hr ⊢
    cases hs : pushSize script (script.getD pc 0) (pc + 1) with
    | none =>
      simp only [hs] at hr
      cases hr
    | some p =>
      obtain ⟨nSize, pc'⟩ := p
      simp only [hs] at hr ⊢
      by_cases hlen : script.length - pc' < nSize
      · simp only [hlen, if_true] at hr
        cases hr
      · simp only [hlen, if_false]
  · simp only [hop, if_false]

theorem getD_eq_head_take {l : List UInt8} {i n : Nat} (hi : i < l.length) (hn : 0 < n) :
    ((l.drop i).take n).head? = some (l.getD i 0) := by
  rw [List.getD_eq_getElem _ _ hi]
  obtain ⟨m, rfl⟩ : ∃ m, n = m + 1 := ⟨n - 1, by omega⟩
  rw [List.drop_eq_getElem_cons hi, List.take_succ_cons, List.head?_cons]

/-- An instruction is the byte `OP_CODESEPARATOR` alone exactly when its opcode is
`OP_CODESEPARATOR`. -/
theorem GetOp2_codeSeparator_iff (hr : (GetOp2 script pc).fRet = true) :
    (script.drop pc).take ((GetOp2 script pc).pc - pc) = [OP_CODESEPARATOR] ↔
      (GetOp2 script pc).opcodeRet = OP_CODESEPARATOR := by
  obtain ⟨hlt, -⟩ := GetOp2_pc hr
  have hpc : pc < script.length := by
    by_contra hge
    rw [GetOp2_of_length_le (Nat.not_lt.mp hge)] at hr
    simp at hr
  rw [GetOp2_opcodeRet hr]
  constructor
  · intro hsep
    have hhead := getD_eq_head_take hpc (Nat.sub_pos_of_lt hlt)
    rw [hsep] at hhead
    exact (Option.some.inj hhead).symm
  · intro hop
    have hone : OP_PUSHDATA4 < script.getD pc 0 := by
      rw [hop]
      decide
    rw [GetOp2_of_PUSHDATA4_lt hpc hone, Nat.add_sub_cancel_left, hop.symm,
      List.drop_eq_getElem_cons hpc, List.take_one, List.getD_eq_getElem _ _ hpc]
    rfl

end Decode

section Parse

variable {script : CScript} {pc : Nat}

theorem GetOpParsesFrom_next (h : GetOpParsesFrom script pc = true) (hpc : pc < script.length) :
    (GetOp2 script pc).fRet = true ∧ GetOpParsesFrom script (GetOp2 script pc).pc = true := by
  rw [GetOpParsesFrom, if_pos hpc] at h
  dsimp only at h
  split at h
  · exact ⟨‹_›, h⟩
  · cases h

/-- Where a script read to its end stops decoding, it has ended. -/
theorem GetOpParsesFrom_end (h : GetOpParsesFrom script pc = true) (hpc : pc ≤ script.length)
    (hr : ¬(GetOp2 script pc).fRet = true) : pc = script.length := by
  by_contra hne
  exact hr (GetOpParsesFrom_next h (by omega)).1

theorem instructionsFrom_of_fRet (hr : (GetOp2 script pc).fRet = true) :
    instructionsFrom script pc = (script.drop pc).take ((GetOp2 script pc).pc - pc) ::
      instructionsFrom script (GetOp2 script pc).pc := by
  rw [instructionsFrom]
  dsimp only
  rw [dif_pos hr]

theorem instructionsFrom_of_not_fRet (hr : ¬(GetOp2 script pc).fRet = true) :
    instructionsFrom script pc = [] := by
  rw [instructionsFrom]
  dsimp only
  rw [dif_neg hr]

/-- A script read to its end is the concatenation of its instructions. -/
theorem instructionsFrom_flatten (h : GetOpParsesFrom script pc = true) (hpc : pc ≤ script.length) :
    (instructionsFrom script pc).flatten = script.drop pc := by
  fun_induction instructionsFrom script pc with
  | case1 pc r hr hbound ih =>
    simp only [r] at hr ih ⊢
    have hnext := (GetOpParsesFrom_next h (Nat.lt_of_lt_of_le hbound.1 hbound.2)).2
    rw [List.flatten_cons, ih hnext hbound.2]
    have hdrop : script.drop (GetOp2 script pc).pc =
        (script.drop pc).drop ((GetOp2 script pc).pc - pc) := by
      rw [List.drop_drop]
      congr 1
      omega
    rw [hdrop, List.take_append_drop]
  | case2 pc r hr =>
    rw [GetOpParsesFrom_end h hpc hr, List.drop_length, List.flatten_nil]

end Parse

section FindAndDelete

variable {script : CScript}

/-- The bytes of the instructions other than `OP_CODESEPARATOR`. -/
def stripCodeSeparators (instrs : List CScript) : CScript :=
  (instrs.filter fun i => i ≠ [OP_CODESEPARATOR]).flatten

@[simp] theorem stripCodeSeparators_nil : stripCodeSeparators [] = [] := rfl

@[simp] theorem stripCodeSeparators_separator (instrs : List CScript) :
    stripCodeSeparators ([OP_CODESEPARATOR] :: instrs) = stripCodeSeparators instrs := by
  simp [stripCodeSeparators]

theorem stripCodeSeparators_cons {i : CScript} (hi : i ≠ [OP_CODESEPARATOR]) (instrs : List CScript) :
    stripCodeSeparators (i :: instrs) = i ++ stripCodeSeparators instrs := by
  simp [stripCodeSeparators, hi]

theorem stripCodeSeparators_replicate_append (k : Nat) (instrs : List CScript) :
    stripCodeSeparators (List.replicate k [OP_CODESEPARATOR] ++ instrs) =
      stripCodeSeparators instrs := by
  induction k with
  | zero => rfl
  | succ k ih => rw [List.replicate_succ, List.cons_append, stripCodeSeparators_separator, ih]

/-- Every separator is one byte: the instructions' bytes are the stripped bytes plus one
per separator. -/
theorem length_stripCodeSeparators (instrs : List CScript) :
    (stripCodeSeparators instrs).length + instrs.count [OP_CODESEPARATOR] =
      instrs.flatten.length := by
  induction instrs with
  | nil => rfl
  | cons i instrs ih =>
    by_cases hi : i = [OP_CODESEPARATOR]
    · subst hi
      rw [stripCodeSeparators_separator, List.count_cons_self, List.flatten_cons, List.length_append,
        ← ih]
      simp only [List.length_singleton]
      omega
    · have hcount : (i :: instrs).count [OP_CODESEPARATOR] = instrs.count [OP_CODESEPARATOR] := by
        simp [hi]
      rw [stripCodeSeparators_cons hi, hcount, List.flatten_cons, List.length_append,
        List.length_append, ← ih]
      omega

/-- The inner `while` of `FindAndDelete` on `OP_CODESEPARATOR` skips the separator
instructions that start at `pc`, and stops before an instruction that is not one. -/
theorem skipMatches_codeSeparator (hb : [OP_CODESEPARATOR] ≠ []) (pc nFound : Nat)
    (h : GetOpParsesFrom script pc = true) (hpc : pc ≤ script.length) :
    let r := skipMatches script [OP_CODESEPARATOR] hb pc nFound
    instructionsFrom script pc =
        List.replicate (r.1 - pc) [OP_CODESEPARATOR] ++ instructionsFrom script r.1 ∧
      r.2 = nFound + (r.1 - pc) ∧ pc ≤ r.1 ∧ r.1 ≤ script.length ∧
      GetOpParsesFrom script r.1 = true ∧
      (r.1 < script.length → script.getD r.1 0 ≠ OP_CODESEPARATOR) := by
  fun_induction skipMatches script [OP_CODESEPARATOR] hb pc nFound with
  | case1 pc nFound hmatch hpos ih =>
    obtain ⟨hroom, hbytes⟩ := hmatch
    simp only [List.length_singleton] at hroom hbytes ih ⊢
    have hlt : pc < script.length := by omega
    have hsep : script.getD pc 0 = OP_CODESEPARATOR := by
      have hhead := getD_eq_head_take hlt Nat.one_pos
      rw [hbytes] at hhead
      exact (Option.some.inj hhead).symm
    have hop : GetOp2 script pc = ⟨true, pc + 1, OP_CODESEPARATOR, []⟩ := by
      rw [GetOp2_of_PUSHDATA4_lt hlt (by rw [hsep]; decide), hsep]
    have hnext := GetOpParsesFrom_next h hlt
    rw [hop] at hnext
    obtain ⟨hrest, hcount, hle, hlen, hparse, hstop⟩ := ih hnext.2 (by omega)
    refine ⟨?_, by omega, by omega, hlen, hparse, hstop⟩
    rw [instructionsFrom_of_fRet (by rw [hop]), hop]
    simp only [Nat.add_sub_cancel_left, hbytes, hrest]
    rw [show (skipMatches script [OP_CODESEPARATOR] hb (pc + 1) (nFound + 1)).1 - pc =
      (skipMatches script [OP_CODESEPARATOR] hb (pc + 1) (nFound + 1)).1 - (pc + 1) + 1 by omega,
      List.replicate_succ, List.cons_append]
  | case2 pc nFound hmatch =>
    simp only [Nat.sub_self, List.replicate_zero, List.nil_append, Nat.add_zero, Nat.le_refl,
      true_and]
    refine ⟨hpc, h, fun hlt hsep => hmatch ⟨?_, ?_⟩⟩
    · simp only [List.length_singleton]
      omega
    · simp only [List.length_singleton]
      rw [List.drop_eq_getElem_cons hlt, List.take_one, ← List.getD_eq_getElem _ 0 hlt, hsep]
      rfl

/-- The `do ... while (GetOp(pc, opcode))` loop of `FindAndDelete` on `OP_CODESEPARATOR`:
it copies the stretch from `pc2` to `pc` and then every instruction after `pc` that is
not a separator, and counts the separators. -/
theorem findAndDeleteLoop_codeSeparator (hb : [OP_CODESEPARATOR] ≠ []) (pc pc2 : Nat)
    (result : CScript) (nFound : Nat) (h : GetOpParsesFrom script pc = true)
    (hpc : pc ≤ script.length) :
    findAndDeleteLoop script [OP_CODESEPARATOR] hb pc pc2 result nFound =
      (result ++ (script.drop pc2).take (pc - pc2) ++
          stripCodeSeparators (instructionsFrom script pc), script.length,
        nFound + (instructionsFrom script pc).count [OP_CODESEPARATOR]) := by
  fun_induction findAndDeleteLoop script [OP_CODESEPARATOR] hb pc pc2 result nFound with
  | case1 pc pc2 result nFound result' pc' nFound' hs r hr hbound hle ih =>
    simp only [r, result'] at hr ih ⊢
    obtain ⟨hinstr, hcount, -, hlen, hparse, hstop⟩ := skipMatches_codeSeparator hb pc nFound h hpc
    simp only [hs] at hinstr hcount hlen hparse hstop
    have hlt : pc' < script.length := Nat.lt_of_lt_of_le hbound.1 hbound.2
    have hnext := (GetOpParsesFrom_next hparse hlt).2
    have hnotsep : (script.drop pc').take ((GetOp2 script pc').pc - pc') ≠ [OP_CODESEPARATOR] :=
      fun hsep => hstop hlt ((GetOp2_opcodeRet hr) ▸ (GetOp2_codeSeparator_iff hr).mp hsep)
    rw [ih hnext hbound.2, hinstr, instructionsFrom_of_fRet hr, stripCodeSeparators_replicate_append,
      stripCodeSeparators_cons hnotsep, List.count_append, List.count_replicate_self,
      List.count_cons_of_ne hnotsep, hcount, List.append_assoc, Nat.add_assoc]
  | case2 pc pc2 result nFound result' pc' nFound' hs r hr =>
    simp only [r, result'] at hr ⊢
    obtain ⟨hinstr, hcount, -, hlen, hparse, -⟩ := skipMatches_codeSeparator hb pc nFound h hpc
    simp only [hs] at hinstr hcount hlen hparse
    rw [hinstr, instructionsFrom_of_not_fRet hr, stripCodeSeparators_replicate_append,
      stripCodeSeparators_nil]
    simp only [List.append_nil]
    rw [List.count_replicate_self, hcount, GetOpParsesFrom_end hparse hlen hr]

/-- `scriptCode.FindAndDelete(CScript(OP_CODESEPARATOR))` on a script `GetOp` reads to its
end removes exactly its `OP_CODESEPARATOR` instructions, and returns their number. -/
theorem FindAndDelete_codeSeparator (h : GetOpParsesFrom script 0 = true) :
    FindAndDelete script [OP_CODESEPARATOR] =
      (stripCodeSeparators (instructionsFrom script 0),
        (instructionsFrom script 0).count [OP_CODESEPARATOR]) := by
  have hb : [OP_CODESEPARATOR] ≠ [] := List.cons_ne_nil _ _
  rw [FindAndDelete, dif_neg hb]
  dsimp only
  rw [findAndDeleteLoop_codeSeparator hb 0 0 [] 0 h (Nat.zero_le _)]
  simp only [List.nil_append, Nat.sub_self, List.take_zero, Nat.zero_add, List.drop_length,
    List.append_nil]
  split_ifs with hfound
  · rfl
  · have hnone : [OP_CODESEPARATOR] ∉ instructionsFrom script 0 :=
      List.count_eq_zero.mp (Nat.eq_zero_of_not_pos hfound)
    have hkeep : stripCodeSeparators (instructionsFrom script 0) = script := by
      have hall : ∀ i ∈ instructionsFrom script 0, decide (i ≠ [OP_CODESEPARATOR]) = true :=
        fun i hi => decide_eq_true fun hsep => hnone (hsep ▸ hi)
      rw [stripCodeSeparators, List.filter_eq_self.mpr hall,
        instructionsFrom_flatten h (Nat.zero_le _), List.drop_zero]
    rw [hkeep]

end FindAndDelete

end SalemCash
