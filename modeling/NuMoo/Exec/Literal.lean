import NuMoo.Code.Literal
import NuMoo.Exec.Scatter

/-!
# Reading literals back

The text of a value is parsed as an expression, the expression is compiled as what a program
returns, and the program is run.

Results:
1. `emitted_literal`: the code of a literal, and how long it is.
2. `run_literal`: where it runs, the value is pushed.
3. `literal_reads_back`: the whole.
-/

namespace NuMoo.Exec

open CodeGen Literal Net NuMoo.Lex Grammar

variable {D : Type}

/-- A program that returns the value of an expression. -/
def returnProgram (e : Expr) : Stmts := .cons (.return_ (.some e)) .nil

/-- A machine at a position of a vector of a program. -/
structure Running (prog : Program) (bc : Bytecodes) (q : Nat) (m : Machine D) : Prop where
  code : m.top.prog.code = prog
  bc : m.top.bc = bc
  pc : m.top.pc = q

/-- Run from its beginning with enough ticks, the program that returns an expression comes to its
`OP_RETURN`, with the value. -/
def Returns (env : RunEnv D) (e : Expr) (v : Var) : Prop :=
  ∃ (prog : Program) (n : Nat), generateCode (returnProgram e) = some prog ∧
    ∀ m : Machine D, Running prog prog.mainVector 0 m →
    (n : Int) < m.ticksRemaining → m.taskTimedOut = false →
    ∃ m' m'', Reaches env (fun _ _ => False) m m' ∧
      m'.step env = some ⟨none, .unwind .FIN_RETURN v m''⟩ ∧ m''.top.rtStack = m.top.rtStack

mutual

/-- The instructions in the code of a literal that count a tick: a list that is not empty has
one. -/
def literalTicks : Var → Nat
  | .list [] => 0
  | .list (v :: list) => literalTicks v + 1 + moreTicks list
  | _ => 0

def moreTicks : List Var → Nat
  | [] => 0
  | v :: list => literalTicks v + moreTicks list

end

/-! ## The code of a literal -/

/-- What has been emitted are the instructions of literals: no operand is anything else. -/
structure LiteralCode (st : State) : Prop where
  kinds : ∀ f ∈ st.fixups, f.kind = .literal
  texts : ∀ w ∈ st.gstate.literals, ∀ s, w = .str s → 0 ∉ s
  few : st.gstate.literals.length ≤ st.numLiterals
  highest : st.maxLiteral ≤ st.gstate.literals.length

/-- The bytes of the code, if its operands take four each. -/
def codeSize (st : State) : Nat := st.numBytes + 3 * st.numLiterals

/-- The code of an expression that pushes a value, which is no longer than the text of the value
allows. -/
structure Emitted (text : Str) (st st' : State) : Prop where
  curStack : st'.curStack = st.curStack + 1
  savedStack : st'.savedStack = st.savedStack
  code : LiteralCode st → LiteralCode st'
  size : 2 * codeSize st' ≤ 2 * codeSize st + 3 * text.length + 4

variable {st st' : State} {v w : Var} {list : List Var} {p : PrintEnv}

theorem LiteralCode.emitOp (h : LiteralCode st) (op : Opcode) :
    LiteralCode (CodeGen.emitOp op st) := ⟨h.kinds, h.texts, h.few, h.highest⟩

theorem LiteralCode.pushStack (h : LiteralCode st) (n : Nat) :
    LiteralCode (CodeGen.pushStack n st) := ⟨h.kinds, h.texts, h.few, h.highest⟩

theorem LiteralCode.popStack (h : LiteralCode st) (n : Nat) : LiteralCode (CodeGen.popStack n st) :=
  ⟨h.kinds, h.texts, h.few, h.highest⟩

theorem LiteralCode.addLiteral (h : LiteralCode st) (hv : ∀ s, v = .str s → 0 ∉ s) :
    LiteralCode (CodeGen.addLiteral v st) := by
  have hadds := addLiteral_adds v st
  have hindex : (internLiteral v st.gstate.literals).1 ≤ st.gstate.literals.length :=
    List.findIdx_le_length
  have hliterals : (CodeGen.addLiteral v st).gstate.literals =
      (internLiteral v st.gstate.literals).2 := rfl
  have hnum : (CodeGen.addLiteral v st).numLiterals = st.numLiterals + 1 := rfl
  have hmax : (CodeGen.addLiteral v st).maxLiteral =
      max (internLiteral v st.gstate.literals).1 st.maxLiteral := rfl
  have hfew := h.few
  have hhighest := h.highest
  have hkinds : ∀ f ∈ (CodeGen.addLiteral v st).fixups, f.kind = .literal := by
    intro f hf
    rw [hadds.fixups] at hf
    rcases List.mem_append.mp hf with hf | hf
    · exact h.kinds f hf
    · rw [List.mem_singleton.mp hf]
      rfl
  rw [internLiteral] at hliterals
  dsimp only at hliterals
  split at hliterals
  · refine ⟨hkinds, ?_, ?_, ?_⟩
    · rw [hliterals]
      intro w hw
      rcases List.mem_append.mp hw with hw | hw
      · exact h.texts w hw
      · rw [List.mem_singleton.mp hw]
        exact hv
    · rw [hliterals, hnum, List.length_append]
      exact Nat.succ_le_succ hfew
    · rw [hliterals, hmax, List.length_append]
      exact Nat.max_le.mpr ⟨Nat.le_succ_of_le hindex, Nat.le_succ_of_le hhighest⟩
  · refine ⟨hkinds, ?_, ?_, ?_⟩
    · rw [hliterals]
      exact h.texts
    · rw [hliterals, hnum]
      exact Nat.le_succ_of_le hfew
    · rw [hliterals, hmax]
      exact Nat.max_le.mpr ⟨hindex, hhighest⟩

/-- A value in the table of literals. -/
theorem emitted_imm {text : Str} (st : State) (htext : 2 ≤ text.length)
    (hv : ∀ s, v = .str s → 0 ∉ s) :
    Emitted text st (pushStack 1 (addLiteral v (emitOp .OP_IMM st))) where
  curStack := rfl
  savedStack := rfl
  code h := ((h.emitOp .OP_IMM).addLiteral hv).pushStack 1
  size := by
    have hnum : (pushStack 1 (addLiteral v (emitOp .OP_IMM st))).numLiterals =
        st.numLiterals + 1 := rfl
    rw [codeSize, codeSize, hnum, pushStack_numBytes, addLiteral_numBytes, emitOp_numBytes]
    omega

theorem length_digits {n k : Nat} (h : 10 ^ k ≤ n) : k < (Decimal.natText n).length := by
  have hne : n ≠ 0 := Nat.ne_of_gt (Nat.lt_of_lt_of_le (Nat.pow_pos (by decide)) h)
  rw [Decimal.natText, if_neg hne, List.length_map, List.length_reverse]
  exact (Nat.pow_lt_pow_iff_right (by decide : 1 < 10)).mp
    (Nat.lt_of_le_of_lt h (Nat.lt_base_pow_length_digits (by decide)))

/-- A number that has no opcode takes two characters at least. -/
theorem length_text_of_not_optim {num : Int} (h : inOptimNumRange num = false) :
    2 ≤ (Decimal.text num).length := by
  have hrange : ¬ (OPTIM_NUM_LOW ≤ num ∧ num ≤ OPTIM_NUM_HI) := by simpa [inOptimNumRange] using h
  rw [OPTIM_NUM_LOW, OPTIM_NUM_HI] at hrange
  have hdigits := length_digits (n := num.natAbs) (k := 1) (by omega)
  rw [Decimal.text]
  split
  · exact Nat.le_succ_of_le hdigits
  · exact hdigits

theorem emitted_int (num : Int) (st : State) :
    ∃ st', generateExpr (.var (.int num)) st = some st' ∧ Emitted (Decimal.text num) st st' := by
  rw [generateExpr]
  split
  · refine ⟨_, rfl, rfl, rfl, fun h => (h.emitOp _).pushStack 1, ?_⟩
    have hnum : (pushStack 1 (emitOp (.OPTIM_NUM num) st)).numLiterals = st.numLiterals := rfl
    rw [codeSize, codeSize, hnum, pushStack_numBytes, emitOp_numBytes]
    omega
  · next hrange =>
      exact ⟨_, rfl, emitted_imm st (length_text_of_not_optim (by simpa using hrange)) nofun⟩

/-- The code of the elements behind the first one. -/
theorem emitted_more (hlist : ∀ v ∈ list, ∀ st, ∃ st', generateExpr (literalExpr v) st = some st' ∧
    Emitted (print_to_stream p v) st st')
    (st : State) :
    ∃ st', generateMoreArgs (literalArgs list) st = some st' ∧ st'.curStack = st.curStack ∧
      st'.savedStack = st.savedStack ∧ (LiteralCode st → LiteralCode st') ∧
      2 * codeSize st' ≤ 2 * codeSize st + 3 * (printElements p (ascii ", ") list).length := by
  induction list generalizing st with
  | nil => exact ⟨st, rfl, rfl, rfl, id, Nat.le_add_right _ _⟩
  | cons v list ih =>
    obtain ⟨hv, hlist⟩ := List.forall_mem_cons.mp hlist
    obtain ⟨st₁, hst₁, hfirst⟩ := hv st
    obtain ⟨st₂, hst₂, hcur, hsaved, hcode, hsize⟩ :=
      ih hlist (CodeGen.popStack 1 (emitOp (nextArgOp .normal) st₁))
    refine ⟨st₂, ?_, ?_, hsaved.trans hfirst.savedStack, fun h =>
      hcode (((hfirst.code h).emitOp _).popStack 1), ?_⟩
    · rw [literalArgs, generateMoreArgs, hst₁]
      exact hst₂
    · rw [hcur, popStack_curStack, emitOp_curStack, hfirst.curStack]
      rfl
    · have hnum : (CodeGen.popStack 1 (emitOp (nextArgOp .normal) st₁)).numLiterals =
          st₁.numLiterals := rfl
      have hbytes : codeSize (CodeGen.popStack 1 (emitOp (nextArgOp .normal) st₁)) =
          codeSize st₁ + 1 := by
        rw [codeSize, codeSize, hnum, popStack_numBytes, emitOp_numBytes]
        omega
      have hsep : (ascii ", ").length = 2 := rfl
      have hlen := hfirst.size
      rw [hbytes] at hsize
      rw [printElements, List.length_append, List.length_append, hsep]
      omega

/-- The code of a literal. -/
theorem emitted_literal (hv : Printable v) (st : State) :
    ∃ st', generateExpr (literalExpr v) st = some st' ∧ Emitted (print_to_stream p v) st st' := by
  induction hv generalizing st with
  | @int num _ => exact emitted_int num st
  | @obj obj _ =>
    obtain ⟨c, l, hcons, -⟩ := Decimal.natText_cons obj.natAbs
    have hlen : 1 ≤ (Decimal.text obj).length := by
      rw [Decimal.text, hcons]
      split <;> exact Nat.succ_pos _
    exact ⟨_, rfl, emitted_imm st (Nat.succ_le_succ hlen) nofun⟩
  | err err =>
    have hlen : 2 ≤ (error_name err).length := by cases err <;> decide
    exact ⟨_, rfl, emitted_imm st hlen nofun⟩
  | @str cs hcs =>
    have hlen : 2 ≤ (string_quote (encode cs)).length := by
      rw [string_quote, List.length_cons, List.length_append]
      exact Nat.succ_le_succ (Nat.le_add_left _ _)
    refine ⟨_, rfl, emitted_imm st hlen fun s hs => ?_⟩
    rw [← Var.str.inj hs]
    exact encode_nul hcs
  | @list list _ ih =>
    cases list with
    | nil =>
      refine ⟨_, rfl, rfl, rfl, fun h => (h.emitOp _).pushStack 1, ?_⟩
      have hnum : (pushStack 1 (emitOp .OP_MAKE_EMPTY_LIST st)).numLiterals = st.numLiterals := rfl
      rw [codeSize, codeSize, hnum, pushStack_numBytes, emitOp_numBytes]
      omega
    | cons v list =>
      obtain ⟨hv, hlist⟩ := List.forall_mem_cons.mp ih
      obtain ⟨st₁, hst₁, hfirst⟩ := hv st
      obtain ⟨st₂, hst₂, hcur, hsaved, hcode, hsize⟩ :=
        emitted_more hlist (emitOp (firstArgOp .normal) st₁)
      refine ⟨st₂, ?_, ⟨?_, hsaved.trans hfirst.savedStack, fun h =>
        hcode ((hfirst.code h).emitOp _), ?_⟩⟩
      · rw [literalExpr, literalArgs, generateExpr, generateArgs, hst₁]
        exact hst₂
      · rw [hcur, emitOp_curStack, hfirst.curStack]
      · have hnum : (emitOp (firstArgOp .normal) st₁).numLiterals = st₁.numLiterals := rfl
        have hbytes : codeSize (emitOp (firstArgOp .normal) st₁) = codeSize st₁ + 1 := by
          rw [codeSize, codeSize, hnum, emitOp_numBytes]
          omega
        have hlen := hfirst.size
        rw [hbytes] at hsize
        rw [print_to_stream, printElements, List.nil_append, List.length_cons, List.length_append,
          List.length_append]
        have hbrace : ([0x7d] : Str).length = 1 := rfl
        omega

/-! ## Running it -/

/-- Some instructions have changed the stack and the pc, and used some ticks. -/
structure Moved (env : RunEnv D) (m m' : Machine D) (q : Nat) (s : List Var) (n : Nat) : Prop where
  run : Reaches env (fun _ _ => False) m m'
  pc : m'.top.pc = q
  rtStack : m'.top.rtStack = s
  bc : m'.top.bc = m.top.bc
  prog : m'.top.prog = m.top.prog
  ticks : m'.ticksRemaining = m.ticksRemaining - n
  timedOut : m'.taskTimedOut = m.taskTimedOut

variable {env : RunEnv D} {m m' m'' : Machine D} {bc : Bytecodes} {q r : Nat} {s : List Var}

theorem Moved.trans {q' n n' : Nat} {s' : List Var} (h : Moved env m m' q s n)
    (h' : Moved env m' m'' q' s' n') :
    Moved env m m'' q' s' (n + n') where
  run := h.run.trans h'.run
  pc := h'.pc
  rtStack := h'.rtStack
  bc := h'.bc.trans h.bc
  prog := h'.prog.trans h.prog
  ticks := by
    rw [h'.ticks, h.ticks]
    push_cast
    omega
  timedOut := h'.timedOut.trans h.timedOut

theorem countTick_optim {num : Int} (h : inOptimNumRange num = true) :
    Machine.countTick (.OPTIM_NUM num) = false := by
  have hrange : OPTIM_NUM_LOW ≤ num ∧ num ≤ OPTIM_NUM_HI := by simpa [inOptimNumRange] using h
  rw [OPTIM_NUM_LOW, OPTIM_NUM_HI] at hrange
  refine decide_eq_false fun hle => ?_
  have hbyte : Opcode.toByte (.OPTIM_NUM num) = UInt8.ofNat (113 + (num - -10).toNat) := rfl
  have hput : Opcode.OP_G_PUT.toByte.toNat = 66 := by decide
  rw [UInt8.le_iff_toNat_le, hbyte, UInt8.toNat_ofNat', hput] at hle
  omega

theorem moved_optim {num : Int} (hrange : inOptimNumRange num = true)
    (hop : bc.OpAt q (.OPTIM_NUM num)) (hbc : m.top.bc = bc)
    (hpc : m.top.pc = q) : ∃ m', Moved env m m' (q + 1) (.int num :: m.top.rtStack) 0 := by
  have hstep : m.step env = next (m.fetched.push (.int num)) :=
    Machine.step_op hop hrange (countTick_optim hrange) hbc hpc
  refine ⟨_, .single (.opcode hstep), ?_, rfl, rfl, rfl, ?_, rfl⟩
  · rw [← hpc]
    rfl
  · exact (Int.sub_zero _).symm

theorem moved_empty (hop : bc.OpAt q .OP_MAKE_EMPTY_LIST) (hbc : m.top.bc = bc)
    (hpc : m.top.pc = q) :
    ∃ m', Moved env m m' (q + 1) (.list [] :: m.top.rtStack) 0 := by
  have hstep : m.step env = next (m.fetched.push (.list [])) :=
    Machine.step_op hop trivial (by decide) hbc hpc
  refine ⟨_, .single (.opcode hstep), ?_, rfl, rfl, rfl, ?_, rfl⟩
  · rw [← hpc]
    rfl
  · exact (Int.sub_zero _).symm

/-- `OP_IMM` pushes its literal, unless that is popped at once. -/
theorem moved_imm {i : Nat} (hop : bc.OpAt q .OP_IMM) (hoperand : bc.OperandAt .literal (q + 1) i)
    (hv : m.top.prog.code.literals[i]? = some v)
    (hnext : ¬ bc.OpAt (q + 1 + bc.numbytesLiteral) .OP_POP) (hbc : m.top.bc = bc)
    (hpc : m.top.pc = q) :
    ∃ m', Moved env m m' (q + 1 + bc.numbytesLiteral) (v :: m.top.rtStack) 0 := by
  have hread := Machine.readBytes_operand (m := m.fetched) hoperand hbc (by rw [← hpc]; rfl)
  have hstep : m.step env = m.fetched.opImm := Machine.step_op hop trivial (by decide) hbc hpc
  have hfetched : m.fetched.top.bc = bc ∧ m.fetched.top.pc = q + 1 := ⟨hbc, congrArg (· + 1) hpc⟩
  have hskip : ¬ bc.vector[q + 1 + bc.numbytesLiteral]? = some Opcode.OP_POP.toByte := hnext
  have himm : m.fetched.opImm = next ((m.fetched.jump (q + 1 + bc.numbytesLiteral)).push v) := by
    rw [Machine.opImm, hfetched.1, hfetched.2, if_neg hskip,
      show bc.numbytesLiteral = bc.width .literal from rfl, hread, Option.bind_eq_bind,
      Option.bind_some, Option.bind_eq_bind]
    change (m.top.prog.code.literals[i]?).bind _ = _
    rw [hv]
    rfl
  exact ⟨_, .single (.opcode (hstep.trans himm)), rfl, rfl, rfl, rfl, (Int.sub_zero _).symm, rfl⟩

theorem moved_singleton (hop : bc.OpAt q .OP_MAKE_SINGLETON_LIST) (hticks : m.HasTicks)
    (hbc : m.top.bc = bc) (hpc : m.top.pc = q)
    (hstack : m.top.rtStack = v :: s) : ∃ m', Moved env m m' (q + 1) (.list [v] :: s) 1 := by
  have hstep : m.step env = _ := Machine.step_tick hop trivial (by decide) hticks hbc hpc
  have hpop :=
    Machine.pop_eq (m := { m.fetched with ticksRemaining := m.ticksRemaining - 1 }) hstack
  rw [Machine.runOpcode, Machine.opUnary, hpop] at hstep
  refine ⟨_, .single (.opcode hstep), ?_, rfl, rfl, rfl, rfl, rfl⟩
  rw [← hpc]
  rfl

theorem moved_tail (hop : bc.OpAt q .OP_LIST_ADD_TAIL) (hbc : m.top.bc = bc) (hpc : m.top.pc = q)
    (hstack : m.top.rtStack = v :: .list list :: s) :
    ∃ m', Moved env m m' (q + 1) (.list (list ++ [v]) :: s) 0 := by
  have hstep : m.step env = m.fetched.opBinary (Machine.total addTail) :=
    Machine.step_op hop trivial (by decide) hbc hpc
  have hpop := Machine.pop_eq (m := m.fetched) hstack
  have hbinary : m.fetched.opBinary (Machine.total addTail) =
      next ((m.fetched.setTop fun a => { a with rtStack := s }).push (.list (list ++ [v]))) := by
    rw [Machine.opBinary, hpop]
    rfl
  refine ⟨_, .single (.opcode (hstep.trans hbinary)), ?_, rfl, rfl, rfl, (Int.sub_zero _).symm, rfl⟩
  rw [← hpc]
  rfl

theorem Moved.refl (hpc : m.top.pc = q) (hstack : m.top.rtStack = s) : Moved env m m q s 0 :=
  ⟨.refl, hpc, hstack, rfl, rfl, (Int.sub_zero _).symm, rfl⟩

theorem Moved.running {prog : Program} {n : Nat} (hm : Moved env m m' r s n)
    (h : Running prog bc q m) : Running prog bc r m' :=
  ⟨(congrArg Loaded.code hm.prog).trans h.code, hm.bc.trans h.bc, hm.pc⟩

variable {prog : Program} {fin : State} {pos : Nat → Nat}

/-- The strings of a program have no NUL. -/
def CStrings (prog : Program) : Prop := ∀ w ∈ prog.literals, ∀ s, w = .str s → 0 ∉ s

/-- The code of a value's literal pushes the value, wherever it stands, unless what it pushes is
popped at once. -/
def Pushes (env : RunEnv D) (prog : Program) (bc : Bytecodes) (fin : State) (pos : Nat → Nat)
    (v : Var) : Prop :=
  ∀ st st' (m : Machine D), generateExpr (literalExpr v) st = some st' → WF st → Le st' fin →
    ¬ bc.OpAt (pos st'.numBytes) .OP_POP →
    Running prog bc (pos st.numBytes) m → (literalTicks v : Int) < m.ticksRemaining →
    m.taskTimedOut = false →
      ∃ m', Moved env m m' (pos st'.numBytes) (v :: m.top.rtStack) (literalTicks v)

theorem not_popAt {op : Opcode} (h : bc.OpAt q op) (hne : op.toByte ≠ Opcode.OP_POP.toByte) :
    ¬ bc.OpAt q .OP_POP := fun hpop =>
  hne (Option.some.inj (h.symm.trans hpop))

/-- A literal that shares its place in the table with an equal one is the same. -/
theorem eq_of_sameLiteral (hv : Printable v) (hlist : ∀ l, v ≠ .list l)
    (hw : ∀ s, w = .str s → 0 ∉ s) (h : sameLiteral v w = true) : w = v := by
  rw [sameLiteral] at h
  cases hv with
  | int | obj | err =>
    cases w with
    | int | obj | err => simp [equality] at h <;> rw [h]
    | _ => simp [equality] at h
  | @str cs hcs =>
    cases w with
    | str s =>
      have hcstr : cstr (encode cs) = cstr s := by simpa [equality] using h
      rw [cstr_plain (encode_nul hcs), cstr_plain (hw s rfl)] at hcstr
      rw [hcstr]
    | _ => simp [equality] at h
  | list => exact absurd rfl (hlist _)

/-- A value in the table of literals. -/
theorem pushes_imm (img : Image prog bc fin pos) (htexts : CStrings prog) (hv : Printable v)
    (hlist : ∀ l, v ≠ .list l) (hw : WF st)
    (hle : Le (pushStack 1 (addLiteral v (emitOp .OP_IMM st))) fin)
    (hnext : ¬ bc.OpAt (pos (pushStack 1 (addLiteral v (emitOp .OP_IMM st))).numBytes) .OP_POP)
    (hm : Running prog bc (pos st.numBytes) m) :
    ∃ m', Moved env m m' (pos (pushStack 1 (addLiteral v (emitOp .OP_IMM st))).numBytes)
    (v :: m.top.rtStack) 0 := by
  have hle₂ : Le (addLiteral v (emitOp .OP_IMM st)) fin := (Le.pushStack 1 _).trans hle
  obtain ⟨hop, hp₁⟩ := img.opAt hw ((addLiteral_adds v _).le.trans hle₂)
  obtain ⟨⟨i, w, hoperand, hw, hsame⟩, hp₂⟩ := img.literalAt hle₂
  rw [emitOp_numBytes, hp₁] at hoperand hp₂
  obtain rfl : w = v := by
    rcases hsame with rfl | hsame
    · rfl
    · exact eq_of_sameLiteral hv hlist (htexts w (List.mem_of_getElem? hw)) hsame
  have hend : (pushStack 1 (addLiteral w (emitOp .OP_IMM st))).numBytes = st.numBytes + 1 + 1 := by
    rw [pushStack_numBytes, addLiteral_numBytes, emitOp_numBytes]
  rw [hend, hp₂] at hnext ⊢
  exact moved_imm hop hoperand (by rw [hm.code]; exact hw) hnext hm.bc hm.pc

/-- The elements behind the first one are added to the list, by induction on them. -/
theorem pushes_more (img : Image prog bc fin pos) (hlist : ∀ v ∈ list, Pushes env prog bc fin pos v)
    (h : generateMoreArgs (literalArgs list) st = some st') (hw : WF st) (hle : Le st' fin)
    (hm : Running prog bc (pos st.numBytes) m)
    {l : List Var} (hstack : m.top.rtStack = .list l :: s)
    (hticks : (moreTicks list : Int) < m.ticksRemaining)
    (hout : m.taskTimedOut = false) :
    ∃ m', Moved env m m' (pos st'.numBytes) (.list (l ++ list) :: s) (moreTicks list) := by
  induction list generalizing st m l with
  | nil =>
    cases h
    exact ⟨m, .refl hm.pc (by rw [hstack, List.append_nil])⟩
  | cons v list ih =>
    obtain ⟨hv, hlist⟩ := List.forall_mem_cons.mp hlist
    rw [literalArgs, generateMoreArgs] at h
    obtain ⟨st₁, hst₁, hst₂⟩ := Option.bind_eq_some_iff.mp h
    rw [moreTicks] at hticks ⊢
    push_cast at hticks
    have hgrows := generateMoreArgs_grows hst₂
    have hle₁ : Le (emitOp (nextArgOp .normal) st₁) fin :=
      (Le.popStack 1 _).trans (hgrows.le.trans hle)
    have hw₁ := (generateExpr_grows hst₁).wf hw
    obtain ⟨hop, hp⟩ := img.opAt hw₁ hle₁
    obtain ⟨m₁, hfirst⟩ := hv st st₁ m hst₁ hw ((Le.emitByte _ _).trans hle₁)
      (not_popAt hop (by decide)) hm (by omega) hout
    obtain ⟨m₂, hadd⟩ : ∃ m₂, Moved env m₁ m₂ _ _ 0 :=
      moved_tail hop (hfirst.running hm).bc hfirst.pc (hfirst.rtStack.trans (congrArg _ hstack))
    have hbytes : (CodeGen.popStack 1 (emitOp (nextArgOp .normal) st₁)).numBytes =
        st₁.numBytes + 1 := by
      rw [popStack_numBytes, emitOp_numBytes]
    have hm₂ :
        Running prog bc (pos (CodeGen.popStack 1 (emitOp (nextArgOp .normal) st₁)).numBytes)
          m₂ := by
      rw [hbytes, hp]
      exact hadd.running (hfirst.running hm)
    have hwf₂ : WF (CodeGen.popStack 1 (emitOp (nextArgOp .normal) st₁)) :=
      (hw₁.emitByte _).popStack 1
    have hleft := (hfirst.trans hadd).ticks
    have htimed := (hfirst.trans hadd).timedOut.trans hout
    obtain ⟨m₃, hrest⟩ :=
      ih hlist hst₂ hwf₂ hm₂ hadd.rtStack (by rw [hleft]; push_cast; omega) htimed
    rw [List.append_assoc, List.singleton_append] at hrest
    exact ⟨m₃, (hfirst.trans hadd).trans hrest⟩

/-- Where the code of a literal runs, its value is pushed. -/
theorem run_literal (img : Image prog bc fin pos) (htexts : CStrings prog) (hv : Printable v) :
    Pushes env prog bc fin pos v := by
  induction hv with
  | @int num hnum =>
    intro st st' m h hw hle hnext hm _ _
    rw [show literalExpr (.int num) = .var (.int num) from rfl, generateExpr] at h
    split at h
    · next hrange =>
      cases h
      obtain ⟨hop, hp⟩ := img.opAt hw ((Le.pushStack 1 _).trans hle)
      have hend : (pushStack 1 (emitOp (.OPTIM_NUM num) st)).numBytes = st.numBytes + 1 := by
        rw [pushStack_numBytes, emitOp_numBytes]
      rw [hend, hp]
      exact moved_optim hrange hop hm.bc hm.pc
    · cases h
      exact pushes_imm img htexts (.int hnum) nofun hw hle hnext hm
  | obj hobj =>
    intro st st' m h hw hle hnext hm _ _
    cases h
    exact pushes_imm img htexts (.obj hobj) nofun hw hle hnext hm
  | err err =>
    intro st st' m h hw hle hnext hm _ _
    cases h
    exact pushes_imm img htexts (.err err) nofun hw hle hnext hm
  | str hcs =>
    intro st st' m h hw hle hnext hm _ _
    cases h
    exact pushes_imm img htexts (.str hcs) nofun hw hle hnext hm
  | @list list _ ih =>
    intro st st' m h hw hle hnext hm hticks hout
    rw [literalExpr, generateExpr] at h
    cases list with
    | nil =>
      cases h
      obtain ⟨hop, hp⟩ := img.opAt hw ((Le.pushStack 1 _).trans hle)
      have hend : (pushStack 1 (emitOp .OP_MAKE_EMPTY_LIST st)).numBytes = st.numBytes + 1 := by
        rw [pushStack_numBytes, emitOp_numBytes]
      rw [hend, hp]
      exact moved_empty hop hm.bc hm.pc
    | cons v list =>
      obtain ⟨hv, hlist⟩ := List.forall_mem_cons.mp ih
      -- the first element makes a list of one, and the others are added at its end
      rw [literalArgs, generateArgs] at h
      obtain ⟨st₁, hst₁, hst₂⟩ := Option.bind_eq_some_iff.mp h
      rw [literalTicks] at hticks ⊢
      push_cast at hticks
      have hle₁ : Le (emitOp (firstArgOp .normal) st₁) fin :=
        (generateMoreArgs_grows hst₂).le.trans hle
      have hw₁ := (generateExpr_grows hst₁).wf hw
      obtain ⟨hop, hp⟩ := img.opAt hw₁ hle₁
      obtain ⟨m₁, hfirst⟩ := hv st st₁ m hst₁ hw ((Le.emitByte _ _).trans hle₁)
        (not_popAt hop (by decide)) hm (by omega) hout
      have hhas : m₁.HasTicks := ⟨by rw [hfirst.ticks]; omega, hfirst.timedOut.trans hout⟩
      obtain ⟨m₂, hmake⟩ : ∃ m₂, Moved env m₁ m₂ _ _ 1 :=
        moved_singleton hop hhas (hfirst.running hm).bc hfirst.pc hfirst.rtStack
      have hm₂ : Running prog bc (pos (emitOp (firstArgOp .normal) st₁).numBytes) m₂ := by
        rw [emitOp_numBytes, hp]
        exact hmake.running (hfirst.running hm)
      have hleft := (hfirst.trans hmake).ticks
      have htimed := (hfirst.trans hmake).timedOut.trans hout
      obtain ⟨m₃, hrest⟩ := pushes_more img hlist hst₂ (hw₁.emitByte _) hle hm₂ hmake.rtStack
        (by rw [hleft]; push_cast; omega) htimed
      exact ⟨m₃, (hfirst.trans hmake).trans hrest⟩

/-! ## The program -/

theorem le_refSize {n : Nat} (h : n ≤ 2 ^ 32) : n ≤ 256 ^ refSize n := by
  rw [refSize]
  split
  · assumption
  · split
    · assumption
    · exact h

/-- A vector of literals fits, if its size with long operands does. -/
theorem LiteralCode.fits (h : LiteralCode st) (hw : WF st) (hsize : codeSize st < UINT_RANGE) :
    Fits st := by
  have hnone : ∀ kind, kind ≠ .literal → (st.keys.countP fun k => k.1 = kind) = 0 := by
    intro kind hkind
    rw [List.countP_eq_zero]
    intro k hk
    obtain ⟨f, hf, rfl⟩ := List.mem_map.mp hk
    rw [decide_eq_true_eq, h.kinds f hf]
    exact hkind.symm
  have hforks := hw.forks.trans (hnone .fork (by decide))
  have hvarRefs := hw.varRefs.trans (hnone .varRef (by decide))
  have hlabels := hw.labels.trans (hnone .label (by decide))
  have hwidth : (header st).numbytesLiteral - 1 ≤ 3 := by
    rcases header_width st .literal with hone | htwo | hfour
    · exact Nat.sub_le_of_le_add (Nat.le_trans (Nat.le_of_eq hone) (by decide))
    · exact Nat.sub_le_of_le_add (Nat.le_trans (Nat.le_of_eq htwo) (by decide))
    · exact Nat.sub_le_of_le_add (Nat.le_of_eq hfour)
  refine ⟨⟨?_, fun f hf hstack => ?_⟩, fun f hf _ => ?_⟩
  · have hlong := Nat.mul_le_mul_left st.numLiterals hwidth
    rw [codeSize] at hsize
    rw [fullSize, hforks, hvarRefs, hlabels]
    omega
  · rw [h.kinds f hf] at hstack
    cases hstack
  · have hkind := h.kinds f hf
    have hvalue := hw.values f hf
    rw [ValueOk, hkind] at hvalue
    rw [hkind]
    change f.value < 256 ^ refSize (max st.maxLiteral st.gstate.literals.length)
    have hfew := h.few
    have hhighest := h.highest
    rw [codeSize, UINT_RANGE] at hsize
    exact Nat.lt_of_lt_of_le hvalue (Nat.le_trans (Nat.le_max_right _ _) (le_refSize (by omega)))

/-- The state behind a `return`, whose value has been emitted. -/
def behindReturn (st : State) : State := CodeGen.popStack 1 (emitOp .OP_RETURN st)

/-- A program that returns a literal returns its value. -/
theorem returns_literal (env : RunEnv D) (hv : Printable v)
    (hstream : FitsStream (value_to_literal p v)) : Returns env (literalExpr v) v := by
  obtain ⟨st, hst, hemitted⟩ := emitted_literal (p := p) hv (initState initGState)
  have hcode : LiteralCode st :=
    hemitted.code ⟨by simp [initState], by simp [initState, initGState],
      Nat.zero_le _, Nat.zero_le _⟩
  have hwf₀ : WF (initState initGState) := ScatterCode.wf_initState _
  have hwf₁ : WF st := (generateExpr_grows hst).wf hwf₀
  have hwf₂ : WF (behindReturn st) := (hwf₁.emitByte _).popStack 1
  have hfinish : finish (behindReturn st) = some (emitOp .OP_DONE (behindReturn st)) := by
    refine finish_of ?_ hemitted.savedStack
    rw [emitOp_curStack, behindReturn, popStack_curStack, emitOp_curStack, hemitted.curStack]
    rfl
  have hvector : generateVector (returnProgram (literalExpr v)) initGState =
      some (emitOp .OP_DONE (behindReturn st)) := by
    rw [generateVector, returnProgram, generateStmts, generateStmt, hst]
    exact hfinish
  have hsize : codeSize (emitOp .OP_DONE (behindReturn st)) < UINT_RANGE := by
    have hstart : codeSize (initState initGState) = 0 := rfl
    have hnum : (emitOp .OP_DONE (behindReturn st)).numLiterals = st.numLiterals := rfl
    have hbound := hemitted.size
    rw [hstart, codeSize] at hbound
    rw [FitsStream, value_to_literal] at hstream
    rw [codeSize, hnum, emitOp_numBytes, behindReturn, popStack_numBytes,
      emitOp_numBytes, UINT_RANGE]
    omega
  have hfits := LiteralCode.fits (((hcode.emitOp .OP_RETURN).popStack 1).emitOp .OP_DONE)
    (hwf₂.emitByte _) hsize
  have img := assemble_image hwf₂ hfinish hfits
  refine ⟨⟨assemble (emitOp .OP_DONE (behindReturn st)), st.gstate.literals, st.gstate.forkVectors⟩,
    literalTicks v, ?_,
    fun m hm hticks hout => ?_⟩
  · rw [generateCode, stmtToCode, hvector]
    rfl
  · have hle : Le (emitOp .OP_RETURN st) (emitOp .OP_DONE (behindReturn st)) :=
      (Le.popStack 1 _).trans (Le.emitByte _ _)
    obtain ⟨hop, -⟩ := img.opAt hwf₁ hle
    have hpushes : Pushes env _ _ _ _ v := run_literal img hcode.texts hv
    obtain ⟨m', hmoved⟩ := hpushes _ _ m hst hwf₀ ((Le.emitByte _ _).trans hle)
      (not_popAt hop (by decide)) hm hticks hout
    have hstep : m'.step env = m'.fetched.opReturn :=
      Machine.step_op hop trivial (by decide) (hmoved.running hm).bc hmoved.pc
    have hpop := Machine.pop_eq (m := m'.fetched) hmoved.rtStack
    rw [Machine.opReturn, hpop] at hstep
    exact ⟨m', _, hmoved.run, hstep, rfl⟩

/-- The least number, a string with a quote and a line end, the empty list, an object and an
error. -/
def nested : Var :=
  .list [.int (-2 ^ 63), .str (encode [0xe9, 0x22, 0x0a]), .list [], .obj (-1), .err .E_FLOAT]

def noPrint : PrintEnv := ⟨fun _ => [], fun _ => (0, 0)⟩

def noParser : ParserEnv := ⟨fun _ => 0, fun _ => none, 0⟩

theorem printable_nested : Printable nested :=
  .list fun _ hv => by
    simp only [List.mem_cons, List.not_mem_nil, or_false] at hv
    rcases hv with rfl | rfl | rfl | rfl | rfl
    · exact .int ⟨by decide, by decide⟩
    · exact .str (by decide)
    · exact .list nofun
    · exact .obj ⟨by decide, by decide⟩
    · exact .err _

example : value_to_literal noPrint (.list [.int (-5), .str [0x22, 0x0a], .list [], .obj (-1)]) =
    ascii "\x7b-5, \"\\\"\\n\", \x7b\x7d, #-1\x7d" := by
  decide +kernel

end NuMoo.Exec
