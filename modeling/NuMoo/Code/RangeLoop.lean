import NuMoo.Code.Scatter
import NuMoo.Code.Statements

/-!
# The code of a loop over a range

What `generate_stmt` emits for `for x in [a..b] ... endfor`, in the finished vector: `OP_FOR_RANGE`
with its operands, the code of the body, and the jump back. A slot that needs more than the width
of the operand is cut to it.

Result: `RangeCode.layout`.
-/

namespace NuMoo

open CodeGen

/-- The state before the label of the loop. -/
def rangeHead (id : Nat) (start : State) : State := addVarRef id (emitOp .OP_FOR_RANGE start)

/-- The state at the beginning of the body. -/
def enterRange (id : Nat) (start : State) : State :=
  enterFor id (captureLabel start) (rangeHead id start)

/-- The state behind the loop. -/
def leaveRange (start bottom : State) : State := popStack 2 (closeLoop (captureLabel start) bottom)

/-- The code of a loop over a range in a finished vector: the states of the generator before it,
behind the bounds and at the end of the body, and those at the end of the vector. -/
structure RangeCode (id : Nat) (from_ to_ : Expr) (body : Stmts) where
  before : State
  start : State
  bottom : State
  last : State
  fin : State
  wf : WF before
  bounds : (generateExpr from_ before).bind (generateExpr to_) = some start
  inside : generateStmts body (enterRange id start) = some bottom
  le : Le (leaveRange start bottom) last
  wfLast : WF last
  finish : finish last = some fin

namespace RangeCode

variable {id : Nat} {from_ to_ : Expr} {body : Stmts} (c : RangeCode id from_ to_ body)

/-- The finished vector. -/
def bc : Bytecodes := assemble c.fin

/-- Where `OP_FOR_RANGE` stands. -/
def top : Nat := position c.fin c.start.numBytes

/-- Where the code of the body begins. -/
def inner : Nat := position c.fin (enterRange id c.start).numBytes

/-- The end of the code of the body. -/
def jump : Nat := position c.fin c.bottom.numBytes

/-- The end of the loop. -/
def done : Nat := position c.fin (leaveRange c.start c.bottom).numBytes

/-- The slot that the operand of the instruction names. -/
def slot : Nat := id % 256 ^ c.bc.numbytesVarName

theorem slot_eq (h : SlotFits c.fin id) : c.slot = id := Nat.mod_eq_of_lt h

theorem slot_lt : SlotFits c.fin c.slot := Nat.mod_lt id (Nat.pow_pos (by decide))

theorem written (hroom : Room c.fin) : Written c.bc c.fin (position c.fin) :=
  assemble_written c.wfLast c.finish hroom

theorem wf_fin : WF c.fin := by
  rw [finish_eq c.finish]
  exact c.wfLast.emitByte _

/-- The instruction at the top with its operands, and the jump behind the body. -/
structure Layout : Prop where
  op : c.bc.OpAt c.top .OP_FOR_RANGE
  id : c.bc.OperandAt .varRef (c.top + 1) c.slot
  label : c.bc.OperandAt .label (c.top + 1 + c.bc.numbytesVarName) c.done
  inner : c.inner = c.top + 1 + c.bc.numbytesVarName + c.bc.numbytesLabel
  jump : c.bc.OpAt c.jump .OP_JUMP
  back : c.bc.OperandAt .label (c.jump + 1) c.top
  done : c.done = c.jump + 1 + c.bc.numbytesLabel

theorem whole :
    generateStmt (.range id from_ to_ body) c.before = some (leaveRange c.start c.bottom) := by
  obtain ⟨s, hs, ht⟩ := Option.bind_eq_some_iff.mp c.bounds
  rw [generateStmt_range, hs, Option.bind_eq_bind, Option.bind_some, ht, Option.bind_some]
  exact congrArg (Option.bind · _) c.inside

theorem le_fin : Le (leaveRange c.start c.bottom) c.fin := by
  rw [finish_eq c.finish]
  exact c.le.trans (Le.emitByte _ _)

theorem wf_start : WF c.start := by
  obtain ⟨s, hs, ht⟩ := Option.bind_eq_some_iff.mp c.bounds
  exact ((generateExpr_grows hs).trans (generateExpr_grows ht)).wf c.wf

/-- The body adds code, and prolongs the chain of the loop. -/
theorem body_pending : Pending (enterRange id c.start) c.bottom
    (some (addLabel (rangeHead id c.start)).1 :: bottoms c.start)
    ((exitLoop c.bottom).1 :: bottoms (exitLoop c.bottom).2) := by
  have hbody : Pending (enterRange id c.start) c.bottom (some (addLabel (rangeHead id c.start)).1 ::
    bottoms c.start)
      (bottoms c.bottom) := generateStmts_emits c.inside
  exact bottoms_exitLoop hbody ▸ hbody

theorem rangeHead_grows (id : Nat) (start : State) : Grows start (rangeHead id start) := by
  exact ((Grows.refl start).emitOp _).addVarRef id (emitOp_pos _ _)

theorem rangeHead_pos (id : Nat) (start : State) : 0 < (rangeHead id start).numBytes := by
  rw [rangeHead, addVarRef_numBytes]
  exact Nat.succ_pos _

theorem enterRange_grows (id : Nat) (start : State) : Grows start (enterRange id start) := by
  have hlabel := (rangeHead_grows id start).addLabel (rangeHead_pos id start)
  exact enterLoop_grows hlabel _ _ rfl rfl (fun hw => hlabel.placed_captureLabel hw) (Nat.le_refl _)
    (Nat.sub_le _ _)

/-- The label of the instruction is among those that are defined behind the jump. -/
theorem chain : ∃ l, LabelChain (addKnownLabel (captureLabel c.start)
    (emitOp .OP_JUMP (exitLoop c.bottom).2)).fixups (exitLoop c.bottom).1 l ∧
    (rangeHead id c.start).fixups.length ∈ l := by
  obtain ⟨new, hnew⟩ := c.body_pending.head (undone_addLabel (rangeHead id c.start)).chain
  exact ⟨_, hnew.keeps (addKnownLabel_keeps _ (emitOp .OP_JUMP (exitLoop c.bottom).2)),
    List.mem_append_right _ (List.mem_singleton_self _)⟩

theorem layout (hroom : Room c.fin) : c.Layout := by
  obtain ⟨l, hchain, hmem⟩ := c.chain
  -- Each state extends the ones before it, up to the end of the vector.
  have hle₆ := (Le.popStack 2 _).trans c.le_fin
  have hle₅ := (Le.defineLabel hchain).trans hle₆
  have hle₄ := (Le.addKnownLabel _ _).trans hle₅
  have hle₃ := ((exitLoop_grows c.bottom).emitOp .OP_JUMP).le.trans hle₄
  have hle₂ :=
    (Le.loops _ (addLabel (rangeHead id c.start)).2).trans (c.body_pending.grows.le.trans hle₃)
  have hle₁ := ((Grows.refl _).addLabel (rangeHead_pos id c.start)).le.trans hle₂
  obtain ⟨hop, hp₁⟩ := (c.written hroom).opAt c.wf_start ((addVarRef_adds id _).le.trans hle₁)
  obtain ⟨hid, hp₂⟩ := (c.written hroom).varRefAt hle₁
  rw [emitOp_numBytes, hp₁] at hid hp₂
  have hhead : (rangeHead id c.start).numBytes = c.start.numBytes + 1 + 1 := by
    rw [rangeHead, addVarRef_numBytes, emitOp_numBytes]
  have hlabel := (c.written hroom).labelWidth hle₂
  rw [hhead, hp₂] at hlabel
  -- The operand of the label is there from when it was added.
  have hadded : (addLabel (rangeHead id c.start)).2.fixups[(rangeHead id c.start).fixups.length]?
      = some ((rangeHead id c.start).fixup .label 0 none false) := by
    rw [addLabel_eq, (addLinkedLabel_adds none _).fixups]
    exact List.getElem?_concat_length
  have hkept :=
    addKnownLabel_keeps (captureLabel c.start) (emitOp .OP_JUMP (exitLoop c.bottom).2) _ _
    (c.body_pending.grows.keeps _ _ hadded)
  have hresolved := (c.written hroom).resolvedAt hchain hmem hkept hle₆
  have hpc : ((rangeHead id c.start).fixup .label 0 none false).pc =
      (rangeHead id c.start).numBytes := rfl
  have hw : WF (exitLoop c.bottom).2 :=
    (c.body_pending.grows.trans (exitLoop_grows _)).wf ((enterRange_grows id c.start).wf c.wf_start)
  obtain ⟨hjump, hp₃⟩ := (c.written hroom).opAt hw hle₄
  obtain ⟨hback, hp₄⟩ := (c.written hroom).knownAt rfl rfl hle₅
  have hbottom : (exitLoop c.bottom).2.numBytes = c.bottom.numBytes := rfl
  rw [hbottom] at hjump hp₃
  rw [emitOp_numBytes, hbottom, hp₃] at hback hp₄
  have hdone : c.done = position c.fin c.bottom.numBytes + 1 + c.bc.numbytesLabel := by
    rw [done, leaveRange, popStack_numBytes, closeLoop, defineLabel_numBytes,
      addKnownLabel_numBytes, emitOp_numBytes, hbottom, hp₄]
  refine ⟨hop, hid, ?_, ?_, hjump, hback, hdone⟩
  · rw [hpc, hhead, hp₂, addKnownLabel_numBytes, emitOp_numBytes, hbottom,
      hp₄, ← hdone] at hresolved
    exact hresolved
  · have hinner : (enterRange id c.start).numBytes = (rangeHead id c.start).numBytes + 1 :=
      addLinkedLabel_numBytes none _
    rw [inner, hinner, hhead, hlabel]
    rfl

/-- Every loop in a sequence of statements that has a vector is one. -/
theorem exists_of_sequence {pre post : Stmts} {gstate : GState} {before last fin : State}
    (hpre : generateStmts pre (initState gstate) = some before)
    (hpost : generateStmts (.cons (.range id from_ to_ body) post) before = some last)
    (hfin : CodeGen.finish last = some fin) :
    ∃ c : RangeCode id from_ to_ body, c.before = before ∧ c.last = last ∧ c.fin = fin := by
  rw [generateStmts] at hpost
  obtain ⟨after, hloop, hpost⟩ := Option.bind_eq_some_iff.mp hpost
  have hwf : WF before := (generateStmts_emits hpre).grows.wf (ScatterCode.wf_initState gstate)
  have hlast : WF last :=
    (generateStmts_emits hpost).grows.wf ((generateStmt_emits hloop).grows.wf hwf)
  rw [generateStmt_range] at hloop
  obtain ⟨s, hs, hloop⟩ := Option.bind_eq_some_iff.mp hloop
  obtain ⟨start, hstart, hloop⟩ := Option.bind_eq_some_iff.mp hloop
  obtain ⟨bottom, hbottom, hloop⟩ := Option.bind_eq_some_iff.mp hloop
  cases hloop
  exact ⟨⟨before, start, bottom, last, fin, hwf,
    Option.bind_eq_some_iff.mpr ⟨s, hs, hstart⟩, hbottom,
    (generateStmts_emits hpost).grows.le, hlast, hfin⟩, rfl, rfl, rfl⟩

end RangeCode
end NuMoo
