import NuMoo.Code.Generate

/-!
# The shape of compiled code

What stands in a finished vector for each construct, with operands at their final
widths: `MOOCodeSequences.txt` as relations between a tree and two positions of the
vector. Positions are offsets in the vector; `d` is the height of the run-time stack
before the construct and `saved` the height at which the value that `$` is the length
of stands.

The relations are recursive functions on the tree, so that each unfolds to the sequence
of its construct.
-/

namespace NuMoo

/-- The operand of the given kind at a position. -/
structure Bytecodes.OperandAt (bc : Bytecodes) (kind : FixupKind) (p value : Nat) : Prop where
  inside : p + bc.width kind ≤ bc.vector.length
  reads : readBytes bc.vector p (bc.width kind) = value

/-- The byte at a position. -/
def Bytecodes.ByteAt (bc : Bytecodes) (p : Nat) (b : UInt8) : Prop := bc.vector[p]? = some b

/-- The opcode at a position. -/
def Bytecodes.OpAt (bc : Bytecodes) (p : Nat) (op : Opcode) : Prop := bc.ByteAt p op.toByte

/-- The extended opcode at a position. -/
def Bytecodes.EopAt (bc : Bytecodes) (p : Nat) (op : ExtendedOpcode) : Prop :=
  bc.OpAt p .OP_EXTENDED ∧ bc.ByteAt (p + 1) op.toByte

/-- A loop around a statement: the labels and stack heights that `break` and `continue` use. -/
structure LoopCtx where
  id : Option Nat
  top : Nat
  topStack : Nat
  bottom : Nat
  bottomStack : Nat

/-- The loop that a `break` or `continue` leaves. -/
def exitLoopCtx : Option Nat → List LoopCtx → Option LoopCtx
  | none, ctx => ctx.head?
  | some exit, ctx => ctx.find? fun loop => loop.id = some exit

namespace Shape

/-- How many values `push_lvalue` leaves on the stack. -/
def lvalueHeight : Expr → Bool → Nat
  | .range base _ _, _ => lvalueHeight base true + 2
  | .index lhs _, above => lvalueHeight lhs true + 1 + above.toNat
  | .id _, above => above.toNat
  | .prop _ _, above => 2 + above.toNat
  | _, _ => 0

section
variable (prog : Program) (bc : Bytecodes)

/-- An instruction on a variable, short or long. -/
def VarOpAt (short : Fin NUM_READY_VARS → Opcode) (long : Opcode) (slot p q : Nat) : Prop :=
  (∃ h : slot < NUM_READY_VARS, bc.OpAt p (short ⟨slot, h⟩) ∧ q = p + 1) ∨
  (NUM_READY_VARS ≤ slot ∧ bc.OpAt p long ∧ bc.OperandAt .varRef (p + 1) slot ∧
    q = p + 1 + bc.numbytesVarName)

def PushAt (slot p q : Nat) : Prop := VarOpAt bc .OP_PUSH .OP_G_PUSH slot p q

def PutAt (slot p q : Nat) : Prop := VarOpAt bc .OP_PUT .OP_G_PUT slot p q

/-- The instruction of a binary operator. -/
def BinaryAt : BinaryKind → Nat → Nat → Prop
  | .plus, p, q => bc.OpAt p .OP_ADD ∧ q = p + 1
  | .minus, p, q => bc.OpAt p .OP_MINUS ∧ q = p + 1
  | .times, p, q => bc.OpAt p .OP_MULT ∧ q = p + 1
  | .divide, p, q => bc.OpAt p .OP_DIV ∧ q = p + 1
  | .mod, p, q => bc.OpAt p .OP_MOD ∧ q = p + 1
  | .exp, p, q => bc.EopAt p .EOP_EXP ∧ q = p + 2
  | .eq, p, q => bc.OpAt p .OP_EQ ∧ q = p + 1
  | .ne, p, q => bc.OpAt p .OP_NE ∧ q = p + 1
  | .lt, p, q => bc.OpAt p .OP_LT ∧ q = p + 1
  | .le, p, q => bc.OpAt p .OP_LE ∧ q = p + 1
  | .gt, p, q => bc.OpAt p .OP_GT ∧ q = p + 1
  | .ge, p, q => bc.OpAt p .OP_GE ∧ q = p + 1
  | .in_, p, q => bc.OpAt p .OP_IN ∧ q = p + 1

/-- A literal: a small integer is an opcode of its own, any other is in the table. -/
def LiteralAt (v : Var) (p q : Nat) : Prop :=
  (∃ i, v = .int i ∧ inOptimNumRange i = true ∧ bc.OpAt p (.OPTIM_NUM i) ∧ q = p + 1) ∨
  (∃ i w, (∀ n, v = .int n → inOptimNumRange n = false) ∧ bc.OpAt p .OP_IMM ∧
    bc.OperandAt .literal (p + 1) i ∧
    prog.literals[i]? = some w ∧ (w = v ∨ sameLiteral v w = true) ∧ q = p + 1 + bc.numbytesLiteral)

/-- The targets of a scatter, with the labels of their defaults. -/
def TargetsAt : Scatter → List Nat → Nat → Nat → Prop
  | .nil, labels, p, q => labels = [] ∧ q = p
  | .cons .optional id (.some _) next, labels, p, q =>
    bc.OperandAt .varRef p id ∧ ∃ label rest, labels = label :: rest ∧
      bc.OperandAt .label (p + bc.numbytesVarName) label ∧
      TargetsAt next rest (p + bc.numbytesVarName + bc.numbytesLabel) q
  | .cons .optional id .none next, labels, p, q =>
    bc.OperandAt .varRef p id ∧ bc.OperandAt .label (p + bc.numbytesVarName) 1 ∧
      TargetsAt next labels (p + bc.numbytesVarName + bc.numbytesLabel) q
  | .cons _ id _ next, labels, p, q =>
    bc.OperandAt .varRef p id ∧ bc.OperandAt .label (p + bc.numbytesVarName) 0 ∧
      TargetsAt next labels (p + bc.numbytesVarName + bc.numbytesLabel) q

/-- The end of an assignment, from the innermost index to the variable or property. -/
def FinishAt : Expr → Bool → Nat → Nat → Prop
  | .range base _ _, _, p, q => bc.EopAt p .EOP_RANGESET ∧ FinishAt base true (p + 2) q
  | .index lhs _, _, p, q => bc.OpAt p .OP_INDEXSET ∧ FinishAt lhs true (p + 1) q
  | .id slot, isIndexed, p, q => ∃ m, PutAt bc slot p m ∧ unTempAt isIndexed m q
  | .prop _ _, isIndexed, p, q => bc.OpAt p .OP_PUT_PROP ∧ unTempAt isIndexed (p + 1) q
  | _, _, _, _ => False
where
  unTempAt (isIndexed : Bool) (p q : Nat) : Prop :=
    if isIndexed then bc.OpAt p .OP_POP ∧ bc.OpAt (p + 1) .OP_PUSH_TEMP ∧ q = p + 2 else q = p

mutual

/-- The code of an expression. -/
def ExprAt : Expr → Option Nat → Nat → Nat → Nat → Prop
  | .var v, _, d, p, q => LiteralAt prog bc v p q ∧ d < bc.maxStack
  | .id slot, _, d, p, q => PushAt bc slot p q ∧ d < bc.maxStack
  | .logical kind lhs rhs, saved, d, p, q => ∃ m,
    ExprAt lhs saved d p m ∧ bc.OpAt m (CodeGen.logicalOp kind) ∧ bc.OperandAt .label (m + 1) q ∧
    ExprAt rhs saved d (m + 1 + bc.numbytesLabel) q
  | .unary kind expr, saved, d, p, q => ∃ m,
    ExprAt expr saved d p m ∧ bc.OpAt m (CodeGen.unaryOp kind) ∧ q = m + 1
  | .binary kind lhs rhs, saved, d, p, q => ∃ m r,
    ExprAt lhs saved d p m ∧ ExprAt rhs saved (d + 1) m r ∧ BinaryAt bc kind r q
  | .prop lhs rhs, saved, d, p, q => ∃ m r,
    ExprAt lhs saved d p m ∧ ExprAt rhs saved (d + 1) m r ∧ bc.OpAt r .OP_GET_PROP ∧ q = r + 1
  | .index lhs rhs, saved, d, p, q => ∃ m r,
    ExprAt lhs saved d p m ∧ ExprAt rhs (some d) (d + 1) m r ∧ bc.OpAt r .OP_REF ∧ q = r + 1
  | .range base from_ to_, saved, d, p, q => ∃ m r s,
    ExprAt base saved d p m ∧ ExprAt from_ (some d) (d + 1) m r ∧ ExprAt to_ (some d) (d + 2) r s ∧
    bc.OpAt s .OP_RANGE_REF ∧ q = s + 1
  | .length, saved, d, p, q => ∃ i,
    saved = some i ∧ bc.EopAt p .EOP_LENGTH ∧ bc.OperandAt .stack (p + 2) i ∧ d < bc.maxStack ∧
    q = p + 2 + bc.numbytesStack
  | .list args, saved, d, p, q => ArgsAt args .OP_MAKE_EMPTY_LIST saved d p q
  | .call func args, saved, d, p, q => ∃ m,
    ArgsAt args .OP_MAKE_EMPTY_LIST saved d p m ∧ bc.OpAt m .OP_BI_FUNC_CALL ∧
    bc.ByteAt (m + 1) (UInt8.ofNat func) ∧ q = m + 2
  | .verb obj verb args, saved, d, p, q => ∃ m r s,
    ExprAt obj saved d p m ∧ ExprAt verb saved (d + 1) m r ∧
      ArgsAt args .OP_MAKE_EMPTY_LIST saved (d + 2) r s ∧
    bc.OpAt s .OP_CALL_VERB ∧ q = s + 1
  | .cond condition consequent alternate, saved, d, p, q => ∃ m r s,
    ExprAt condition saved d p m ∧ bc.OpAt m .OP_IF_QUES ∧ bc.OperandAt .label (m + 1) s ∧
    ExprAt consequent saved d (m + 1 + bc.numbytesLabel) r ∧
    bc.OpAt r .OP_JUMP ∧ bc.OperandAt .label (r + 1) q ∧ s = r + 1 + bc.numbytesLabel ∧
    ExprAt alternate saved d s q
  | .asgn (.scatter targets) rhs, saved, d, p, q => ∃ m r labels,
    ExprAt rhs saved d p m ∧ bc.EopAt m .EOP_SCATTER ∧
    bc.ByteAt (m + 2) (UInt8.ofNat (CodeGen.countTargets targets 0 0 none).1) ∧
    bc.ByteAt (m + 3) (UInt8.ofNat (CodeGen.countTargets targets 0 0 none).2.1) ∧
    bc.ByteAt (m + 4) (UInt8.ofNat ((CodeGen.countTargets targets 0 0 none).2.2.getD
      ((CodeGen.countTargets targets 0 0 none).1 + 1))) ∧
    TargetsAt bc targets labels (m + 5) r ∧ bc.OperandAt .label r q ∧
    DefaultsAt targets labels saved (d + 1) (r + bc.numbytesLabel) q
  | .asgn lhs rhs, saved, d, p, q => ∃ m r s,
    LvalueAt lhs false saved d p m ∧ ExprAt rhs saved (d + lvalueHeight lhs false) m r ∧
    (if CodeGen.putsTemp lhs then bc.OpAt r .OP_PUT_TEMP ∧ s = r + 1 else s = r) ∧
    FinishAt bc lhs false s q
  | .catch_ tryexp codes except, saved, d, p, q => ∃ m r h,
    ArgsAt codes (.OPTIM_NUM 0) saved d p m ∧ bc.EopAt m .EOP_PUSH_LABEL ∧
      bc.OperandAt .label (m + 2) h ∧
    bc.EopAt (m + 2 + bc.numbytesLabel) .EOP_CATCH ∧ d + 3 ≤ bc.maxStack ∧
    ExprAt tryexp saved (d + 3) (m + 4 + bc.numbytesLabel) r ∧
    bc.EopAt r .EOP_END_CATCH ∧ bc.OperandAt .label (r + 2) q ∧ h = r + 2 + bc.numbytesLabel ∧
    ExceptAt except saved d h q
  | .scatter _, _, _, _, _ => False

/-- The handler of a catch expression. -/
def ExceptAt : OptExpr → Option Nat → Nat → Nat → Nat → Prop
  | .some except, saved, d, p, q => bc.OpAt p .OP_POP ∧ ExprAt except saved d (p + 1) q
  | .none, _, _, p, q => bc.OpAt p (.OPTIM_NUM 1) ∧ bc.OpAt (p + 1) .OP_REF ∧ q = p + 2

/-- The code of a list of arguments; an absent list is the given opcode. -/
def ArgsAt : ArgList → Opcode → Option Nat → Nat → Nat → Nat → Prop
  | .nil, empty, _, d, p, q => bc.OpAt p empty ∧ d < bc.maxStack ∧ q = p + 1
  | .cons kind expr next, _, saved, d, p, q => ∃ m,
    ExprAt expr saved d p m ∧ bc.OpAt m (CodeGen.firstArgOp kind) ∧
      MoreArgsAt next saved (d + 1) (m + 1) q

/-- The code of the later arguments. -/
def MoreArgsAt : ArgList → Option Nat → Nat → Nat → Nat → Prop
  | .nil, _, _, p, q => q = p
  | .cons kind expr next, saved, d, p, q => ∃ m,
    ExprAt expr saved d p m ∧ bc.OpAt m (CodeGen.nextArgOp kind) ∧ MoreArgsAt next saved d (m + 1) q

/-- What is pushed for the left side of an assignment. -/
def LvalueAt : Expr → Bool → Option Nat → Nat → Nat → Nat → Prop
  | .range base from_ to_, _, saved, d, p, q => ∃ m r,
    LvalueAt base true saved d p m ∧
    ExprAt from_ (some (d + lvalueHeight base true - 1)) (d + lvalueHeight base true) m r ∧
    ExprAt to_ (some (d + lvalueHeight base true - 1)) (d + lvalueHeight base true + 1) r q
  | .index lhs rhs, above, saved, d, p, q => ∃ m r,
    LvalueAt lhs true saved d p m ∧
    ExprAt rhs (some (d + lvalueHeight lhs true - 1)) (d + lvalueHeight lhs true) m r ∧
    (if above then bc.OpAt r .OP_PUSH_REF ∧ d + lvalueHeight lhs true + 1 < bc.maxStack ∧
      q = r + 1 else q = r)
  | .id slot, above, _, d, p, q =>
    if above then PushAt bc slot p q ∧ d < bc.maxStack else q = p
  | .prop lhs rhs, above, saved, d, p, q => ∃ m r,
    ExprAt lhs saved d p m ∧ ExprAt rhs saved (d + 1) m r ∧
    (if above then bc.OpAt r .OP_PUSH_GET_PROP ∧ d + 2 < bc.maxStack ∧ q = r + 1 else q = r)
  | _, _, _, _, _, _ => False

/-- The code of the defaults of a scatter. -/
def DefaultsAt : Scatter → List Nat → Option Nat → Nat → Nat → Nat → Prop
  | .nil, labels, _, _, p, q => labels = [] ∧ q = p
  | .cons .optional id (.some expr) next, labels, saved, d, p, q => ∃ m r rest,
    labels = p :: rest ∧ ExprAt expr saved d p m ∧ PutAt bc id m r ∧ bc.OpAt r .OP_POP ∧
    DefaultsAt next rest saved d (r + 1) q
  | .cons _ _ _ next, labels, saved, d, p, q => DefaultsAt next labels saved d p q

end

end

section
variable (prog : Program)

/-- The operands and the jump of a loop around its body. -/
def exitAt (bc : Bytecodes) (exit : Option Nat) (p q : Nat) : Prop :=
  match exit with
  | none => bc.EopAt p .EOP_EXIT ∧ q = p + 2
  | some id =>
    bc.EopAt p .EOP_EXIT_ID ∧ bc.OperandAt .varRef (p + 2) id ∧ q = p + 2 + bc.numbytesVarName

/-- The instruction that tests the condition of a `while`. -/
def whileAt (bc : Bytecodes) (id : Option Nat) (p q : Nat) : Prop :=
  match id with
  | none => bc.OpAt p .OP_WHILE ∧ q = p + 1
  | some slot =>
    bc.EopAt p .EOP_WHILE_ID ∧ bc.OperandAt .varRef (p + 2) slot ∧ q = p + 2 + bc.numbytesVarName

/-- The assignment of the exception to the variable of an arm. -/
def putOptAt (bc : Bytecodes) (id : Option Nat) (p q : Nat) : Prop :=
  match id with
  | none => q = p
  | some slot => PutAt bc slot p q

mutual

/-- The code of a statement. -/
def StmtAt : Stmt → Bytecodes → List LoopCtx → Nat → Nat → Nat → Prop
  | .cond arms otherwise, bc, ctx, d, p, q => ∃ m,
    ArmsAt arms bc ctx d .OP_IF q p m ∧ StmtsAt otherwise bc ctx d m q
  | .list id expr body, bc, ctx, d, p, q => ∃ m t,
    ExprAt prog bc expr none d p m ∧ bc.OpAt m (.OPTIM_NUM 1) ∧ d + 2 ≤ bc.maxStack ∧
    bc.OpAt (m + 1) .OP_FOR_LIST ∧ bc.OperandAt .varRef (m + 2) id ∧
    bc.OperandAt .label (m + 2 + bc.numbytesVarName) q ∧
    StmtsAt body bc (⟨some id, m + 1, d + 2, q, d⟩ :: ctx) (d + 2)
    (m + 2 + bc.numbytesVarName + bc.numbytesLabel) t ∧
    bc.OpAt t .OP_JUMP ∧ bc.OperandAt .label (t + 1) (m + 1) ∧ q = t + 1 + bc.numbytesLabel
  | .range id from_ to_ body, bc, ctx, d, p, q => ∃ m r t,
    ExprAt prog bc from_ none d p m ∧ ExprAt prog bc to_ none (d + 1) m r ∧
    bc.OpAt r .OP_FOR_RANGE ∧ bc.OperandAt .varRef (r + 1) id ∧
    bc.OperandAt .label (r + 1 + bc.numbytesVarName) q ∧
    StmtsAt body bc (⟨some id, r, d + 2, q, d⟩ :: ctx) (d + 2)
    (r + 1 + bc.numbytesVarName + bc.numbytesLabel) t ∧
    bc.OpAt t .OP_JUMP ∧ bc.OperandAt .label (t + 1) r ∧ q = t + 1 + bc.numbytesLabel
  | .while_ id condition body, bc, ctx, d, p, q => ∃ m r t,
    ExprAt prog bc condition none d p m ∧ whileAt bc id m r ∧ bc.OperandAt .label r q ∧
    StmtsAt body bc (⟨id, p, d, q, d⟩ :: ctx) d (r + bc.numbytesLabel) t ∧
    bc.OpAt t .OP_JUMP ∧ bc.OperandAt .label (t + 1) p ∧ q = t + 1 + bc.numbytesLabel
  | .fork id time body, bc, _, d, p, q => ∃ m i fbc t,
    ExprAt prog bc time none d p m ∧
    bc.OpAt m (CodeGen.forkOp id) ∧
    bc.OperandAt .fork (m + 1) i ∧
    (match id with
      | some slot => bc.OperandAt .varRef (m + 1 + bc.numbytesFork) slot ∧
        q = m + 1 + bc.numbytesFork + bc.numbytesVarName
      | none => q = m + 1 + bc.numbytesFork) ∧
    prog.forkVectors[i]? = some fbc ∧ StmtsAt body fbc [] 0 0 t ∧ fbc.OpAt t .OP_DONE ∧
    fbc.vector.length = t + 1 ∧ fbc.size = t + 1
  | .expr expr, bc, _, d, p, q =>
    ∃ m, ExprAt prog bc expr none d p m ∧ bc.OpAt m .OP_POP ∧ q = m + 1
  | .return_ (.some expr), bc, _, d, p, q => ∃ m,
    ExprAt prog bc expr none d p m ∧ bc.OpAt m .OP_RETURN ∧ q = m + 1
  | .return_ .none, bc, _, _, p, q => bc.OpAt p .OP_RETURN0 ∧ q = p + 1
  | .tryExcept body excepts, bc, ctx, d, p, q => ∃ m r labels,
    ExceptsAt excepts bc labels d p m ∧ bc.EopAt m .EOP_TRY_EXCEPT ∧
    bc.ByteAt (m + 2) (UInt8.ofNat excepts.length) ∧ d + 2 * excepts.length + 1 ≤ bc.maxStack ∧
    StmtsAt body bc ctx (d + 2 * excepts.length + 1) (m + 3) r ∧
    bc.EopAt r .EOP_END_EXCEPT ∧ bc.OperandAt .label (r + 2) q ∧
    HandlersAt excepts bc ctx labels d q (r + 2 + bc.numbytesLabel) q
  | .tryFinally body handler, bc, ctx, d, p, q => ∃ r t h,
    bc.EopAt p .EOP_TRY_FINALLY ∧ bc.OperandAt .label (p + 2) h ∧ d + 2 ≤ bc.maxStack ∧
    StmtsAt body bc ctx (d + 1) (p + 2 + bc.numbytesLabel) r ∧
    bc.EopAt r .EOP_END_FINALLY ∧ h = r + 2 ∧
    StmtsAt handler bc ctx (d + 2) h t ∧ bc.EopAt t .EOP_CONTINUE ∧ q = t + 2
  | .break_ exit, bc, ctx, _, p, q => ∃ loop m,
    exitLoopCtx exit ctx = some loop ∧ exitAt bc exit p m ∧ bc.OperandAt .stack m loop.bottomStack ∧
    bc.OperandAt .label (m + bc.numbytesStack) loop.bottom ∧
      q = m + bc.numbytesStack + bc.numbytesLabel
  | .continue_ exit, bc, ctx, _, p, q => ∃ loop m,
    exitLoopCtx exit ctx = some loop ∧ exitAt bc exit p m ∧ bc.OperandAt .stack m loop.topStack ∧
    bc.OperandAt .label (m + bc.numbytesStack) loop.top ∧ q = m + bc.numbytesStack +
      bc.numbytesLabel

/-- The code of a list of statements. -/
def StmtsAt : Stmts → Bytecodes → List LoopCtx → Nat → Nat → Nat → Prop
  | .nil, _, _, _, p, q => q = p
  | .cons stmt next, bc, ctx, d, p, q => ∃ m, StmtAt stmt bc ctx d p m ∧ StmtsAt next bc ctx d m q

/-- The code of the arms of an `if` that ends at `done`. -/
def ArmsAt : CondArms → Bytecodes → List LoopCtx → Nat → Opcode → Nat → Nat → Nat → Prop
  | .nil, _, _, _, _, _, p, q => q = p
  | .cons condition stmt next, bc, ctx, d, ifOp, done, p, q => ∃ m r s,
    ExprAt prog bc condition none d p m ∧ bc.OpAt m ifOp ∧ bc.OperandAt .label (m + 1) s ∧
    StmtsAt stmt bc ctx d (m + 1 + bc.numbytesLabel) r ∧
    bc.OpAt r .OP_JUMP ∧ bc.OperandAt .label (r + 1) done ∧ s = r + 1 + bc.numbytesLabel ∧
    ArmsAt next bc ctx d .OP_EIF done s q

/-- The codes and labels that the arms of a `try` push. -/
def ExceptsAt : ExceptArms → Bytecodes → List Nat → Nat → Nat → Nat → Prop
  | .nil, _, labels, _, p, q => labels = [] ∧ q = p
  | .cons _ codes _ next, bc, labels, d, p, q => ∃ m label rest,
    labels = label :: rest ∧ ArgsAt prog bc codes (.OPTIM_NUM 0) none d p m ∧
    bc.EopAt m .EOP_PUSH_LABEL ∧ bc.OperandAt .label (m + 2) label ∧ d + 2 ≤ bc.maxStack ∧
    ExceptsAt next bc rest (d + 2) (m + 2 + bc.numbytesLabel) q

/-- The handlers of the arms of a `try` that ends at `done`. -/
def HandlersAt : ExceptArms → Bytecodes → List LoopCtx → List Nat → Nat → Nat → Nat → Nat → Prop
  | .nil, _, _, labels, _, _, p, q => labels = [] ∧ q = p
  | .cons id _ stmt next, bc, ctx, labels, d, done, p, q => ∃ m r rest,
    labels = p :: rest ∧ putOptAt bc id p m ∧ d < bc.maxStack ∧ bc.OpAt m .OP_POP ∧
    StmtsAt stmt bc ctx d (m + 1) r ∧
    (match next with
      | .nil => rest = [] ∧ q = r
      | .cons _ _ _ _ => bc.OpAt r .OP_JUMP ∧ bc.OperandAt .label (r + 1) done ∧
        HandlersAt next bc ctx rest d done (r + 1 + bc.numbytesLabel) q)

end

/-- The code of a whole vector: the statements and `OP_DONE` at the end. -/
def VectorAt (stmts : Stmts) (bc : Bytecodes) : Prop := ∃ t,
  StmtsAt prog stmts bc [] 0 0 t ∧ bc.OpAt t .OP_DONE ∧ bc.vector.length = t + 1 ∧ bc.size = t + 1

end

end Shape
end NuMoo
