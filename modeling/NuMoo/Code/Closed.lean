import NuMoo.Code.Layout
import NuMoo.Code.Heights

/-!
# Where the code generator panics

`generate_code` panics on a `$` that is the length of nothing and on a `break` or `continue` without
its loop. The parser lets neither through, and there is no other panic.

Results:
1. `generateExpr_isSome`: an expression has code if and only if every `$` in it is the length of
   something.
2. `generateStmts_isSome`: statements have code if and only if moreover the loops that they leave
   are around them.
3. `generateCode_isSome`: a program has code if and only if that is so of it, without loops around
   it.
-/

namespace NuMoo

mutual

/-- Every `$` is in an index or a range; `dollar` says whether there is one around the
expression. -/
def Expr.Closed : Expr → Bool → Prop
  | .var _, _ => True
  | .id _, _ => True
  | .prop lhs rhs, dollar => lhs.Closed dollar ∧ rhs.Closed dollar
  | .verb obj verb args, dollar => obj.Closed dollar ∧ verb.Closed dollar ∧ args.Closed dollar
  | .index lhs rhs, dollar => lhs.Closed dollar ∧ rhs.Closed true
  | .range base from_ to_, dollar => base.Closed dollar ∧ from_.Closed true ∧ to_.Closed true
  | .asgn lhs rhs, dollar => lhs.Closed dollar ∧ rhs.Closed dollar
  | .call _ args, dollar => args.Closed dollar
  | .binary _ lhs rhs, dollar => lhs.Closed dollar ∧ rhs.Closed dollar
  | .unary _ expr, dollar => expr.Closed dollar
  | .logical _ lhs rhs, dollar => lhs.Closed dollar ∧ rhs.Closed dollar
  | .list args, dollar => args.Closed dollar
  | .cond condition consequent alternate, dollar =>
    condition.Closed dollar ∧ consequent.Closed dollar ∧ alternate.Closed dollar
  | .catch_ tryexp codes except, dollar =>
    codes.Closed dollar ∧ tryexp.Closed dollar ∧ except.Closed dollar
  | .length, dollar => dollar = true
  | .scatter targets, dollar => targets.Closed dollar

def OptExpr.Closed : OptExpr → Bool → Prop
  | .none, _ => True
  | .some expr, dollar => expr.Closed dollar

def ArgList.Closed : ArgList → Bool → Prop
  | .nil, _ => True
  | .cons _ expr next, dollar => expr.Closed dollar ∧ next.Closed dollar

/-- Only a target that is optional has a default. -/
def Scatter.Closed : Scatter → Bool → Prop
  | .nil, _ => True
  | .cons .optional _ expr next, dollar => expr.Closed dollar ∧ next.Closed dollar
  | .cons _ _ _ next, dollar => next.Closed dollar

end

/-- The codes of all arms of a `try`. -/
def ExceptArms.CodesClosed : ExceptArms → Prop
  | .nil => True
  | .cons _ codes _ next => codes.Closed false ∧ next.CodesClosed

/-- The loop that a `break` or `continue` leaves is one of the loops around it, whose names these
are. -/
def ExitClosed : Option Nat → List (Option Nat) → Prop
  | none, loops => loops ≠ []
  | some id, loops => some id ∈ loops

mutual

/-- All expressions are closed, and every `break` and `continue` has its loop. The body of a `fork`
is in no loop. -/
def Stmt.Closed : Stmt → List (Option Nat) → Prop
  | .cond arms otherwise, loops => arms.Closed loops ∧ otherwise.Closed loops
  | .list id expr body, loops => expr.Closed false ∧ body.Closed (some id :: loops)
  | .range id from_ to_ body, loops =>
    from_.Closed false ∧ to_.Closed false ∧ body.Closed (some id :: loops)
  | .while_ id condition body, loops => condition.Closed false ∧ body.Closed (id :: loops)
  | .fork _ time body, _ => time.Closed false ∧ body.Closed []
  | .expr expr, _ => expr.Closed false
  | .return_ expr, _ => expr.Closed false
  | .tryExcept body excepts, loops => excepts.CodesClosed ∧ body.Closed loops ∧ excepts.Closed loops
  | .tryFinally body handler, loops => body.Closed loops ∧ handler.Closed loops
  | .break_ exit, loops => ExitClosed exit loops
  | .continue_ exit, loops => ExitClosed exit loops

def Stmts.Closed : Stmts → List (Option Nat) → Prop
  | .nil, _ => True
  | .cons stmt next, loops => stmt.Closed loops ∧ next.Closed loops

def CondArms.Closed : CondArms → List (Option Nat) → Prop
  | .nil, _ => True
  | .cons condition stmt next, loops =>
    condition.Closed false ∧ stmt.Closed loops ∧ next.Closed loops

/-- The handlers of the arms of a `try`. -/
def ExceptArms.Closed : ExceptArms → List (Option Nat) → Prop
  | .nil, _ => True
  | .cons _ _ stmt next, loops => stmt.Closed loops ∧ next.Closed loops

end

namespace CodeGen

variable {ok : Nat → Prop} {b st st' : State} {saved : Option Nat} {d : Nat}

section Options

variable {α β : Type} {x : Option α} {f : α → Option β} {P Q : Prop}

/-- Two steps succeed. -/
theorem isSome_bind (hx : x.isSome ↔ P) (hf : ∀ a, x = some a → ((f a).isSome ↔ Q)) :
    (x >>= f).isSome ↔ P ∧ Q := by
  cases x with
  | none =>
    constructor
    · intro h
      cases h
    · rintro ⟨h, -⟩
      cases hx.mpr h
  | some a =>
    have hP : P := hx.mp rfl
    exact (hf a rfl).trans (and_iff_right hP).symm

/-- The last step always succeeds. -/
theorem isSome_last (hx : x.isSome ↔ P) (hf : ∀ a, x = some a → (f a).isSome = true) :
    (x >>= f).isSome ↔ P :=
  (isSome_bind hx fun a ha => iff_of_true (hf a ha) trivial).trans (and_iff_left trivial)

end Options

/-! ## Expressions -/

theorem isTarget_of_isBase {lhs : Expr} (h : lhs.IsBase) : lhs.IsTarget := by
  cases lhs with
  | range => exact absurd h id
  | _ => exact h

/-- The end of an assignment always succeeds, by induction on the left side. -/
theorem finishAssign_isSome {lhs : Expr} {isIndexed : Bool} {st : State} (h : lhs.IsTarget) :
    (finishAssign lhs isIndexed st).isSome = true := by
  cases lhs with
  | range base from_ to_ =>
    rw [finishAssign]
    exact finishAssign_isSome (isTarget_of_isBase h)
  | index lhs rhs =>
    rw [finishAssign]
    have hbase : lhs.IsBase := h
    exact finishAssign_isSome (isTarget_of_isBase hbase)
  | id | prop =>
    rw [finishAssign]
    rfl
  | _ => exact absurd h id

mutual

/-- An expression has code if and only if it is closed, by induction on it. -/
theorem generateExpr_isSome {e : Expr} {st : State} {saved : Option Nat} {d : Nat} (hl : e.Legal ok)
    (hh : Height ok st saved d) :
    (generateExpr e st).isSome ↔ e.Closed saved.isSome := by
  cases e with
  | var v =>
    cases v with
    | int num =>
      rw [generateExpr]
      split
      · exact iff_of_true rfl trivial
      · exact iff_of_true rfl trivial
    | _ =>
      rw [generateExpr]
      · exact iff_of_true rfl trivial
      · exact nofun
  | id slot =>
    rw [generateExpr]
    exact iff_of_true rfl trivial
  | prop lhs rhs =>
    rw [generateExpr]
    exact isSome_bind (generateExpr_isSome hl.1 hh) fun s hs =>
      isSome_last (generateExpr_isSome hl.2 (generateExpr_height hs hl.1 hh)) fun _ _ => rfl
  | verb obj verb args =>
    rw [generateExpr]
    refine isSome_bind (generateExpr_isSome hl.1 hh) fun s hs => ?_
    have hobj := generateExpr_height hs hl.1 hh
    exact isSome_bind (generateExpr_isSome hl.2.1 hobj) fun t ht =>
      isSome_last (generateArgs_isSome hl.2.2 (generateExpr_height ht hl.2.1 hobj)) fun _ _ => rfl
  | index lhs rhs =>
    rw [generateExpr_index]
    exact isSome_bind (generateExpr_isSome hl.1 hh) fun s hs =>
      isSome_last (generateExpr_isSome hl.2 (generateExpr_height hs hl.1 hh).saveStackTop)
        fun _ _ => rfl
  | range base from_ to_ =>
    rw [generateExpr_range]
    refine isSome_bind (generateExpr_isSome hl.1 hh) fun s hs => ?_
    have hbase := (generateExpr_height hs hl.1 hh).saveStackTop
    exact isSome_bind (generateExpr_isSome hl.2.1 hbase) fun t ht =>
      isSome_last (generateExpr_isSome hl.2.2 (generateExpr_height ht hl.2.1 hbase)) fun _ _ => rfl
  | asgn lhs rhs =>
    cases lhs with
    | scatter targets =>
      rw [generateExpr_scatter]
      refine (isSome_bind (generateExpr_isSome hl.2 hh) fun s hs => ?_).trans and_comm
      have htargets := addTargets_height hl.1 ((generateExpr_height hs hl.2 hh).emitScatter targets)
      exact isSome_last (generateDefaults_isSome hl.1 htargets.addLabel) fun _ _ => rfl
    | _ =>
      rw [generateExpr]
      · exact isSome_bind (pushLvalue_isSome hl.1 hl.2.1 hh) fun s hs =>
          isSome_last (generateExpr_isSome hl.2.2 (pushLvalue_height hs hl.2.1 hh)) fun _ _ =>
            finishAssign_isSome hl.1
      · exact nofun
  | call func args =>
    rw [generateExpr]
    exact isSome_last (generateArgs_isSome hl hh) fun _ _ => rfl
  | binary kind lhs rhs =>
    rw [generateExpr]
    exact isSome_bind (generateExpr_isSome hl.1 hh) fun s hs =>
      isSome_last (generateExpr_isSome hl.2 (generateExpr_height hs hl.1 hh)) fun _ _ => rfl
  | unary kind expr =>
    rw [generateExpr]
    exact isSome_last (generateExpr_isSome hl hh) fun _ _ => rfl
  | logical kind lhs rhs =>
    rw [generateExpr_logical]
    refine isSome_bind (generateExpr_isSome hl.1 hh) fun s hs => ?_
    have hlhs := ((generateExpr_height hs hl.1 hh).emitOp (logicalOp kind)).addLabel.popStack
    exact isSome_last (generateExpr_isSome hl.2 hlhs) fun _ _ => rfl
  | list args =>
    rw [generateExpr]
    exact generateArgs_isSome hl hh
  | cond condition consequent alternate =>
    rw [generateExpr_cond]
    refine isSome_bind (generateExpr_isSome hl.1 hh) fun s hs => ?_
    have hif := ((generateExpr_height hs hl.1 hh).emitOp .OP_IF_QUES).addLabel.popStack
    refine isSome_bind (generateExpr_isSome hl.2.1 hif) fun t ht => ?_
    have hthen := ((generateExpr_height ht hl.2.1 hif).emitOp .OP_JUMP).addLabel.popStack
    exact isSome_last (generateExpr_isSome hl.2.2 (hthen.defineLabel _)) fun _ _ => rfl
  | catch_ tryexp codes except =>
    rw [generateExpr_catch]
    refine isSome_bind (generateArgs_isSome hl.2.1 hh) fun s hs => ?_
    have hlabel :=
      ((generateArgs_height hs hl.2.1 hh).emitExtendedByte .EOP_PUSH_LABEL).addLabel.pushStack 1
    have hcatch := (hlabel.emitExtendedByte .EOP_CATCH).pushStack 1
    refine isSome_bind (generateExpr_isSome hl.1 hcatch) fun t ht => ?_
    have htry := ((generateExpr_height ht hl.1 hcatch).emitExtendedByte .EOP_END_CATCH).addLabel
    exact isSome_last (generateExcept_isSome hl.2.2 ((Height.popStack (n := 3) htry).defineLabel _))
      fun _ _ => rfl
  | length =>
    rw [generateExpr, hh.saved]
    exact isSome_last Iff.rfl fun _ _ => rfl
  | scatter targets => exact absurd hl id

theorem generateExcept_isSome {except : OptExpr} {st : State} {saved : Option Nat} {d : Nat}
    (hl : except.Legal ok)
    (hh : Height ok st saved (d + 1)) :
    (generateExcept except st).isSome ↔ except.Closed saved.isSome := by
  cases except with
  | none =>
    rw [generateExcept]
    exact iff_of_true rfl trivial
  | some e =>
    rw [generateExcept]
    exact generateExpr_isSome hl (hh.emitOp _).popStack

theorem generateArgs_isSome {empty : Opcode} {args : ArgList} {st : State} {saved : Option Nat}
    {d : Nat} (hl : args.Legal ok)
    (hh : Height ok st saved d) :
    (generateArgs empty args st).isSome ↔ args.Closed saved.isSome := by
  cases args with
  | nil =>
    rw [generateArgs]
    exact iff_of_true rfl trivial
  | cons kind e next =>
    rw [generateArgs]
    exact isSome_bind (generateExpr_isSome hl.1 hh) fun s hs =>
      generateMoreArgs_isSome hl.2 ((generateExpr_height hs hl.1 hh).emitOp _)

theorem generateMoreArgs_isSome {args : ArgList} {st : State} {saved : Option Nat} {d : Nat}
    (hl : args.Legal ok)
    (hh : Height ok st saved d) : (generateMoreArgs args st).isSome ↔ args.Closed saved.isSome := by
  cases args with
  | nil =>
    rw [generateMoreArgs]
    exact iff_of_true rfl trivial
  | cons kind e next =>
    rw [generateMoreArgs]
    exact isSome_bind (generateExpr_isSome hl.1 hh) fun s hs =>
      generateMoreArgs_isSome hl.2 ((generateExpr_height hs hl.1 hh).emitOp _).popStack

theorem pushLvalue_isSome {lhs : Expr} {above : Bool} {st : State} {saved : Option Nat} {d : Nat}
    (ht : lhs.IsTarget)
    (hl : lhs.Legal ok) (hh : Height ok st saved d) :
    (pushLvalue lhs above st).isSome ↔ lhs.Closed saved.isSome := by
  cases lhs with
  | range base from_ to_ =>
    rw [pushLvalue_range]
    refine isSome_bind (pushLvalue_isSome (isTarget_of_isBase ht) hl.1 hh) fun s hs => ?_
    have hbase := (pushLvalue_height hs hl.1 hh).saveStackTop
    exact isSome_bind (generateExpr_isSome hl.2.1 hbase) fun t ht =>
      isSome_last (generateExpr_isSome hl.2.2 (generateExpr_height ht hl.2.1 hbase)) fun _ _ => rfl
  | index lhs rhs =>
    rw [pushLvalue_index]
    have hbase : lhs.IsBase := ht
    exact isSome_bind (pushLvalue_isSome (isTarget_of_isBase hbase) hl.1 hh) fun s hs =>
      isSome_last (generateExpr_isSome hl.2 (pushLvalue_height hs hl.1 hh).saveStackTop)
        fun _ _ => rfl
  | id slot =>
    rw [pushLvalue]
    exact iff_of_true rfl trivial
  | prop lhs rhs =>
    rw [pushLvalue]
    exact isSome_bind (generateExpr_isSome hl.1 hh) fun s hs =>
      isSome_last (generateExpr_isSome hl.2 (generateExpr_height hs hl.1 hh)) fun _ _ => rfl
  | _ => exact absurd ht id

theorem generateDefaults_isSome {targets : Scatter} {labels : List Nat} {st : State}
    {saved : Option Nat} {d : Nat}
    (hl : targets.Legal ok) (hh : Height ok st saved d) :
    (generateDefaults targets labels st).isSome ↔ targets.Closed saved.isSome := by
  cases targets with
  | nil =>
    rw [generateDefaults]
    exact iff_of_true rfl trivial
  | cons kind id expr next =>
    cases kind with
    | required | rest =>
      rw [generateDefaults]
      · exact generateDefaults_isSome hl.2.2 hh
      · exact nofun
    | optional =>
      cases expr with
      | none =>
        rw [generateDefaults]
        · exact (generateDefaults_isSome hl.2.2 hh).trans (and_iff_right trivial).symm
        · exact nofun
      | some e =>
        rw [generateDefaults]
        refine isSome_bind (generateExpr_isSome hl.2.1 (hh.defineLabel _)) fun s hs => ?_
        have hvalue := generateExpr_height hs hl.2.1 (hh.defineLabel labels.head?)
        exact generateDefaults_isSome hl.2.2 ((hvalue.emitPut hl.1).emitOp _).popStack

end

/-! ## Statements -/

/-- The generator is between statements, within loops of these names. -/
structure Within (ok : Nat → Prop) (st : State) (loops : List (Option Nat)) (d : Nat) :
    Prop extends Height ok st none d where
  names : st.loops.map Loop.id = loops

section Within

variable {loops : List (Option Nat)} {n : Nat}

theorem names_of_follows {ls ls' : List Loop} (h : List.Forall₂ (Follows b st) ls ls') :
    ls'.map Loop.id = ls.map Loop.id := by
  induction h with
  | nil => rfl
  | cons hl _ ih => rw [List.map_cons, List.map_cons, hl.id, ih]

theorem Within.steady (h : Within ok b loops d) (hs : Steady ok n b st) :
    Within ok st loops (d + n) :=
  ⟨hs.height d h.toHeight, (names_of_follows hs.loops).trans h.names⟩

theorem Within.enterFor (h : Within ok st loops d) {id : Nat} (hid : ok id) (op : Opcode) :
    Within ok (enterFor id (captureLabel st) (addVarRef id (emitOp op st)))
    (some id :: loops) d := by
  have hop := ((h.emitOp op).addVarRef hid).addLabel
  exact ⟨⟨hop.cur, hop.saved, hop.slots⟩, congrArg (some id :: ·) h.names⟩

theorem Within.enterWhile (h : Within ok st loops (d + 1)) {id : Option Nat}
    (hid : OptSlot ok id) (top : Fixup) :
    Within ok (enterWhile id top (emitWhile id st)) (id :: loops) d := by
  have htest : Height ok (popStack 1 (addLabel (emitWhile id st)).2) none d :=
    (emitWhile_height hid h.toHeight).addLabel.popStack
  have hnames : (emitWhile id st).loops.map Loop.id = loops := by rw [emitWhile_loops, h.names]
  exact ⟨⟨htest.cur, htest.saved, htest.slots⟩, congrArg (id :: ·) hnames⟩

theorem within_initState (hzero : ok 0) (gstate : GState) : Within ok (initState gstate) [] 0 :=
  ⟨⟨rfl, rfl, hzero⟩, rfl⟩

theorem findLoop_isSome (exit : Option Nat) (ls : List Loop) :
    (findLoop exit ls).isSome ↔ ExitClosed exit (ls.map Loop.id) := by
  cases exit with
  | none =>
    cases ls with
    | nil => exact iff_of_false Bool.false_ne_true fun h => h rfl
    | cons loop ls => exact iff_of_true rfl (List.cons_ne_nil _ _)
  | some id =>
    rw [findLoop, List.findIdx?_isSome, ExitClosed, List.any_eq_true, List.mem_map]
    simp only [decide_eq_true_eq]

/-- The loop that is found is there. -/
theorem findLoop_get {exit : Option Nat} {ls : List Loop} {i : Nat}
    (h : findLoop exit ls = some i) : ∃ loop, ls[i]? = some loop := by
  cases exit with
  | none =>
    cases ls with
    | nil => cases h
    | cons loop ls =>
      cases h
      exact ⟨loop, rfl⟩
  | some id =>
    obtain ⟨hi, -⟩ := List.findIdx?_eq_some_iff_findIdx_eq.mp h
    exact ⟨_, List.getElem?_eq_getElem hi⟩

theorem finish_isSome (h : Height ok st none 0) : (finish st).isSome = true := by
  rw [finish_of (h.emitOp .OP_DONE).cur (h.emitOp .OP_DONE).saved]
  rfl

end Within

/-- The codes of the arms of a `try`, by induction on the arms. -/
theorem generateExcepts_isSome {excepts : ExceptArms} {b : State} {loops : List (Option Nat)}
    {d : Nat} (hl : excepts.Legal ok)
    (hh : Within ok b loops d) : (generateExcepts excepts b).isSome ↔ excepts.CodesClosed := by
  cases excepts with
  | nil =>
    rw [generateExcepts]
    exact iff_of_true rfl trivial
  | cons id codes stmt next =>
    rw [generateExcepts_cons]
    refine isSome_bind (generateArgs_isSome hl.2.1 hh.toHeight) fun s hs => ?_
    have hcodes := generateArgs_height hs hl.2.1 hh.toHeight
    have hpush : Within ok (pushStack 1 (addLabel (emitExtendedByte .EOP_PUSH_LABEL s)).2)
        loops _ :=
      ⟨(hcodes.emitExtendedByte .EOP_PUSH_LABEL).addLabel.pushStack 1,
        (congrArg (List.map Loop.id) (generateArgs_loops hs)).trans hh.names⟩
    exact isSome_last (generateExcepts_isSome hl.2.2.2 hpush) fun _ _ => rfl

mutual

/-- A statement has code if and only if it is closed, by induction on it. -/
theorem generateStmt_isSome (hzero : ok 0) {stmt : Stmt} {b : State} {loops : List (Option Nat)}
    {d : Nat} (hl : stmt.Legal ok)
    (hh : Within ok b loops d) : (generateStmt stmt b).isSome ↔ stmt.Closed loops := by
  cases stmt with
  | cond arms otherwise =>
    rw [generateStmt_cond]
    exact isSome_bind (generateArms_isSome hzero hl.1 hh) fun s hs =>
      isSome_last (generateStmts_isSome hzero hl.2 (hh.steady (generateArms_steady hs hl.1).1))
        fun _ _ => rfl
  | list id expr body =>
    rw [generateStmt_list]
    refine isSome_bind (generateExpr_isSome hl.2.1 hh.toHeight) fun s hs => ?_
    have hvalue := hh.steady (generateExpr_steady hs hl.2.1)
    have hone : Within ok (pushStack 1 (emitOp (.OPTIM_NUM 1) s)) loops _ :=
      ⟨(hvalue.emitOp _).pushStack 1, hvalue.names⟩
    exact isSome_last (generateStmts_isSome hzero hl.2.2 (hone.enterFor hl.1 .OP_FOR_LIST))
      fun _ _ => rfl
  | range id from_ to_ body =>
    rw [generateStmt_range]
    refine isSome_bind (generateExpr_isSome hl.2.1 hh.toHeight) fun s hs => ?_
    have hfrom := hh.steady (generateExpr_steady hs hl.2.1)
    refine isSome_bind (generateExpr_isSome hl.2.2.1 hfrom.toHeight) fun t ht => ?_
    have hto := hfrom.steady (generateExpr_steady ht hl.2.2.1)
    exact isSome_last (generateStmts_isSome hzero hl.2.2.2 (hto.enterFor hl.1 .OP_FOR_RANGE))
      fun _ _ => rfl
  | while_ id condition body =>
    rw [generateStmt_while]
    refine isSome_bind (generateExpr_isSome hl.2.1 hh.toHeight) fun s hs => ?_
    have hvalue := hh.steady (generateExpr_steady hs hl.2.1)
    exact isSome_last (generateStmts_isSome hzero hl.2.2 (hvalue.enterWhile hl.1 (captureLabel b)))
      fun _ _ => rfl
  | fork id time body =>
    rw [generateStmt_fork]
    refine isSome_bind (generateExpr_isSome hl.2.1 hh.toHeight) fun s _ =>
      isSome_last ?_ fun _ _ => rfl
    -- the body is a vector of its own, with no loop around it
    rw [generateVector]
    have hinit := within_initState hzero s.gstate
    exact isSome_last (generateStmts_isSome hzero hl.2.2 hinit) fun last hlast =>
      finish_isSome (hinit.steady (generateStmts_steady hlast hl.2.2)).toHeight
  | expr expr =>
    rw [generateStmt]
    exact isSome_last (generateExpr_isSome hl hh.toHeight) fun _ _ => rfl
  | return_ expr =>
    cases expr with
    | none =>
      rw [generateStmt]
      exact iff_of_true rfl trivial
    | some e =>
      rw [generateStmt]
      have he : (generateExpr e b).isSome ↔ e.Closed false := generateExpr_isSome hl hh.toHeight
      exact isSome_last he fun _ _ => rfl
  | tryExcept body excepts =>
    rw [generateStmt_tryExcept]
    refine isSome_bind (generateExcepts_isSome hl.2 hh) fun s hs => ?_
    have hcodes := hh.steady (generateExcepts_steady hs hl.2)
    have htry :
        Within ok (pushStack 1 (emitByte (UInt8.ofNat excepts.length)
          (emitExtendedByte .EOP_TRY_EXCEPT s.2))) loops _ :=
      ⟨((hcodes.emitExtendedByte _).emitByte _).pushStack 1, hcodes.names⟩
    refine isSome_bind (generateStmts_isSome hzero hl.1 htry) fun u hu => ?_
    have hbody := htry.steady (generateStmts_steady hu hl.1)
    have hend : Within ok (popStack (2 * excepts.length + 1)
      (addLabel (emitExtendedByte .EOP_END_EXCEPT u)).2) loops d :=
      ⟨Height.popStack (hbody.emitExtendedByte .EOP_END_EXCEPT).addLabel, hbody.names⟩
    exact isSome_last (generateHandlers_isSome hzero hl.2 hend) fun _ _ => rfl
  | tryFinally body handler =>
    rw [generateStmt_tryFinally]
    have htry : Within ok (pushStack 1 (addLabel (emitExtendedByte .EOP_TRY_FINALLY b)).2)
        loops _ :=
      ⟨(hh.emitExtendedByte .EOP_TRY_FINALLY).addLabel.pushStack 1, hh.names⟩
    refine isSome_bind (generateStmts_isSome hzero hl.1 htry) fun s hs => ?_
    have hbody := htry.steady (generateStmts_steady hs hl.1)
    have hleave : Within ok (popStack 1 (emitExtendedByte .EOP_END_FINALLY s)) loops d :=
      ⟨Height.popStack (n := 1) (hbody.emitExtendedByte .EOP_END_FINALLY), hbody.names⟩
    have hhandler :
        Within ok
          (pushStack 2 (defineLabel (some (addLabel (emitExtendedByte .EOP_TRY_FINALLY b)).1)
        (popStack 1 (emitExtendedByte .EOP_END_FINALLY s)))) loops _ :=
      ⟨(hleave.defineLabel _).pushStack 2,
        (congrArg (List.map Loop.id) (defineLabel_loops _ _)).trans hleave.names⟩
    exact isSome_last (generateStmts_isSome hzero hl.2 hhandler) fun _ _ => rfl
  | break_ exit =>
    rw [generateStmt_break]
    refine isSome_last ?_ fun i hi => ?_
    · rw [findLoop_isSome, hh.names]
      exact Iff.rfl
    · obtain ⟨loop, hloop⟩ := findLoop_get hi
      rw [hloop]
      rfl
  | continue_ exit =>
    rw [generateStmt_continue]
    refine isSome_last ?_ fun i hi => ?_
    · rw [findLoop_isSome, hh.names]
      exact Iff.rfl
    · obtain ⟨loop, hloop⟩ := findLoop_get hi
      rw [hloop]
      rfl

theorem generateStmts_isSome (hzero : ok 0) {stmts : Stmts} {b : State} {loops : List (Option Nat)}
    {d : Nat} (hl : stmts.Legal ok)
    (hh : Within ok b loops d) : (generateStmts stmts b).isSome ↔ stmts.Closed loops := by
  cases stmts with
  | nil =>
    rw [generateStmts]
    exact iff_of_true rfl trivial
  | cons stmt next =>
    rw [generateStmts]
    exact isSome_bind (generateStmt_isSome hzero hl.1 hh) fun s hs =>
      generateStmts_isSome hzero hl.2 (hh.steady (generateStmt_steady hs hl.1))

theorem generateArms_isSome (hzero : ok 0) {arms : CondArms} {op : Opcode} {e : Option Nat}
    {b : State} {loops : List (Option Nat)} {d : Nat}
    (hl : arms.Legal ok) (hh : Within ok b loops d) :
    (generateArms arms op e b).isSome ↔ arms.Closed loops := by
  cases arms with
  | nil =>
    rw [generateArms]
    exact iff_of_true rfl trivial
  | cons condition stmt next =>
    rw [generateArms_cons]
    refine isSome_bind (generateExpr_isSome hl.1 hh.toHeight) fun s hs => ?_
    have hvalue := hh.steady (generateExpr_steady hs hl.1)
    have hif : Within ok (popStack 1 (addLabel (emitOp op s)).2) loops d :=
      ⟨(hvalue.emitOp op).addLabel.popStack, hvalue.names⟩
    refine isSome_bind (generateStmts_isSome hzero hl.2.1 hif) fun t ht => ?_
    have hstmt := hif.steady (generateStmts_steady ht hl.2.1)
    have hjump : Within ok (defineLabel (some (addLabel (emitOp op s)).1)
      (addLinkedLabel e (emitOp .OP_JUMP t)).2) loops d :=
      ⟨((hstmt.emitOp .OP_JUMP).addLinkedLabel e).defineLabel _,
        (congrArg (List.map Loop.id) (defineLabel_loops _ _)).trans hstmt.names⟩
    exact generateArms_isSome hzero hl.2.2 hjump

theorem generateHandlers_isSome (hzero : ok 0) {excepts : ExceptArms} {labels : List Nat}
    {e : Nat} {b : State}
    {loops : List (Option Nat)} {d : Nat} (hl : excepts.Legal ok) (hh : Within ok b loops d) :
    (generateHandlers excepts labels e b).isSome ↔ excepts.Closed loops := by
  cases excepts with
  | nil =>
    rw [generateHandlers]
    exact iff_of_true rfl trivial
  | cons id codes stmt next =>
    have hbegin : Within ok (enterHandler id labels.head? b) loops d :=
      ⟨enterHandler_height hl.1 hh.toHeight,
        (congrArg (List.map Loop.id) (enterHandler_loops id _ b)).trans hh.names⟩
    have hstmt := generateStmts_isSome hzero hl.2.2.1 hbegin
    cases next with
    | nil =>
      rw [generateHandlers_last]
      exact isSome_bind hstmt fun _ _ => iff_of_true rfl trivial
    | cons id' codes' stmt' next =>
      rw [generateHandlers_cons]
      refine isSome_bind hstmt fun s hs => ?_
      have hs' := hbegin.steady (generateStmts_steady hs hl.2.2.1)
      have hjump : Within ok (addLinkedLabel (some e) (emitOp .OP_JUMP s)).2 loops d :=
        ⟨(hs'.emitOp .OP_JUMP).addLinkedLabel (some e), hs'.names⟩
      exact generateHandlers_isSome hzero hl.2.2.2 hjump

end

/-- A vector has code if and only if its statements are closed. -/
theorem generateVector_isSome (hzero : ok 0) {stmts : Stmts} (hl : stmts.Legal ok)
    (gstate : GState) :
    (generateVector stmts gstate).isSome ↔ stmts.Closed [] := by
  rw [generateVector]
  have hinit := within_initState hzero gstate
  exact isSome_last (generateStmts_isSome hzero hl hinit) fun last hlast =>
    finish_isSome (hinit.steady (generateStmts_steady hlast hl)).toHeight

/-- A program has code if and only if it is closed. -/
theorem generateCode_isSome {stmts : Stmts} (hl : stmts.Legal fun _ => True) :
    (generateCode stmts).isSome ↔ stmts.Closed [] := by
  rw [generateCode, stmtToCode]
  exact isSome_last (isSome_last (generateVector_isSome trivial hl initGState) fun _ _ => rfl)
    fun _ _ => rfl

/-- `while outer (1) fork (args[$]) body endfork break outer; endwhile` -/
def forkLoop (body : Stmts) : Stmts :=
  .cons (.while_ (some 19) (.var (.int 1))
    (.cons (.fork none (.index (.id 13) .length) body) (.cons (.break_ (some 19)) .nil))) .nil

theorem forkLoop_legal {body : Stmts} (hl : body.Legal fun _ => True) :
    (forkLoop body).Legal fun _ => True := by
  simp [forkLoop, Stmts.Legal, Stmt.Legal, OptSlot, Expr.Legal, hl]

/-- The body of the fork is in no loop, and has to be closed on its own. -/
theorem forkLoop_closed (body : Stmts) : (forkLoop body).Closed [] ↔ body.Closed [] := by
  simp [forkLoop, Stmts.Closed, Stmt.Closed, Expr.Closed, ExitClosed]

/-- The loop may be left by its name in the loop, and not in the body of the fork. -/
theorem generateCode_forkLoop :
    (generateCode (forkLoop .nil)).isSome ∧
      generateCode (forkLoop (.cons (.break_ (some 19)) .nil)) = none := by
  have hnil : Stmts.Legal (fun _ => True) .nil := trivial
  have hbreak : Stmts.Legal (fun _ => True) (.cons (.break_ (some 19)) .nil) := by
    simp [Stmts.Legal, Stmt.Legal, OptSlot]
  have hopen : ¬ Stmts.Closed (.cons (.break_ (some 19)) .nil) [] := by
    simp [Stmts.Closed, Stmt.Closed, ExitClosed]
  refine ⟨(generateCode_isSome (forkLoop_legal hnil)).mpr ((forkLoop_closed .nil).mpr trivial), ?_⟩
  exact Option.not_isSome_iff_eq_none.mp fun h =>
    hopen ((forkLoop_closed _).mp ((generateCode_isSome (forkLoop_legal hbreak)).mp h))

end CodeGen
end NuMoo
