import NuMoo.Base

/-!
# Abstract syntax

The trees of `ast.h`. A chain of nodes that are linked by `next` is a type of its
own, whose `nil` is the null pointer. A variable is the slot of its name.
-/

namespace NuMoo

/-- `enum Arg_Kind` -/
inductive ArgKind where
  | normal | splice
deriving DecidableEq, Repr

/-- `enum Scatter_Kind` -/
inductive ScatterKind where
  | required | optional | rest
deriving DecidableEq, Repr

/-- The kinds of expressions that evaluate two operands and then one operator. -/
inductive BinaryKind where
  | plus | minus | times | divide | mod | exp | eq | ne | lt | le | gt | ge | in_
deriving DecidableEq, Repr

/-- `EXPR_AND` and `EXPR_OR` -/
inductive LogicalKind where
  | and | or
deriving DecidableEq, Repr

/-- `EXPR_NEGATE` and `EXPR_NOT` -/
inductive UnaryKind where
  | negate | not
deriving DecidableEq, Repr

mutual

/-- `Expr`. The codes of a catch expression are `nil` for `ANY`. -/
inductive Expr where
  | var (v : Var)
  | id (slot : Nat)
  | prop (lhs rhs : Expr)
  | verb (obj verb : Expr) (args : ArgList)
  | index (lhs rhs : Expr)
  | range (base from_ to_ : Expr)
  | asgn (lhs rhs : Expr)
  | call (func : Nat) (args : ArgList)
  | binary (kind : BinaryKind) (lhs rhs : Expr)
  | unary (kind : UnaryKind) (expr : Expr)
  | logical (kind : LogicalKind) (lhs rhs : Expr)
  | list (args : ArgList)
  | cond (condition consequent alternate : Expr)
  | catch_ (tryexp : Expr) (codes : ArgList) (except : OptExpr)
  | length
  | scatter (targets : Scatter)

/-- An expression or the null pointer. -/
inductive OptExpr where
  | none
  | some (expr : Expr)

/-- `Arg_List` -/
inductive ArgList where
  | nil
  | cons (kind : ArgKind) (expr : Expr) (next : ArgList)

/-- `Scatter` -/
inductive Scatter where
  | nil
  | cons (kind : ScatterKind) (id : Nat) (expr : OptExpr) (next : Scatter)

end

mutual

/-- `Stmt` without `next`. An identifier that is -1 in the source is absent. -/
inductive Stmt where
  | cond (arms : CondArms) (otherwise : Stmts)
  | list (id : Nat) (expr : Expr) (body : Stmts)
  | range (id : Nat) (from_ to_ : Expr) (body : Stmts)
  | while_ (id : Option Nat) (condition : Expr) (body : Stmts)
  | fork (id : Option Nat) (time : Expr) (body : Stmts)
  | expr (expr : Expr)
  | return_ (expr : OptExpr)
  | tryExcept (body : Stmts) (excepts : ExceptArms)
  | tryFinally (body handler : Stmts)
  | break_ (exit : Option Nat)
  | continue_ (exit : Option Nat)

/-- `Stmt` with its chain. -/
inductive Stmts where
  | nil
  | cons (stmt : Stmt) (next : Stmts)

/-- `Cond_Arm` -/
inductive CondArms where
  | nil
  | cons (condition : Expr) (stmt : Stmts) (next : CondArms)

/-- `Except_Arm`. The codes are `nil` for `ANY`. -/
inductive ExceptArms where
  | nil
  | cons (id : Option Nat) (codes : ArgList) (stmt : Stmts) (next : ExceptArms)

end

/-- The number of arms. -/
def ExceptArms.length : ExceptArms → Nat
  | nil => 0
  | cons _ _ _ next => next.length + 1

/-- The number of targets. -/
def Scatter.length : Scatter → Nat
  | nil => 0
  | cons _ _ _ next => next.length + 1

end NuMoo
