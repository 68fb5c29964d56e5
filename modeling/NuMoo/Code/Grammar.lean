import Mathlib.Data.List.Chain
import NuMoo.Code.Lex
import NuMoo.Code.Scatter

/-!
# The grammar of expressions

The productions of `parser.y` for expressions, each with what its action builds. `yyparse` is
generated from them; of the derivations that they allow it takes one, by the precedence of the
operators. An action that reports an error yields nothing.

Results:
1. `Read.unique`: literals can be read in one way, by looking at one token at a time.
2. `Derives.read`: where there are only tokens of literals, and no operator, a derivation reads a
   literal.
-/

namespace NuMoo
namespace Grammar

open NuMoo.Lex

/-! ## The actions -/

/-- What the actions ask for: `find_id`, `number_func_by_name`, and the number of
`call_function`. -/
structure ParserEnv where
  find_id : Str → Nat
  number_func_by_name : Str → Option Nat
  call_function : Nat

/-- An argument behind the last one. -/
def addArg : ArgList → ArgList → ArgList
  | .nil, last => last
  | .cons kind expr next, last => .cons kind expr (addArg next last)

/-- `add_scatter_item` -/
def add_scatter_item : Scatter → Scatter → Scatter
  | .nil, last => last
  | .cons kind id expr next, last => .cons kind id expr (add_scatter_item next last)

/-- `scatter_from_arglist` -/
def scatter_from_arglist : ArgList → Option Scatter
  | .nil => some .nil
  | .cons kind (.id slot) next =>
    (scatter_from_arglist next).map (.cons (if kind = .normal then .required else .rest) slot .none)
  | _ => none

/-- The loop down to the base of an indexed expression. -/
def unindexed : Expr → Expr
  | .index lhs _ => unindexed lhs
  | e => e

/-- Whether something can be assigned to an expression that is no list. -/
def assignable (e : Expr) : Bool :=
  match unindexed (match e with | .range base _ _ => base | e => e) with
  | .id _ | .prop _ _ => true
  | _ => false

/-- The left side of an assignment. -/
def assignTarget : Expr → Option Expr
  | .list .nil => none
  | .list args => (scatter_from_arglist args).bind fun sc =>
    if CodeGen.vetScatter sc then some (.scatter sc) else none
  | e => if assignable e then some e else none

/-- A sign in front of a number is part of it. -/
def negate : Expr → Expr
  | .var (.int num) => .var (.int (num64 (-num)))
  | .var (.float bits) => .var (.float (bits ^^^ 0x8000000000000000))
  | e => .unary .negate e

/-- The call of a built-in function, or of `call_function` with its name. -/
def callExpr (env : ParserEnv) (name : Str) (args : ArgList) : Expr :=
  match env.number_func_by_name name with
  | some f_no => .call f_no args
  | none => .call env.call_function (.cons .normal (.var (.str name)) args)

/-- The operators that evaluate two operands. -/
def binaryKind : Token → Option BinaryKind
  | .tEQ => some .eq
  | .tNE => some .ne
  | .tLE => some .le
  | .tGE => some .ge
  | .tIN => some .in_
  | .char c =>
    if c = 0x2b then some .plus
    else if c = 0x2d then some .minus
    else if c = 0x2a then some .times
    else if c = 0x2f then some .divide
    else if c = 0x25 then some .mod
    else if c = 0x5e then some .exp
    else if c = 0x3c then some .lt
    else if c = 0x3e then some .gt
    else none
  | _ => none

def logicalKind : Token → Option LogicalKind
  | .tAND => some .and
  | .tOR => some .or
  | _ => none

/-- The tokens that are literals. -/
def constant : Token → Option Var
  | .tINTEGER integer => some (.int integer)
  | .tFLOAT real => some (.float real)
  | .tSTRING string => some (.str string)
  | .tOBJECT object => some (.obj object)
  | .tERROR error => some (.err error)
  | _ => none

/-! ## The productions -/

/-- A phrase of the grammar with its value. -/
inductive Phrase where
  | expr (e : Expr)
  | arglist (args : ArgList)
  | neArglist (args : ArgList)
  | codes (args : ArgList)
  | default (e : OptExpr)
  | scatter (sc : Scatter)
  | scatterItem (sc : Scatter)

/-- The derivations of a phrase from tokens, where `$` has a meaning if `dollars_ok` is not zero. -/
inductive Derives (env : ParserEnv) : (dollars_ok : Nat) → List Token → Phrase → Prop
  | constant {d : Nat} {t : Token} {v : Var} : Grammar.constant t = some v →
      Derives env d [t] (.expr (.var v))
  | id (d : Nat) (name : Str) : Derives env d [.tID name] (.expr (.id (env.find_id name)))
  | dollarProp (d : Nat) (name : Str) :
    Derives env d [.char 0x24, .tID name] (.expr (.prop (.var (.obj 0)) (.var (.str name))))
  | prop {d : Nat} {l : List Token} {e : Expr} (name : Str) : Derives env d l (.expr e) →
    Derives env d (l ++ [.char 0x2e, .tID name]) (.expr (.prop e (.var (.str name))))
  | propExpr {d : Nat} {l m : List Token} {e f : Expr} : Derives env d l (.expr e) →
      Derives env d m (.expr f) →
    Derives env d (l ++ .char 0x2e :: .char 0x28 :: (m ++ [.char 0x29])) (.expr (.prop e f))
  | verb {d : Nat} {l m : List Token} {e : Expr} {args : ArgList} (name : Str) :
      Derives env d l (.expr e) →
    Derives env d m (.arglist args) →
    Derives env d (l ++ .char 0x3a :: .tID name :: .char 0x28 :: (m ++ [.char 0x29]))
      (.expr (.verb e (.var (.str name)) args))
  | dollarVerb {d : Nat} {m : List Token} {args : ArgList} (name : Str) :
      Derives env d m (.arglist args) →
    Derives env d (.char 0x24 :: .tID name :: .char 0x28 :: (m ++ [.char 0x29]))
      (.expr (.verb (.var (.obj 0)) (.var (.str name)) args))
  | verbExpr {d : Nat} {l k m : List Token} {e f : Expr} {args : ArgList} :
      Derives env d l (.expr e) → Derives env d k (.expr f) →
    Derives env d m (.arglist args) →
    Derives env d (l ++ .char 0x3a :: .char 0x28 ::
      (k ++ .char 0x29 :: .char 0x28 :: (m ++ [.char 0x29]))) (.expr (.verb e f args))
  | index {d : Nat} {l m : List Token} {e f : Expr} : Derives env d l (.expr e) →
      Derives env (d + 1) m (.expr f) →
    Derives env d (l ++ .char 0x5b :: (m ++ [.char 0x5d])) (.expr (.index e f))
  | range {d : Nat} {l m k : List Token} {e f g : Expr} : Derives env d l (.expr e) →
      Derives env (d + 1) m (.expr f) →
    Derives env (d + 1) k (.expr g) →
    Derives env d (l ++ .char 0x5b :: (m ++ .tTO :: (k ++ [.char 0x5d]))) (.expr (.range e f g))
  | length {d : Nat} : 0 < d → Derives env d [.char 0x24] (.expr .length)
  | assign {d : Nat} {l m : List Token} {e lhs f : Expr} : Derives env d l (.expr e) →
      assignTarget e = some lhs →
    Derives env d m (.expr f) → Derives env d (l ++ .char 0x3d :: m) (.expr (.asgn lhs f))
  | scatterAssign {d : Nat} {l m : List Token} {sc : Scatter} {f : Expr} :
      Derives env d l (.scatter sc) →
    CodeGen.vetScatter sc = true → Derives env d m (.expr f) →
    Derives env d (.char 0x7b :: (l ++ .char 0x7d :: .char 0x3d :: m))
      (.expr (.asgn (.scatter sc) f))
  | call {d : Nat} {m : List Token} {args : ArgList} (name : Str) :
      Derives env d m (.arglist args) →
    Derives env d (.tID name :: .char 0x28 :: (m ++ [.char 0x29])) (.expr (callExpr env name args))
  | binary {d : Nat} {l m : List Token} {t : Token} {kind : BinaryKind} {e f : Expr} :
      Derives env d l (.expr e) →
    binaryKind t = some kind → Derives env d m (.expr f) →
    Derives env d (l ++ t :: m) (.expr (.binary kind e f))
  | logical {d : Nat} {l m : List Token} {t : Token} {kind : LogicalKind} {e f : Expr} :
      Derives env d l (.expr e) →
    logicalKind t = some kind → Derives env d m (.expr f) →
    Derives env d (l ++ t :: m) (.expr (.logical kind e f))
  | negate {d : Nat} {l : List Token} {e : Expr} : Derives env d l (.expr e) →
    Derives env d (.char 0x2d :: l) (.expr (Grammar.negate e))
  | not {d : Nat} {l : List Token} {e : Expr} : Derives env d l (.expr e) →
      Derives env d (.char 0x21 :: l) (.expr (.unary .not e))
  | paren {d : Nat} {l : List Token} {e : Expr} : Derives env d l (.expr e) →
    Derives env d (.char 0x28 :: (l ++ [.char 0x29])) (.expr e)
  | list {d : Nat} {l : List Token} {args : ArgList} : Derives env d l (.arglist args) →
    Derives env d (.char 0x7b :: (l ++ [.char 0x7d])) (.expr (.list args))
  | cond {d : Nat} {l m k : List Token} {e f g : Expr} : Derives env d l (.expr e) →
      Derives env d m (.expr f) →
    Derives env d k (.expr g) → Derives env d (l ++ .char 0x3f :: (m ++ .char 0x7c :: k))
      (.expr (.cond e f g))
  | catch_ {d : Nat} {l m k : List Token} {e : Expr} {codes : ArgList} {except : OptExpr} :
      Derives env d l (.expr e) →
    Derives env d m (.codes codes) → Derives env d k (.default except) →
    Derives env d (.char 0x60 :: (l ++ .char 0x21 :: (m ++ (k ++ [.char 0x27]))))
      (.expr (.catch_ e codes except))
  | anyCode (d : Nat) : Derives env d [.tANY] (.codes .nil)
  | codes {d : Nat} {l : List Token} {args : ArgList} : Derives env d l (.neArglist args) →
      Derives env d l (.codes args)
  | noDefault (d : Nat) : Derives env d [] (.default .none)
  | default {d : Nat} {l : List Token} {e : Expr} : Derives env d l (.expr e) →
      Derives env d (.tARROW :: l) (.default (.some e))
  | noArgs (d : Nat) : Derives env d [] (.arglist .nil)
  | args {d : Nat} {l : List Token} {args : ArgList} : Derives env d l (.neArglist args) →
      Derives env d l (.arglist args)
  | arg {d : Nat} {l : List Token} {e : Expr} : Derives env d l (.expr e) →
      Derives env d l (.neArglist (.cons .normal e .nil))
  | splice {d : Nat} {l : List Token} {e : Expr} : Derives env d l (.expr e) →
    Derives env d (.char 0x40 :: l) (.neArglist (.cons .splice e .nil))
  | nextArg {d : Nat} {l m : List Token} {args : ArgList} {e : Expr} :
      Derives env d l (.neArglist args) → Derives env d m (.expr e) →
    Derives env d (l ++ .char 0x2c :: m) (.neArglist (addArg args (.cons .normal e .nil)))
  | nextSplice {d : Nat} {l m : List Token} {args : ArgList} {e : Expr} :
      Derives env d l (.neArglist args) →
    Derives env d m (.expr e) → Derives env d (l ++ .char 0x2c :: .char 0x40 :: m)
      (.neArglist (addArg args (.cons .splice e .nil)))
  | argsItem {d : Nat} {l m : List Token} {args : ArgList} {sc item : Scatter} :
      Derives env d l (.neArglist args) →
    scatter_from_arglist args = some sc → Derives env d m (.scatterItem item) →
    Derives env d (l ++ .char 0x2c :: m) (.scatter (add_scatter_item sc item))
  | nextItem {d : Nat} {l m : List Token} {sc item : Scatter} : Derives env d l (.scatter sc) →
      Derives env d m (.scatterItem item) →
    Derives env d (l ++ .char 0x2c :: m) (.scatter (add_scatter_item sc item))
  | nextTarget {d : Nat} {l : List Token} {sc : Scatter} (name : Str) :
      Derives env d l (.scatter sc) →
    Derives env d (l ++ [.char 0x2c, .tID name])
      (.scatter (add_scatter_item sc (.cons .required (env.find_id name) .none .nil)))
  | nextRest {d : Nat} {l : List Token} {sc : Scatter} (name : Str) :
      Derives env d l (.scatter sc) →
    Derives env d (l ++ [.char 0x2c, .char 0x40, .tID name])
      (.scatter (add_scatter_item sc (.cons .rest (env.find_id name) .none .nil)))
  | item {d : Nat} {l : List Token} {item : Scatter} : Derives env d l (.scatterItem item) →
      Derives env d l (.scatter item)
  | optional (d : Nat) (name : Str) :
    Derives env d [.char 0x3f, .tID name]
      (.scatterItem (.cons .optional (env.find_id name) .none .nil))
  | optionalDefault {d : Nat} {l : List Token} {e : Expr} (name : Str) : Derives env d l (.expr e) →
    Derives env d (.char 0x3f :: .tID name :: .char 0x3d :: l)
      (.scatterItem (.cons .optional (env.find_id name) (.some e) .nil))

/-! ## Reading literals -/

/-- What is read of a literal: an expression, or what follows the first element of a list up to its
brace. -/
inductive Item where
  | expr (e : Expr)
  | tail (args : ArgList)

/-- Literals read from the left, one token at a time. -/
inductive Read : List Token → Item → List Token → Prop
  | constant {t : Token} {v : Var} (l : List Token) : Grammar.constant t = some v →
      Read (t :: l) (.expr (.var v)) l
  | negate {l r : List Token} {e : Expr} : Read l (.expr e) r →
      Read (.char 0x2d :: l) (.expr (Grammar.negate e)) r
  | empty (r : List Token) : Read (.char 0x7b :: .char 0x7d :: r) (.expr (.list .nil)) r
  | list {l m r : List Token} {e : Expr} {args : ArgList} : Read l (.expr e) m →
      Read m (.tail args) r →
    Read (.char 0x7b :: l) (.expr (.list (.cons .normal e args))) r
  | close (r : List Token) : Read (.char 0x7d :: r) (.tail .nil) r
  | more {l m r : List Token} {e : Expr} {args : ArgList} : Read l (.expr e) m →
      Read m (.tail args) r →
    Read (.char 0x2c :: l) (.tail (.cons .normal e args)) r

/-- The same kind of item. -/
def Item.Alike : Item → Item → Prop
  | .expr _, .expr _ => True
  | .tail _, .tail _ => True
  | _, _ => False

/-- What is read is found in one way. -/
theorem Read.unique {l r r' : List Token} {x x' : Item} (h : Read l x r) (h' : Read l x' r')
    (ha : x.Alike x') : x = x' ∧ r = r' := by
  induction h generalizing x' r' with
  | constant l hv =>
    cases h' with
    | constant _ hv' => exact ⟨by rw [Option.some.inj (hv.symm.trans hv')], rfl⟩
    | negate | empty | list => cases hv
    | close | more => cases ha
  | negate _ ih =>
    cases h' with
    | constant _ hv => cases hv
    | negate he' =>
      obtain ⟨he, rfl⟩ := ih he' trivial
      exact ⟨by rw [Item.expr.inj he], rfl⟩
  | empty r =>
    cases h' with
    | constant _ hv => cases hv
    | empty => exact ⟨rfl, rfl⟩
    | list he =>
      cases he with
      | constant _ hv => cases hv
  | list he hargs ihe ihargs =>
    cases h' with
    | constant _ hv => cases hv
    | empty =>
      cases he with
      | constant _ hv => cases hv
    | list he' hargs' =>
      obtain ⟨he, rfl⟩ := ihe he' trivial
      obtain ⟨hargs, rfl⟩ := ihargs hargs' trivial
      exact ⟨by rw [Item.expr.inj he, Item.tail.inj hargs], rfl⟩
  | close r =>
    cases h' with
    | constant => cases ha
    | close => exact ⟨rfl, rfl⟩
  | more he hargs ihe ihargs =>
    cases h' with
    | constant => cases ha
    | more he' hargs' =>
      obtain ⟨he, rfl⟩ := ihe he' trivial
      obtain ⟨hargs, rfl⟩ := ihargs hargs' trivial
      exact ⟨by rw [Item.expr.inj he, Item.tail.inj hargs], rfl⟩

/-- The tokens of literals. -/
def Literal (t : Token) : Prop :=
  (constant t).isSome = true ∨ t = .char 0x2d ∨ t = .char 0x2c ∨ t = .char 0x7b ∨ t = .char 0x7d

/-- The tokens that end a literal. -/
def Closing (t : Token) : Prop := (constant t).isSome = true ∨ t = .char 0x7d

/-- No minus sign stands behind a literal. -/
def NoOperator (l : List Token) : Prop := l.IsChain fun t u => u = .char 0x2d → ¬ Closing t

instance (t : Token) : Decidable (Literal t) := inferInstanceAs (Decidable (_ ∨ _))

/-- The elements of a list that are read from some tokens, if others follow. -/
def ReadsArgs (l : List Token) (args : ArgList) : Prop :=
  ∃ e more, args = .cons .normal e more ∧
    ∀ rest args' r, Read rest (.tail args') r → ∃ m, Read (l ++ rest) (.expr e) m ∧
    Read m (.tail (addArg more args')) r

/-- What a derivation comes to where there are only tokens of literals, and no operator. -/
def Reading (l : List Token) : Phrase → Prop
  | .expr e => (∃ m t, l = m ++ [t] ∧ Closing t) ∧ ∀ rest, Read (l ++ rest) (.expr e) rest
  | .neArglist args => ReadsArgs l args
  | .arglist args => (l = [] ∧ args = .nil) ∨ ReadsArgs l args
  | _ => True

variable {env : ParserEnv} {d : Nat} {l : List Token} {x : Phrase}

theorem NoOperator.part {m : List Token} (h : NoOperator l) (hm : m <:+: l) : NoOperator m :=
  List.IsChain.infix h hm

theorem addArg_addArg : ∀ a b c : ArgList, addArg (addArg a b) c = addArg a (addArg b c)
  | .nil, _, _ => rfl
  | .cons kind expr next, b, c => congrArg (ArgList.cons kind expr) (addArg_addArg next b c)

theorem addArg_nil : ∀ a : ArgList, addArg a .nil = a
  | .nil => rfl
  | .cons kind expr next => congrArg (ArgList.cons kind expr) (addArg_nil next)

theorem ReadsArgs.next {m : List Token} {args : ArgList} {e : Expr} (h : ReadsArgs l args)
    (he : ∀ rest, Read (m ++ rest) (.expr e) rest) :
    ReadsArgs (l ++ .char 0x2c :: m) (addArg args (.cons .normal e .nil)) := by
  obtain ⟨first, more, rfl, hread⟩ := h
  refine ⟨first, addArg more (.cons .normal e .nil), rfl, fun rest args' r htail => ?_⟩
  rw [addArg_addArg, List.append_assoc, List.cons_append]
  exact hread _ _ r (.more (he rest) htail)

/-- Where there are only tokens of literals, and no operator, a derivation reads a literal. -/
theorem Derives.read (h : Derives env d l x) (hl : ∀ t ∈ l, Literal t) (hop : NoOperator l) :
    Reading l x := by
  induction h with
  | constant hv => exact ⟨⟨[], _, rfl, .inl (by rw [hv]; rfl)⟩, fun rest => .constant rest hv⟩
  | negate he ih =>
    obtain ⟨⟨m, t, rfl, ht⟩, hread⟩ :=
      ih (fun t ht => hl t (List.mem_cons_of_mem _ ht)) (hop.part (List.suffix_cons _ _).isInfix)
    exact ⟨⟨_ :: m, t, rfl, ht⟩, fun rest => .negate (hread rest)⟩
  | list hargs ih =>
    have hargs :=
      ih (fun t ht => hl t (by simp [ht])) (hop.part ⟨[.char 0x7b], [.char 0x7d], by simp⟩)
    refine ⟨⟨_ :: _, .char 0x7d, rfl, .inr rfl⟩, fun rest => ?_⟩
    rw [List.cons_append, List.append_assoc, List.singleton_append]
    rcases hargs with ⟨rfl, rfl⟩ | ⟨e, more, rfl, hread⟩
    · exact .empty rest
    · obtain ⟨m, he, hmore⟩ := hread _ .nil rest (.close rest)
      rw [addArg_nil] at hmore
      exact .list he hmore
  | noArgs => exact .inl ⟨rfl, rfl⟩
  | args hargs ih => exact .inr (ih hl hop)
  | arg he ih =>
    obtain ⟨-, hread⟩ := ih hl hop
    exact ⟨_, .nil, rfl, fun rest args' r htail => ⟨rest, hread rest, htail⟩⟩
  | nextArg hargs he ihargs ihe =>
    have hargs := ihargs (fun t ht => hl t (List.mem_append_left _ ht))
      (hop.part (List.prefix_append _ _).isInfix)
    have he := ihe (fun t ht => hl t (by simp [ht]))
      (hop.part ((List.suffix_cons _ _).trans (List.suffix_append _ _)).isInfix)
    exact ReadsArgs.next hargs he.2
  | @binary _ l m t kind _ _ he hk hf ihe =>
    obtain ⟨⟨k, u, rfl, hu⟩, -⟩ := ihe (fun t ht => hl t (List.mem_append_left _ ht))
      (hop.part (List.prefix_append _ _).isInfix)
    have ht : Literal t := hl t (by simp)
    have hminus : t = .char 0x2d := by
      rcases ht with ht | rfl | rfl | rfl | rfl
      · cases t <;> simp [Grammar.constant, binaryKind] at ht hk
      · rfl
      · cases hk
      · cases hk
      · cases hk
    rw [List.append_assoc, List.singleton_append] at hop
    exact absurd hu ((List.isChain_cons_cons.mp (List.IsChain.right_of_append hop)).1 hminus)
  | @logical _ l m t kind _ _ he hk =>
    have ht : Literal t := hl t (by simp)
    rcases ht with ht | rfl | rfl | rfl | rfl
    · cases t <;> simp [Grammar.constant, logicalKind] at ht hk
    · cases hk
    · cases hk
    · cases hk
    · cases hk
  | codes | noDefault | default | argsItem | nextItem | nextTarget | nextRest | item | optional
  | optionalDefault | anyCode => trivial
  -- every other production has a token that is in no literal
  | id | call => exact absurd (hl _ List.mem_cons_self) (by simp [Literal, Grammar.constant])
  | prop | propExpr => exact absurd (hl (.char 0x2e) (by simp)) (by decide)
  | verb | verbExpr => exact absurd (hl (.char 0x3a) (by simp)) (by decide)
  | dollarProp | dollarVerb | length => exact absurd (hl (.char 0x24) (by simp)) (by decide)
  | index | range => exact absurd (hl (.char 0x5b) (by simp)) (by decide)
  | assign | scatterAssign => exact absurd (hl (.char 0x3d) (by simp)) (by decide)
  | not | catch_ => exact absurd (hl (.char 0x21) (by simp)) (by decide)
  | paren => exact absurd (hl (.char 0x28) (by simp)) (by decide)
  | cond => exact absurd (hl (.char 0x3f) (by simp)) (by decide)
  | splice | nextSplice => exact absurd (hl (.char 0x40) (by simp)) (by decide)

end Grammar
end NuMoo
