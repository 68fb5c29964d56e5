import NuMoo.Code.Closed
import NuMoo.Code.Grammar

/-!
# What the parser accepts

An expression that the productions of `parser.y` build is one that `generate_expr` has code for: its
left sides can be assigned to, and every `$` is the length of something.

Results:
1. `Derives.sound`: what is derived is legal, and closed where `dollars_ok` says so.
2. `derives_has_code`: an expression that is derived has code that leaves one value.
-/

namespace NuMoo
namespace Grammar

/-- Whether `$` has a meaning. -/
def dollarOk : Nat → Bool
  | 0 => false
  | _ + 1 => true

/-- A variable may have any slot. -/
abbrev AnySlot (_ : Nat) : Prop := True

/-- The value of a phrase can be compiled. -/
def Phrase.Sound (dollar : Bool) : Phrase → Prop
  | .expr e => e.Legal AnySlot ∧ e.Closed dollar
  | .arglist args | .neArglist args | .codes args => args.Legal AnySlot ∧ args.Closed dollar
  | .default e => e.Legal AnySlot ∧ e.Closed dollar
  | .scatter sc | .scatterItem sc => sc.Legal AnySlot ∧ sc.Closed dollar

section Actions

variable {dollar : Bool}

theorem addArg_sound {args last : ArgList} (ha : args.Legal AnySlot ∧ args.Closed dollar)
    (hl : last.Legal AnySlot ∧ last.Closed dollar) :
    (addArg args last).Legal AnySlot ∧ (addArg args last).Closed dollar := by
  cases args with
  | nil => exact hl
  | cons kind expr next =>
    obtain ⟨hlegal, hclosed⟩ := addArg_sound ⟨ha.1.2, ha.2.2⟩ hl
    exact ⟨⟨ha.1.1, hlegal⟩, ha.2.1, hclosed⟩

theorem add_scatter_item_sound {sc item : Scatter} (hs : sc.Legal AnySlot ∧ sc.Closed dollar)
    (hi : item.Legal AnySlot ∧ item.Closed dollar) :
    (add_scatter_item sc item).Legal AnySlot ∧ (add_scatter_item sc item).Closed dollar := by
  cases sc with
  | nil => exact hi
  | cons kind id expr next =>
    cases kind with
    | required | rest =>
      obtain ⟨hlegal, hclosed⟩ := add_scatter_item_sound ⟨hs.1.2.2, hs.2⟩ hi
      exact ⟨⟨trivial, hs.1.2.1, hlegal⟩, hclosed⟩
    | optional =>
      obtain ⟨hlegal, hclosed⟩ := add_scatter_item_sound ⟨hs.1.2.2, hs.2.2⟩ hi
      exact ⟨⟨trivial, hs.1.2.1, hlegal⟩, hs.2.1, hclosed⟩

/-- The targets that are read from a list have no defaults. -/
theorem scatter_from_arglist_sound (dollar : Bool) {args : ArgList} {sc : Scatter}
    (h : scatter_from_arglist args = some sc) :
    sc.Legal AnySlot ∧ sc.Closed dollar := by
  cases args with
  | nil =>
    cases h
    exact ⟨trivial, trivial⟩
  | cons kind expr next =>
    cases expr with
    | id slot =>
      rw [scatter_from_arglist] at h
      obtain ⟨rest, hrest, rfl⟩ := Option.map_eq_some_iff.mp h
      obtain ⟨hlegal, hclosed⟩ := scatter_from_arglist_sound dollar hrest
      refine ⟨⟨trivial, trivial, hlegal⟩, ?_⟩
      cases kind with
      | normal => exact hclosed
      | splice => exact hclosed
    | _ => cases h

/-- Under the indices of what can be assigned to is a variable or a property. -/
theorem isBase_of_unindexed {e : Expr} (h : (unindexed e).IsBase) : e.IsBase := by
  cases e with
  | index lhs rhs => exact isBase_of_unindexed (e := lhs) h
  | _ => exact h

theorem isBase_of_match {e : Expr}
    (h : (match unindexed e with | .id _ | .prop _ _ => true | _ => false) = true) : e.IsBase := by
  refine isBase_of_unindexed ?_
  cases hu : unindexed e with
  | id | prop => trivial
  | _ =>
    rw [hu] at h
    cases h

theorem isTarget_of_assignable {e : Expr} (h : assignable e = true) : e.IsTarget := by
  cases e with
  | range base from_ to_ => exact isBase_of_match (e := base) h
  | index lhs rhs => exact isBase_of_match (e := .index lhs rhs) h
  | id | prop => trivial
  | _ => cases h

/-- An assignment to what the parser has vetted. -/
theorem assign_sound {e lhs f : Expr} (h : assignTarget e = some lhs)
    (he : e.Legal AnySlot ∧ e.Closed dollar)
    (hf : f.Legal AnySlot ∧ f.Closed dollar) :
    (Expr.asgn lhs f).Legal AnySlot ∧ (Expr.asgn lhs f).Closed dollar := by
  unfold assignTarget at h
  split at h
  · cases h
  · obtain ⟨sc, hsc, h⟩ := Option.bind_eq_some_iff.mp h
    split at h
    · cases h
      obtain ⟨hlegal, hclosed⟩ := scatter_from_arglist_sound dollar hsc
      exact ⟨⟨hlegal, hf.1⟩, hclosed, hf.2⟩
    · cases h
  · split at h
    · next hassign =>
      cases h
      have htarget := isTarget_of_assignable hassign
      refine ⟨?_, he.2, hf.2⟩
      cases e with
      | id | prop | index | range => exact ⟨htarget, he.1, hf.1⟩
      | _ => exact absurd htarget id
    · cases h

theorem negate_sound {e : Expr} (h : e.Legal AnySlot ∧ e.Closed dollar) :
    (Grammar.negate e).Legal AnySlot ∧ (Grammar.negate e).Closed dollar := by
  unfold Grammar.negate
  split
  · exact ⟨trivial, trivial⟩
  · exact ⟨trivial, trivial⟩
  · exact h

theorem callExpr_sound {env : ParserEnv} {name : Str} {args : ArgList}
    (h : args.Legal AnySlot ∧ args.Closed dollar) :
    (callExpr env name args).Legal AnySlot ∧ (callExpr env name args).Closed dollar := by
  unfold callExpr
  split
  · exact h
  · exact ⟨⟨trivial, h.1⟩, trivial, h.2⟩

end Actions

variable {env : ParserEnv} {d : Nat} {l : List Lex.Token} {x : Phrase}

/-- What is derived can be compiled, by induction on the derivation. -/
theorem Derives.sound (h : Derives env d l x) : x.Sound (dollarOk d) := by
  induction h with
  | constant | id => exact ⟨trivial, trivial⟩
  | dollarProp => exact ⟨⟨trivial, trivial⟩, trivial, trivial⟩
  | prop _ _ ih => exact ⟨⟨ih.1, trivial⟩, ih.2, trivial⟩
  | propExpr _ _ ihe ihf => exact ⟨⟨ihe.1, ihf.1⟩, ihe.2, ihf.2⟩
  | verb _ _ _ ihe ihargs => exact ⟨⟨ihe.1, trivial, ihargs.1⟩, ihe.2, trivial, ihargs.2⟩
  | dollarVerb _ _ ih => exact ⟨⟨trivial, trivial, ih.1⟩, trivial, trivial, ih.2⟩
  | verbExpr _ _ _ ihe ihf ihargs => exact ⟨⟨ihe.1, ihf.1, ihargs.1⟩, ihe.2, ihf.2, ihargs.2⟩
  | index _ _ ihe ihf => exact ⟨⟨ihe.1, ihf.1⟩, ihe.2, ihf.2⟩
  | range _ _ _ ihe ihf ihg => exact ⟨⟨ihe.1, ihf.1, ihg.1⟩, ihe.2, ihf.2, ihg.2⟩
  | @length d hd =>
    cases d with
    | zero => cases hd
    | succ d => exact ⟨trivial, rfl⟩
  | assign _ htarget _ ihe ihf => exact assign_sound htarget ihe ihf
  | scatterAssign _ _ _ ihsc ihf => exact ⟨⟨ihsc.1, ihf.1⟩, ihsc.2, ihf.2⟩
  | call _ _ ih => exact callExpr_sound ih
  | binary _ _ _ ihe ihf | logical _ _ _ ihe ihf => exact ⟨⟨ihe.1, ihf.1⟩, ihe.2, ihf.2⟩
  | negate _ ih => exact negate_sound ih
  | not _ ih | paren _ ih | list _ ih | codes _ ih | default _ ih | args _ ih
  | item _ ih => exact ih
  | cond _ _ _ ihe ihf ihg => exact ⟨⟨ihe.1, ihf.1, ihg.1⟩, ihe.2, ihf.2, ihg.2⟩
  | catch_ _ _ _ ihe ihcodes ihexcept =>
    exact ⟨⟨ihe.1, ihcodes.1, ihexcept.1⟩, ihcodes.2, ihe.2, ihexcept.2⟩
  | anyCode | noDefault | noArgs => exact ⟨trivial, trivial⟩
  | arg _ ih | splice _ ih => exact ⟨⟨ih.1, trivial⟩, ih.2, trivial⟩
  | nextArg _ _ ihargs ihe | nextSplice _ _ ihargs ihe =>
    exact addArg_sound ihargs ⟨⟨ihe.1, trivial⟩, ihe.2, trivial⟩
  | argsItem _ hsc _ _ ihitem =>
    exact add_scatter_item_sound (scatter_from_arglist_sound _ hsc) ihitem
  | nextItem _ _ ihsc ihitem => exact add_scatter_item_sound ihsc ihitem
  | nextTarget _ _ ih | nextRest _ _ ih =>
    exact add_scatter_item_sound ih ⟨⟨trivial, trivial, trivial⟩, trivial⟩
  | optional => exact ⟨⟨trivial, trivial, trivial⟩, trivial, trivial⟩
  | optionalDefault _ _ ih => exact ⟨⟨trivial, ih.1, trivial⟩, ih.2, trivial⟩

/-- An expression that is derived has code that leaves one value, where `$` has a meaning for the
generator if it has one for the parser. -/
theorem derives_has_code {e : Expr} {st : CodeGen.State} (h : Derives env d l (.expr e))
    (hs : st.savedStack.isSome = dollarOk d) :
    ∃ st', CodeGen.generateExpr e st = some st' ∧ st'.curStack = st.curStack + 1 ∧
      st'.savedStack = st.savedStack := by
  obtain ⟨hlegal, hclosed⟩ : e.Legal AnySlot ∧ e.Closed (dollarOk d) := h.sound
  have hheight : CodeGen.Height AnySlot st st.savedStack st.curStack := ⟨rfl, rfl, trivial⟩
  obtain ⟨st', hst⟩ :=
    Option.isSome_iff_exists.mp ((CodeGen.generateExpr_isSome hlegal hheight).mpr (hs ▸ hclosed))
  have hafter := CodeGen.generateExpr_height hst hlegal hheight
  exact ⟨st', hst, hafter.cur, hafter.saved⟩

/-- `x[$]` has code. -/
theorem last_has_code :
    ∃ st', CodeGen.generateExpr (.index (.id 0) .length) (CodeGen.initState initGState) = some st' ∧
    st'.curStack = 1 ∧ st'.savedStack = none := by
  have hindex : Derives ⟨fun _ => 0, fun _ => none, 0⟩ 0 _ (.expr (.index (.id 0) .length)) :=
    .index (.id 0 []) (.length (Nat.succ_pos 0))
  exact derives_has_code hindex rfl

end Grammar
end NuMoo
