import NuMoo.Code.Emit

/-!
# Expressions only add code

What `generate_expr` does to the state of the generator: it adds code and operands, and leaves
every older operand as it is. Labels that are still to be defined stay so until they are.

Results:
1. `generateExpr_grows`: by induction on the expression.
2. `generateDefaults_grows`: the defaults of a scatter define its labels and no others.
-/

namespace NuMoo
namespace CodeGen

/-- A label that is still to be defined, and that is linked to no other. -/
def Undone (st : State) (j : Nat) : Prop :=
  ∃ f, st.fixups[j]? = some f ∧ f.kind = .label ∧ f.done = false ∧ f.next = none

variable {b st st' : State} {i j : Nat}

theorem Undone.chain (h : Undone st j) : LabelChain st.fixups (some j) [j] := by
  obtain ⟨f, hf, hk, hd, hn⟩ := h
  refine .cons hf hk hd (fun i hi => absurd hi List.not_mem_nil) ?_
  rw [hn]
  exact .nil

theorem Undone.lt_length (h : Undone st j) : j < st.fixups.length :=
  h.chain.lt_length List.mem_cons_self

theorem Undone.grows (h : Undone st j) (hg : Grows st st') : Undone st' j := by
  obtain ⟨f, hf, hf'⟩ := h
  exact ⟨f, hg.keeps j f hf, hf'⟩

/-- A new label is undone. -/
theorem undone_addLabel (st : State) : Undone (addLabel st).2 (addLabel st).1 := by
  refine ⟨st.fixup .label 0 none false, ?_, rfl, rfl, rfl⟩
  rw [addLabel_eq, (addLinkedLabel_adds none st).fixups]
  exact List.getElem?_concat_length

/-- Another label is defined. -/
theorem Undone.defineLabel (h : Undone st j) (hi : Undone st i) (hne : j ≠ i) :
    Undone (defineLabel (some i) st) j := by
  obtain ⟨f, hf, hf'⟩ := h
  refine ⟨f, ?_, hf'⟩
  have hj : j ∉ [i] := fun h => hne (List.mem_singleton.mp h)
  rw [defineLabel_eq hi.chain, getElem?_resolveAll, if_neg hj]
  exact hf

theorem Grows.define (h : Grows b st) (hu : Undone st j) (hj : b.fixups.length ≤ j) :
    Grows b (CodeGen.defineLabel (some j) st) :=
  h.defineLabel hu.chain fun i hi => by rwa [List.mem_singleton.mp hi]

/-- A label that is added and defined with code in between. -/
theorem Grows.closeLabel (h : Grows b st) (hpos : 0 < st.numBytes)
    (h' : Grows (CodeGen.addLabel st).2 st') :
    Grows b (CodeGen.defineLabel (some (CodeGen.addLabel st).1) st') :=
  ((h.addLabel hpos).trans h').define ((undone_addLabel st).grows h') h.le.length_le

theorem Grows.emitPut (h : Grows b st) (slot : Nat) : Grows b (emitPut slot st) := h.emitVarOp _ _ _

theorem Grows.emitPush (h : Grows b st) (slot : Nat) : Grows b (emitPush slot st) :=
  h.emitVarOp _ _ _

theorem Grows.unTemp (h : Grows b st) (isIndexed : Bool) :
    Grows b (finishAssign.unTemp isIndexed st) := by
  cases isIndexed
  · exact h
  · exact (h.emitOp _).emitOp _

/-- The end of an assignment, by induction on its left side. -/
theorem finishAssign_grows {lhs : Expr} {isIndexed : Bool}
    (h : finishAssign lhs isIndexed st = some st') : Grows st st' := by
  induction lhs, isIndexed, st using finishAssign.induct with
  | case1 base from_ to_ isIndexed st ih =>
    rw [finishAssign] at h
    exact (((Grows.refl st).emitExtendedByte _).popStack 3).trans (ih h)
  | case2 lhs rhs isIndexed st ih =>
    rw [finishAssign] at h
    exact (((Grows.refl st).emitOp _).popStack 2).trans (ih h)
  | case3 slot isIndexed st =>
    rw [finishAssign] at h
    cases h
    exact ((Grows.refl st).emitPut slot).unTemp isIndexed
  | case4 lhs rhs isIndexed st =>
    rw [finishAssign] at h
    cases h
    exact (((Grows.refl st).emitOp _).popStack 2).unTemp isIndexed
  | case5 => simp [finishAssign] at h

/-! ## The steps of each construct -/

section Steps

variable (kind : LogicalKind)
    (lhs rhs base from_ to_ condition consequent alternate tryexp expr : Expr) (codes : ArgList)
  (except : OptExpr) (targets next : Scatter) (id : Nat) (above : Bool) (st : State)

attribute [local simp] generateExpr pushLvalue generateExcept generateArgs generateMoreArgs
  generateDefaults

theorem generateExpr_logical : generateExpr (.logical kind lhs rhs) st = do
    let s ← generateExpr lhs st
    let t ← generateExpr rhs (popStack 1 (addLabel (emitOp (logicalOp kind) s)).2)
    return defineLabel (some (addLabel (emitOp (logicalOp kind) s)).1) t := by
  rw [generateExpr]

theorem generateExpr_index : generateExpr (.index lhs rhs) st = do
    let s ← generateExpr lhs st
    let t ← generateExpr rhs (saveStackTop s).2
    return popStack 1 (emitOp .OP_REF (restoreStackTop s.savedStack t)) := by
  rw [generateExpr]
  rfl

theorem generateExpr_range : generateExpr (.range base from_ to_) st = do
    let s ← generateExpr base st
    let t ← generateExpr from_ (saveStackTop s).2
    let u ← generateExpr to_ t
    return popStack 2 (emitOp .OP_RANGE_REF (restoreStackTop s.savedStack u)) := by
  rw [generateExpr]
  rfl

theorem generateExpr_cond : generateExpr (.cond condition consequent alternate) st = do
    let s ← generateExpr condition st
    let t ← generateExpr consequent (popStack 1 (addLabel (emitOp .OP_IF_QUES s)).2)
    let u ← generateExpr alternate
      (defineLabel (some (addLabel (emitOp .OP_IF_QUES s)).1)
        (popStack 1 (addLabel (emitOp .OP_JUMP t)).2))
    return defineLabel (some (addLabel (emitOp .OP_JUMP t)).1) u := by
  rw [generateExpr]

/-- The state after the operands of `EOP_SCATTER` that are one byte. -/
def emitScatter (targets : Scatter) (st : State) : State :=
  emitByte (UInt8.ofNat ((countTargets targets 0 0 none).2.2.getD
    ((countTargets targets 0 0 none).1 + 1)))
    (emitByte (UInt8.ofNat (countTargets targets 0 0 none).2.1)
      (emitByte (UInt8.ofNat (countTargets targets 0 0 none).1) (emitExtendedByte .EOP_SCATTER st)))

theorem generateExpr_scatter : generateExpr (.asgn (.scatter targets) rhs) st = do
    let s ← generateExpr rhs st
    let t := addTargets targets (emitScatter targets s)
    let u ← generateDefaults targets t.1 (addLabel t.2).2
    return defineLabel (some (addLabel t.2).1) u := by
  rw [generateExpr]
  rfl

theorem generateExpr_catch : generateExpr (.catch_ tryexp codes except) st = do
    let s ← generateArgs (.OPTIM_NUM 0) codes st
    let handler := addLabel (emitExtendedByte .EOP_PUSH_LABEL s)
    let t ← generateExpr tryexp (pushStack 1 (emitExtendedByte .EOP_CATCH (pushStack 1 handler.2)))
    let done := addLabel (emitExtendedByte .EOP_END_CATCH t)
    let u ← generateExcept except (defineLabel (some handler.1) (popStack 3 done.2))
    return defineLabel (some done.1) u := by
  rw [generateExpr]

theorem pushLvalue_range : pushLvalue (.range base from_ to_) above st = do
    let s ← pushLvalue base true st
    let t ← generateExpr from_ (saveStackTop s).2
    let u ← generateExpr to_ t
    return restoreStackTop s.savedStack u := by
  rw [pushLvalue]
  rfl

theorem pushLvalue_index : pushLvalue (.index lhs rhs) above st = do
    let s ← pushLvalue lhs true st
    let t ← generateExpr rhs (saveStackTop s).2
    return if above then pushStack 1 (emitOp .OP_PUSH_REF (restoreStackTop s.savedStack t))
      else restoreStackTop s.savedStack t := by
  rw [pushLvalue]
  rfl

theorem addTargets_default : addTargets (.cons .optional id (.some expr) next) st =
    let t := addLabel (addVarRef id st)
    ((t.1 :: (addTargets next t.2).1), (addTargets next t.2).2) := by
  rw [addTargets]

end Steps

/-! ## Growth -/

theorem Grows.numBytes_pos (h : Grows st st') (hpos : 0 < st.numBytes) : 0 < st'.numBytes :=
  Nat.lt_of_lt_of_le hpos h.le.numBytes_le

theorem addTargets_grows {b st : State} (targets : Scatter) (h : Grows b st)
    (hpos : 0 < st.numBytes) : Grows b (addTargets targets st).2 := by
  cases targets with
  | nil => exact h
  | cons kind id expr next =>
    have hid : Grows b (addVarRef id st) := h.addVarRef id hpos
    have hpos' : 0 < (addVarRef id st).numBytes :=
      Nat.lt_of_lt_of_le hpos (addVarRef_adds id st).le.numBytes_le
    have hpseudo : ∀ value ≤ 1,
        Grows b (addTargets next (addPseudoLabel value (addVarRef id st))).2 := fun value hv =>
      addTargets_grows next (hid.addPseudoLabel hv hpos')
        (by rw [addPseudoLabel_numBytes]; exact Nat.succ_pos _)
    cases kind with
    | required => exact hpseudo 0 (Nat.zero_le 1)
    | rest => exact hpseudo 0 (Nat.zero_le 1)
    | optional =>
      cases expr with
      | none => exact hpseudo 1 (Nat.le_refl 1)
      | some e =>
        rw [addTargets_default]
        exact addTargets_grows next (hid.addLabel hpos')
          (by rw [addLabel_eq, addLinkedLabel_numBytes]; exact Nat.succ_pos _)

/-- The labels of the defaults are new, in order, and still to be defined. -/
theorem addTargets_labels {st : State} (targets : Scatter) (hpos : 0 < st.numBytes) :
    (∀ j ∈ (addTargets targets st).1, st.fixups.length ≤ j ∧ Undone (addTargets targets st).2 j) ∧
      (addTargets targets st).1.Pairwise (· < ·) := by
  cases targets with
  | nil => exact ⟨fun j hj => absurd hj List.not_mem_nil, List.Pairwise.nil⟩
  | cons kind id expr next =>
    have hpos' : 0 < (addVarRef id st).numBytes :=
      Nat.lt_of_lt_of_le hpos (addVarRef_adds id st).le.numBytes_le
    have hlen : st.fixups.length ≤ (addVarRef id st).fixups.length :=
      (addVarRef_adds id st).le.length_le
    have hpseudo : ∀ value ≤ 1,
        (∀ j ∈ (addTargets next (addPseudoLabel value (addVarRef id st))).1,
          st.fixups.length ≤ j ∧
          Undone (addTargets next (addPseudoLabel value (addVarRef id st))).2 j) ∧
          (addTargets next (addPseudoLabel value (addVarRef id st))).1.Pairwise (· < ·) := by
      intro value hv
      have hgrow : Grows (addVarRef id st) (addPseudoLabel value (addVarRef id st)) :=
        (Grows.refl _).addPseudoLabel hv hpos'
      have hnext := addTargets_labels next (hgrow.numBytes_pos hpos')
      exact ⟨fun j hj => ⟨Nat.le_trans hlen (Nat.le_trans hgrow.le.length_le (hnext.1 j hj).1),
        (hnext.1 j hj).2⟩, hnext.2⟩
    cases kind with
    | required => exact hpseudo 0 (Nat.zero_le 1)
    | rest => exact hpseudo 0 (Nat.zero_le 1)
    | optional =>
      cases expr with
      | none => exact hpseudo 1 (Nat.le_refl 1)
      | some e =>
        have hgrow : Grows (addVarRef id st) (addLabel (addVarRef id st)).2 :=
          (Grows.refl _).addLabel hpos'
        have hpos'' := hgrow.numBytes_pos hpos'
        obtain ⟨hnext, hsorted⟩ := addTargets_labels next hpos''
        have hnew := undone_addLabel (addVarRef id st)
        rw [addTargets_default]
        refine ⟨fun j hj => ?_, List.pairwise_cons.mpr ⟨fun j hj => ?_, hsorted⟩⟩
        · rcases List.mem_cons.mp hj with rfl | hj
          · exact ⟨hlen, hnew.grows (addTargets_grows next (Grows.refl _) hpos'')⟩
          · exact ⟨Nat.le_trans hlen (Nat.le_trans hgrow.le.length_le (hnext j hj).1),
              (hnext j hj).2⟩
        · exact Nat.lt_of_lt_of_le hnew.lt_length (hnext j hj).1

/-- The byte operands of a scatter come after its opcode. -/
theorem emitScatter_grows (targets : Scatter) (h : Grows b st) : Grows b (emitScatter targets st) :=
  (((h.emitExtendedByte _).emitByte _).emitByte _).emitByte _

theorem emitScatter_pos (targets : Scatter) (st : State) :
    0 < (emitScatter targets st).numBytes := by
  rw [emitScatter, emitByte_numBytes]
  exact Nat.succ_pos _

/-- Two labels, the first of which is defined while the second is still open. -/
theorem closeTwo {s s' t u : State} (h : Grows b s) (hpos : 0 < s.numBytes)
    (hs : Grows (addLabel s).2 s') (hpos' : 0 < s'.numBytes)
    (ht : Grows (addLabel s').2 t) (hu : Grows (defineLabel (some (addLabel s).1) t) u) :
    Grows b (defineLabel (some (addLabel s').1) u) := by
  have hfirst : Undone t (addLabel s).1 :=
    (undone_addLabel s).grows (((hs.addLabel hpos')).trans ht)
  have hsecond : Undone t (addLabel s').1 := (undone_addLabel s').grows ht
  have hne : (addLabel s').1 ≠ (addLabel s).1 := by
    have hlt : (addLabel s).1 < s'.fixups.length := ((undone_addLabel s).grows hs).lt_length
    exact Nat.ne_of_gt hlt
  have hall : Grows b t := ((h.addLabel hpos).trans hs |>.addLabel hpos').trans ht
  have hle : b.fixups.length ≤ (addLabel s').1 := ((h.addLabel hpos).trans hs).le.length_le
  exact ((hall.define hfirst h.le.length_le).trans hu).define
    ((hsecond.defineLabel hfirst hne).grows hu) hle

mutual

/-- An expression only adds code, by induction on the expression. -/
theorem generateExpr_grows {e : Expr} {st st' : State} (h : generateExpr e st = some st') :
    Grows st st' := by
  cases e with
  | var v =>
    have hliteral : Grows st (pushStack 1 (addLiteral v (emitOp .OP_IMM st))) :=
      (((Grows.refl st).emitOp _).addLiteral v (emitOp_pos _ _)).pushStack 1
    cases v with
    | int num =>
      rw [generateExpr] at h
      split at h
      · cases h
        exact ((Grows.refl st).emitOp _).pushStack 1
      · cases h
        exact hliteral
    | _ =>
      rw [generateExpr] at h
      · cases h
        exact hliteral
      · exact nofun
  | id slot =>
    rw [generateExpr] at h
    cases h
    exact ((Grows.refl st).emitPush slot).pushStack 1
  | prop lhs rhs =>
    rw [generateExpr] at h
    obtain ⟨s, hs, h⟩ := Option.bind_eq_some_iff.mp h
    obtain ⟨t, ht, h⟩ := Option.bind_eq_some_iff.mp h
    cases h
    exact (((generateExpr_grows hs).trans (generateExpr_grows ht)).emitOp _).popStack 1
  | verb obj verb args =>
    rw [generateExpr] at h
    obtain ⟨s, hs, h⟩ := Option.bind_eq_some_iff.mp h
    obtain ⟨t, ht, h⟩ := Option.bind_eq_some_iff.mp h
    obtain ⟨u, hu, h⟩ := Option.bind_eq_some_iff.mp h
    cases h
    exact ((((generateExpr_grows hs).trans (generateExpr_grows ht)).trans
      (generateArgs_grows hu)).emitOp _).popStack 2
  | index lhs rhs =>
    rw [generateExpr_index] at h
    obtain ⟨s, hs, h⟩ := Option.bind_eq_some_iff.mp h
    obtain ⟨t, ht, h⟩ := Option.bind_eq_some_iff.mp h
    cases h
    have hlhs := generateExpr_grows hs
    have hrhs := ((Grows.refl s).saveStackTop).trans (generateExpr_grows ht)
    exact (((hlhs.trans hrhs).restoreStackTop hlhs hrhs.le).emitOp _).popStack 1
  | range base from_ to_ =>
    rw [generateExpr_range] at h
    obtain ⟨s, hs, h⟩ := Option.bind_eq_some_iff.mp h
    obtain ⟨t, ht, h⟩ := Option.bind_eq_some_iff.mp h
    obtain ⟨u, hu, h⟩ := Option.bind_eq_some_iff.mp h
    cases h
    have hbase := generateExpr_grows hs
    have hbounds := ((((Grows.refl s).saveStackTop).trans (generateExpr_grows ht))).trans
      (generateExpr_grows hu)
    exact (((hbase.trans hbounds).restoreStackTop hbase hbounds.le).emitOp _).popStack 2
  | asgn lhs rhs =>
    cases lhs with
    | scatter targets =>
      rw [generateExpr_scatter] at h
      obtain ⟨s, hs, h⟩ := Option.bind_eq_some_iff.mp h
      obtain ⟨u, hu, h⟩ := Option.bind_eq_some_iff.mp h
      cases h
      have hbytes := emitScatter_grows targets (generateExpr_grows hs)
      have hpos := emitScatter_pos targets s
      have htargets := addTargets_grows targets hbytes hpos
      have hpos' := (addTargets_grows targets (Grows.refl _) hpos).numBytes_pos hpos
      obtain ⟨hlabels, hsorted⟩ := addTargets_labels targets hpos
      have hdone := undone_addLabel (addTargets targets (emitScatter targets s)).2
      have hnew : Grows (addTargets targets (emitScatter targets s)).2
          (addLabel (addTargets targets (emitScatter targets s)).2).2 :=
        (Grows.refl _).addLabel hpos'
      have hbase := (generateExpr_grows hs).le.length_le
      obtain ⟨hdefaults, hkept⟩ := generateDefaults_grows hu (htargets.addLabel hpos')
        (fun j hj => ⟨Nat.le_trans hbase (hlabels j hj).1, (hlabels j hj).2.grows hnew⟩) hsorted
      refine hdefaults.define (hkept _ hdone fun hj => ?_) ?_
      · exact absurd (hlabels _ hj).2.lt_length (Nat.lt_irrefl _)
      · exact htargets.le.length_le
    | _ =>
      rw [generateExpr] at h
      · obtain ⟨s, hs, h⟩ := Option.bind_eq_some_iff.mp h
        obtain ⟨t, ht, h⟩ := Option.bind_eq_some_iff.mp h
        have hvalue := (pushLvalue_grows hs).trans (generateExpr_grows ht)
        refine Grows.trans ?_ (finishAssign_grows h)
        split
        · exact hvalue.emitOp _
        · exact hvalue
      · exact nofun
  | call func args =>
    rw [generateExpr] at h
    obtain ⟨s, hs, h⟩ := Option.bind_eq_some_iff.mp h
    cases h
    exact ((generateArgs_grows hs).emitOp _).emitByte _
  | binary kind lhs rhs =>
    rw [generateExpr] at h
    obtain ⟨s, hs, h⟩ := Option.bind_eq_some_iff.mp h
    obtain ⟨t, ht, h⟩ := Option.bind_eq_some_iff.mp h
    cases h
    exact (((generateExpr_grows hs).trans (generateExpr_grows ht)).emitBinary kind).popStack 1
  | unary kind expr =>
    rw [generateExpr] at h
    obtain ⟨s, hs, h⟩ := Option.bind_eq_some_iff.mp h
    cases h
    exact (generateExpr_grows hs).emitOp _
  | logical kind lhs rhs =>
    rw [generateExpr_logical] at h
    obtain ⟨s, hs, h⟩ := Option.bind_eq_some_iff.mp h
    obtain ⟨t, ht, h⟩ := Option.bind_eq_some_iff.mp h
    cases h
    exact ((generateExpr_grows hs).emitOp _).closeLabel (emitOp_pos _ _)
      (((Grows.refl _).popStack 1).trans (generateExpr_grows ht))
  | list args =>
    rw [generateExpr] at h
    exact generateArgs_grows h
  | cond condition consequent alternate =>
    rw [generateExpr_cond] at h
    obtain ⟨s, hs, h⟩ := Option.bind_eq_some_iff.mp h
    obtain ⟨t, ht, h⟩ := Option.bind_eq_some_iff.mp h
    obtain ⟨u, hu, h⟩ := Option.bind_eq_some_iff.mp h
    cases h
    have hif := (generateExpr_grows hs).emitOp .OP_IF_QUES
    have hjump : Grows (addLabel (emitOp .OP_IF_QUES s)).2 (emitOp .OP_JUMP t) :=
      (((Grows.refl _).popStack 1).trans (generateExpr_grows ht)).emitOp .OP_JUMP
    have hpos := emitOp_pos .OP_IF_QUES s
    have hpos' := emitOp_pos .OP_JUMP t
    exact closeTwo hif hpos hjump hpos' ((Grows.refl _).popStack 1) (generateExpr_grows hu)
  | catch_ tryexp codes except =>
    rw [generateExpr_catch] at h
    obtain ⟨s, hs, h⟩ := Option.bind_eq_some_iff.mp h
    obtain ⟨t, ht, h⟩ := Option.bind_eq_some_iff.mp h
    obtain ⟨u, hu, h⟩ := Option.bind_eq_some_iff.mp h
    cases h
    have hpush := (generateArgs_grows hs).emitExtendedByte .EOP_PUSH_LABEL
    have htry : Grows (addLabel (emitExtendedByte .EOP_PUSH_LABEL s)).2
        (emitExtendedByte .EOP_END_CATCH t) :=
      (((((Grows.refl _).pushStack 1).emitExtendedByte .EOP_CATCH).pushStack 1).trans
        (generateExpr_grows ht)).emitExtendedByte _
    have hpos := emitExtendedByte_pos .EOP_PUSH_LABEL s
    have hpos' := emitExtendedByte_pos .EOP_END_CATCH t
    exact closeTwo hpush hpos htry hpos' ((Grows.refl _).popStack 3) (generateExcept_grows hu)
  | length =>
    rw [generateExpr] at h
    obtain ⟨saved, hsaved, h⟩ := Option.bind_eq_some_iff.mp h
    cases h
    have hop := (Grows.refl st).emitExtendedByte .EOP_LENGTH
    refine (hop.addStackRef saved (emitExtendedByte_pos _ _) fun _ hb => ?_).pushStack 1
    exact hb.saved saved hsaved
  | scatter targets =>
    rw [generateExpr] at h
    cases h

theorem generateExcept_grows {except : OptExpr} {st st' : State}
    (h : generateExcept except st = some st') : Grows st st' := by
  cases except with
  | none =>
    rw [generateExcept] at h
    cases h
    exact ((Grows.refl st).emitOp _).emitOp _
  | some e =>
    rw [generateExcept] at h
    exact (((Grows.refl st).emitOp _).popStack 1).trans (generateExpr_grows h)

theorem generateArgs_grows {empty : Opcode} {args : ArgList} {st st' : State}
    (h : generateArgs empty args st = some st') :
    Grows st st' := by
  cases args with
  | nil =>
    rw [generateArgs] at h
    cases h
    exact ((Grows.refl st).emitOp _).pushStack 1
  | cons kind e next =>
    rw [generateArgs] at h
    obtain ⟨s, hs, h⟩ := Option.bind_eq_some_iff.mp h
    exact ((generateExpr_grows hs).emitOp _).trans (generateMoreArgs_grows h)

theorem generateMoreArgs_grows {args : ArgList} {st st' : State}
    (h : generateMoreArgs args st = some st') : Grows st st' := by
  cases args with
  | nil =>
    rw [generateMoreArgs] at h
    cases h
    exact Grows.refl st
  | cons kind e next =>
    rw [generateMoreArgs] at h
    obtain ⟨s, hs, h⟩ := Option.bind_eq_some_iff.mp h
    exact (((generateExpr_grows hs).emitOp _).popStack 1).trans (generateMoreArgs_grows h)

theorem pushLvalue_grows {lhs : Expr} {above : Bool} {st st' : State}
    (h : pushLvalue lhs above st = some st') : Grows st st' := by
  cases lhs with
  | range base from_ to_ =>
    rw [pushLvalue_range] at h
    obtain ⟨s, hs, h⟩ := Option.bind_eq_some_iff.mp h
    obtain ⟨t, ht, h⟩ := Option.bind_eq_some_iff.mp h
    obtain ⟨u, hu, h⟩ := Option.bind_eq_some_iff.mp h
    cases h
    have hbase := pushLvalue_grows hs
    have hbounds := ((((Grows.refl s).saveStackTop).trans (generateExpr_grows ht))).trans
      (generateExpr_grows hu)
    exact (hbase.trans hbounds).restoreStackTop hbase hbounds.le
  | index lhs rhs =>
    rw [pushLvalue_index] at h
    obtain ⟨s, hs, h⟩ := Option.bind_eq_some_iff.mp h
    obtain ⟨t, ht, h⟩ := Option.bind_eq_some_iff.mp h
    cases h
    have hlhs := pushLvalue_grows hs
    have hrhs := ((Grows.refl s).saveStackTop).trans (generateExpr_grows ht)
    have hrestored := (hlhs.trans hrhs).restoreStackTop hlhs hrhs.le
    split
    · exact (hrestored.emitOp _).pushStack 1
    · exact hrestored
  | id slot =>
    rw [pushLvalue] at h
    cases h
    split
    · exact ((Grows.refl st).emitPush slot).pushStack 1
    · exact Grows.refl st
  | prop lhs rhs =>
    rw [pushLvalue] at h
    obtain ⟨s, hs, h⟩ := Option.bind_eq_some_iff.mp h
    obtain ⟨t, ht, h⟩ := Option.bind_eq_some_iff.mp h
    cases h
    have hobj := (generateExpr_grows hs).trans (generateExpr_grows ht)
    split
    · exact (hobj.emitOp _).pushStack 1
    · exact hobj
  | _ => simp [pushLvalue] at h

/-- The defaults of a scatter define its labels, and leave other labels to be defined. -/
theorem generateDefaults_grows {targets : Scatter} {labels : List Nat} {b st st' : State}
    (h : generateDefaults targets labels st = some st') (hg : Grows b st)
    (hl : ∀ j ∈ labels, b.fixups.length ≤ j ∧ Undone st j) (hs : labels.Pairwise (· < ·)) :
    Grows b st' ∧ ∀ j, Undone st j → j ∉ labels → Undone st' j := by
  cases targets with
  | nil =>
    rw [generateDefaults] at h
    cases h
    exact ⟨hg, fun j hj _ => hj⟩
  | cons kind id expr next =>
    cases kind with
    | required =>
      rw [generateDefaults] at h
      · exact generateDefaults_grows h hg hl hs
      · exact nofun
    | rest =>
      rw [generateDefaults] at h
      · exact generateDefaults_grows h hg hl hs
      · exact nofun
    | optional =>
      cases expr with
      | none =>
        rw [generateDefaults] at h
        · exact generateDefaults_grows h hg hl hs
        · exact nofun
      | some e =>
        rw [generateDefaults] at h
        obtain ⟨s, hs', h⟩ := Option.bind_eq_some_iff.mp h
        have hput : Grows (defineLabel labels.head? st)
            (popStack 1 (emitOp .OP_POP (emitPut id s))) :=
          (((generateExpr_grows hs').emitPut id).emitOp _).popStack 1
        cases labels with
        | nil =>
          rw [List.head?_nil, defineLabel_none] at hput
          obtain ⟨hgrow, hkeep⟩ := generateDefaults_grows h (hg.trans hput)
            (fun j hj => absurd hj List.not_mem_nil) List.Pairwise.nil
          exact ⟨hgrow, fun j hj hnot => hkeep j (hj.grows hput) hnot⟩
        | cons i labels =>
          obtain ⟨hlt, hs⟩ := List.pairwise_cons.mp hs
          have hi := hl i List.mem_cons_self
          have hstays : ∀ j, Undone st j → j ≠ i →
              Undone (popStack 1 (emitOp .OP_POP (emitPut id s))) j :=
            fun j hj hne => (hj.defineLabel hi.2 hne).grows hput
          obtain ⟨hgrow, hkeep⟩ := generateDefaults_grows h ((hg.define hi.2 hi.1).trans hput)
            (fun j hj => ⟨(hl j (List.mem_cons_of_mem _ hj)).1,
              hstays j (hl j (List.mem_cons_of_mem _ hj)).2 (Nat.ne_of_gt (hlt j hj))⟩) hs
          refine ⟨hgrow, fun j hj hnot => hkeep j (hstays j hj fun h =>
            hnot (h ▸ List.mem_cons_self)) fun h =>
            hnot (List.mem_cons_of_mem _ h)⟩

end

end CodeGen
end NuMoo
