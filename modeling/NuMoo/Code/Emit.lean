import NuMoo.Code.Generate
import Mathlib.Data.List.Forall2
import Mathlib.Algebra.Order.Group.Nat

/-!
# What emission keeps

The invariant of the generator's state, and how a state grows while code is emitted.

Results:
1. `Grows`: nothing that was emitted before changes, and each operation of the
   generator only adds to the code.
2. `defineLabel_fixups`: `define_label` gives the labels of its chain the present
   position and changes nothing else.
-/

namespace NuMoo
namespace CodeGen

/-- The kinds and positions of the operands. -/
def State.keys (st : State) : List (FixupKind × Nat) := st.fixups.map fun f => (f.kind, f.pc)

/-- How many operands of a kind are before a position. -/
def before (keys : List (FixupKind × Nat)) (kind : FixupKind) (p : Nat) : Nat :=
  keys.countP fun k => k.1 = kind ∧ k.2 < p

/-- A label that has its final value: the counts are those of the operands before it. -/
structure Placed (keys : List (FixupKind × Nat)) (n : Nat) (f : Fixup) : Prop where
  le : f.value ≤ n
  literals : f.prevLiterals = before keys .literal f.value
  forks : f.prevForks = before keys .fork f.value
  varRefs : f.prevVarRefs = before keys .varRef f.value
  labels : f.prevLabels = before keys .label f.value
  stackRefs : f.prevStacks = 0

/-- The value of an operand is in the range that the state records for its kind. -/
def ValueOk (st : State) (f : Fixup) : Prop :=
  match f.kind with
  | .literal => f.value < st.gstate.literals.length
  | .fork => f.value < st.gstate.forkVectors.length
  | .varRef => f.value ≤ st.maxVarRef
  | .stack => f.value ≤ st.maxStack
  | .label => f.done = true → Placed st.keys st.numBytes f

/-- The invariant of the state. -/
structure WF (st : State) : Prop where
  sorted : st.keys.Pairwise fun k k' => k.2 < k'.2
  pcs : ∀ k ∈ st.keys, 0 < k.2 ∧ k.2 < st.numBytes
  literals : st.numLiterals = st.keys.countP fun k => k.1 = .literal
  forks : st.numForks = st.keys.countP fun k => k.1 = .fork
  varRefs : st.numVarRefs = st.keys.countP fun k => k.1 = .varRef
  labels : st.numLabels = st.keys.countP fun k => k.1 = .label
  stackRefs : st.numStacks = 0
  values : ∀ f ∈ st.fixups, ValueOk st f
  cur : st.curStack ≤ st.maxStack
  saved : ∀ s, st.savedStack = some s → s ≤ st.maxStack
  loops : ∀ loop ∈ st.loops, loop.topLabel.kind = .label ∧ loop.topLabel.done = true ∧
    Placed st.keys st.numBytes loop.topLabel ∧ loop.topStack ≤ st.maxStack ∧
    loop.bottomStack ≤ st.maxStack

/-- The second state extends the first: what was emitted stays, and so do labels that are done. -/
structure Le (st st' : State) : Prop where
  bytes : st.bytes <+: st'.bytes
  fixups : ∀ (j : Nat) (f : Fixup), st.fixups[j]? = some f → ∃ f', st'.fixups[j]? = some f' ∧
    f'.kind = f.kind ∧ f'.pc = f.pc ∧ ((f.kind = .label → f.done = true) → f' = f)
  later : ∀ (j : Nat) (f : Fixup), st.fixups.length ≤ j → st'.fixups[j]? = some f →
    st.numBytes ≤ f.pc
  literals : st.gstate.literals <+: st'.gstate.literals
  forks : st.gstate.forkVectors <+: st'.gstate.forkVectors
  maxStack : st.maxStack ≤ st'.maxStack

/-- A step of the generator from the base state on: it also leaves every older operand as it is. -/
structure Grows (b st : State) : Prop where
  le : Le b st
  keeps : ∀ (j : Nat) (f : Fixup), b.fixups[j]? = some f → st.fixups[j]? = some f
  wf : WF b → WF st

/-! ## Labels that are not yet defined -/

/-- The labels that `define_label` runs through, none of which is done. -/
inductive LabelChain (fixups : List Fixup) : Option Nat → List Nat → Prop
  | nil : LabelChain fixups none []
  | cons {j : Nat} {f : Fixup} {l : List Nat} : fixups[j]? = some f → f.kind = .label →
      f.done = false →
    (∀ i ∈ l, i < j) → LabelChain fixups f.next l → LabelChain fixups (some j) (j :: l)

namespace LabelChain

variable {fixups fixups' : List Fixup} {label : Option Nat} {l : List Nat}

theorem congr (h : LabelChain fixups label l) (hf : ∀ j ∈ l, fixups'[j]? = fixups[j]?) :
    LabelChain fixups' label l := by
  induction h with
  | nil => exact .nil
  | @cons j f l hj hk hd hlt _ ih =>
    refine .cons ?_ hk hd hlt (ih fun i hi => hf i (List.mem_cons_of_mem _ hi))
    rw [hf j List.mem_cons_self, hj]

theorem undone (h : LabelChain fixups label l) {j : Nat} (hj : j ∈ l) :
    ∃ f, fixups[j]? = some f ∧ f.kind = .label ∧ f.done = false := by
  induction h with
  | nil => simp at hj
  | @cons i f l hi hk hd _ _ ih =>
    rcases List.mem_cons.mp hj with rfl | hj
    · exact ⟨f, hi, hk, hd⟩
    · exact ih hj

theorem lt_length (h : LabelChain fixups label l) {j : Nat} (hj : j ∈ l) : j < fixups.length := by
  obtain ⟨f, hf, _, _⟩ := h.undone hj
  exact (List.getElem?_eq_some_iff.mp hf).1

/-- The fuel of `define_label` is enough. -/
theorem length_le (h : LabelChain fixups label l) {n : Nat} (hn : ∀ i ∈ l, i < n) :
    l.length ≤ n := by
  induction h generalizing n with
  | nil => simp
  | @cons j f l _ _ _ hlt _ ih =>
    have hj : j < n := hn j List.mem_cons_self
    have hl := ih hlt
    simp only [List.length_cons]
    omega

end LabelChain

/-- The fixups after the labels in a list have been given the present position. -/
def resolveAll (st : State) (l : List Nat) (fixups : List Fixup) : List Fixup :=
  fixups.mapIdx fun j f => if j ∈ l then st.resolve f else f

theorem getElem?_resolveAll (st : State) (l : List Nat) (fixups : List Fixup) (j : Nat) :
    (resolveAll st l fixups)[j]? = if j ∈ l then fixups[j]?.map st.resolve else fixups[j]? := by
  rw [resolveAll, List.getElem?_mapIdx]
  split <;> simp_all

theorem defineChain_eq {n : Nat} {label : Option Nat} {l : List Nat} {st : State}
    (h : LabelChain st.fixups label l)
    (hn : l.length ≤ n) :
    defineChain n label st = { st with fixups := resolveAll st l st.fixups } := by
  induction l generalizing n label st with
  | nil =>
    cases h
    have hid : resolveAll st [] st.fixups = st.fixups := by
      apply List.ext_getElem?
      simp [getElem?_resolveAll]
    cases n <;> simp [defineChain, hid]
  | cons j l ih =>
    obtain ⟨n, rfl⟩ : ∃ m, n = m + 1 := ⟨n - 1, by simp only [List.length_cons] at hn; omega⟩
    cases h with
    | @cons _ f _ hj hk hd hlt hchain =>
      have hjl : j ∉ l := fun hm => absurd (hlt j hm) (Nat.lt_irrefl _)
      have hj' : j < st.fixups.length := (List.getElem?_eq_some_iff.mp hj).1
      have hrest : LabelChain (st.fixups.set j (st.resolve f)) f.next l :=
        hchain.congr fun i hi => List.getElem?_set_ne (by rintro rfl; exact hjl hi)
      have hmore := @ih n f.next { st with fixups := st.fixups.set j (st.resolve f) } hrest
        (by simp only [List.length_cons] at hn; omega)
      rw [defineChain]
      simp only [hj]
      rw [hmore]
      congr 1
      apply List.ext_getElem?
      intro i
      rw [getElem?_resolveAll, getElem?_resolveAll]
      by_cases hij : i = j
      · subst hij
        have hji : st.fixups[i] = f := by simpa [hj'] using hj
        simp [hjl, hj', hji]
      · simp only [List.getElem?_set_ne (Ne.symm hij), List.mem_cons, hij, false_or]
        rfl

/-- `define_label` on a chain of labels that are not done. -/
theorem defineLabel_eq {label : Option Nat} {l : List Nat} {st : State}
    (h : LabelChain st.fixups label l) :
    defineLabel label st = { st with fixups := resolveAll st l st.fixups } :=
  defineChain_eq h (h.length_le fun _ hi => h.lt_length hi)

theorem defineLabel_none (st : State) : defineLabel none st = st := by
  rw [defineLabel]
  cases st.fixups.length <;> rfl

/-! ## The fields that each operation keeps -/

section Fields

variable (b : UInt8) (op : Opcode) (eop : ExtendedOpcode) (v : Var) (bc : Bytecodes)
    (slot value n : Nat) (f : Fixup)
  (kind : BinaryKind) (next old : Option Nat) (label : Option Nat) (st : State)

theorem defineChain_frame : ∃ fixups, fixups.length = st.fixups.length ∧
    defineChain n label st = { st with fixups := fixups } := by
  induction n generalizing label st with
  | zero => exact ⟨st.fixups, rfl, rfl⟩
  | succ n ih =>
    cases label with
    | none => exact ⟨st.fixups, rfl, rfl⟩
    | some j =>
      rw [defineChain]
      cases st.fixups[j]? with
      | none => exact ⟨st.fixups, rfl, rfl⟩
      | some f =>
        obtain ⟨fixups, hlen, he⟩ := ih f.next { st with fixups := st.fixups.set j (st.resolve f) }
        exact ⟨fixups, by simpa using hlen, he⟩

theorem defineLabel_frame : ∃ fixups, fixups.length = st.fixups.length ∧
    defineLabel label st = { st with fixups := fixups } := defineChain_frame _ _ _

@[simp] theorem emitByte_loops : (emitByte b st).loops = st.loops := rfl
@[simp] theorem emitByte_savedStack : (emitByte b st).savedStack = st.savedStack := rfl
@[simp] theorem emitByte_curStack : (emitByte b st).curStack = st.curStack := rfl
@[simp] theorem emitByte_gstate : (emitByte b st).gstate = st.gstate := rfl
@[simp] theorem emitByte_fixups : (emitByte b st).fixups = st.fixups := rfl
@[simp] theorem emitByte_numBytes : (emitByte b st).numBytes = st.numBytes + 1 := by
  simp [State.numBytes, emitByte]

@[simp] theorem emitOp_loops : (emitOp op st).loops = st.loops := rfl
@[simp] theorem emitOp_savedStack : (emitOp op st).savedStack = st.savedStack := rfl
@[simp] theorem emitOp_curStack : (emitOp op st).curStack = st.curStack := rfl
@[simp] theorem emitOp_gstate : (emitOp op st).gstate = st.gstate := rfl
@[simp] theorem emitOp_fixups : (emitOp op st).fixups = st.fixups := rfl
@[simp] theorem emitOp_numBytes : (emitOp op st).numBytes = st.numBytes + 1 := emitByte_numBytes _ _
theorem emitOp_pos : 0 < (emitOp op st).numBytes := by simp

@[simp] theorem emitExtendedByte_loops : (emitExtendedByte eop st).loops = st.loops := rfl
@[simp] theorem emitExtendedByte_savedStack :
    (emitExtendedByte eop st).savedStack = st.savedStack := rfl
@[simp] theorem emitExtendedByte_curStack : (emitExtendedByte eop st).curStack = st.curStack := rfl
@[simp] theorem emitExtendedByte_gstate : (emitExtendedByte eop st).gstate = st.gstate := rfl
@[simp] theorem emitExtendedByte_fixups : (emitExtendedByte eop st).fixups = st.fixups := rfl
@[simp] theorem emitExtendedByte_numBytes :
    (emitExtendedByte eop st).numBytes = st.numBytes + 2 := by
  simp [emitExtendedByte]
theorem emitExtendedByte_pos : 0 < (emitExtendedByte eop st).numBytes := by simp

@[simp] theorem addLiteral_loops : (addLiteral v st).loops = st.loops := rfl
@[simp] theorem addLiteral_savedStack : (addLiteral v st).savedStack = st.savedStack := rfl
@[simp] theorem addLiteral_curStack : (addLiteral v st).curStack = st.curStack := rfl
@[simp] theorem addLiteral_numBytes : (addLiteral v st).numBytes = st.numBytes + 1 :=
  emitByte_numBytes _ _

@[simp] theorem addFork_loops : (addFork bc st).loops = st.loops := rfl
@[simp] theorem addFork_savedStack : (addFork bc st).savedStack = st.savedStack := rfl
@[simp] theorem addFork_curStack : (addFork bc st).curStack = st.curStack := rfl
@[simp] theorem addFork_numBytes : (addFork bc st).numBytes = st.numBytes + 1 :=
  emitByte_numBytes _ _
theorem addFork_pos : 0 < (addFork bc st).numBytes := by simp

@[simp] theorem addVarRef_loops : (addVarRef slot st).loops = st.loops := rfl
@[simp] theorem addVarRef_savedStack : (addVarRef slot st).savedStack = st.savedStack := rfl
@[simp] theorem addVarRef_curStack : (addVarRef slot st).curStack = st.curStack := rfl
@[simp] theorem addVarRef_numBytes : (addVarRef slot st).numBytes = st.numBytes + 1 :=
  emitByte_numBytes _ _
theorem addVarRef_pos : 0 < (addVarRef slot st).numBytes := by simp

@[simp] theorem addLinkedLabel_fst : (addLinkedLabel next st).1 = st.fixups.length := rfl
@[simp] theorem addLinkedLabel_loops : (addLinkedLabel next st).2.loops = st.loops := rfl
@[simp] theorem addLinkedLabel_savedStack :
    (addLinkedLabel next st).2.savedStack = st.savedStack := rfl
@[simp] theorem addLinkedLabel_curStack : (addLinkedLabel next st).2.curStack = st.curStack := rfl
@[simp] theorem addLinkedLabel_gstate : (addLinkedLabel next st).2.gstate = st.gstate := rfl
@[simp] theorem addLinkedLabel_numBytes : (addLinkedLabel next st).2.numBytes = st.numBytes + 1 :=
  emitByte_numBytes _ _

theorem addLabel_eq : addLabel st = addLinkedLabel none st := rfl

@[simp] theorem addKnownLabel_loops : (addKnownLabel f st).loops = st.loops := rfl
@[simp] theorem addKnownLabel_savedStack : (addKnownLabel f st).savedStack = st.savedStack := rfl
@[simp] theorem addKnownLabel_curStack : (addKnownLabel f st).curStack = st.curStack := rfl
@[simp] theorem addKnownLabel_numBytes : (addKnownLabel f st).numBytes = st.numBytes + 1 :=
  emitByte_numBytes _ _

@[simp] theorem addPseudoLabel_loops : (addPseudoLabel value st).loops = st.loops := rfl
@[simp] theorem addPseudoLabel_savedStack :
    (addPseudoLabel value st).savedStack = st.savedStack := rfl
@[simp] theorem addPseudoLabel_curStack : (addPseudoLabel value st).curStack = st.curStack := rfl
@[simp] theorem addPseudoLabel_numBytes : (addPseudoLabel value st).numBytes = st.numBytes + 1 :=
  emitByte_numBytes _ _

@[simp] theorem addStackRef_loops : (addStackRef value st).loops = st.loops := rfl
@[simp] theorem addStackRef_savedStack : (addStackRef value st).savedStack = st.savedStack := rfl
@[simp] theorem addStackRef_curStack : (addStackRef value st).curStack = st.curStack := rfl
@[simp] theorem addStackRef_numBytes : (addStackRef value st).numBytes = st.numBytes + 1 :=
  emitByte_numBytes _ _
theorem addStackRef_pos : 0 < (addStackRef value st).numBytes := by simp

@[simp] theorem defineLabel_loops : (defineLabel label st).loops = st.loops := by
  obtain ⟨_, _, he⟩ := defineLabel_frame label st; rw [he]
@[simp] theorem defineLabel_savedStack : (defineLabel label st).savedStack = st.savedStack := by
  obtain ⟨_, _, he⟩ := defineLabel_frame label st; rw [he]
@[simp] theorem defineLabel_curStack : (defineLabel label st).curStack = st.curStack := by
  obtain ⟨_, _, he⟩ := defineLabel_frame label st; rw [he]
@[simp] theorem defineLabel_gstate : (defineLabel label st).gstate = st.gstate := by
  obtain ⟨_, _, he⟩ := defineLabel_frame label st; rw [he]
@[simp] theorem defineLabel_numBytes : (defineLabel label st).numBytes = st.numBytes := by
  obtain ⟨_, _, he⟩ := defineLabel_frame label st; rw [he]; rfl
@[simp] theorem length_fixups_defineLabel :
    (defineLabel label st).fixups.length = st.fixups.length := by
  obtain ⟨_, hlen, he⟩ := defineLabel_frame label st; rw [he]; exact hlen

@[simp] theorem pushStack_loops : (pushStack n st).loops = st.loops := rfl
@[simp] theorem pushStack_savedStack : (pushStack n st).savedStack = st.savedStack := rfl
@[simp] theorem pushStack_curStack : (pushStack n st).curStack = st.curStack + n := rfl
@[simp] theorem pushStack_gstate : (pushStack n st).gstate = st.gstate := rfl
@[simp] theorem pushStack_fixups : (pushStack n st).fixups = st.fixups := rfl
@[simp] theorem pushStack_numBytes : (pushStack n st).numBytes = st.numBytes := rfl

@[simp] theorem popStack_loops : (popStack n st).loops = st.loops := rfl
@[simp] theorem popStack_savedStack : (popStack n st).savedStack = st.savedStack := rfl
@[simp] theorem popStack_curStack : (popStack n st).curStack = st.curStack - n := rfl
@[simp] theorem popStack_gstate : (popStack n st).gstate = st.gstate := rfl
@[simp] theorem popStack_fixups : (popStack n st).fixups = st.fixups := rfl
@[simp] theorem popStack_numBytes : (popStack n st).numBytes = st.numBytes := rfl

@[simp] theorem saveStackTop_fst : (saveStackTop st).1 = st.savedStack := rfl
@[simp] theorem saveStackTop_loops : (saveStackTop st).2.loops = st.loops := rfl
@[simp] theorem saveStackTop_savedStack :
    (saveStackTop st).2.savedStack = some (st.curStack - 1) := rfl
@[simp] theorem saveStackTop_curStack : (saveStackTop st).2.curStack = st.curStack := rfl
@[simp] theorem saveStackTop_gstate : (saveStackTop st).2.gstate = st.gstate := rfl
@[simp] theorem saveStackTop_fixups : (saveStackTop st).2.fixups = st.fixups := rfl
@[simp] theorem saveStackTop_numBytes : (saveStackTop st).2.numBytes = st.numBytes := rfl

@[simp] theorem restoreStackTop_loops : (restoreStackTop old st).loops = st.loops := rfl
@[simp] theorem restoreStackTop_savedStack : (restoreStackTop old st).savedStack = old := rfl
@[simp] theorem restoreStackTop_curStack : (restoreStackTop old st).curStack = st.curStack := rfl
@[simp] theorem restoreStackTop_gstate : (restoreStackTop old st).gstate = st.gstate := rfl
@[simp] theorem restoreStackTop_fixups : (restoreStackTop old st).fixups = st.fixups := rfl
@[simp] theorem restoreStackTop_numBytes : (restoreStackTop old st).numBytes = st.numBytes := rfl

end Fields

/-! ## Growth -/

theorem Placed.mono {keys more : List (FixupKind × Nat)} {n n' : Nat} {f : Fixup}
    (h : Placed keys n f) (hn : n ≤ n')
    (hm : ∀ k ∈ more, n ≤ k.2) : Placed (keys ++ more) n' f := by
  have hb : ∀ kind, before (keys ++ more) kind f.value = before keys kind f.value := by
    intro kind
    have hz : more.countP (fun k => decide (k.1 = kind ∧ k.2 < f.value)) = 0 := by
      rw [List.countP_eq_zero]
      intro k hk
      have := hm k hk
      have := h.le
      simp only [decide_eq_true_eq]
      omega
    rw [before, List.countP_append, hz, Nat.add_zero, before]
  exact ⟨h.le.trans hn, by rw [hb, h.literals], by rw [hb, h.forks], by rw [hb, h.varRefs],
    by rw [hb, h.labels], h.stackRefs⟩

/-- The second state is the first with one more operand. -/
structure Adds (st st' : State) (f : Fixup) : Prop where
  fixups : st'.fixups = st.fixups ++ [f]
  bytes : st'.bytes = st.bytes ++ [0]
  pc : f.pc = st.numBytes
  literals : st'.numLiterals = st.numLiterals + if f.kind = .literal then 1 else 0
  forks : st'.numForks = st.numForks + if f.kind = .fork then 1 else 0
  varRefs : st'.numVarRefs = st.numVarRefs + if f.kind = .varRef then 1 else 0
  labels : st'.numLabels = st.numLabels + if f.kind = .label then 1 else 0
  stackRefs : st'.numStacks = st.numStacks
  tables : st.gstate.literals <+: st'.gstate.literals ∧ st.gstate.forkVectors <+:
    st'.gstate.forkVectors
  maxVarRef : st.maxVarRef ≤ st'.maxVarRef
  curStack : st'.curStack = st.curStack
  maxStack : st'.maxStack = st.maxStack
  savedStack : st'.savedStack = st.savedStack
  loops : st'.loops = st.loops

namespace Adds

variable {st st' : State} {f : Fixup}

theorem keys (h : Adds st st' f) : st'.keys = st.keys ++ [(f.kind, f.pc)] := by
  simp [State.keys, h.fixups]

theorem numBytes (h : Adds st st' f) : st'.numBytes = st.numBytes + 1 := by
  simp [State.numBytes, h.bytes]

theorem placed (h : Adds st st' f) {g : Fixup} (hg : Placed st.keys st.numBytes g) :
    Placed st'.keys st'.numBytes g := by
  rw [h.keys]
  refine hg.mono (by rw [h.numBytes]; omega) ?_
  simp [h.pc]

theorem valueOk (h : Adds st st' f) {g : Fixup} (hg : ValueOk st g) : ValueOk st' g := by
  have hl := h.tables.1.length_le
  have hf := h.tables.2.length_le
  have hv := h.maxVarRef
  have hs := h.maxStack
  revert hg
  unfold ValueOk
  cases g.kind with
  | literal => exact fun hg => Nat.lt_of_lt_of_le hg hl
  | fork => exact fun hg => Nat.lt_of_lt_of_le hg hf
  | varRef => exact fun hg => le_trans hg hv
  | stack => exact fun hg => hs ▸ hg
  | label => exact fun hg hd => h.placed (hg hd)

theorem count (h : Adds st st' f) {n n' : Nat} {kind : FixupKind}
    (hn : n = st.keys.countP fun k => k.1 = kind)
    (hn' : n' = n + if f.kind = kind then 1 else 0) : n' = st'.keys.countP fun k => k.1 = kind := by
  rw [h.keys, List.countP_append, ← hn, hn']
  by_cases hk : f.kind = kind <;> simp [hk]

theorem wf (h : Adds st st' f) (hpos : 0 < st.numBytes) (hwf : WF st) (hval : ValueOk st' f) :
    WF st' where
  sorted := by
    rw [h.keys, List.pairwise_append]
    refine ⟨hwf.sorted, List.pairwise_singleton _ _, fun k hk k' hk' => ?_⟩
    have := (hwf.pcs k hk).2
    rw [List.mem_singleton.mp hk']
    simpa [h.pc] using this
  pcs := by
    intro k hk
    rw [h.keys] at hk
    rw [h.numBytes]
    rcases List.mem_append.mp hk with hk | hk
    · have := hwf.pcs k hk
      omega
    · rw [List.mem_singleton.mp hk]
      simp only [h.pc]
      omega
  literals := h.count hwf.literals h.literals
  forks := h.count hwf.forks h.forks
  varRefs := h.count hwf.varRefs h.varRefs
  labels := h.count hwf.labels h.labels
  stackRefs := by rw [h.stackRefs, hwf.stackRefs]
  values := by
    intro g hg
    rw [h.fixups] at hg
    rcases List.mem_append.mp hg with hg | hg
    · exact h.valueOk (hwf.values g hg)
    · rwa [List.mem_singleton.mp hg]
  cur := by rw [h.curStack, h.maxStack]; exact hwf.cur
  saved := by rw [h.savedStack, h.maxStack]; exact hwf.saved
  loops := by
    rw [h.loops, h.maxStack]
    intro loop hloop
    obtain ⟨hk, hd, hp, ht, hb⟩ := hwf.loops loop hloop
    exact ⟨hk, hd, h.placed hp, ht, hb⟩

theorem keeps (h : Adds st st' f) (j : Nat) (g : Fixup) (hg : st.fixups[j]? = some g) :
    st'.fixups[j]? = some g := by
  rw [h.fixups, List.getElem?_append_left (List.getElem?_eq_some_iff.mp hg).1, hg]

theorem le (h : Adds st st' f) : Le st st' where
  bytes := by rw [h.bytes]; exact List.prefix_append _ _
  fixups j g hg := ⟨g, h.keeps j g hg, rfl, rfl, fun _ => rfl⟩
  later := by
    intro j g hj hg
    rw [h.fixups, List.getElem?_append_right hj] at hg
    have hgf : g = f := by
      cases hi : j - st.fixups.length with
      | zero => rw [hi] at hg; simpa using hg.symm
      | succ n => rw [hi] at hg; simp at hg
    exact (hgf.symm ▸ h.pc).ge
  literals := h.tables.1
  forks := h.tables.2
  maxStack := h.maxStack.ge

end Adds

namespace Le

variable {st st' st'' : State}

theorem refl (st : State) : Le st st where
  bytes := List.prefix_rfl
  fixups j f hf := ⟨f, hf, rfl, rfl, fun _ => rfl⟩
  later j f hj hf := by
    rw [List.getElem?_eq_none hj] at hf
    exact absurd hf (by simp)
  literals := List.prefix_rfl
  forks := List.prefix_rfl
  maxStack := le_refl _

theorem numBytes_le (h : Le st st') : st.numBytes ≤ st'.numBytes := h.bytes.length_le

theorem length_le (h : Le st st') : st.fixups.length ≤ st'.fixups.length := by
  rcases Nat.eq_zero_or_pos st.fixups.length with h0 | hpos
  · omega
  · have hlast : st.fixups.length - 1 < st.fixups.length := by omega
    obtain ⟨f', hf', _⟩ := h.fixups _ _ (List.getElem?_eq_getElem hlast)
    have := (List.getElem?_eq_some_iff.mp hf').1
    omega

theorem trans (h : Le st st') (h' : Le st' st'') : Le st st'' where
  bytes := h.bytes.trans h'.bytes
  fixups j f hf := by
    obtain ⟨f', hf', hk, hp, hd⟩ := h.fixups j f hf
    obtain ⟨f'', hf'', hk', hp', hd'⟩ := h'.fixups j f' hf'
    refine ⟨f'', hf'', hk'.trans hk, hp'.trans hp, fun hdone => ?_⟩
    have hff := hd hdone
    subst hff
    exact hd' hdone
  later j f hj hf := by
    rcases Nat.lt_or_ge j st'.fixups.length with hlt | hge
    · obtain ⟨f', hf', _, hp, _⟩ := h'.fixups j _ (List.getElem?_eq_getElem hlt)
      have hff : f' = f := by rw [hf] at hf'; exact (Option.some.inj hf').symm
      have := h.later j _ hj (List.getElem?_eq_getElem hlt)
      rwa [← hp, hff] at this
    · exact h.numBytes_le.trans (h'.later j f hge hf)
  literals := h.literals.trans h'.literals
  forks := h.forks.trans h'.forks
  maxStack := h.maxStack.trans h'.maxStack

theorem emitByte (b : UInt8) (st : State) : Le st (emitByte b st) :=
  { refl st with bytes := List.prefix_append _ _ }

theorem pushStack (n : Nat) (st : State) : Le st (pushStack n st) :=
  { refl st with maxStack := le_max_right _ _ }

theorem popStack (n : Nat) (st : State) : Le st (popStack n st) := { refl st with }

theorem saveStackTop (st : State) : Le st (saveStackTop st).2 := { refl st with }

theorem restoreStackTop (old : Option Nat) (st : State) : Le st (restoreStackTop old st) :=
  { refl st with }

theorem loops (l : List Loop) (st : State) : Le st { st with loops := l } := { refl st with }

theorem defineLabel {label : Option Nat} {l : List Nat} {st : State}
    (h : LabelChain st.fixups label l) :
    Le st (defineLabel label st) := by
  rw [defineLabel_eq h]
  refine { refl st with fixups := fun j f hf => ?_, later := fun j f hj hf => ?_ }
  · simp only [getElem?_resolveAll]
    split
    · next hj =>
      refine ⟨st.resolve f, by rw [hf]; rfl, rfl, rfl, fun hd => ?_⟩
      obtain ⟨f', hf', hk', hd'⟩ := h.undone hj
      rw [hf] at hf'
      cases hf'
      rw [hd hk'] at hd'
      exact absurd hd' (by simp)
    · exact ⟨f, hf, rfl, rfl, fun _ => rfl⟩
  · have hlen : (resolveAll st l st.fixups).length = st.fixups.length := by simp [resolveAll]
    have hlt := (List.getElem?_eq_some_iff.mp hf).1
    simp only [hlen] at hlt
    omega

end Le

/-! ## The operations -/

theorem addLiteral_adds (v : Var) (st : State) :
    Adds st (addLiteral v st)
    (st.fixup .literal (internLiteral v st.gstate.literals).1 none false) where
  fixups := rfl
  bytes := rfl
  pc := rfl
  literals := rfl
  forks := rfl
  varRefs := rfl
  labels := rfl
  stackRefs := rfl
  tables := by
    refine ⟨?_, List.prefix_rfl⟩
    change st.gstate.literals <+: (internLiteral v st.gstate.literals).2
    rw [internLiteral]
    dsimp only
    split
    · exact List.prefix_append _ _
    · exact List.prefix_rfl
  maxVarRef := le_refl _
  curStack := rfl
  maxStack := rfl
  savedStack := rfl
  loops := rfl

theorem addFork_adds (bc : Bytecodes) (st : State) :
    Adds st (addFork bc st) (st.fixup .fork st.gstate.forkVectors.length none false) where
  fixups := rfl
  bytes := rfl
  pc := rfl
  literals := rfl
  forks := rfl
  varRefs := rfl
  labels := rfl
  stackRefs := rfl
  tables := ⟨List.prefix_rfl, List.prefix_append _ _⟩
  maxVarRef := le_refl _
  curStack := rfl
  maxStack := rfl
  savedStack := rfl
  loops := rfl

theorem addVarRef_adds (slot : Nat) (st : State) :
    Adds st (addVarRef slot st) (st.fixup .varRef slot none false) where
  fixups := rfl
  bytes := rfl
  pc := rfl
  literals := rfl
  forks := rfl
  varRefs := rfl
  labels := rfl
  stackRefs := rfl
  tables := ⟨List.prefix_rfl, List.prefix_rfl⟩
  maxVarRef := le_max_right _ _
  curStack := rfl
  maxStack := rfl
  savedStack := rfl
  loops := rfl

theorem addLinkedLabel_adds (next : Option Nat) (st : State) :
    Adds st (addLinkedLabel next st).2 (st.fixup .label 0 next false) where
  fixups := rfl
  bytes := rfl
  pc := rfl
  literals := rfl
  forks := rfl
  varRefs := rfl
  labels := rfl
  stackRefs := rfl
  tables := ⟨List.prefix_rfl, List.prefix_rfl⟩
  maxVarRef := le_refl _
  curStack := rfl
  maxStack := rfl
  savedStack := rfl
  loops := rfl

theorem addKnownLabel_adds {f : Fixup} (hf : f.kind = .label) (st : State) :
    Adds st (addKnownLabel f st) { f with pc := st.numBytes } where
  fixups := rfl
  bytes := rfl
  pc := rfl
  literals := by simp [hf]; rfl
  forks := by simp [hf]; rfl
  varRefs := by simp [hf]; rfl
  labels := by simp [hf]; rfl
  stackRefs := rfl
  tables := ⟨List.prefix_rfl, List.prefix_rfl⟩
  maxVarRef := le_refl _
  curStack := rfl
  maxStack := rfl
  savedStack := rfl
  loops := rfl

theorem addStackRef_adds (index : Nat) (st : State) :
    Adds st (addStackRef index st) (st.fixup .stack index none false) where
  fixups := rfl
  bytes := rfl
  pc := rfl
  literals := rfl
  forks := rfl
  varRefs := rfl
  labels := rfl
  stackRefs := rfl
  tables := ⟨List.prefix_rfl, List.prefix_rfl⟩
  maxVarRef := le_refl _
  curStack := rfl
  maxStack := rfl
  savedStack := rfl
  loops := rfl

/-- The index of a literal is in the table, at a value that is the same. -/
theorem internLiteral_getElem? (v : Var) (literals : List Var) :
    ∃ w, (internLiteral v literals).2[(internLiteral v literals).1]? = some w ∧
      (w = v ∨ sameLiteral v w = true) := by
  rw [internLiteral]
  dsimp only
  by_cases h : literals.findIdx (sameLiteral v) = literals.length
  · exact ⟨v, by rw [if_pos h, h]; simp, .inl rfl⟩
  · have hlt : literals.findIdx (sameLiteral v) < literals.length :=
      lt_of_le_of_ne List.findIdx_le_length h
    exact ⟨_, by rw [if_neg h]; exact List.getElem?_eq_getElem hlt,
      .inr (List.findIdx_getElem (w := hlt))⟩

/-- A captured label is placed. -/
theorem captureLabel_placed {st : State} (h : WF st) :
    Placed st.keys st.numBytes (captureLabel st) := by
  have hb : ∀ kind, (st.keys.countP fun k => k.1 = kind) = before st.keys kind st.numBytes := by
    intro kind
    apply List.countP_congr
    intro k hk
    have := (h.pcs k hk).2
    simp [this]
  exact ⟨le_refl _, h.literals.trans (hb _), h.forks.trans (hb _), h.varRefs.trans (hb _),
    h.labels.trans (hb _),
    h.stackRefs⟩

/-- The labels 0 and 1 that mark a target without a default are placed, since no operand comes
first. -/
theorem pseudo_placed {st : State} (h : WF st) {f : Fixup} (hv : f.value ≤ 1)
    (hpos : 0 < st.numBytes)
    (hz : f.prevLiterals = 0 ∧ f.prevForks = 0 ∧ f.prevVarRefs = 0 ∧ f.prevLabels = 0 ∧
      f.prevStacks = 0) :
    Placed st.keys st.numBytes f := by
  have hb : ∀ kind, before st.keys kind f.value = 0 := by
    intro kind
    rw [before, List.countP_eq_zero]
    intro k hk
    have := (h.pcs k hk).1
    simp only [decide_eq_true_eq]
    omega
  exact ⟨by omega, by rw [hb, hz.1], by rw [hb, hz.2.1], by rw [hb, hz.2.2.1],
    by rw [hb, hz.2.2.2.1], hz.2.2.2.2⟩

theorem resolveAll_keys (st : State) (l : List Nat) :
    (resolveAll st l st.fixups).map (fun f => (f.kind, f.pc)) = st.keys := by
  rw [State.keys]
  apply List.ext_getElem?
  intro j
  rw [List.getElem?_map, List.getElem?_map, getElem?_resolveAll]
  split
  · cases st.fixups[j]? <;> simp [State.resolve]
  · rfl

/-- A label that is resolved in a state is placed in it. -/
theorem resolve_placed {st : State} (h : WF st) (f : Fixup) :
    Placed st.keys st.numBytes (st.resolve f) :=
  have hp := captureLabel_placed h
  ⟨hp.le, hp.literals, hp.forks, hp.varRefs, hp.labels, hp.stackRefs⟩

namespace WF

variable {st : State}

/-- The invariant does not look at the bytes but through their number. -/
theorem emitByte (b : UInt8) (h : WF st) : WF (emitByte b st) := by
  have hp : ∀ f, Placed st.keys st.numBytes f →
      Placed st.keys (CodeGen.emitByte b st).numBytes f := by
    intro f hf
    exact { hf with le := hf.le.trans (by simp) }
  refine ⟨h.sorted, fun k hk => ?_, h.literals, h.forks, h.varRefs, h.labels, h.stackRefs,
    fun f hf => ?_, h.cur,
    h.saved, fun loop hl => ?_⟩
  · have := h.pcs k hk
    rw [emitByte_numBytes]
    omega
  · have hv := h.values f hf
    revert hv
    unfold ValueOk
    cases f.kind with
    | label => exact fun hv hd => hp f (hv hd)
    | _ => exact id
  · obtain ⟨hk, hd, hpl, ht, hb⟩ := h.loops loop hl
    exact ⟨hk, hd, hp _ hpl, ht, hb⟩

/-- A change of the stack that keeps its bounds. -/
theorem stack {cur mx : Nat} {saved : Option Nat} (h : WF st) (hm : st.maxStack ≤ mx)
    (hc : cur ≤ mx)
    (hs : ∀ s, saved = some s → s ≤ mx) :
    WF { st with curStack := cur, maxStack := mx, savedStack := saved } := by
  refine ⟨h.sorted, h.pcs, h.literals, h.forks, h.varRefs, h.labels, h.stackRefs, fun f hf => ?_,
    hc, hs, fun loop hl => ?_⟩
  · have hv := h.values f hf
    revert hv
    unfold ValueOk
    cases f.kind with
    | stack => exact fun hv => le_trans hv hm
    | _ => exact id
  · obtain ⟨hk, hd, hp, ht, hb⟩ := h.loops loop hl
    exact ⟨hk, hd, hp, ht.trans hm, hb.trans hm⟩

theorem pushStack (n : Nat) (h : WF st) : WF (pushStack n st) :=
  h.stack (le_max_right _ _) (le_max_left _ _) fun s hs =>
    le_trans (h.saved s hs) (le_max_right _ _)

theorem popStack (n : Nat) (h : WF st) : WF (popStack n st) :=
  h.stack (le_refl _) ((Nat.sub_le _ _).trans h.cur) h.saved

theorem saveStackTop (h : WF st) : WF (saveStackTop st).2 :=
  h.stack (le_refl _) h.cur fun s hs => by
    have := h.cur
    have hs' : st.curStack - 1 = s := Option.some.inj hs
    omega

theorem restoreStackTop {old : Option Nat} (h : WF st) (hs : ∀ s, old = some s → s ≤ st.maxStack) :
    WF (restoreStackTop old st) :=
  h.stack (le_refl _) h.cur hs

theorem withLoops {loops : List Loop} (h : WF st)
    (hl : ∀ loop ∈ loops, loop.topLabel.kind = .label ∧ loop.topLabel.done = true ∧
      Placed st.keys st.numBytes loop.topLabel ∧ loop.topStack ≤ st.maxStack ∧
      loop.bottomStack ≤ st.maxStack) :
    WF { st with loops := loops } :=
  ⟨h.sorted, h.pcs, h.literals, h.forks, h.varRefs, h.labels, h.stackRefs, h.values,
    h.cur, h.saved, hl⟩

theorem defineLabel {label : Option Nat} {l : List Nat} (h : WF st)
    (hc : LabelChain st.fixups label l) :
    WF (defineLabel label st) := by
  have hkeys : (CodeGen.defineLabel label st).keys = st.keys := by
    rw [defineLabel_eq hc]
    exact resolveAll_keys st l
  have hvals : ∀ f ∈ (CodeGen.defineLabel label st).fixups, ValueOk st f := by
    rw [defineLabel_eq hc]
    intro f hf
    obtain ⟨j, hj⟩ := List.mem_iff_getElem?.mp hf
    rw [getElem?_resolveAll] at hj
    split at hj
    · next hmem =>
      obtain ⟨g, hg, hk, _⟩ := hc.undone hmem
      rw [hg] at hj
      cases hj
      have : ValueOk st (st.resolve g) := by
        have hk' : (st.resolve g).kind = .label := hk
        unfold ValueOk
        rw [hk']
        exact fun _ => resolve_placed h g
      exact this
    · exact h.values f (List.mem_of_getElem? hj)
  obtain ⟨fixups, _, he⟩ := defineLabel_frame label st
  have hk : (fixups.map fun f => (f.kind, f.pc)) = st.keys := by rw [← hkeys, he]; rfl
  rw [he] at hvals ⊢
  have hplaced : ∀ f, Placed st.keys st.numBytes f →
      Placed ({ st with fixups := fixups } : State).keys
        ({ st with fixups := fixups } : State).numBytes f := by
    intro f hf
    change Placed (fixups.map fun f => (f.kind, f.pc)) st.numBytes f
    rwa [hk]
  refine ⟨?_, ?_, ?_, ?_, ?_, ?_, h.stackRefs, fun f hf => ?_, h.cur, h.saved, fun loop hl => ?_⟩
  · change (fixups.map _).Pairwise _
    rw [hk]; exact h.sorted
  · change ∀ k ∈ fixups.map _, _
    rw [hk]; exact h.pcs
  · change _ = (fixups.map _).countP _
    rw [hk]; exact h.literals
  · change _ = (fixups.map _).countP _
    rw [hk]; exact h.forks
  · change _ = (fixups.map _).countP _
    rw [hk]; exact h.varRefs
  · change _ = (fixups.map _).countP _
    rw [hk]; exact h.labels
  · have hv := hvals f hf
    revert hv
    unfold ValueOk
    cases f.kind with
    | label => exact fun hv hd => hplaced f (hv hd)
    | _ => exact id
  · obtain ⟨hkl, hd, hp, ht, hb⟩ := h.loops loop hl
    exact ⟨hkl, hd, hplaced _ hp, ht, hb⟩

end WF

namespace Grows

variable {b st st' : State}

theorem refl (st : State) : Grows st st := ⟨Le.refl st, fun _ _ => id, id⟩

theorem trans (h : Grows b st) (h' : Grows st st') : Grows b st' :=
  ⟨h.le.trans h'.le, fun j f hf => h'.keeps j f (h.keeps j f hf), fun hb => h'.wf (h.wf hb)⟩

theorem emitByte (h : Grows b st) (x : UInt8) : Grows b (emitByte x st) :=
  h.trans ⟨Le.emitByte x st, fun _ _ => id, fun hw => hw.emitByte x⟩

theorem emitOp (h : Grows b st) (op : Opcode) : Grows b (emitOp op st) := h.emitByte _

theorem emitExtendedByte (h : Grows b st) (op : ExtendedOpcode) :
    Grows b (emitExtendedByte op st) :=
  (h.emitOp _).emitByte _

theorem adds {f : Fixup} (h : Grows b st) (ha : Adds st st' f) (hpos : 0 < st.numBytes)
    (hval : WF st → WF b → ValueOk st' f) : Grows b st' :=
  ⟨h.le.trans ha.le, fun j g hg => ha.keeps j g (h.keeps j g hg),
    fun hb => ha.wf hpos (h.wf hb) (hval (h.wf hb) hb)⟩

theorem addLiteral (h : Grows b st) (v : Var) (hpos : 0 < st.numBytes) :
    Grows b (addLiteral v st) := by
  refine h.adds (addLiteral_adds v st) hpos fun _ _ => ?_
  obtain ⟨w, hw, _⟩ := internLiteral_getElem? v st.gstate.literals
  exact (List.getElem?_eq_some_iff.mp hw).1

theorem addFork (h : Grows b st) (bc : Bytecodes) (hpos : 0 < st.numBytes) :
    Grows b (addFork bc st) := by
  refine h.adds (addFork_adds bc st) hpos fun _ _ => ?_
  change st.gstate.forkVectors.length < (st.gstate.forkVectors ++ [bc]).length
  simp

theorem addVarRef (h : Grows b st) (slot : Nat) (hpos : 0 < st.numBytes) :
    Grows b (addVarRef slot st) :=
  h.adds (addVarRef_adds slot st) hpos fun _ _ => le_max_left _ _

theorem addLinkedLabel (h : Grows b st) (next : Option Nat) (hpos : 0 < st.numBytes) :
    Grows b (addLinkedLabel next st).2 :=
  h.adds (addLinkedLabel_adds next st) hpos fun _ _ hd => absurd hd (by simp [State.fixup])

theorem addLabel (h : Grows b st) (hpos : 0 < st.numBytes) : Grows b (addLabel st).2 :=
  h.addLinkedLabel none hpos

theorem addKnownLabel (h : Grows b st) {f : Fixup} (hf : f.kind = .label) (hpos : 0 < st.numBytes)
    (hp : WF st → WF b → Placed st.keys st.numBytes f) : Grows b (addKnownLabel f st) := by
  refine h.adds (addKnownLabel_adds hf st) hpos fun hw hb => ?_
  have hpl := (addKnownLabel_adds hf st).placed (hp hw hb)
  unfold ValueOk
  simp only [hf]
  exact fun _ => ⟨hpl.le, hpl.literals, hpl.forks, hpl.varRefs, hpl.labels, hpl.stackRefs⟩

theorem addPseudoLabel (h : Grows b st) {value : Nat} (hv : value ≤ 1) (hpos : 0 < st.numBytes) :
    Grows b (addPseudoLabel value st) :=
  h.addKnownLabel rfl hpos fun hw _ => pseudo_placed hw hv hpos ⟨rfl, rfl, rfl, rfl, rfl⟩

theorem addStackRef (h : Grows b st) (index : Nat) (hpos : 0 < st.numBytes)
    (hi : WF st → WF b → index ≤ st.maxStack) : Grows b (addStackRef index st) :=
  h.adds (addStackRef_adds index st) hpos fun hw hb => hi hw hb

theorem pushStack (h : Grows b st) (n : Nat) : Grows b (pushStack n st) :=
  h.trans ⟨Le.pushStack n st, fun _ _ => id, fun hw => hw.pushStack n⟩

theorem popStack (h : Grows b st) (n : Nat) : Grows b (popStack n st) :=
  h.trans ⟨Le.popStack n st, fun _ _ => id, fun hw => hw.popStack n⟩

theorem saveStackTop (h : Grows b st) : Grows b (saveStackTop st).2 :=
  h.trans ⟨Le.saveStackTop st, fun _ _ => id, fun hw => hw.saveStackTop⟩

/-- A saved height that an earlier state had is put back. -/
theorem restoreStackTop (h : Grows b st) {s : State} (hs : Grows b s) (hle : Le s st) :
    Grows b (restoreStackTop s.savedStack st) :=
  ⟨h.le.trans (Le.restoreStackTop _ st), fun j f hf => h.keeps j f hf, fun hb =>
    (h.wf hb).restoreStackTop fun i hi => ((hs.wf hb).saved i hi).trans hle.maxStack⟩

theorem withLoops (h : Grows b st) {loops : List Loop} (hl : WF st → WF b → ∀ loop ∈ loops,
    loop.topLabel.kind = .label ∧ loop.topLabel.done = true ∧
      Placed st.keys st.numBytes loop.topLabel ∧
      loop.topStack ≤ st.maxStack ∧ loop.bottomStack ≤ st.maxStack) :
    Grows b { st with loops := loops } :=
  ⟨h.le.trans (Le.loops loops st), h.keeps, fun hb => (h.wf hb).withLoops (hl (h.wf hb) hb)⟩

theorem defineLabel (h : Grows b st) {label : Option Nat} {l : List Nat}
    (hc : LabelChain st.fixups label l)
    (hl : ∀ j ∈ l, b.fixups.length ≤ j) : Grows b (defineLabel label st) := by
  refine ⟨h.le.trans (Le.defineLabel hc), fun j f hf => ?_, fun hb => (h.wf hb).defineLabel hc⟩
  rw [defineLabel_eq hc]
  have hj := (List.getElem?_eq_some_iff.mp hf).1
  have hjl : j ∉ l := fun hm => absurd (hl j hm) (by omega)
  simp only [getElem?_resolveAll, hjl, if_false]
  exact h.keeps j f hf

theorem emitVarOp (h : Grows b st) (short : Fin NUM_READY_VARS → Opcode)
    (long : Opcode) (slot : Nat) :
    Grows b (emitVarOp short long slot st) := by
  unfold CodeGen.emitVarOp
  split
  · exact h.emitOp _
  · exact (h.emitOp _).addVarRef _ (by simp)

theorem emitBinary (h : Grows b st) (kind : BinaryKind) : Grows b (emitBinary kind st) := by
  cases kind with
  | exp => exact h.emitExtendedByte _
  | _ => exact h.emitOp _

end Grows

@[simp] theorem emitVarOp_loops (short : Fin NUM_READY_VARS → Opcode) (long : Opcode)
    (slot : Nat) (st : State) :
    (emitVarOp short long slot st).loops = st.loops := by
  unfold emitVarOp; split <;> rfl

@[simp] theorem emitVarOp_savedStack (short : Fin NUM_READY_VARS → Opcode) (long : Opcode)
    (slot : Nat) (st : State) :
    (emitVarOp short long slot st).savedStack = st.savedStack := by
  unfold emitVarOp; split <;> rfl

@[simp] theorem emitVarOp_curStack (short : Fin NUM_READY_VARS → Opcode) (long : Opcode)
    (slot : Nat) (st : State) :
    (emitVarOp short long slot st).curStack = st.curStack := by
  unfold emitVarOp; split <;> rfl

@[simp] theorem emitBinary_loops (kind : BinaryKind) (st : State) :
    (emitBinary kind st).loops = st.loops := by
  cases kind <;> rfl

@[simp] theorem emitBinary_savedStack (kind : BinaryKind) (st : State) :
    (emitBinary kind st).savedStack = st.savedStack := by
  cases kind <;> rfl

@[simp] theorem emitBinary_curStack (kind : BinaryKind) (st : State) :
    (emitBinary kind st).curStack = st.curStack := by
  cases kind <;> rfl

end CodeGen
end NuMoo
