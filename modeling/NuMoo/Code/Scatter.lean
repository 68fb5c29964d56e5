import NuMoo.Code.Growth
import NuMoo.Code.Layout

/-!
# The code of a scattering assignment

What `generate_expr` emits for `{a, ?b = x, @c} = value`, in the finished vector: the operands of
`EOP_SCATTER`, and the code of the defaults behind them.

Slots that need more than the width of their operands are cut to it.

Results:
1. `Written.targetsAt`: the operands of the targets.
2. `Written.blocksAt`: the defaults, one after the other, each at its label.
3. `ScatterCode.layout`: the whole.
-/

namespace NuMoo
namespace CodeGen

/-- `vet_scatter`: what it counts, and whether it reports an error. -/
def vetScatterFrom : Scatter → (seenRest : Bool) → (count : Nat) → Bool
  | .nil, _, count => !decide (count > 255)
  | .cons kind _ _ next, seenRest, count =>
    if kind = .rest then !seenRest && vetScatterFrom next true (count + 1)
      else vetScatterFrom next seenRest (count + 1)

/-- A target list without an error. -/
def vetScatter (sc : Scatter) : Bool := vetScatterFrom sc false 0

/-- The code of a default: it begins at `start`, at `value` the value is on the stack, and at `next`
the variable has it. -/
structure Block where
  id : Nat
  start : Nat
  value : Nat
  next : Nat
deriving DecidableEq, Repr

/-- Between two positions of the vector stands what `generate_expr` has emitted for an
expression. -/
def CodeOf (fin : State) (pos : Nat → Nat) (e : Expr) (p q : Nat) : Prop :=
  ∃ s s', WF s ∧ generateExpr e s = some s' ∧ Le s' fin ∧ pos s.numBytes = p ∧ pos s'.numBytes = q

/-- `OP_PUT`, or `OP_G_PUT` with the slot cut to the width of its operand. -/
def PutCut (bc : Bytecodes) (slot p q : Nat) : Prop :=
  (∃ h : slot < NUM_READY_VARS, bc.OpAt p (.OP_PUT ⟨slot, h⟩) ∧ q = p + 1) ∨
  (NUM_READY_VARS ≤ slot ∧ bc.OpAt p .OP_G_PUT ∧ bc.OperandAt .varRef (p + 1)
    (slot % 256 ^ bc.numbytesVarName) ∧
    q = p + 1 + bc.numbytesVarName)

/-- The defaults of a scatter stand one after the other. -/
def BlocksAt (bc : Bytecodes) (fin : State) (pos : Nat → Nat) :
    Scatter → List Block → Nat → Nat → Prop
  | .nil, blocks, p, q => blocks = [] ∧ q = p
  | .cons .optional id (.some expr) next, blocks, p, q => ∃ b rest r,
    blocks = b :: rest ∧ b.id = id ∧ b.start = p ∧ CodeOf fin pos expr p b.value ∧
      PutCut bc id b.value r ∧
      bc.OpAt r .OP_POP ∧ b.next = r + 1 ∧ BlocksAt bc fin pos next rest b.next q
  | .cons _ _ _ next, blocks, p, q => BlocksAt bc fin pos next blocks p q

/-- The number of targets with a default. -/
def numDefaults : Scatter → Nat
  | .nil => 0
  | .cons .optional _ (.some _) next => numDefaults next + 1
  | .cons _ _ _ next => numDefaults next

/-- The variables of the targets. -/
def slots : Scatter → List Nat
  | .nil => []
  | .cons _ id _ next => id :: slots next

/-- The targets with their slots cut to a width. -/
def cutTargets (width : Nat) : Scatter → Scatter
  | .nil => .nil
  | .cons kind id expr next => .cons kind (id % 256 ^ width) expr (cutTargets width next)

variable {bc : Bytecodes} {fin st st' : State} {pos : Nat → Nat} {j p q : Nat}

theorem PutCut.putAt {slot : Nat} (h : PutCut bc slot p q)
    (hfit : slot < 256 ^ bc.numbytesVarName) : Shape.PutAt bc slot p q := by
  rcases h with hshort | ⟨hle, hop, hvar, hq⟩
  · exact .inl hshort
  · rw [Nat.mod_eq_of_lt hfit] at hvar
    exact .inr ⟨hle, hop, hvar, hq⟩

/-- What fits is not cut. -/
theorem cutTargets_eq {width : Nat} (targets : Scatter)
    (h : ∀ id ∈ slots targets, id < 256 ^ width) : cutTargets width targets = targets := by
  cases targets with
  | nil => rfl
  | cons kind id expr next =>
    obtain ⟨hid, hnext⟩ := List.forall_mem_cons.mp h
    rw [cutTargets, cutTargets_eq next hnext, Nat.mod_eq_of_lt hid]

/-! ## Labels -/

/-- A label that has been defined at a position of the code. -/
def Settled (fin : State) (j p : Nat) : Prop :=
  ∃ f, fin.fixups[j]? = some f ∧ f.kind = .label ∧ f.done = true ∧ f.value = p

/-- A label is settled where it is defined. -/
theorem Undone.settled (hu : Undone st j) (hle : Le (CodeGen.defineLabel (some j) st) fin) :
    Settled fin j st.numBytes := by
  obtain ⟨f, hf, hk, -, -⟩ := id hu
  have hf' : (CodeGen.defineLabel (some j) st).fixups[j]? = some (st.resolve f) := by
    rw [defineLabel_eq hu.chain]
    simp [getElem?_resolveAll, hf]
  obtain ⟨g, hg, -, -, hsame⟩ := hle.fixups j _ hf'
  obtain rfl := hsame fun _ => rfl
  exact ⟨_, hg, hk, rfl, rfl⟩

/-- The operand of a label that was added is where it is settled. -/
theorem Written.settledAt (img : Written bc fin pos) (hle : Le (addLabel st).2 fin) {p : Nat}
    (hset : Settled fin (addLabel st).1 p) :
    bc.OperandAt .label (pos st.numBytes) (pos p) ∧ pos (st.numBytes + 1) = pos st.numBytes +
      bc.numbytesLabel := by
  obtain ⟨f, hf, hk, hd, rfl⟩ := hset
  have hj : (addLabel st).2.fixups[(addLabel st).1]? = some (st.fixup .label 0 none false) := by
    rw [addLabel_eq, (addLinkedLabel_adds none st).fixups]
    exact List.getElem?_concat_length
  obtain ⟨g, hg, -, hpc, -⟩ := hle.fixups _ _ hj
  rw [hf] at hg
  cases hg
  have hop := img.label f (List.mem_of_getElem? hf) hk hd
  rw [hpc] at hop
  exact ⟨hop, img.labelWidth hle⟩

/-! ## The operands of the targets -/

theorem addTargets_le (targets : Scatter) (hpos : 0 < st.numBytes) :
    Le st (addTargets targets st).2 :=
  (addTargets_grows targets (Grows.refl st) hpos).le

theorem length_addTargets {st : State} (targets : Scatter) :
    (addTargets targets st).1.length = numDefaults targets := by
  cases targets with
  | nil => rfl
  | cons kind id expr next =>
    cases kind with
    | required | rest => exact length_addTargets next
    | optional =>
      cases expr with
      | none => exact length_addTargets next
      | some e =>
        rw [addTargets_default, numDefaults]
        exact congrArg (· + 1) (length_addTargets next)

/-- The operands of the targets, by induction on them: the label of a default is where it is
settled. -/
theorem Written.targetsAt (img : Written bc fin pos) {st : State} (targets : Scatter)
    {labels : List Nat}
    (hle : Le (addTargets targets st).2 fin)
    (hset : List.Forall₂ (fun j p => ∃ q, Settled fin j q ∧ pos q = p)
      (addTargets targets st).1 labels) :
    Shape.TargetsAt bc (cutTargets bc.numbytesVarName targets) labels (pos st.numBytes)
    (pos (addTargets targets st).2.numBytes) := by
  cases targets with
  | nil =>
    rw [addTargets] at hset
    cases hset
    exact ⟨rfl, rfl⟩
  | cons kind id expr next =>
    have hvar : Le (addVarRef id st) fin → bc.OperandAt .varRef (pos st.numBytes)
        (id % 256 ^ bc.numbytesVarName) ∧
        pos (addVarRef id st).numBytes = pos st.numBytes + bc.numbytesVarName := fun hle => by
      rw [addVarRef_numBytes]
      exact img.varRefAt hle
    have hpseudo : ∀ value, Le (addTargets next (addPseudoLabel value (addVarRef id st))).2 fin →
        bc.OperandAt .varRef (pos st.numBytes) (id % 256 ^ bc.numbytesVarName) ∧
          bc.OperandAt .label (pos st.numBytes + bc.numbytesVarName) (pos value) ∧
          pos (addPseudoLabel value (addVarRef id st)).numBytes = pos st.numBytes +
            bc.numbytesVarName + bc.numbytesLabel := by
      intro value hle
      have hpos'' : 0 < (addPseudoLabel value (addVarRef id st)).numBytes := by
        rw [addPseudoLabel_numBytes]
        exact Nat.succ_pos _
      have hle' : Le (addPseudoLabel value (addVarRef id st)) fin :=
        (addTargets_le next hpos'').trans hle
      have hop := hvar ((addKnownLabel_adds rfl (addVarRef id st)).le.trans hle')
      have hlabel := img.pseudoAt hle'
      rw [hop.2] at hlabel
      exact ⟨hop.1, hlabel.1, by rw [addPseudoLabel_numBytes, hlabel.2]⟩
    cases kind with
    | required | rest =>
      obtain ⟨hop, hlabel, hend⟩ := hpseudo 0 hle
      rw [img.zero] at hlabel
      have hnext := targetsAt img next hle hset
      rw [hend] at hnext
      exact ⟨hop, hlabel, hnext⟩
    | optional =>
      cases expr with
      | none =>
        obtain ⟨hop, hlabel, hend⟩ := hpseudo 1 hle
        rw [img.one] at hlabel
        have hnext := targetsAt img next hle hset
        rw [hend] at hnext
        exact ⟨hop, hlabel, hnext⟩
      | some e =>
        rw [addTargets_default] at hle hset ⊢
        cases hset with
        | cons hfirst hset =>
          obtain ⟨q, hq, rfl⟩ := hfirst
          have hpos'' : 0 < (addLabel (addVarRef id st)).2.numBytes := by
            rw [addLabel_eq, addLinkedLabel_numBytes]
            exact Nat.succ_pos _
          have hle' : Le (addLabel (addVarRef id st)).2 fin := (addTargets_le next hpos'').trans hle
          have hop := hvar ((addLinkedLabel_adds none (addVarRef id st)).le.trans hle')
          have hlabel := img.settledAt hle' hq
          rw [hop.2] at hlabel
          have hend : pos (addLabel (addVarRef id st)).2.numBytes = pos st.numBytes +
              bc.numbytesVarName + bc.numbytesLabel := by
            rw [addLabel_eq, addLinkedLabel_numBytes, hlabel.2]
          have hnext := targetsAt img next hle hset
          rw [hend] at hnext
          exact ⟨hop.1, _, _, rfl, hlabel.1, hnext⟩

/-! ## The defaults -/

theorem Written.putAt (img : Written bc fin pos) (hw : WF st) {slot : Nat}
    (hle : Le (emitPut slot st) fin) :
    PutCut bc slot (pos st.numBytes) (pos (emitPut slot st).numBytes) := by
  unfold emitPut emitVarOp at hle ⊢
  by_cases h : slot < NUM_READY_VARS
  · simp only [h, dif_pos] at hle ⊢
    obtain ⟨hop, hp⟩ := img.opAt hw hle
    exact .inl ⟨h, hop, by rw [emitOp_numBytes, hp]⟩
  · simp only [h, dif_neg, not_false_eq_true] at hle ⊢
    obtain ⟨hop, hp⟩ := img.opAt hw ((addVarRef_adds slot _).le.trans hle)
    obtain ⟨hvar, hp'⟩ := img.varRefAt hle
    rw [emitOp_numBytes, hp] at hvar hp'
    exact .inr ⟨Nat.le_of_not_lt h, hop, hvar, by rw [addVarRef_numBytes, emitOp_numBytes, hp']⟩

/-- The state after the code of a default. -/
def storeDefault (id : Nat) (st : State) : State := popStack 1 (emitOp .OP_POP (emitPut id st))

theorem generateDefaults_default (id : Nat) (e : Expr) (next : Scatter)
    (labels : List Nat) (st : State) :
    generateDefaults (.cons .optional id (.some e) next) labels st
      = (generateExpr e (defineLabel labels.head? st)).bind fun s =>
        generateDefaults next labels.tail (storeDefault id s) := by
  rw [generateDefaults]
  rfl

theorem storeDefault_grows (id : Nat) (st : State) : Grows st (storeDefault id st) :=
  (((Grows.refl st).emitPut id).emitOp _).popStack 1

/-- The defaults extend the code, by induction on the targets. -/
theorem generateDefaults_le {targets : Scatter} {labels : List Nat} {st st' : State}
    (h : generateDefaults targets labels st = some st') (hl : ∀ j ∈ labels, Undone st j)
    (hs : labels.Pairwise (· < ·)) : Le st st' := by
  cases targets with
  | nil =>
    rw [generateDefaults] at h
    cases h
    exact Le.refl st
  | cons kind id expr next =>
    cases kind with
    | required | rest =>
      rw [generateDefaults] at h
      · exact generateDefaults_le h hl hs
      · simp
    | optional =>
      cases expr with
      | none =>
        rw [generateDefaults] at h
        · exact generateDefaults_le h hl hs
        · simp
      | some e =>
        rw [generateDefaults_default] at h
        obtain ⟨s, hs', h⟩ := Option.bind_eq_some_iff.mp h
        have hput := (generateExpr_grows hs').trans (storeDefault_grows id s)
        cases labels with
        | nil =>
          rw [List.head?_nil, defineLabel_none] at hput
          exact hput.le.trans (generateDefaults_le h (fun j hj => absurd hj List.not_mem_nil)
            List.Pairwise.nil)
        | cons i labels =>
          obtain ⟨hlt, hs⟩ := List.pairwise_cons.mp hs
          have hi := hl i List.mem_cons_self
          refine ((Le.defineLabel hi.chain).trans hput.le).trans
            (generateDefaults_le h (fun j hj => ?_) hs)
          exact ((hl j (List.mem_cons_of_mem _ hj)).defineLabel hi
            (Nat.ne_of_gt (hlt j hj))).grows hput

/-- The defaults stand one after the other, each where its label is settled; by induction on the
targets. -/
theorem Written.blocksAt (img : Written bc fin pos) (targets : Scatter) {labels : List Nat}
    {st st' : State} (hw : WF st)
    (h : generateDefaults targets labels st = some st') (hlen : labels.length = numDefaults targets)
    (hl : ∀ j ∈ labels, Undone st j) (hs : labels.Pairwise (· < ·)) (hle : Le st' fin) :
    ∃ blocks, BlocksAt bc fin pos targets blocks (pos st.numBytes) (pos st'.numBytes) ∧
      List.Forall₂ (fun j (b : Block) => ∃ q, Settled fin j q ∧ st.numBytes ≤ q ∧ pos q = b.start)
        labels blocks := by
  cases targets with
  | nil =>
    rw [generateDefaults] at h
    cases h
    obtain rfl := List.eq_nil_of_length_eq_zero hlen
    exact ⟨[], ⟨rfl, rfl⟩, .nil⟩
  | cons kind id expr next =>
    cases kind with
    | required | rest =>
      rw [generateDefaults] at h
      · exact blocksAt img next hw h hlen hl hs hle
      · simp
    | optional =>
      cases expr with
      | none =>
        rw [generateDefaults] at h
        · exact blocksAt img next hw h hlen hl hs hle
        · simp
      | some e =>
        cases labels with
        | nil => cases hlen
        | cons i labels =>
          rw [generateDefaults_default] at h
          obtain ⟨s, hgen, h⟩ := Option.bind_eq_some_iff.mp h
          obtain ⟨hlt, hs⟩ := List.pairwise_cons.mp hs
          have hi := hl i List.mem_cons_self
          have hput := (generateExpr_grows hgen).trans (storeDefault_grows id s)
          have hl' : ∀ j ∈ labels, Undone (storeDefault id s) j := fun j hj =>
            ((hl j (List.mem_cons_of_mem _ hj)).defineLabel hi (Nat.ne_of_gt (hlt j hj))).grows hput
          have hle₂ : Le (storeDefault id s) fin := (generateDefaults_le h hl' hs).trans hle
          have hle₁ : Le s fin := (storeDefault_grows id s).le.trans hle₂
          have hw₁ : WF (defineLabel (some i) st) := hw.defineLabel hi.chain
          have hw₂ : WF s := (generateExpr_grows hgen).wf hw₁
          obtain ⟨blocks, hblocks, hstarts⟩ :=
            blocksAt img next ((storeDefault_grows id s).wf hw₂) h (Nat.succ.inj hlen) hl' hs hle
          have hle₀ : Le (emitOp .OP_POP (emitPut id s)) fin := (Le.popStack 1 _).trans hle₂
          have hput' : PutCut bc id (pos s.numBytes) (pos (emitPut id s).numBytes) :=
            img.putAt hw₂ ((Le.emitByte _ _).trans hle₀)
          have hpop := img.opAt (((Grows.refl s).emitPut id).wf hw₂) hle₀
          have hnext : pos (storeDefault id s).numBytes = pos (emitPut id s).numBytes + 1 := by
            rw [← hpop.2]
            exact congrArg pos (emitOp_numBytes _ _)
          have hgrow : st.numBytes ≤ (storeDefault id s).numBytes := by
            rw [← defineLabel_numBytes (some i) st]
            exact hput.le.numBytes_le
          refine ⟨⟨id, pos st.numBytes, pos s.numBytes, pos (storeDefault id s).numBytes⟩ :: blocks,
            ⟨_, _, _, rfl, rfl, rfl, ⟨_, s, hw₁, hgen, hle₁,
              congrArg pos (defineLabel_numBytes _ _), rfl⟩, hput', hpop.1, hnext, hblocks⟩,
            .cons ⟨_, hi.settled ((generateExpr_grows hgen).le.trans hle₁), Nat.le_refl _, rfl⟩
              (hstarts.imp ?_)⟩
          rintro j b ⟨q, hq, hlow, hstart⟩
          exact ⟨q, hq, Nat.le_trans hgrow hlow, hstart⟩

end CodeGen

open CodeGen

/-- The code of a scattering assignment in a finished vector: the states of the generator before it,
before `EOP_SCATTER` and after it, and at the end of the vector. -/
structure ScatterCode (targets : Scatter) (rhs : Expr) where
  before : State
  value : State
  after : State
  last : State
  fin : State
  wf : WF before
  right : generateExpr rhs before = some value
  whole : generateExpr (.asgn (.scatter targets) rhs) before = some after
  le : Le after last
  wfLast : WF last
  finish : finish last = some fin

namespace ScatterCode

variable {targets : Scatter} {rhs : Expr} (c : ScatterCode targets rhs)

/-- The finished vector. -/
def bc : Bytecodes := assemble c.fin

/-- Where `EOP_SCATTER` stands. -/
def start : Nat := position c.fin c.value.numBytes

/-- The end of the assignment. -/
def done : Nat := position c.fin c.after.numBytes

theorem written (hroom : Room c.fin) : Written c.bc c.fin (position c.fin) :=
  assemble_written c.wfLast c.finish hroom

theorem le_fin : Le c.after c.fin := by
  rw [finish_eq c.finish]
  exact c.le.trans (Le.emitByte _ _)

/-- `EOP_SCATTER` with its operands, and the code of the defaults. -/
structure Layout (blocks : List Block) (r : Nat) : Prop where
  op : c.bc.EopAt c.start .EOP_SCATTER
  nargs : c.bc.ByteAt (c.start + 2) (UInt8.ofNat (countTargets targets 0 0 none).1)
  nreq : c.bc.ByteAt (c.start + 3) (UInt8.ofNat (countTargets targets 0 0 none).2.1)
  rest : c.bc.ByteAt (c.start + 4)
    (UInt8.ofNat ((countTargets targets 0 0 none).2.2.getD ((countTargets targets 0 0 none).1 + 1)))
  operands : Shape.TargetsAt c.bc (cutTargets c.bc.numbytesVarName targets)
    (blocks.map Block.start) (c.start + 5) r
  label : c.bc.OperandAt .label r c.done
  defaults : BlocksAt c.bc c.fin (position c.fin) targets blocks (r + c.bc.numbytesLabel) c.done
  starts : ∀ b ∈ blocks, 2 ≤ b.start

theorem wf_fin : WF c.fin := by
  rw [finish_eq c.finish]
  exact c.wfLast.emitByte _

/-- The byte operands of `EOP_SCATTER`. -/
theorem scatterOps (hroom : Room c.fin) (hle : Le (emitScatter targets c.value) c.fin) :
    c.bc.EopAt c.start .EOP_SCATTER ∧ c.bc.ByteAt (c.start + 2)
    (UInt8.ofNat (countTargets targets 0 0 none).1) ∧
      c.bc.ByteAt (c.start + 3) (UInt8.ofNat (countTargets targets 0 0 none).2.1) ∧
      c.bc.ByteAt (c.start + 4)
        (UInt8.ofNat ((countTargets targets 0 0 none).2.2.getD
          ((countTargets targets 0 0 none).1 + 1))) ∧
      position c.fin (emitScatter targets c.value).numBytes = c.start + 5 := by
  have hw : WF c.value := (generateExpr_grows c.right).wf c.wf
  have hle₃ := (Le.emitByte _ _).trans hle
  have hle₂ := (Le.emitByte _ _).trans hle₃
  have hle₁ := (Le.emitByte _ _).trans hle₂
  have hw₁ : WF (emitExtendedByte .EOP_SCATTER c.value) :=
    ((Grows.refl c.value).emitExtendedByte _).wf hw
  obtain ⟨hop, hp₁⟩ := (c.written hroom).eopAt hw hle₁
  obtain ⟨hn, hp₂⟩ := (c.written hroom).byteAt hw₁ hle₂
  obtain ⟨hr, hp₃⟩ := (c.written hroom).byteAt (hw₁.emitByte _) hle₃
  obtain ⟨hs, hp₄⟩ := (c.written hroom).byteAt ((hw₁.emitByte _).emitByte _) hle
  simp only [emitByte_numBytes, emitExtendedByte_numBytes, hp₁] at hn hr hs hp₂ hp₃ hp₄
  rw [hp₂] at hr hp₃
  rw [hp₃] at hs hp₄
  refine ⟨hop, hn, hr, hs, ?_⟩
  rw [emitScatter, emitByte_numBytes, emitByte_numBytes, emitByte_numBytes,
    emitExtendedByte_numBytes, hp₄]
  rfl

/-- Each default has a label. -/
theorem exists_label {R : Nat → Block → Prop} {labels : List Nat} {blocks : List Block} {b : Block}
    (h : List.Forall₂ R labels blocks)
    (hb : b ∈ blocks) : ∃ j, R j b := by
  induction h with
  | nil => cases hb
  | cons hr _ ih =>
    rcases List.mem_cons.mp hb with rfl | hb
    · exact ⟨_, hr⟩
    · exact ih hb

theorem Settled.le {fin : State} {j p : Nat} (h : Settled fin j p) (hw : WF fin) :
    p ≤ fin.numBytes := by
  obtain ⟨f, hf, hk, hd, rfl⟩ := h
  have hval := hw.values f (List.mem_of_getElem? hf)
  rw [ValueOk, hk] at hval
  exact (hval hd).le

theorem layout (hroom : Room c.fin) : ∃ blocks r, c.Layout blocks r := by
  have h := c.whole
  rw [generateExpr_scatter, c.right, Option.bind_eq_bind, Option.bind_some] at h
  obtain ⟨u, hu, hafter⟩ := Option.bind_eq_some_iff.mp h
  replace hafter := Option.some.inj hafter
  have hpos := emitScatter_pos targets c.value
  have hvalue : WF c.value := (generateExpr_grows c.right).wf c.wf
  have htargets := addTargets_grows targets (Grows.refl (emitScatter targets c.value)) hpos
  have hpos' := htargets.numBytes_pos hpos
  obtain ⟨hlabels, hsorted⟩ := addTargets_labels targets hpos
  have hdone := undone_addLabel (addTargets targets (emitScatter targets c.value)).2
  have hnew := (Grows.refl (addTargets targets (emitScatter targets c.value)).2).addLabel hpos'
  have hundone := fun j hj => (hlabels j hj).2.grows hnew
  have hkept :=
    (generateDefaults_grows hu (htargets.trans hnew) (fun j hj => ⟨(hlabels j hj).1, hundone j hj⟩)
      hsorted).2 _ hdone
    fun hj => absurd (hlabels _ hj).2.lt_length (Nat.lt_irrefl _)
  -- Each state extends the ones before it, up to the end of the vector.
  have hle₄ :
      Le (defineLabel (some (addLabel (addTargets targets (emitScatter targets c.value)).2).1) u)
        c.fin :=
    hafter ▸ c.le_fin
  have hle₃ : Le u c.fin := (Le.defineLabel hkept.chain).trans hle₄
  have hle₂ := (generateDefaults_le hu hundone hsorted).trans hle₃
  have hle₁ := hnew.le.trans hle₂
  obtain ⟨hop, hnargs, hnreq, hrest, hend⟩ := c.scatterOps hroom (htargets.le.trans hle₁)
  have hw : WF (addLabel (addTargets targets (emitScatter targets c.value)).2).2 :=
    hnew.wf (htargets.wf ((emitScatter_grows targets (Grows.refl _)).wf hvalue))
  obtain ⟨blocks, hblocks, hstarts⟩ :=
    (c.written hroom).blocksAt targets hw hu (length_addTargets targets) hundone hsorted hle₃
  have hoperands := (c.written hroom).targetsAt targets hle₁
    (List.forall₂_map_right_iff.mpr (hstarts.imp fun j b ⟨q, hq, _, hstart⟩ => ⟨q, hq, hstart⟩))
  have hlabel := (c.written hroom).settledAt hle₂ (hkept.settled hle₄)
  have hu' : position c.fin u.numBytes = c.done := by
    rw [done, ← hafter, defineLabel_numBytes]
  have hbytes : (addLabel (addTargets targets (emitScatter targets c.value)).2).2.numBytes
      = (addTargets targets (emitScatter targets c.value)).2.numBytes + 1 := by
        rw [addLabel_eq, addLinkedLabel_numBytes]
  rw [hend] at hoperands
  rw [hu'] at hlabel hblocks
  rw [hbytes, hlabel.2] at hblocks
  refine ⟨blocks, _, hop, hnargs, hnreq, hrest, hoperands, hlabel.1, hblocks, fun b hb => ?_⟩
  obtain ⟨j, q, hq, hlow, hstart⟩ := exists_label hstarts hb
  rw [← hstart]
  have htwo : 2 ≤ q := by
    rw [hbytes] at hlow
    exact Nat.le_trans (Nat.succ_le_succ hpos') hlow
  exact Nat.le_trans htwo (le_position (Settled.le hq c.wf_fin))

theorem wf_initState (gstate : GState) : WF (initState gstate) where
  sorted := List.Pairwise.nil
  pcs k hk := by cases hk
  literals := rfl
  forks := rfl
  varRefs := rfl
  labels := rfl
  stackRefs := rfl
  values f hf := by cases hf
  cur := Nat.le_refl _
  saved s hs := by cases hs
  loops loop hloop := by cases hloop

/-- The state after a statement that is an expression, at the end of the vector. -/
def exprLast (after : State) : State := popStack 1 (emitOp .OP_POP after)

/-- The code of an assignment that is the only statement of a verb. -/
def sole (targets : Scatter) (rhs : Expr) {value after : State}
    (right : generateExpr rhs (initState initGState) = some value)
    (whole : generateExpr (.asgn (.scatter targets) rhs) (initState initGState) = some after)
    (cur : (emitOp .OP_DONE (exprLast after)).curStack = 0)
    (saved : (emitOp .OP_DONE (exprLast after)).savedStack = none) :
    ScatterCode targets rhs where
  before := initState initGState
  value := value
  after := after
  last := exprLast after
  fin := emitOp .OP_DONE (exprLast after)
  wf := wf_initState _
  right := right
  whole := whole
  le := (Le.emitByte _ _).trans (Le.popStack 1 _)
  wfLast := (((generateExpr_grows whole).emitOp .OP_POP).popStack 1).wf (wf_initState _)
  finish := finish_of cur saved

end ScatterCode
end NuMoo
