import NuMoo.Code.Emit
import NuMoo.Code.Shape

/-!
# What a finished vector holds of the emitted code

An image relates the code that was emitted, where each operand is one placeholder,
to a vector where operands have their final widths: `pos` sends a position of the
first to one of the second.

Results: for each operation of the generator, what stands in the vector if the final
state extends the state after the operation.
-/

namespace NuMoo
namespace CodeGen

/-- The vector holds the code of a final state, with operands at their final widths. An operand that
is no label is cut to the width of its kind. -/
structure Written (bc : Bytecodes) (fin : State) (pos : Nat → Nat) : Prop where
  byte : ∀ i b, fin.bytes[i]? = some b → (∀ k ∈ fin.keys, k.2 ≠ i) →
    bc.ByteAt (pos i) b ∧ pos (i + 1) = pos i + 1
  width : ∀ f ∈ fin.fixups, pos (f.pc + 1) = pos f.pc + bc.width f.kind
  label : ∀ f ∈ fin.fixups, f.kind = .label → f.done = true →
    bc.OperandAt .label (pos f.pc) (pos f.value)
  other : ∀ f ∈ fin.fixups, f.kind ≠ .label →
    bc.OperandAt f.kind (pos f.pc) (f.value % 256 ^ bc.width f.kind)
  zero : pos 0 = 0
  one : pos 1 = 1

/-- The vector is one of a program, and none of its operands is cut. -/
structure Image (prog : Program) (bc : Bytecodes) (fin : State) (pos : Nat → Nat) :
    Prop extends Written bc fin pos where
  fits : ∀ f ∈ fin.fixups, f.kind ≠ .label → f.value < 256 ^ bc.width f.kind
  literals : fin.gstate.literals <+: prog.literals
  forks : fin.gstate.forkVectors <+: prog.forkVectors
  maxStack : fin.maxStack ≤ bc.maxStack

/-- A fixup that was added is still there. -/
theorem mem_of_adds {st st' fin : State} {f : Fixup} (ha : Adds st st' f) (hle : Le st' fin) :
    ∃ f' ∈ fin.fixups, f'.kind = f.kind ∧ f'.pc = st.numBytes ∧
      ((f.kind = .label → f.done = true) → f' = f) := by
  have hf : st'.fixups[st.fixups.length]? = some f := by rw [ha.fixups]; simp
  obtain ⟨f', hf', hk, hp, hd⟩ := hle.fixups _ _ hf
  exact ⟨f', List.mem_of_getElem? hf', hk, hp.trans ha.pc, hd⟩

namespace Written

variable {bc : Bytecodes} {fin : State} {pos : Nat → Nat} {st st' : State}

theorem byteAt (img : Written bc fin pos) (hw : WF st) {b : UInt8} (hle : Le (emitByte b st) fin) :
    bc.ByteAt (pos st.numBytes) b ∧ pos (st.numBytes + 1) = pos st.numBytes + 1 := by
  refine img.byte _ _ ?_ ?_
  · have hb : (emitByte b st).bytes[st.numBytes]? = some b := by simp [emitByte, State.numBytes]
    obtain ⟨more, hm⟩ := hle.bytes
    rw [← hm, List.getElem?_append_left (by simp [emitByte, State.numBytes]), hb]
  · intro k hk
    obtain ⟨f, hf, rfl⟩ := List.mem_map.mp hk
    obtain ⟨j, hj⟩ := List.mem_iff_getElem?.mp hf
    rcases Nat.lt_or_ge j st.fixups.length with hlt | hge
    · obtain ⟨f', hf', _, hp, _⟩ := hle.fixups j _ (List.getElem?_eq_getElem hlt)
      rw [hj] at hf'
      cases hf'
      have := (hw.pcs _ (List.mem_map_of_mem (List.getElem_mem hlt))).2
      have hpc : f.pc < st.numBytes := by rw [hp]; exact this
      change f.pc ≠ st.numBytes
      omega
    · have := hle.later j f hge hj
      rw [emitByte_numBytes] at this
      change f.pc ≠ st.numBytes
      omega

theorem opAt (img : Written bc fin pos) (hw : WF st) {op : Opcode} (hle : Le (emitOp op st) fin) :
    bc.OpAt (pos st.numBytes) op ∧ pos (st.numBytes + 1) = pos st.numBytes + 1 := img.byteAt hw hle

theorem eopAt (img : Written bc fin pos) (hw : WF st) {op : ExtendedOpcode}
    (hle : Le (emitExtendedByte op st) fin) :
    bc.EopAt (pos st.numBytes) op ∧ pos (st.numBytes + 2) = pos st.numBytes + 2 := by
  obtain ⟨h1, hp1⟩ := img.opAt hw ((Le.emitByte _ _).trans hle)
  obtain ⟨h2, hp2⟩ := img.byteAt (hw.emitByte _) hle
  change bc.ByteAt (pos (emitOp _ st).numBytes) _ at h2
  change pos ((emitOp _ st).numBytes + 1) = pos (emitOp _ st).numBytes + 1 at hp2
  rw [emitOp_numBytes, hp1] at h2 hp2
  exact ⟨⟨h1, h2⟩, hp2⟩

theorem width_of_adds (img : Written bc fin pos) {f : Fixup} (ha : Adds st st' f)
    (hle : Le st' fin) :
    pos (st.numBytes + 1) = pos st.numBytes + bc.width f.kind := by
  obtain ⟨f', hf', hk, hp, _⟩ := mem_of_adds ha hle
  rw [← hp, ← hk]
  exact img.width f' hf'

theorem labelWidth (img : Written bc fin pos) {next : Option Nat}
    (hle : Le (addLinkedLabel next st).2 fin) :
    pos (st.numBytes + 1) = pos st.numBytes + bc.numbytesLabel :=
  img.width_of_adds (addLinkedLabel_adds next st) hle

theorem knownAt (img : Written bc fin pos) {f : Fixup} (hf : f.kind = .label) (hd : f.done = true)
    (hle : Le (addKnownLabel f st) fin) :
    bc.OperandAt .label (pos st.numBytes) (pos f.value) ∧ pos (st.numBytes + 1) = pos st.numBytes +
      bc.numbytesLabel := by
  have ha := addKnownLabel_adds hf st
  obtain ⟨f', hf', hk, hp, he⟩ := mem_of_adds ha hle
  obtain rfl := he fun _ => hd
  have hwd := img.width_of_adds ha hle
  dsimp only at hf hd hp hwd
  rw [hf] at hwd
  rw [← hp]
  exact ⟨img.label _ hf' hf hd, hp ▸ hwd⟩

theorem pseudoAt (img : Written bc fin pos) {value : Nat} (hle : Le (addPseudoLabel value st) fin) :
    bc.OperandAt .label (pos st.numBytes) (pos value) ∧ pos (st.numBytes + 1) = pos st.numBytes +
      bc.numbytesLabel :=
  img.knownAt rfl rfl hle

/-- A label of the chain that `define_label` runs through has the position of the definition. -/
theorem resolvedAt (img : Written bc fin pos) {label : Option Nat} {l : List Nat}
    (hc : LabelChain st.fixups label l) {j : Nat} (hj : j ∈ l) {f : Fixup}
    (hf : st.fixups[j]? = some f)
    (hle : Le (defineLabel label st) fin) : bc.OperandAt .label (pos f.pc) (pos st.numBytes) := by
  have hf' : (defineLabel label st).fixups[j]? = some (st.resolve f) := by
    rw [defineLabel_eq hc]
    simp [getElem?_resolveAll, hj, hf]
  obtain ⟨g, hg, hk, _⟩ := hc.undone hj
  rw [hf] at hg
  cases hg
  obtain ⟨f'', hf'', _, _, hd⟩ := hle.fixups _ _ hf'
  obtain rfl := hd fun _ => rfl
  exact img.label _ (List.mem_of_getElem? hf'') hk rfl

/-- The operand of a variable is its slot, cut to the width. -/
theorem varRefAt (img : Written bc fin pos) {slot : Nat} (hle : Le (addVarRef slot st) fin) :
    bc.OperandAt .varRef (pos st.numBytes) (slot % 256 ^ bc.numbytesVarName) ∧
      pos (st.numBytes + 1) = pos st.numBytes + bc.numbytesVarName := by
  have ha := addVarRef_adds slot st
  obtain ⟨f', hf', -, hp, he⟩ := mem_of_adds ha hle
  obtain rfl := he FixupKind.noConfusion
  have hop := img.other _ hf' FixupKind.noConfusion
  rw [hp] at hop
  exact ⟨hop, img.width_of_adds ha hle⟩

end Written

namespace Image

variable {prog : Program} {bc : Bytecodes} {fin : State} {pos : Nat → Nat} {st st' : State}

/-- An operand that is not cut. -/
theorem operand (img : Image prog bc fin pos) (f : Fixup) (hf : f ∈ fin.fixups)
    (hd : f.kind = .label → f.done = true) :
    bc.OperandAt f.kind (pos f.pc) (if f.kind = .label then pos f.value else f.value) := by
  by_cases hk : f.kind = .label
  · rw [if_pos hk, hk]
    exact img.label f hf hk (hd hk)
  · have hop := img.other f hf hk
    rw [Nat.mod_eq_of_lt (img.fits f hf hk)] at hop
    rw [if_neg hk]
    exact hop

theorem operand_of_adds (img : Image prog bc fin pos) {f : Fixup} (ha : Adds st st' f)
    (hle : Le st' fin)
    (hd : f.kind = .label → f.done = true) :
    bc.OperandAt f.kind (pos st.numBytes) (if f.kind = .label then pos f.value else f.value) := by
  obtain ⟨f', hf', hk, hp, he⟩ := mem_of_adds ha hle
  obtain rfl := he hd
  rw [← hp]
  exact img.operand f' hf' hd

theorem varRefAt (img : Image prog bc fin pos) {slot : Nat} (hle : Le (addVarRef slot st) fin) :
    bc.OperandAt .varRef (pos st.numBytes) slot ∧ pos (st.numBytes + 1) = pos st.numBytes +
      bc.numbytesVarName :=
  ⟨img.operand_of_adds (addVarRef_adds slot st) hle (by simp [State.fixup]),
    img.width_of_adds (addVarRef_adds slot st) hle⟩

theorem stackRefAt (img : Image prog bc fin pos) {index : Nat}
    (hle : Le (addStackRef index st) fin) :
    bc.OperandAt .stack (pos st.numBytes) index ∧ pos (st.numBytes + 1) = pos st.numBytes +
      bc.numbytesStack :=
  ⟨img.operand_of_adds (addStackRef_adds index st) hle (by simp [State.fixup]),
    img.width_of_adds (addStackRef_adds index st) hle⟩

theorem literalAt (img : Image prog bc fin pos) {v : Var} (hle : Le (addLiteral v st) fin) :
    (∃ i w, bc.OperandAt .literal (pos st.numBytes) i ∧ prog.literals[i]? = some w ∧
      (w = v ∨ sameLiteral v w = true)) ∧
      pos (st.numBytes + 1) = pos st.numBytes + bc.numbytesLiteral := by
  have ha := addLiteral_adds v st
  obtain ⟨w, hw, hs⟩ := internLiteral_getElem? v st.gstate.literals
  refine ⟨⟨_, w, img.operand_of_adds ha hle (by simp [State.fixup]), ?_, hs⟩,
    img.width_of_adds ha hle⟩
  obtain ⟨more, hm⟩ := hle.literals.trans img.literals
  rw [← hm]
  exact (List.getElem?_append_left (List.getElem?_eq_some_iff.mp hw).1).trans hw

theorem forkAt (img : Image prog bc fin pos) {b : Bytecodes} (hle : Le (addFork b st) fin) :
    (∃ i, bc.OperandAt .fork (pos st.numBytes) i ∧ prog.forkVectors[i]? = some b) ∧
      pos (st.numBytes + 1) = pos st.numBytes + bc.numbytesFork := by
  have ha := addFork_adds b st
  refine ⟨⟨_, img.operand_of_adds ha hle (by simp [State.fixup]), ?_⟩, img.width_of_adds ha hle⟩
  obtain ⟨more, hm⟩ := hle.forks.trans img.forks
  rw [← hm]
  change (st.gstate.forkVectors ++ [b] ++ more)[st.gstate.forkVectors.length]? = some b
  simp

theorem varOpAt (img : Image prog bc fin pos) (hw : WF st) {short : Fin NUM_READY_VARS → Opcode}
    {long : Opcode}
    {slot : Nat} (hle : Le (emitVarOp short long slot st) fin) :
    Shape.VarOpAt bc short long slot (pos st.numBytes)
    (pos (emitVarOp short long slot st).numBytes) := by
  unfold emitVarOp at hle ⊢
  by_cases h : slot < NUM_READY_VARS
  · simp only [h, dif_pos] at hle ⊢
    obtain ⟨ho, hp⟩ := img.opAt hw hle
    exact .inl ⟨h, ho, by rw [emitOp_numBytes, hp]⟩
  · simp only [h, dif_neg, not_false_eq_true] at hle ⊢
    obtain ⟨ho, hp⟩ := img.opAt hw ((addVarRef_adds slot _).le.trans hle)
    obtain ⟨hv, hp'⟩ := img.varRefAt hle
    rw [emitOp_numBytes, hp] at hv hp'
    exact .inr ⟨by omega, ho, hv, by rw [addVarRef_numBytes, emitOp_numBytes, hp']⟩

theorem binaryAt (img : Image prog bc fin pos) (hw : WF st) {kind : BinaryKind}
    (hle : Le (emitBinary kind st) fin) :
    Shape.BinaryAt bc kind (pos st.numBytes) (pos (emitBinary kind st).numBytes) := by
  have hop : ∀ op, Le (emitOp op st) fin →
      bc.OpAt (pos st.numBytes) op ∧ pos (emitOp op st).numBytes = pos st.numBytes + 1 := by
    intro op hle
    obtain ⟨ho, hp⟩ := img.opAt hw hle
    exact ⟨ho, by rw [emitOp_numBytes, hp]⟩
  cases kind with
  | exp =>
    obtain ⟨ho, hp⟩ := img.eopAt hw hle
    exact ⟨ho, by rw [← hp]; exact congrArg pos (emitExtendedByte_numBytes _ _)⟩
  | _ => exact hop _ hle

end Image

end CodeGen
end NuMoo
