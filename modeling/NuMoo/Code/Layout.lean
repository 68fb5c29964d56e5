import NuMoo.Code.Image
import NuMoo.Lib.Assemble

/-!
# The layout of a finished vector

The pass of `stmt_to_code` over the placeholders. If every operand fits in the width that is
chosen for its kind, the vector that it writes is an image of the code.

Results:
1. `fixupPass_eq`: the pass writes the cells of the vector one after the other.
2. `relocate_eq`: a label that is placed is relocated to where its target begins.
3. `assemble_image`: the vector holds the code.
-/

namespace NuMoo
namespace CodeGen

open Assemble

/-- What the pass writes for a byte: the operand for a placeholder, and otherwise the byte. -/
def cellBytes (bc : Bytecodes) (fixups : List Fixup) (x : UInt8 × Nat) : List UInt8 :=
  match fixups.find? fun f => f.pc = x.2 with
  | some f => fixupBytes bc f
  | none => [x.1]

/-- What an operand has in excess of its placeholder. -/
def cellExtra (bc : Bytecodes) (fixups : List Fixup) (x : UInt8 × Nat) : Nat :=
  match fixups.find? fun f => f.pc = x.2 with
  | some f => bc.width f.kind - 1
  | none => 0

/-- The number of bytes that the pass writes for a byte. -/
def cellSize (bc : Bytecodes) (fixups : List Fixup) (x : UInt8 × Nat) : Nat :=
  1 + cellExtra bc fixups x

/-- Where the code at a position begins in the finished vector. -/
def position (fin : State) (p : Nat) : Nat :=
  offset (cellSize (header fin) fin.fixups) fin.bytes.zipIdx p

/-- The size of the vector, not reduced to the range of `unsigned`. -/
def fullSize (st : State) : Nat :=
  st.numBytes + (st.numLiterals * ((header st).numbytesLiteral - 1) + st.numForks *
    ((header st).numbytesFork - 1)
    + st.numVarRefs * ((header st).numbytesVarName - 1) + st.numLabels *
      ((header st).numbytesLabel - 1))

/-- There is room for what the pass writes: the size is an `unsigned`, and stack heights, which it
does not count, take one byte. -/
structure Room (st : State) : Prop where
  size : fullSize st < UINT_RANGE
  stackRefs : ∀ f ∈ st.fixups, f.kind = .stack → (header st).numbytesStack = 1

/-- A slot fits in the operand of a variable, whose width is chosen from the greatest slot and the
number of references: 256 does not fit if that is the greatest slot and there are no more than 256
references. -/
def SlotFits (st : State) (slot : Nat) : Prop :=
  slot < 256 ^ refSize (max st.maxVarRef st.gstate.totalVarRefs)

instance (st : State) (slot : Nat) : Decidable (SlotFits st slot) := Nat.decLt _ _

/-- The widths suffice: every operand but a label fits in that of its kind. -/
structure Fits (st : State) : Prop extends Room st where
  operands : ∀ f ∈ st.fixups, f.kind ≠ .label → f.value < 256 ^ (header st).width f.kind

variable {bc : Bytecodes} {fixups : List Fixup} {f : Fixup} {st last fin : State} {p : Nat}

/-! ## Widths -/

/-- The sizes that an operand may have. -/
def IsWidth (n : Nat) : Prop := n = 1 ∨ n = 2 ∨ n = 4

theorem refSize_isWidth (rmax : Nat) : IsWidth (refSize rmax) := by
  unfold refSize
  split
  · exact .inl rfl
  · split
    · exact .inr (.inl rfl)
    · exact .inr (.inr rfl)

theorem labelSize_isWidth (size numLabels : Nat) : IsWidth (labelSize size numLabels) := by
  unfold labelSize
  split
  · exact .inl rfl
  · split
    · exact .inr (.inl rfl)
    · exact .inr (.inr rfl)

theorem header_width (st : State) (kind : FixupKind) : IsWidth ((header st).width kind) := by
  cases kind with
  | label => exact labelSize_isWidth _ _
  | _ => exact refSize_isWidth _

theorem IsWidth.pos {n : Nat} (h : IsWidth n) : 0 < n := by
  rcases h with rfl | rfl | rfl <;> decide

theorem writeBytes_eq {n : Nat} (h : IsWidth n) (value : Nat) :
    writeBytes n value = bigEndian n value := by
  rcases h with rfl | rfl | rfl
  · rfl
  · simp only [writeBytes, bigEndian, List.nil_append, List.cons_append, Nat.shiftRight_eq_div_pow]
  · simp only [writeBytes, bigEndian, List.nil_append, List.cons_append, Nat.shiftRight_eq_div_pow,
      Nat.div_div_eq_div_mul]

theorem fixupBytes_length (st : State) (f : Fixup) :
    (fixupBytes (header st) f).length = (header st).width f.kind := by
  rw [fixupBytes, writeBytes_eq (header_width st f.kind), length_bigEndian]

/-! ## The pass -/

theorem find?_eq_none (hpc : ∀ f ∈ fixups, p ≠ f.pc) : (fixups.find? fun f => f.pc = p) = none := by
  refine List.find?_eq_none.mpr fun f hf h => hpc f hf ?_
  exact (decide_eq_true_iff.mp h).symm

/-- The positions of operands are distinct. -/
theorem find?_of_mem (hs : fixups.Pairwise fun f g => f.pc < g.pc) (hf : f ∈ fixups) :
    (fixups.find? fun g => g.pc = f.pc) = some f := by
  induction fixups with
  | nil => cases hf
  | cons g fixups ih =>
    obtain ⟨hlt, hs⟩ := List.pairwise_cons.mp hs
    rcases List.mem_cons.mp hf with rfl | hf
    · rw [List.find?_cons_of_pos (by simp)]
    · have hne : g.pc ≠ f.pc := Nat.ne_of_lt (hlt f hf)
      rw [List.find?_cons_of_neg (by simpa using hne)]
      exact ih hs hf

/-- The pass writes one cell after the other, by induction on the bytes. -/
theorem fixupPass_eq {bytes : List UInt8} (hs : fixups.Pairwise fun f g => f.pc < g.pc)
    (hp : ∀ f ∈ fixups, p ≤ f.pc) :
    fixupPass bc p bytes fixups = (bytes.zipIdx p).flatMap (cellBytes bc fixups) := by
  induction bytes generalizing p fixups with
  | nil => cases fixups <;> rfl
  | cons b bytes ih =>
    rw [List.zipIdx_cons, List.flatMap_cons]
    cases fixups with
    | nil =>
      rw [fixupPass, ih List.Pairwise.nil (fun f hf => by cases hf)]
      rfl
    | cons f fixups =>
      obtain ⟨hlt, hs'⟩ := List.pairwise_cons.mp hs
      have hle := hp f List.mem_cons_self
      rw [fixupPass]
      split
      · next hpc =>
        have hrest : ∀ g ∈ fixups, p + 1 ≤ g.pc := fun g hg => by
          have hlt := hlt g hg
          rw [hpc] at hlt
          exact hlt
        rw [ih hs' hrest]
        congr 1
        · rw [cellBytes, List.find?_cons_of_pos (by simpa using hpc)]
        · -- None of the later cells is that of the operand.
          refine List.flatMap_congr fun x hx => ?_
          have hx' := (List.mem_zipIdx hx).1
          have hne : f.pc ≠ x.2 := by rw [hpc]; exact Nat.ne_of_lt hx'
          rw [cellBytes, cellBytes, List.find?_cons_of_neg (by simpa using hne)]
      · next hpc =>
        have hrest : ∀ g ∈ f :: fixups, p + 1 ≤ g.pc := by
          intro g hg
          have hlt' : p < f.pc := Nat.lt_of_le_of_ne hle (Ne.symm hpc)
          rcases List.mem_cons.mp hg with rfl | hg
          · exact hlt'
          · exact Nat.lt_trans hlt' (hlt g hg)
        rw [ih hs hrest, cellBytes, find?_eq_none fun g hg => Nat.ne_of_lt (hrest g hg)]
        rfl

theorem WF.fixups_sorted (hw : WF st) : st.fixups.Pairwise fun f g => f.pc < g.pc := by
  have hs := hw.sorted
  rwa [State.keys, List.pairwise_map] at hs

theorem assemble_vector (hw : WF st) :
    (assemble st).vector = st.bytes.zipIdx.flatMap (cellBytes (header st) st.fixups) :=
  fixupPass_eq hw.fixups_sorted fun _ _ => Nat.zero_le _

theorem cellBytes_length (st : State) (x : UInt8 × Nat) :
    (cellBytes (header st) st.fixups x).length = cellSize (header st) st.fixups x := by
  unfold cellBytes cellSize cellExtra
  cases st.fixups.find? fun f => f.pc = x.2 with
  | none => rfl
  | some f =>
    exact (fixupBytes_length st f).trans (Nat.add_sub_cancel' (header_width st f.kind).pos).symm

theorem cell_getElem? {b : UInt8} (hb : st.bytes[p]? = some b) :
    st.bytes.zipIdx[p]? = some (b, p) := by
  rw [List.getElem?_zipIdx, hb]
  simp

/-- At the position of a byte of the code stands its cell. -/
theorem cell_at (hw : WF st) {b : UInt8} (hb : st.bytes[p]? = some b) :
    ((assemble st).vector.drop (position st p)).take (cellSize (header st) st.fixups (b, p)) =
      cellBytes (header st) st.fixups (b, p) := by
  rw [assemble_vector hw]
  exact segment (fun x _ => cellBytes_length st x) (cell_getElem? hb)

theorem position_succ {b : UInt8} (hb : st.bytes[p]? = some b) :
    position st (p + 1) = position st p + cellSize (header st) st.fixups (b, p) :=
  offset_succ (cell_getElem? hb)

theorem position_eq_add (hp : p ≤ st.numBytes) :
    position st p = p + offset (cellExtra (header st) st.fixups) st.bytes.zipIdx p :=
  offset_eq_add (fun _ _ => rfl) (by rwa [List.length_zipIdx])

theorem le_position (hp : p ≤ st.numBytes) : p ≤ position st p := by
  rw [position_eq_add hp]
  exact Nat.le_add_right _ _

theorem position_lt (hp : p < st.numBytes) : position st p < position st st.numBytes :=
  offset_lt_offset (fun _ _ => Nat.lt_of_lt_of_le Nat.zero_lt_one (Nat.le_add_right 1 _)) hp
    (by rwa [List.length_zipIdx])

/-! ## Labels -/

/-- The operands of a kind at a position. -/
theorem countP_at (hs : fixups.Pairwise fun f g => f.pc < g.pc) (kind : FixupKind) (p : Nat) :
    (fixups.countP fun f => f.kind = kind ∧ f.pc = p)
      = match fixups.find? fun f => f.pc = p with
        | some f => if f.kind = kind then 1 else 0
        | none => 0 := by
  induction fixups with
  | nil => rfl
  | cons f fixups ih =>
    obtain ⟨hlt, hs⟩ := List.pairwise_cons.mp hs
    by_cases hpc : f.pc = p
    · have hnone : (fixups.countP fun f => f.kind = kind ∧ f.pc = p) = 0 := by
        refine List.countP_eq_zero.mpr fun g hg h => ?_
        have heq : g.pc = p := (decide_eq_true_iff.mp h).2
        exact absurd (hlt g hg) (by rw [hpc, heq]; exact Nat.lt_irrefl p)
      rw [List.find?_cons_of_pos (by simpa using hpc), List.countP_cons, hnone, Nat.zero_add]
      simp [hpc]
    · rw [List.find?_cons_of_neg (by simpa using hpc), List.countP_cons, ih hs]
      simp [hpc]

theorem countP_lt_succ (fixups : List Fixup) (kind : FixupKind) (p : Nat) :
    (fixups.countP fun f => f.kind = kind ∧ f.pc < p + 1)
      = (fixups.countP fun f => f.kind = kind ∧ f.pc < p) + fixups.countP fun f =>
        f.kind = kind ∧ f.pc = p := by
  induction fixups with
  | nil => rfl
  | cons f fixups ih =>
    have hone : (if f.kind = kind ∧ f.pc < p + 1 then 1 else 0)
        = (if f.kind = kind ∧ f.pc < p then 1 else 0) +
          (if f.kind = kind ∧ f.pc = p then 1 else 0) := by
      rcases Nat.lt_trichotomy f.pc p with hlt | heq | hlt
      · simp [hlt, Nat.lt_succ_of_lt hlt, Nat.ne_of_lt hlt]
      · simp [heq]
      · have hge : ¬ f.pc < p + 1 := Nat.not_lt.mpr hlt
        simp [hge, Nat.not_lt.mpr (Nat.le_of_lt hlt), Nat.ne_of_gt hlt]
    simp only [List.countP_cons, ih, decide_eq_true_eq, hone]
    omega

theorem before_succ (hw : WF st) (kind : FixupKind) (p : Nat) :
    before st.keys kind (p + 1) = before st.keys kind p + match st.fixups.find? fun f =>
      f.pc = p with
      | some f => if f.kind = kind then 1 else 0
      | none => 0 := by
  rw [← countP_at hw.fixups_sorted, before, before, State.keys, List.countP_map, List.countP_map]
  exact countP_lt_succ st.fixups kind p

/-- What the operands before a position have in excess: stack heights have nothing. -/
def excess (st : State) (p : Nat) : Nat :=
  before st.keys .literal p * ((header st).numbytesLiteral - 1) + before st.keys .fork p *
    ((header st).numbytesFork - 1)
    + before st.keys .varRef p * ((header st).numbytesVarName - 1) + before st.keys .label p *
      ((header st).numbytesLabel - 1)

theorem before_zero (keys : List (FixupKind × Nat)) (kind : FixupKind) : before keys kind 0 = 0 :=
  List.countP_eq_zero.mpr fun _ _ h => Nat.not_lt_zero _ (decide_eq_true_iff.mp h).2

/-- The excess of the cells before a position, by induction on it. -/
theorem offset_cellExtra_eq (hw : WF st) (hp : p ≤ st.numBytes) :
    offset (cellExtra (header st) st.fixups) st.bytes.zipIdx p
    = excess st p + before st.keys .stack p * ((header st).numbytesStack - 1) := by
  induction p with
  | zero => simp [excess, before_zero]
  | succ p ih =>
    have hb : st.bytes[p]? = some st.bytes[p] := List.getElem?_eq_getElem hp
    rw [offset_succ (cell_getElem? hb), ih (Nat.le_of_succ_le hp), excess, excess, cellExtra]
    simp only [before_succ hw]
    cases hfind : st.fixups.find? fun f => f.pc = p with
    | none => simp
    | some f =>
      cases hk : f.kind with
      | _ =>
        simp only [hk, Bytecodes.width, if_true, reduceCtorEq, if_false, Nat.add_zero, Nat.succ_mul]
        omega

/-- Stack heights of one byte have nothing in excess. -/
theorem stack_excess (hstack : ∀ f ∈ st.fixups, f.kind = .stack → (header st).numbytesStack = 1)
    (p : Nat) :
    before st.keys .stack p * ((header st).numbytesStack - 1) = 0 := by
  by_cases hone : (header st).numbytesStack = 1
  · rw [hone, Nat.sub_self, Nat.mul_zero]
  · have hzero : before st.keys .stack p = 0 := by
      refine List.countP_eq_zero.mpr fun k hk h => ?_
      obtain ⟨f, hf, rfl⟩ := List.mem_map.mp hk
      exact hone (hstack f hf (decide_eq_true_iff.mp h).1)
    rw [hzero, Nat.zero_mul]

theorem offset_cellExtra (hw : WF st) (hroom : Room st) (hp : p ≤ st.numBytes) :
    offset (cellExtra (header st) st.fixups) st.bytes.zipIdx p = excess st p := by
  rw [offset_cellExtra_eq hw hp, stack_excess hroom.stackRefs, Nat.add_zero]

theorem position_eq (hw : WF st) (hroom : Room st) (hp : p ≤ st.numBytes) :
    position st p = p + excess st p := by
  rw [position_eq_add hp, offset_cellExtra hw hroom hp]

/-- A label that is placed is relocated to where its target begins. -/
theorem relocate_eq (hw : WF st) (hroom : Room st) (hf : Placed st.keys st.numBytes f) :
    relocate (header st) f = position st f.value := by
  rw [position_eq hw hroom hf.le, relocate, excess, hf.literals, hf.forks, hf.varRefs, hf.labels,
    hf.stackRefs, Nat.zero_mul]
  omega

/-- All operands of a kind are before the end. -/
theorem before_numBytes (hw : WF st) (kind : FixupKind) :
    before st.keys kind st.numBytes = st.keys.countP fun k => k.1 = kind :=
  List.countP_congr fun k hk => by simp [(hw.pcs k hk).2]

theorem position_numBytes (hw : WF st) (hroom : Room st) :
    position st st.numBytes = fullSize st := by
  rw [position_eq hw hroom (Nat.le_refl _), excess, fullSize]
  simp only [before_numBytes hw, ← hw.literals, ← hw.forks, ← hw.varRefs, ← hw.labels]

/-- What is counted before the width of labels is chosen. -/
theorem shortSize_eq (hroom : Room st) :
    shortSize st (header st).numbytesLiteral (header st).numbytesFork (header st).numbytesVarName
      = st.numBytes + (st.numLiterals * ((header st).numbytesLiteral - 1) + st.numForks *
        ((header st).numbytesFork - 1)
        + st.numVarRefs * ((header st).numbytesVarName - 1)) := by
  have hlt := hroom.size
  rw [fullSize] at hlt
  rw [shortSize, Nat.mul_comm _ st.numLiterals, Nat.mul_comm _ st.numForks,
    Nat.mul_comm _ st.numVarRefs, Nat.mod_eq_of_lt]
  · omega
  · omega

/-- Where labels have the width that is chosen for them, they reach every position before the
end. -/
theorem fullSize_le (hroom : Room st) : fullSize st ≤ 256 ^ (header st).numbytesLabel := by
  have hlabel : (header st).numbytesLabel
      = labelSize (shortSize st (header st).numbytesLiteral (header st).numbytesFork
        (header st).numbytesVarName) st.numLabels := rfl
  have hfull : fullSize st =
      shortSize st (header st).numbytesLiteral (header st).numbytesFork (header st).numbytesVarName
      + st.numLabels * ((header st).numbytesLabel - 1) := by
    rw [shortSize_eq hroom, fullSize]
    omega
  rw [hlabel]
  unfold labelSize at hlabel ⊢
  split at hlabel
  · next hle =>
    rw [if_pos hle, hfull, hlabel, Nat.sub_self, Nat.mul_zero]
    exact hle
  · next hnot =>
    rw [if_neg hnot]
    split at hlabel
    · next hle =>
      rw [if_pos hle, hfull, hlabel, Nat.mul_one]
      exact hle
    · next hnot' =>
      rw [if_neg hnot']
      exact Nat.le_of_lt hroom.size

/-! ## The size -/

/-- What the pass writes, counted. -/
theorem length_vector (hw : WF st) : (assemble st).vector.length
    = fullSize st + before st.keys .stack st.numBytes * ((header st).numbytesStack - 1) := by
  have hcells : (assemble st).vector.length = position st st.numBytes := by
    rw [assemble_vector hw, Assemble.length_flatMap fun x _ => cellBytes_length st x,
      position, ← Assemble.offset_length, List.length_zipIdx]
    rfl
  rw [hcells, position_eq_add (Nat.le_refl _), offset_cellExtra_eq hw (Nat.le_refl _),
    excess, fullSize]
  simp only [before_numBytes hw, ← hw.literals, ← hw.forks, ← hw.varRefs, ← hw.labels,
    Nat.add_assoc]

/-- The size that is allocated. -/
theorem size_eq_mod (st : State) : (assemble st).size = fullSize st % UINT_RANGE := by
  change (shortSize st (header st).numbytesLiteral (header st).numbytesFork
    (header st).numbytesVarName
    + ((header st).numbytesLabel - 1) * st.numLabels) % UINT_RANGE = _
  rw [shortSize, fullSize, Nat.mod_add_mod, Nat.mul_comm _ st.numLiterals,
    Nat.mul_comm _ st.numForks, Nat.mul_comm _ st.numVarRefs,
    Nat.mul_comm _ st.numLabels]
  simp only [Nat.add_assoc]

/-- The pass fills what is allocated, and writes nothing beyond it, exactly if there is room. -/
theorem length_eq_size_iff (hw : WF st) :
    (assemble st).vector.length = (assemble st).size ↔ Room st := by
  rw [length_vector hw, size_eq_mod]
  constructor
  · intro heq
    have hle := Nat.mod_le (fullSize st) UINT_RANGE
    have hlt : fullSize st % UINT_RANGE < UINT_RANGE := Nat.mod_lt _ (by decide)
    have hzero : before st.keys .stack st.numBytes * ((header st).numbytesStack - 1) = 0 := by omega
    refine ⟨by omega, fun f hf hk => ?_⟩
    have hpos : 0 < before st.keys .stack st.numBytes := by
      refine List.countP_pos_iff.mpr ⟨_, List.mem_map_of_mem hf, ?_⟩
      exact decide_eq_true ⟨hk, (hw.pcs _ (List.mem_map_of_mem hf)).2⟩
    have hone : 0 < (header st).numbytesStack := (header_width st .stack).pos
    rcases Nat.mul_eq_zero.mp hzero with h | h
    · exact absurd h (Nat.ne_of_gt hpos)
    · exact Nat.le_antisymm (Nat.le_of_sub_eq_zero h) hone
  · intro hroom
    rw [stack_excess hroom.stackRefs, Nat.add_zero, Nat.mod_eq_of_lt hroom.size]

/-! ## The image -/

/-- A cell of one byte is in the vector. -/
theorem assemble_byteAt (hw : WF st) {b : UInt8} (hb : st.bytes[p]? = some b)
    (hp : ∀ k ∈ st.keys, k.2 ≠ p) :
    (assemble st).ByteAt (position st p) b ∧ position st (p + 1) = position st p + 1 := by
  have hnone : (st.fixups.find? fun f => f.pc = p) = none :=
    find?_eq_none fun f hf => (hp (f.kind, f.pc) (List.mem_map.mpr ⟨f, hf, rfl⟩)).symm
  have hsize : cellSize (header st) st.fixups (b, p) = 1 := by
    rw [cellSize, cellExtra, hnone]
    rfl
  have hcell := cell_at hw hb
  rw [hsize, cellBytes, hnone] at hcell
  refine ⟨?_, by rw [position_succ hb, hsize]⟩
  have hhead := congrArg (fun l => l[0]?) hcell
  rw [Bytecodes.ByteAt]
  simpa [List.getElem?_take] using hhead

theorem bytes_getElem? (hw : WF st) (hf : f ∈ st.fixups) : ∃ b, st.bytes[f.pc]? = some b :=
  ⟨_, List.getElem?_eq_getElem (hw.pcs (f.kind, f.pc) (List.mem_map.mpr ⟨f, hf, rfl⟩)).2⟩

theorem position_fixup (hw : WF st) (hf : f ∈ st.fixups) :
    position st (f.pc + 1) = position st f.pc + (assemble st).width f.kind := by
  obtain ⟨b, hb⟩ := bytes_getElem? hw hf
  rw [position_succ hb, cellSize, cellExtra, find?_of_mem hw.fixups_sorted hf]
  exact congrArg _ (Nat.add_sub_cancel' (header_width st f.kind).pos)

/-- The bytes of an operand are in the vector, and read back they are its value cut to the width. -/
theorem assemble_operandAt (hw : WF st) (hf : f ∈ st.fixups) :
    (assemble st).OperandAt f.kind (position st f.pc)
    ((if f.kind = .label then relocate (header st) f else f.value) %
      256 ^ (assemble st).width f.kind) := by
  obtain ⟨b, hb⟩ := bytes_getElem? hw hf
  have hsize : cellSize (header st) st.fixups (b, f.pc) = (assemble st).width f.kind := by
    rw [cellSize, cellExtra, find?_of_mem hw.fixups_sorted hf]
    exact Nat.add_sub_cancel' (header_width st f.kind).pos
  have hcell := cell_at hw hb
  rw [hsize, cellBytes, find?_of_mem hw.fixups_sorted hf] at hcell
  have hbytes : fixupBytes (header st) f
      = bigEndian ((assemble st).width f.kind) (if f.kind = .label then relocate (header st) f
        else f.value) :=
    writeBytes_eq (header_width st f.kind) _
  dsimp only at hcell
  rw [hbytes] at hcell
  refine ⟨?_, ?_⟩
  · have hlen := congrArg List.length hcell
    rw [List.length_take, List.length_drop, length_bigEndian] at hlen
    have hpos : 0 < (assemble st).width f.kind := (header_width st f.kind).pos
    omega
  · rw [readBytes, hcell]
    exact readBig_bigEndian _ _

theorem finish_eq (h : finish last = some fin) : fin = emitOp .OP_DONE last := by
  unfold finish at h
  dsimp only at h
  split at h
  · cases h
  · split at h
    · cases h
    · exact (Option.some.inj h).symm

theorem finish_of (hcur : (emitOp .OP_DONE last).curStack = 0)
    (hsaved : (emitOp .OP_DONE last).savedStack = none) :
    finish last = some (emitOp .OP_DONE last) := by
  unfold finish
  dsimp only
  rw [if_neg (not_not.mpr hcur), if_neg (not_not.mpr hsaved)]

/-- The finished vector holds the code, if it has room. -/
theorem assemble_written (hw : WF last) (hfin : finish last = some fin) (hroom : Room fin) :
    Written (assemble fin) fin (position fin) := by
  obtain rfl := finish_eq hfin
  have hw' : WF (CodeGen.emitOp .OP_DONE last) := hw.emitByte _
  refine ⟨fun p b hb hp => assemble_byteAt hw' hb hp, fun f hf => position_fixup hw' hf,
    fun f hf hk hd => ?_, fun f hf hk => ?_, rfl, ?_⟩
  · have hval := hw'.values f hf
    have hval₀ := hw.values f hf
    rw [ValueOk, hk] at hval hval₀
    -- A label is defined before the last instruction.
    have hlt : f.value < (CodeGen.emitOp .OP_DONE last).numBytes := by
      rw [emitOp_numBytes]
      exact Nat.lt_succ_of_le (hval₀ hd).le
    have hop := assemble_operandAt hw' hf
    rw [if_pos hk, relocate_eq hw' hroom (hval hd), hk, Nat.mod_eq_of_lt] at hop
    · exact hop
    · exact Nat.lt_of_lt_of_le (position_lt hlt)
        ((position_numBytes hw' hroom).trans_le (fullSize_le hroom))
  · have hop := assemble_operandAt hw' hf
    rw [if_neg hk] at hop
    exact hop
  · have hpos : 0 < (CodeGen.emitOp .OP_DONE last).bytes.length := by
      rw [← State.numBytes, emitOp_numBytes]
      exact Nat.succ_pos _
    have hb := List.getElem?_eq_getElem hpos
    have hone := (assemble_byteAt hw' hb fun k hk => Nat.ne_of_gt (hw'.pcs k hk).1).2
    exact hone

/-- No operand of the finished vector is cut, if they fit. -/
theorem assemble_image (hw : WF last) (hfin : finish last = some fin) (hfits : Fits fin) :
    Image ⟨assemble fin, fin.gstate.literals, fin.gstate.forkVectors⟩ (assemble fin) fin
      (position fin) :=
  ⟨assemble_written hw hfin hfits.toRoom, hfits.operands, List.prefix_rfl,
    List.prefix_rfl, Nat.le_refl _⟩

end CodeGen
end NuMoo
