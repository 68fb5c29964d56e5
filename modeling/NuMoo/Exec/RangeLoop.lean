import NuMoo.Code.RangeLoop
import NuMoo.Exec.Scatter

/-!
# Loops over a range

What `OP_FOR_RANGE` does with the bounds on top of the stack, in the code that `generate_stmt` emits
for `for x in [a..b]`. The upper bound is on top of the next value. At `MAXINT` the next value
can not be raised, and the upper bound is lowered instead.

Results:
1. `runsOver_valuesFrom`: by induction on the number of values that are left.
2. `rangeLoop_exact_iff`: the loop takes each value between its bounds once, in order, unless the
   slot of its variable has been cut.
-/

namespace NuMoo.Exec

open CodeGen (Room SlotFits)

variable {D : Type} {id : Nat} {from_ to_ : Expr} {body : Stmts}

/-- The numbers that `Num` and `Objid` have. -/
def Representable (n : Int) : Prop := -2 ^ 63 ≤ n ∧ n ≤ Machine.MAXINT

/-- The values of the kind that `wrap` makes from a first to a last one. -/
def valuesFrom (wrap : Int → Var) (a b : Int) : List Var :=
  (List.range (b - a + 1).toNat).map fun i : Nat => wrap (a + i)

/-- The body has been completed: from its beginning execution has come to its end, or with a
`continue` to the top of the loop, and the stack is what it was. -/
structure Completed (env : RunEnv D) (unwound : Next D → Machine D → Prop)
    (c : RangeCode id from_ to_ body) (m m' : Machine D) :
    Prop where
  run : Reaches env unwound m m'
  pc : m'.top.pc = c.jump ∨ m'.top.pc = c.top
  rtStack : m'.top.rtStack = m.top.rtStack
  bc : m'.top.bc = m.top.bc
  length : m'.top.rtEnv.length = m.top.rtEnv.length
  rest : m'.rest = m.rest

/-- Nothing but the variable of the loop, the pc and the stack has changed. -/
structure Turned (rtEnv s : List Var) (p : Nat) (m m' : Machine D) : Prop where
  pc : m'.top.pc = p
  rtStack : m'.top.rtStack = s
  rtEnv : m'.top.rtEnv = rtEnv
  bc : m'.top.bc = m.top.bc
  temp : m'.top.temp = m.top.temp
  server : m'.server = m.server
  tasks : m'.tasks = m.tasks
  rest : m'.rest = m.rest

/-- From the top of the loop on the body is run with the variable at each of the values: it is
entered with the first of them, and whenever it has been completed execution comes back to the top
and goes on with the others. In the end the loop is left with the stack that there was below the
bounds. -/
def RunsOver (env : RunEnv D) (unwound : Next D → Machine D → Prop)
    (c : RangeCode id from_ to_ body) (wrap : Int → Var)
    (s : List Var) : List Var → Machine D → Prop
  | [], m =>
    m.HasTicks → ∃ m', m.step env = some ⟨none, .opcode m'⟩ ∧ Turned m.top.rtEnv s c.done m m'
  | v :: vals, m => m.HasTicks → ∃ m' a b, m.step env = some ⟨none, .opcode m'⟩ ∧ Representable a ∧
  Representable b ∧
    Turned (m.top.rtEnv.set id v) (wrap b :: wrap a :: s) c.inner m m' ∧
      ∀ m₁, Completed env unwound c m' m₁ → ∃ m₂, Reaches env unwound m₁ m₂ ∧
      Turned m₁.top.rtEnv m₁.top.rtStack c.top m₁ m₂ ∧
        RunsOver env unwound c wrap s vals m₂

/-- The machine is at the top of the loop, with the bounds on top of the stack. -/
structure AtTop (c : RangeCode id from_ to_ body) (wrap : Int → Var) (m : Machine D) (a b : Int)
    (s : List Var) : Prop where
  bc : m.top.bc = c.bc
  pc : m.top.pc = c.top
  rtStack : m.top.rtStack = wrap b :: wrap a :: s
  slot : id < m.top.rtEnv.length

variable {c : RangeCode id from_ to_ body} {env : RunEnv D} {unwound : Next D → Machine D → Prop}
    {wrap : Int → Var}
  {m : Machine D} {a b : Int} {s : List Var}

/-! ## The values that are left -/

/-- The bounds after a turn. -/
def nextBounds (a b : Int) : Int × Int := if a < Machine.MAXINT then (a + 1, b) else (a, b - 1)

theorem valuesFrom_nil (h : a > b) : valuesFrom wrap a b = [] := by
  have hzero : (b - a + 1).toNat = 0 := Int.toNat_of_nonpos (by omega)
  rw [valuesFrom, hzero]
  rfl

theorem length_valuesFrom (wrap : Int → Var) (a b : Int) :
    (valuesFrom wrap a b).length = (b - a + 1).toNat := by
  rw [valuesFrom, List.length_map, List.length_range]

/-- A turn takes the first of the values; at the greatest it is also the last. -/
theorem valuesFrom_cons (hle : a ≤ b) (hb : b ≤ Machine.MAXINT) :
    valuesFrom wrap a b = wrap a :: valuesFrom wrap (nextBounds a b).1 (nextBounds a b).2 := by
  obtain ⟨n, hn⟩ : ∃ n : Nat, b - a = n := ⟨(b - a).toNat, by omega⟩
  have hfirst : (b - a + 1).toNat = n + 1 := by omega
  have hnext : ((nextBounds a b).2 - (nextBounds a b).1 + 1).toNat = n := by
    unfold nextBounds
    split <;> dsimp only <;> omega
  rw [valuesFrom, valuesFrom, hfirst, hnext, List.range_succ_eq_map, List.map_cons, List.map_map,
    Int.natCast_zero, Int.add_zero]
  refine congrArg _ (List.map_congr_left fun i hi => ?_)
  have hlt : i < n := List.mem_range.mp hi
  have hraised : a < Machine.MAXINT := by omega
  simp only [Function.comp, nextBounds, if_pos hraised]
  congr 1
  push_cast
  omega

theorem nextBounds_representable (ha : Representable a) (hb : Representable b) (hle : a ≤ b) :
    Representable (nextBounds a b).1 ∧ Representable (nextBounds a b).2 := by
  have hmax : Machine.MAXINT = 2 ^ 63 - 1 := rfl
  unfold Representable at *
  unfold nextBounds
  split <;> dsimp only <;> omega

/-! ## One turn -/

/-- The kinds of values that a range may have. -/
def IsRangeKind (wrap : Int → Var) : Prop := wrap = .int ∨ wrap = .obj

theorem opForRange_eq (hlay : c.Layout) (hwrap : IsRangeKind wrap) (hbc : m.top.bc = c.bc)
    (hpc : m.top.pc = c.top + 1)
    (hs : m.top.rtStack = wrap b :: wrap a :: s) :
    m.opForRange = (m.jump c.inner).forRange wrap c.slot c.done a b s := by
  have hid : m.readBytes m.top.bc.numbytesVarName =
      some (c.slot, m.jump (c.top + 1 + c.bc.numbytesVarName)) := by
    rw [hbc]
    exact Machine.readBytes_operand hlay.id hbc hpc
  have hlabel : (m.jump (c.top + 1 + c.bc.numbytesVarName)).readBytes
      (m.jump (c.top + 1 + c.bc.numbytesVarName)).top.bc.numbytesLabel
      = some (c.done, m.jump c.inner) := by
    rw [Machine.jump_top, hbc, hlay.inner]
    exact Machine.readBytes_operand hlay.label hbc rfl
  rw [Machine.opForRange, hid]
  simp only [Option.bind_eq_bind, Option.bind_some]
  rw [hlabel, Option.bind_some]
  have hs' : (m.jump c.inner).top.rtStack = wrap b :: wrap a :: s := hs
  rcases hwrap with rfl | rfl
  · dsimp only
    rw [hs']
  · dsimp only
    rw [hs']

theorem leaveLoop_eq {v w : Var} (hs : m.top.rtStack = v :: w :: s) (p : Nat) :
    m.leaveLoop p = some ⟨none, .opcode ((m.setTop fun a => { a with rtStack := s }).jump p)⟩ := by
  have hfirst : m.pop = some (v, m.setTop fun a => { a with rtStack := w :: s }) := by
    rw [Machine.pop, hs]
  rw [Machine.leaveLoop, hfirst]
  rfl

/-- Above its last value the loop is left. -/
theorem forRange_leaves (hs : m.top.rtStack = wrap b :: wrap a :: s) (hgt : a > b) (p : Nat) :
    m.forRange wrap id p a b s =
      some ⟨none, .opcode ((m.setTop fun a => { a with rtStack := s }).jump p)⟩ := by
  rw [Machine.forRange, if_pos hgt]
  exact leaveLoop_eq hs p

/-- Otherwise the variable is assigned. -/
theorem forRange_enters (hid : id < m.top.rtEnv.length) (hle : a ≤ b) (p : Nat) :
    m.forRange wrap id p a b s =
      some ⟨none, .opcode ((m.withEnv (m.top.rtEnv.set id (wrap a))).setTop fun act =>
      { act with rtStack := wrap (nextBounds a b).2 :: wrap (nextBounds a b).1 :: s })⟩ := by
  rw [Machine.forRange, if_neg (Int.not_lt.mpr hle), Machine.putVar_eq hid]
  simp only [Option.bind_eq_bind, Option.bind_some, nextBounds]
  split <;> rfl

/-- The instruction at the top of the loop, with its operands. -/
theorem step_top (hlay : c.Layout) (hwrap : IsRangeKind wrap) (hat : AtTop c wrap m a b s)
    (hticks : m.HasTicks) :
    ∃ m' : Machine D, m.step env = m'.forRange wrap c.slot c.done a b s ∧
      Turned m.top.rtEnv m.top.rtStack c.inner m m' := by
  refine ⟨({ m.fetched with ticksRemaining := m.ticksRemaining - 1 } : Machine D).jump c.inner, ?_,
    rfl, rfl, rfl, rfl, rfl, rfl, rfl, rfl⟩
  rw [Machine.step_tick hlay.op trivial (by decide) hticks hat.bc hat.pc]
  refine opForRange_eq hlay hwrap hat.bc ?_ hat.rtStack
  rw [← hat.pc]
  rfl

theorem turn_leaves (hlay : c.Layout) (hwrap : IsRangeKind wrap) (hat : AtTop c wrap m a b s)
    (hticks : m.HasTicks) (hgt : a > b) :
    ∃ m', m.step env = some ⟨none, .opcode m'⟩ ∧ Turned m.top.rtEnv s c.done m m' := by
  obtain ⟨m', hstep, hturn⟩ : ∃ m' : Machine D, m.step env = _ ∧ _ := step_top hlay hwrap hat hticks
  refine ⟨_, hstep.trans (forRange_leaves (hturn.rtStack.trans hat.rtStack) hgt c.done), ?_⟩
  exact ⟨rfl, rfl, hturn.rtEnv, hturn.bc, hturn.temp, hturn.server, hturn.tasks, hturn.rest⟩

theorem turn_enters (hlay : c.Layout) (hwrap : IsRangeKind wrap) (hat : AtTop c wrap m a b s)
    (hticks : m.HasTicks) (hle : a ≤ b) :
    ∃ m', m.step env = some ⟨none, .opcode m'⟩ ∧
      Turned (m.top.rtEnv.set c.slot (wrap a))
      (wrap (nextBounds a b).2 :: wrap (nextBounds a b).1 :: s) c.inner m m' := by
  obtain ⟨m', hstep, hturn⟩ : ∃ m' : Machine D, m.step env = _ ∧ _ := step_top hlay hwrap hat hticks
  have hslot : c.slot < m'.top.rtEnv.length :=
    Nat.lt_of_le_of_lt (Nat.mod_le id _) (hturn.rtEnv ▸ hat.slot)
  refine ⟨_, hstep.trans (forRange_enters hslot hle c.done), hturn.pc, rfl, ?_, hturn.bc,
    hturn.temp, hturn.server, hturn.tasks, hturn.rest⟩
  exact congrArg (fun rtEnv : List Var => rtEnv.set c.slot (wrap a)) hturn.rtEnv

/-- Behind the body execution comes back to the top. -/
theorem back_to_top {m m₁ : Machine D} (hlay : c.Layout) (hbc : m.top.bc = c.bc)
    (hdone : Completed env unwound c m m₁) :
    ∃ m₂, Reaches env unwound m₁ m₂ ∧ Turned m₁.top.rtEnv m₁.top.rtStack c.top m₁ m₂ := by
  have hbc₁ : m₁.top.bc = c.bc := hdone.bc.trans hbc
  rcases hdone.pc with hjump | htop
  · have hread : m₁.fetched.readBytes m₁.fetched.top.bc.numbytesLabel =
        some (c.top, m₁.fetched.jump (c.jump + 1 + c.bc.numbytesLabel)) := by
      have hbc₂ : m₁.fetched.top.bc = c.bc := hbc₁
      rw [hbc₂]
      exact Machine.readBytes_operand hlay.back hbc₁ (by rw [← hjump]; rfl)
    have hstep : m₁.step env = some ⟨none, .opcode (m₁.fetched.jump c.top)⟩ := by
      rw [Machine.step_op hlay.jump trivial (by decide) hbc₁ hjump]
      change m₁.fetched.opJump = _
      rw [Machine.opJump, hread]
      rfl
    exact ⟨_, .single (.opcode hstep), rfl, rfl, rfl, rfl, rfl, rfl, rfl, rfl⟩
  · exact ⟨m₁, .refl, htop, rfl, rfl, rfl, rfl, rfl, rfl, rfl⟩

/-! ## The loop -/

/-- If the slot is not cut, the loop runs over the values from its first bound to its second, by
induction on their number. -/
theorem runsOver_valuesFrom (hlay : c.Layout) (hslot : SlotFits c.fin id) (env : RunEnv D)
    (unwound : Next D → Machine D → Prop)
    (hwrap : IsRangeKind wrap) (ha : Representable a) (hb : Representable b)
    (hat : AtTop c wrap m a b s) :
    RunsOver env unwound c wrap s (valuesFrom wrap a b) m := by
  obtain ⟨n, hn⟩ : ∃ n, (b - a + 1).toNat = n := ⟨_, rfl⟩
  induction n generalizing a b m with
  | zero =>
    have hgt : a > b := by omega
    rw [valuesFrom_nil hgt]
    exact fun hticks => turn_leaves hlay hwrap hat hticks hgt
  | succ n ih =>
    have hle : a ≤ b := by omega
    obtain ⟨ha', hb'⟩ := nextBounds_representable ha hb hle
    have hcons : valuesFrom wrap a b = _ := valuesFrom_cons hle hb.2
    rw [hcons]
    intro hticks
    obtain ⟨m', hstep, hturn⟩ : ∃ m', m.step env = some ⟨none, .opcode m'⟩ ∧ _ :=
      turn_enters hlay hwrap hat hticks hle
    rw [c.slot_eq hslot] at hturn
    refine ⟨m', _, _, hstep, ha', hb', hturn, fun m₁ hdone => ?_⟩
    obtain ⟨m₂, hback, hturn₂⟩ := back_to_top hlay (hturn.bc.trans hat.bc) hdone
    refine ⟨m₂, hback, hturn₂, ih ha' hb' ⟨?_, hturn₂.pc, ?_, ?_⟩ ?_⟩
    · rw [hturn₂.bc, hdone.bc, hturn.bc, hat.bc]
    · rw [hturn₂.rtStack, hdone.rtStack, hturn.rtStack]
    · rw [hturn₂.rtEnv, hdone.length, hturn.rtEnv, List.length_set]
      exact hat.slot
    · have hlen := congrArg List.length hcons
      rw [length_valuesFrom, List.length_cons, length_valuesFrom] at hlen
      omega

/-- The loop does what it ought to from every machine at its top, in a vector that has room for what
is written. -/
structure RunsExactly (c : RangeCode id from_ to_ body) (wrap : Int → Var) (a b : Int) : Prop where
  length : c.bc.vector.length = c.bc.size
  runs : ∀ {D : Type} (env : RunEnv D) (unwound : Next D → Machine D →
    Prop) (m : Machine D) (s : List Var),
    AtTop c wrap m a b s → RunsOver env unwound c wrap s (valuesFrom wrap a b) m

/-- A verb at the top of the loop, in which no variable has a value. -/
def atLoop (c : RangeCode id from_ to_ body) (wrap : Int → Var) (a b : Int) : Machine Unit :=
  Machine.bare c.bc c.top true (List.replicate (id + 1) .none) [wrap b, wrap a]

theorem atTop_atLoop (c : RangeCode id from_ to_ body) (wrap : Int → Var) (a b : Int) :
    AtTop c wrap (atLoop c wrap a b) a b [] :=
  ⟨rfl, rfl, rfl, Nat.lt_of_lt_of_eq (Nat.lt_succ_self id) List.length_replicate.symm⟩

/-- A slot that is cut is not assigned. -/
theorem not_runsOver_of_cut {unwound : Next Unit → Machine Unit → Prop} (hlay : c.Layout)
    (hcut : ¬ SlotFits c.fin id) (hwrap : IsRangeKind wrap) (hle : a ≤ b)
    (hb : b ≤ Machine.MAXINT) :
    ¬ RunsOver bareEnv unwound c wrap [] (valuesFrom wrap a b) (atLoop c wrap a b) := by
  intro hruns
  have hticks : (atLoop c wrap a b).HasTicks := ⟨show (1 : Int) < 30000 by decide, rfl⟩
  rw [valuesFrom_cons hle hb] at hruns
  obtain ⟨m', _, _, hstep, -, -, hturn, -⟩ := hruns hticks
  obtain ⟨m₂, hstep', hturn'⟩ : ∃ m' : Machine Unit, (atLoop c wrap a b).step bareEnv =
      some ⟨none, .opcode m'⟩ ∧ _ :=
    turn_enters hlay hwrap (atTop_atLoop c wrap a b) hticks hle
  rw [hstep] at hstep'
  cases hstep'
  have hlt : id < (List.replicate (id + 1) Var.none).length :=
    Nat.lt_of_lt_of_eq (Nat.lt_succ_self id) List.length_replicate.symm
  have hne : c.slot ≠ id := fun heq => hcut (Eq.subst (motive := SlotFits c.fin) heq c.slot_lt)
  -- The variable ought to have the first value, but has none.
  have hvalue : m'.top.rtEnv[id]? = some (wrap a) := by
    rw [hturn.rtEnv]
    exact List.getElem?_set_self hlt
  have hnone : m'.top.rtEnv[id]? = some .none := by
    rw [hturn'.rtEnv, List.getElem?_set_ne hne]
    exact List.getElem?_eq_some_iff.mpr ⟨hlt, List.getElem_replicate hlt⟩
  rw [hvalue] at hnone
  rcases hwrap with rfl | rfl <;> cases hnone

/-- A loop whose bounds are numbers or object numbers runs its body once for each value between
them, in order, and the numbers that it keeps on the stack stay in range, exactly if there is room
for its vector and the slot of its variable is not cut or there is no value. -/
theorem rangeLoop_exact_iff (c : RangeCode id from_ to_ body) (hwrap : IsRangeKind wrap)
    (ha : Representable a) (hb : Representable b) :
    (RunsExactly c wrap a b ↔ Room c.fin ∧ (SlotFits c.fin id ∨ a > b)) ∧
      ((valuesFrom wrap a b).length : Int) = max 0 (b - a + 1) := by
  have hroom := CodeGen.length_eq_size_iff c.wf_fin
  refine ⟨⟨fun h => ⟨hroom.mp h.length, ?_⟩, fun ⟨h, hslot⟩ =>
    ⟨hroom.mpr h, fun env unwound m s hat => ?_⟩⟩, ?_⟩
  · by_contra hnot
    obtain ⟨hcut, hle⟩ := not_or.mp hnot
    exact not_runsOver_of_cut (c.layout (hroom.mp h.length)) hcut hwrap (Int.not_lt.mp hle) hb.2
      (h.runs bareEnv (fun _ _ => False) _ _ (atTop_atLoop c wrap a b))
  · have hlay := c.layout h
    rcases hslot with hslot | hgt
    · exact runsOver_valuesFrom hlay hslot env unwound hwrap ha hb hat
    · rw [valuesFrom_nil hgt]
      exact fun hticks => turn_leaves hlay hwrap hat hticks hgt
  · rw [length_valuesFrom]
    omega

section Examples

/-- `for x in [a..b] i = 0; endfor` -/
def clearBody : Stmts := .cons (.expr (.asgn (.id 18) (.var (.int 0)))) .nil

def clearLoop (id : Nat) (a b : Int) : Stmts :=
  .cons (.range id (.var (.int a)) (.var (.int b)) clearBody) .nil

/-- The code is complete and its vector has room. -/
def Complete (last : CodeGen.State) : Prop :=
  let fin := CodeGen.emitOp .OP_DONE last
  (fin.curStack = 0 ∧ fin.savedStack = none) ∧ CodeGen.fullSize fin < CodeGen.UINT_RANGE ∧
    ∀ f ∈ fin.fixups, f.kind = .stack → (CodeGen.header fin).numbytesStack = 1

instance (last : CodeGen.State) : Decidable (Complete last) :=
  inferInstanceAs (Decidable (_ ∧ _ ∧ _))

/-- A loop that is the only statement of a verb, in a vector of which `P` holds. -/
theorem exists_clearLoop (id : Nat) (a b : Int) (P : CodeGen.State → Prop) [DecidablePred P]
    (h : (CodeGen.generateStmts (clearLoop id a b) (CodeGen.initState initGState)).any
      (fun last => decide (Complete last ∧ P (CodeGen.emitOp .OP_DONE last))) = true) :
    ∃ c : RangeCode id (.var (.int a)) (.var (.int b)) clearBody, Room c.fin ∧ P c.fin := by
  obtain ⟨⟨⟨hcur, hsaved⟩, hroom⟩, hP⟩ := of_decide_eq_true (Option.get_of_any_eq_true _ _ h)
  have hlast := (Option.some_get (Option.isSome_of_any h)).symm
  have hnil : CodeGen.generateStmts .nil (CodeGen.initState initGState) =
      some (CodeGen.initState initGState) := rfl
  obtain ⟨c, -, -, hfin⟩ := RangeCode.exists_of_sequence hnil hlast (CodeGen.finish_of hcur hsaved)
  exact ⟨c, hfin ▸ ⟨hroom.1, hroom.2⟩, hfin ▸ hP⟩

theorem rangeLoop_exact_iff_greatest :
    ∃ c : RangeCode 18 (.var (.int (Machine.MAXINT - 1))) (.var (.int Machine.MAXINT)) clearBody,
    RunsExactly c .int (Machine.MAXINT - 1) Machine.MAXINT := by
  obtain ⟨c, hroom, hslot⟩ :=
    exists_clearLoop 18 (Machine.MAXINT - 1) Machine.MAXINT (SlotFits · 18) (by decide +kernel)
  exact ⟨c,
    ((rangeLoop_exact_iff c (.inl rfl) (by unfold Representable; decide)
      (by unfold Representable; decide)).1).mpr
    ⟨hroom, .inl hslot⟩⟩

/-- In `for x in [1..3]` with `x` in slot 256 the operand is zero, and `x` takes no value. -/
theorem rangeLoop_cut : ∃ c : RangeCode 256 (.var (.int 1)) (.var (.int 3)) clearBody, Room c.fin ∧
    c.slot = 0 ∧ ¬ RunsExactly c .int 1 3 := by
  obtain ⟨c, hroom, hwidth, hcut⟩ := exists_clearLoop 256 1 3
    (fun fin => (CodeGen.header fin).numbytesVarName = 1 ∧ ¬ SlotFits fin 256) (by decide +kernel)
  refine ⟨c, hroom, ?_, fun h => ?_⟩
  · have hone : c.bc.numbytesVarName = 1 := hwidth
    rw [RangeCode.slot, hone]
    rfl
  · have hruns := h.runs bareEnv (fun _ _ => False) _ _ (atTop_atLoop c .int 1 3)
    exact not_runsOver_of_cut (c.layout hroom) hcut (.inl rfl) (by decide : (1 : Int) ≤ 3)
      (by decide : (3 : Int) ≤ Machine.MAXINT) hruns

end Examples

end NuMoo.Exec
