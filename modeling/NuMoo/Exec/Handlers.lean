import NuMoo.Exec.Marks

/-!
# Handlers and clauses

What `find_handler_activ` promises and what `unwind_stack` does. The search looks at the world
before the unwinding. On the way down the unwinding resumes the built-in functions that wait for
the activations it removes, and these may recycle an object that an arm names.

Results:
1. `HandlerAgreement.of_armsKept`, `ArmsKept.of_agreement`: search and unwinding agree exactly when
   the resumed functions leave alone which arm is taken (`ArmsKept`).
2. `passage_of_region`: an unwinding that clauses interrupt and `EOP_CONTINUE` goes on with enters
   every clause of its region.
3. `handlers_agree_iff`: both, for every stack, and what `raise_error` and `EOP_CONTINUE` make of
   it.
-/

namespace NuMoo.Exec

variable {D : Type}

/-- A stack of activations with well-formed run-time stacks. -/
structure Stack (D : Type) where
  top : Frame D
  rest : List (Frame D)

namespace Stack

def frames (s : Stack D) : List (Frame D) := s.top :: s.rest

def vm (s : Stack D) (w : World) : Vm D := ⟨w, s.top.activ, activs s.rest⟩

/-- The markers of the whole stack, the innermost first. -/
def marks (s : Stack D) : List (Mark D) := Exec.marks s.frames

theorem activs_vm (s : Stack D) (w : World) : (s.vm w).activs = activs s.frames := rfl

end Stack

/-! ## The search and the unwinding -/

/-- The search for a handler and a raise agree. -/
structure HandlerAgreement (env : Env D) (w : World) (s : Stack D) (code : Var)
    (tail : List Var) : Prop where
  /-- A frame that is found holds the innermost mark with an arm for the code. The raise stops in
  the clause of a mark above that one, or in its first arm for the code. -/
  caught : ∀ f, findHandlerActiv w code (s.vm w).activs = some (some f) →
    ∃ above m below pc, s.marks = above ++ m :: below ∧ m.index = f ∧ m.arm w code = some pc ∧
      (∀ x ∈ above, x.arm w code = none) ∧
      ∃ w', (∃ x ∈ above, x.isFinally = true ∧
        unwind env .FIN_RAISE (.list (code :: tail)) (s.vm w) =
          some (.finally (x.clauseVm w' .FIN_RAISE (.list (code :: tail))))) ∨
        unwind env .FIN_RAISE (.list (code :: tail)) (s.vm w) =
          some (.catch (m.armVm w' (.list (code :: tail)) pc))
  /-- If no frame is found, no mark has an arm for the code. -/
  uncaught : findHandlerActiv w code (s.vm w).activs = some none →
    ∀ m ∈ s.marks, m.arm w code = none
  searched : (findHandlerActiv w code (s.vm w).activs).isSome = true

/-- No arm handles the code, or the functions that a raise resumes change nothing about it: each
mark that the raise comes to, down to the first clause or the innermost arm for the code, has the
same arm for the code then as before the raise. -/
def ArmsKept (env : Env D) (w : World) (s : Stack D) (code : Var) : Prop :=
  (∀ m ∈ s.marks, m.arm w code = none) ∨
    Search.Steady (fun x => x.2.isFinally) (fun x => x.2.arm w code) (fun x => x.2.arm x.1 code)
      (timeline env w s.frames)

section Agreement

variable {env : Env D} {w : World} {s : Stack D} {code : Var} {tail : List Var}

theorem unwind_raise : unwind env .FIN_RAISE (.list (code :: tail)) (s.vm w) =
    some (match errorWalk env .FIN_RAISE code w s.frames with
      | some ((w', m), r) => m.stopAt .FIN_RAISE (.list (code :: tail)) w' r
      | none => .finish .OUTCOME_ABORTED (lastWorld env w s.frames)) :=
  unwindLoop_eq env (.inl rfl) _ w s.top s.rest

theorem finally_arm {m : Mark D} (h : m.isFinally = true) (w : World) (code : Var) :
    m.arm w code = none := by
  obtain ⟨fr, rest, kind, below⟩ := m
  cases kind with
  | «finally» pc => rfl
  | «catch» arms => cases h

theorem not_finally_of_arm {m : Mark D} {pc : Nat} (h : m.arm w code = some pc) :
    m.isFinally = false := by
  cases hb : m.isFinally with
  | false => rfl
  | true => rw [finally_arm hb] at h; cases h

/-- Stops at marks of one stack are the same only at the same mark. -/
theorem stopAt_inj {why : FinallyReason} {value : Var} {w₁ w₂ : World} {l : List (Frame D)}
    {m₁ m₂ : Mark D}
    {q r : Option Nat} (h₁ : m₁ ∈ marks l) (h₂ : m₂ ∈ marks l)
    (h : m₁.stopAt why value w₁ q = m₂.stopAt why value w₂ r) : m₁ = m₂ ∧ q = r := by
  have place : activs m₁.rest = activs m₂.rest → layout m₁.below = layout m₂.below → m₁ = m₂ := by
    intro hrest hbelow
    refine eq_of_place h₁ h₂ (Prod.ext ?_ (by simp only [Mark.place, hbelow]))
    simpa [activs, Mark.place, Mark.index] using congrArg List.length hrest
  cases q <;> cases r <;> simp only [Mark.stopAt, reduceCtorEq, Stop.finally.injEq,
    Stop.catch.injEq, Mark.clauseVm,
    Mark.armVm, Vm.mk.injEq, Activation.mk.injEq, List.cons.injEq, true_and] at h
  · exact ⟨place h.2.2 h.2.1.1, rfl⟩
  · exact ⟨place h.2.2 h.2.1.1, by rw [h.2.1.2.1]⟩

theorem armFor_raise (w : World) (code : Var) (m : Mark D) :
    m.armFor .FIN_RAISE w code = m.arm w code := if_pos rfl

theorem errorWalk_raise : errorWalk env .FIN_RAISE code w s.frames =
    Search.walk (fun x => x.2.isFinally) (fun x => x.2.arm x.1 code) (timeline env w s.frames) := by
  simp only [errorWalk, armFor_raise]

/-- What the search finds is a mark of the timeline. -/
theorem timeline_of_caught {f : Nat} (h : findHandlerActiv w code (s.vm w).activs = some (some f)) :
    ∃ above x below pc, timeline env w s.frames = above ++ x :: below ∧ x.2.index = f ∧
      x.2.arm w code = some pc ∧
      ∀ y ∈ above, y.2.arm w code = none := by
  rw [Stack.activs_vm, findHandlerActiv_eq, Option.some.injEq, Option.map_eq_some_iff] at h
  obtain ⟨⟨m, pc⟩, hseek, rfl⟩ := h
  rw [← timeline_marks env w, Search.seek_map, Option.map_eq_some_iff] at hseek
  obtain ⟨⟨x, pc'⟩, hx, hm⟩ := hseek
  cases hm
  obtain ⟨above, below, hl, harm, hn⟩ := Search.seek_eq_some.mp hx
  exact ⟨above, x, below, _, hl, rfl, harm, hn⟩

theorem marks_of_timeline {above below : List (World × Mark D)} {x : World × Mark D}
    (h : timeline env w s.frames = above ++ x :: below) :
    s.marks = above.map Prod.snd ++ x.2 :: below.map Prod.snd := by
  rw [Stack.marks, ← timeline_marks env w, h, List.map_append, List.map_cons]

theorem mem_marks_of_timeline {x : World × Mark D} (h : x ∈ timeline env w s.frames) :
    x.2 ∈ s.marks := by
  rw [Stack.marks, ← timeline_marks env w]
  exact List.mem_map_of_mem h

theorem timeline_eq_of_mark {x y : World × Mark D} (hx : x ∈ timeline env w s.frames)
    (hy : y ∈ timeline env w s.frames) (h : x.2 = y.2) : x = y := by
  have hnd : ((timeline env w s.frames).map Prod.snd).Nodup := by
    rw [timeline_marks]
    exact (nodup_marks s.frames).of_map
  exact List.inj_on_of_nodup_map hnd hx hy h

theorem isSome_search (w : World) (s : Stack D) (code : Var) :
    (findHandlerActiv w code (s.vm w).activs).isSome = true := by
  rw [Stack.activs_vm, findHandlerActiv_eq]
  rfl

theorem arm_none_of_uncaught (h : findHandlerActiv w code (s.vm w).activs = some none) :
    ∀ m ∈ s.marks, m.arm w code = none := by
  rw [Stack.activs_vm, findHandlerActiv_eq, Option.some.injEq, Option.map_eq_none_iff] at h
  exact Search.seek_eq_none.mp h

theorem HandlerAgreement.of_armsKept (h : ArmsKept env w s code) :
    HandlerAgreement env w s code tail := by
  refine ⟨fun f hf => ?_, arm_none_of_uncaught, isSome_search w s code⟩
  obtain ⟨above, x, below, pc, hl, rfl, harm, hn⟩ := timeline_of_caught hf
  have hx : x ∈ timeline env w s.frames := by rw [hl]; simp
  have hsteady := h.resolve_left fun hnone => by
    rw [hnone x.2 (mem_marks_of_timeline hx)] at harm
    cases harm
  have hwalk := Search.walk_congr hsteady
  have hstop : ∀ {y r}, errorWalk env .FIN_RAISE code w s.frames = some (y, r) →
      unwind env .FIN_RAISE (.list (code :: tail)) (s.vm w) =
        some (y.2.stopAt .FIN_RAISE (.list (code :: tail)) y.1 r) := by
    intro y r hy
    rw [unwind_raise, hy]
  refine ⟨above.map Prod.snd, x.2, below.map Prod.snd, pc, marks_of_timeline hl, rfl, harm,
    List.forall_mem_map.mpr hn, ?_⟩
  rw [hl] at hwalk
  rcases @Search.walk_of_seek _ _ (fun y : World × Mark D => y.2.isFinally) _ _ _ _ _ harm
    (not_finally_of_arm harm) hn with ⟨y, hy, hyf, hw⟩ | ⟨-, hw⟩
  · refine ⟨y.1, .inl ⟨y.2, List.mem_map_of_mem hy, hyf, ?_⟩⟩
    exact hstop (by rw [errorWalk_raise, hl, hwalk, hw])
  · refine ⟨x.1, .inr ?_⟩
    exact hstop (by rw [errorWalk_raise, hl, hwalk, hw])

theorem ArmsKept.of_agreement (h : HandlerAgreement env w s code tail) : ArmsKept env w s code := by
  cases hfind : findHandlerActiv w code (s.vm w).activs with
  | none => have := h.searched; rw [hfind] at this; cases this
  | some found =>
    cases found with
    | none => exact .inl (h.uncaught hfind)
    | some f =>
      obtain ⟨above, x, below, pc, hl, -, harm, hn⟩ := timeline_of_caught hfind
      obtain ⟨above', m, below', pc', hm, -, harm', hn', w', hstop⟩ := h.caught f hfind
      -- the mark of the agreement is the mark of the timeline
      have hseek := Search.seek_eq_some.mpr
        ⟨above.map Prod.snd, below.map Prod.snd, marks_of_timeline hl, harm,
          List.forall_mem_map.mpr hn⟩
      have hsame := hseek.symm.trans (Search.seek_eq_some.mpr ⟨above', below', hm, harm', hn'⟩)
      cases hsame
      have hndm : s.marks.Nodup := (nodup_marks s.frames).of_map
      have habove : above' = above.map Prod.snd := by
        rw [marks_of_timeline hl] at hm hndm
        have hnot := (List.nodup_cons.mp (List.nodup_middle.mp hndm)).1
        exact ((List.append_cons_inj_of_notMem (fun h => hnot (List.mem_append_left _ h))
          (fun h => hnot (List.mem_append_right _ h))).mp hm).1.symm
      have hx : x ∈ timeline env w s.frames := by rw [hl]; simp
      have hnd : (timeline env w s.frames).Nodup := by
        refine List.Nodup.of_map Prod.snd ?_
        rw [timeline_marks]
        exact (nodup_marks s.frames).of_map
      refine .inr (Search.steady_of_stop hnd hl harm (not_finally_of_arm harm) hn ?_)
      rw [unwind_raise, errorWalk_raise] at hstop
      cases hwalk : Search.walk (fun x => x.2.isFinally) (fun x => x.2.arm x.1 code)
        (timeline env w s.frames) with
      | none =>
        rw [hwalk] at hstop
        rcases hstop with ⟨y, -, -, hstop⟩ | hstop <;> cases hstop
      | some stop =>
        obtain ⟨⟨w₁, m₁⟩, r⟩ := stop
        have hmem := (Search.walk_eq_some hwalk).1
        have hmark := mem_marks_of_timeline hmem
        rw [hwalk] at hstop
        rcases hstop with ⟨y, hy, -, hstop⟩ | hstop
        · rw [habove] at hy
          obtain ⟨z, hz, rfl⟩ := List.mem_map.mp hy
          have hzl : z ∈ timeline env w s.frames := by rw [hl]; exact List.mem_append_left _ hz
          obtain ⟨rfl, rfl⟩ :=
            stopAt_inj (r := none) hmark (mem_marks_of_timeline hzl) (Option.some.inj hstop)
          have hz₁ := timeline_eq_of_mark hmem hzl rfl
          exact .inl ⟨z, hz, by rw [hz₁]⟩
        · obtain ⟨rfl, rfl⟩ :=
            stopAt_inj (r := some pc) hmark (mem_marks_of_timeline hx) (Option.some.inj hstop)
          have hx₁ := timeline_eq_of_mark hmem hx rfl
          exact .inr (by rw [hx₁])

end Agreement

/-! ## Clauses -/

/-- A clause leaves the stacks as it finds them. It may do anything else, to the world above all. -/
structure Balanced (clause : Vm D → Vm D) : Prop where
  rest : ∀ vm, (clause vm).rest = vm.rest
  rtStack : ∀ vm, (clause vm).top.rtStack = vm.top.rtStack

/-- An unwinding that is interrupted by clauses: `EOP_CONTINUE` after each one goes on with it. The
list holds the states in which the clauses are entered. -/
inductive Passage (env : Env D) (clause : Vm D → Vm D) :
    Option (Stop D) → List (Vm D) → Stop D → Prop
  | stop {r : Stop D} : (∀ vm, r ≠ .finally vm) → Passage env clause (some r) [] r
  | clause {vm vm' : Vm D} {why : FinallyReason} {value : Var} {l : List (Vm D)} {r : Stop D} :
      popReason (clause vm) = some (why, value, vm') →
        Passage env clause (unwind env why value vm') l r →
      Passage env clause (some (.finally vm)) (vm :: l) r

/-- Where a state stands: the activations below, the run-time stack and the pc. -/
def Vm.entry (vm : Vm D) : List (Activation D) × List Var × Nat :=
  (vm.rest, vm.top.rtStack, vm.top.pc)

/-- Where the clause of a mark is entered. -/
def Mark.entry (why : FinallyReason) (value : Var) (m : Mark D) :
    List (Activation D) × List Var × Nat :=
  (activs m.rest, value :: .int why.num :: layout m.below, toPc m.clausePc)

/-- The clauses that a passage through some marks has to enter, in order. -/
def clauses (why : FinallyReason) (value : Var) (l : List (Mark D)) :
    List (List (Activation D) × List Var × Nat) :=
  (l.filter Mark.isFinally).map (Mark.entry why value)

/-- The reasons that look for no handler enter no arm. They enter every clause up to their target,
the innermost first, and come to their target. -/
structure ClauseAgreement (env : Env D) (w : World) (s : Stack D) : Prop where
  uncaught : ∀ (value : Var) (clause : Vm D → Vm D), Balanced clause → ∃ l w',
    Passage env clause (unwind env .FIN_UNCAUGHT value (s.vm w)) l (.finish .OUTCOME_ABORTED w') ∧
      l.map Vm.entry = clauses .FIN_UNCAUGHT value s.marks
  returned : ∀ (value : Var) (clause : Vm D → Vm D), Balanced clause → ∃ l r,
    Passage env clause (unwind env .FIN_RETURN value (s.vm w)) l r ∧ (∀ vm, r ≠ .catch vm) ∧
      l.map Vm.entry = clauses .FIN_RETURN value (marksAbove s.top s.rest [] s.top.items)
  exited : ∀ (upper lower : List Item) (pc : Int) (clause : Vm D → Vm D),
    s.top.items = upper ++ lower →
    Balanced clause → ∃ l vm,
      let value := Var.list [.int (layout lower).length, .int pc]
      Passage env clause (unwind env .FIN_EXIT value (s.vm w)) l (.exit vm) ∧
        vm.entry = (activs s.rest, layout lower, toPc pc) ∧
        l.map Vm.entry = clauses .FIN_EXIT value (marksAbove s.top s.rest lower upper)

section Passages

variable {env : Env D} {w : World} {why : FinallyReason} {value : Var} {fr : Frame D}
    {rest : List (Frame D)}
  {lower upper : List Item} {above below : List (Mark D)} {m : Mark D}

theorem clauses_split (hn : ∀ x ∈ above, x.isFinally = false) (hm : m.isFinally = true) :
    clauses why value (above ++ m :: below) = m.entry why value :: clauses why value below := by
  have hnil : above.filter Mark.isFinally = [] :=
    List.filter_eq_nil_iff.mpr fun x hx => by simp [hn x hx]
  rw [clauses, List.filter_append, hnil, List.nil_append, List.filter_cons_of_pos hm]
  rfl

theorem clauses_nil (h : ∀ x ∈ below, x.isFinally = false) : clauses why value below = [] := by
  rw [clauses, List.map_eq_nil_iff]
  exact List.filter_eq_nil_iff.mpr fun x hx => by simp [h x hx]

/-- Which activation holds the markers makes no difference to the clauses. -/
theorem clauses_marksAbove (fr' : Frame D) (l : List (Mark D)) :
    clauses why value (marksAbove fr' rest lower upper ++ l) =
      clauses why value (marksAbove fr rest lower upper ++ l) := by
  induction upper with
  | nil => rfl
  | cons i upper ih =>
    cases i with
    | value v => exact ih
    | «finally» pc => exact congrArg (List.cons _) ih
    | «catch» arms => exact ih

/-- The markers below one of a frame are those of the items below it. -/
theorem marksAbove_after (h : marksAbove fr rest lower upper = above ++ m :: below) :
    ∃ upper', m.below = upper' ++ lower ∧ below = marksAbove fr rest lower upper' := by
  induction upper generalizing above with
  | nil => exact absurd h (by simp [marksAbove])
  | cons i upper ih =>
    cases i with
    | value v => exact ih h
    | «finally» pc =>
      cases above with
      | nil =>
        obtain ⟨rfl, rfl⟩ := List.cons.inj h
        exact ⟨upper, rfl, rfl⟩
      | cons x above => exact ih (List.cons.inj h).2
    | «catch» arms =>
      cases above with
      | nil =>
        obtain ⟨rfl, rfl⟩ := List.cons.inj h
        exact ⟨upper, rfl, rfl⟩
      | cons x above => exact ih (List.cons.inj h).2

theorem marks_after {l : List (Frame D)} (h : marks l = above ++ m :: below) :
    ∃ fr, below = marksAbove fr m.rest [] m.below ++ marks m.rest := by
  induction l generalizing above with
  | nil => exact absurd h (by simp [marks])
  | cons fr rest ih =>
    rcases List.append_eq_append_iff.mp h with ⟨l, hl, hr⟩ | ⟨l, hl, hr⟩
    · exact ih hr
    · cases l with
      | nil => exact ih (show marks rest = [] ++ m :: below from hr.symm)
      | cons x l =>
        obtain ⟨rfl, rfl⟩ := List.cons.inj hr
        have hrest : m.rest = rest := (mem_marksAbove (by rw [hl]; simp)).2.1
        obtain ⟨upper', hb, rfl⟩ := marksAbove_after hl
        rw [List.append_nil] at hb
        exact ⟨fr, by rw [hrest, hb]; rfl⟩

theorem exitTarget_eq (lower : List Item) (pc : Int) :
    exitTarget .FIN_EXIT (.list [.int (layout lower).length, .int pc]) =
      some ((layout lower).length, toPc pc) := by
  simp [exitTarget]

theorem unwindLoop_of_turn {code : Var} {goal pc : Nat} {a : Activation D}
    {l : List (Activation D)} {r : Stop D}
    (h : unwindTurn env why value code goal pc w a l = some (some r)) :
    unwindLoop env why value code goal pc w a l = some r := by
  cases l with
  | nil => rw [unwindLoop, h]; rfl
  | cons b l => rw [unwindLoop, h]

/-- What `EOP_CONTINUE` pops after a clause: the reason and the value that the clause was entered
with, and the stack below them. -/
theorem popReason_clause {clause : Vm D → Vm D} (hb : Balanced clause)
    (hwhy : why ≠ .FIN_ABORT) (w : World)
    (m : Mark D) : ∃ (w' : World) (fr : Frame D), fr.items = m.below ∧
      popReason (clause (m.clauseVm w why value)) = some (why, value,
        ⟨w', fr.activ, activs m.rest⟩) := by
  have hstack := hb.rtStack (m.clauseVm w why value)
  have hrest := hb.rest (m.clauseVm w why value)
  generalize hvm : clause (m.clauseVm w why value) = vm at hstack hrest
  refine ⟨vm.world, ⟨{ vm.top with rtStack := layout m.below }, m.below, rfl⟩, rfl, ?_⟩
  rw [popReason, hstack]
  simp only [Mark.clauseVm, FinallyReason.ofNum_num hwhy, Option.map_some]
  rw [← show vm.rest = activs m.rest from hrest]

/-- An unwinding enters every clause of its region. A step of it comes to the first clause of the
region, below which lies the region of the next step, or there is none and it comes to its
target. -/
theorem passage_of_region {clause : Vm D → Vm D} (hb : Balanced clause) (hwhy : why ≠ .FIN_ABORT)
    (Region : Frame D → List (Frame D) → List (Mark D) → Prop) (Target : Stop D → Prop)
    (hstep : ∀ {w fr rest l}, Region fr rest l →
      (∃ above m below w', l = above ++ m :: below ∧ (∀ x ∈ above, x.isFinally = false) ∧
        m.isFinally = true ∧
        unwind env why value ⟨w, fr.activ, activs rest⟩ =
          some (.finally (m.clauseVm w' why value)) ∧
        ∀ fr' : Frame D, fr'.items = m.below →
          ∃ l', Region fr' m.rest l' ∧ clauses why value l' = clauses why value below) ∨
      ((∀ x ∈ l, x.isFinally = false) ∧ ∃ r, unwind env why value ⟨w, fr.activ, activs rest⟩ =
        some r ∧ Target r ∧
        ∀ vm, r ≠ .finally vm))
    (w : World) {fr : Frame D} {rest : List (Frame D)} {l : List (Mark D)} (hl : Region fr rest l) :
    ∃ vms r, Passage env clause (unwind env why value ⟨w, fr.activ, activs rest⟩) vms r ∧ Target r ∧
      vms.map Vm.entry = clauses why value l := by
  generalize hn : (clauses why value l).length = n
  induction n generalizing w fr rest l with
  | zero =>
    rcases hstep (w := w) hl with ⟨above, m, below, w', rfl, ha, hm, -, -⟩ | ⟨hnone, r, hr, ht, hf⟩
    · rw [clauses_split ha hm] at hn
      cases hn
    · exact ⟨[], r, by rw [hr]; exact .stop hf, ht, (clauses_nil hnone).symm⟩
  | succ n ih =>
    rcases hstep (w := w) hl with ⟨above, m, below, w', rfl, ha, hm, hr, hnext⟩ | ⟨hnone, -⟩
    · rw [clauses_split ha hm, List.length_cons, Nat.succ_inj] at hn
      obtain ⟨w'', fr', hitems, hpop⟩ := popReason_clause hb hwhy w' m
      obtain ⟨l', hregion, hclauses⟩ := hnext fr' hitems
      obtain ⟨vms, r, hpass, ht, hvms⟩ := ih w'' hregion (by rw [hclauses, hn])
      refine ⟨m.clauseVm w' why value :: vms, r, by rw [hr]; exact .clause hpop hpass, ht, ?_⟩
      rw [List.map_cons, hvms, hclauses, clauses_split ha hm]
      rfl
    · rw [clauses_nil hnone] at hn
      cases hn

theorem uncaught_step {l : List (Mark D)} (h : l = marks (fr :: rest)) :
    (∃ above m below w', l = above ++ m :: below ∧ (∀ x ∈ above, x.isFinally = false) ∧
      m.isFinally = true ∧
      unwind env .FIN_UNCAUGHT value ⟨w, fr.activ, activs rest⟩ =
        some (.finally (m.clauseVm w' .FIN_UNCAUGHT value)) ∧
      ∀ fr' : Frame D, fr'.items = m.below → ∃ l', l' = marks (fr' :: m.rest) ∧
        clauses .FIN_UNCAUGHT value l' = clauses .FIN_UNCAUGHT value below) ∨
    ((∀ x ∈ l, x.isFinally = false) ∧ ∃ r, unwind env .FIN_UNCAUGHT value ⟨w, fr.activ,
      activs rest⟩ = some r ∧
      (∃ w', r = .finish .OUTCOME_ABORTED w') ∧ ∀ vm, r ≠ .finally vm) := by
  subst h
  have hunwind : unwind env .FIN_UNCAUGHT value ⟨w, fr.activ, activs rest⟩ = _ :=
    unwindLoop_eq env (.inr rfl) value w fr rest
  rw [hunwind, ← timeline_marks env w]
  cases hwalk : errorWalk env .FIN_UNCAUGHT (.int 0) w (fr :: rest) with
  | none =>
    refine .inr ⟨List.forall_mem_map.mpr (Search.walk_eq_none hwalk), _, rfl, ⟨_, rfl⟩,
      fun vm h => by cases h⟩
  | some stop =>
    obtain ⟨⟨w', m⟩, r⟩ := stop
    obtain ⟨hm, rfl⟩ := Search.walk_bar (fun x => if_neg (by decide)) hwalk
    obtain ⟨above, below, hl, hn⟩ := Search.walk_split hwalk
    refine .inl ⟨above.map Prod.snd, m, below.map Prod.snd, w', by rw [hl]; simp,
      List.forall_mem_map.mpr hn, hm, rfl,
      fun fr' hitems => ⟨_, rfl, ?_⟩⟩
    have hmarks : marks (fr :: rest) = above.map Prod.snd ++ m :: below.map Prod.snd := by
      rw [← timeline_marks env w, hl]
      simp
    obtain ⟨fr₁, hbelow⟩ := marks_after hmarks
    rw [hbelow, marks, hitems]
    exact clauses_marksAbove fr' _

/-- The step of an unwinding that stays in its activation: an exit or a return. -/
theorem local_step {code : Var} {pc : Nat} {l : List (Mark D)} {Target : Stop D → Prop}
    (hwhy : why ≠ .FIN_ABORT)
    (hraise : why ≠ .FIN_RAISE) (hcode : raisedCode why value = some code)
    (hexit : exitTarget why value = some ((layout lower).length, pc))
    (hitems : fr.items = upper ++ lower)
    (hl : l = marksAbove fr rest lower upper)
    (htarget : popStack w why code (layout lower).length 0 fr.activ.rtStack =
      some (.goal (layout lower)) →
      ∃ r, unwindTurn env why value code (layout lower).length pc w fr.activ (activs rest) =
        some (some r) ∧ Target r ∧
        ∀ vm, r ≠ .finally vm) :
    (∃ above m below w', l = above ++ m :: below ∧ (∀ x ∈ above, x.isFinally = false) ∧
      m.isFinally = true ∧
      unwind env why value ⟨w, fr.activ, activs rest⟩ = some (.finally (m.clauseVm w' why value)) ∧
      ∀ fr' : Frame D, fr'.items = m.below →
      ∃ l', (m.rest = rest ∧ ∃ upper', fr'.items = upper' ++ lower ∧
        l' = marksAbove fr' m.rest lower upper') ∧ clauses why value l' = clauses why value below) ∨
    ((∀ x ∈ l, x.isFinally = false) ∧ ∃ r, unwind env why value ⟨w, fr.activ, activs rest⟩ =
      some r ∧ Target r ∧
      ∀ vm, r ≠ .finally vm) := by
  subst hl
  have hlower : why = .FIN_RAISE → lower = [] := fun h => absurd h hraise
  have hunwind : unwind env why value ⟨w, fr.activ, activs rest⟩ =
      unwindLoop env why value code (layout lower).length pc w fr.activ (activs rest) := by
    rw [unwind, hcode, hexit]
    rfl
  rw [hunwind]
  cases hwalk : turnWalk why code w fr rest lower upper with
  | none =>
    obtain ⟨r, hr, ht, hf⟩ := htarget (popStack_none hitems hwhy hlower hwalk)
    exact .inr ⟨Search.walk_eq_none hwalk, r, unwindLoop_of_turn hr, ht, hf⟩
  | some stop =>
    obtain ⟨m, r⟩ := stop
    obtain ⟨hm, rfl⟩ := Search.walk_bar (fun x => if_neg hraise) hwalk
    obtain ⟨above, below, hl, hn⟩ := Search.walk_split hwalk
    refine .inl ⟨above, m, below, w, hl, hn, hm,
      unwindLoop_of_turn (unwindTurn_mark hitems hwhy hlower hwalk), ?_⟩
    intro fr' hitems'
    obtain ⟨upper', hb, rfl⟩ := marksAbove_after hl
    have hrest : m.rest = rest := (mem_marksAbove (by rw [hl]; simp)).2.1
    refine ⟨_, ⟨hrest, upper', hitems'.trans hb, rfl⟩, ?_⟩
    have hclauses : clauses why value (marksAbove fr' rest lower upper' ++ []) =
        clauses why value (marksAbove fr rest lower upper' ++ []) := clauses_marksAbove fr' []
    rw [List.append_nil, List.append_nil] at hclauses
    rw [hrest, hclauses]

/-- A return leaves its activation with a value, unless a built-in function makes something else of
it. -/
theorem answer_stop (b : Activation D) (l : List (Activation D)) (a : Activation D)
    (r : World × Package D) (vm : Vm D) :
    answer b l a r ≠ .catch vm ∧ answer b l a r ≠ .finally vm := by
  obtain ⟨w, p⟩ := r
  cases p with
  | ret v => simp [answer]
  | raise code msg value => simp only [answer]; split <;> simp
  | call pc data callee => simp [answer]
  | suspend e => simp [answer]
  | kill => simp [answer]

theorem return_target (w : World) (value : Var) (a : Activation D) (l : List (Activation D))
    (h : popStack w .FIN_RETURN (.int 0) 0 0 a.rtStack = some (.goal [])) :
    ∃ r, unwindTurn env .FIN_RETURN value (.int 0) 0 0 w a l = some (some r) ∧
      (∀ vm, r ≠ .catch vm) ∧
      ∀ vm, r ≠ .finally vm := by
  rw [unwindTurn.eq_def, h]
  cases l with
  | nil => exact ⟨_, rfl, by simp, by simp⟩
  | cons b l =>
    simp only [reduceCtorEq, if_false, if_true]
    split
    · exact ⟨_, rfl, fun vm => (answer_stop ..).1, fun vm => (answer_stop ..).2⟩
    · exact ⟨_, rfl, by simp, by simp⟩

theorem clauseAgreement (env : Env D) (w : World) (s : Stack D) : ClauseAgreement env w s := by
  refine ⟨fun value clause hb => ?_, fun value clause hb => ?_,
    fun upper lower pc clause hitems hb => ?_⟩
  · have hpassage : ∃ l r, Passage env clause (unwind env .FIN_UNCAUGHT value (s.vm w)) l r ∧
        (∃ w', r = .finish .OUTCOME_ABORTED w') ∧ l.map Vm.entry =
          clauses .FIN_UNCAUGHT value s.marks :=
      passage_of_region hb (by decide) (fun fr rest l => l = Exec.marks (fr :: rest))
        _ uncaught_step w rfl
    obtain ⟨l, r, hpass, ⟨w', rfl⟩, hl⟩ := hpassage
    exact ⟨l, w', hpass, hl⟩
  · exact passage_of_region hb (by decide)
      (fun fr rest l => rest = s.rest ∧ ∃ upper, fr.items = upper ++ [] ∧
        l = marksAbove fr rest [] upper)
      (fun r => ∀ vm, r ≠ .catch vm)
      (fun {w fr rest l} h => by
        obtain ⟨rfl, upper, hitems, hl⟩ := h
        exact local_step (by decide) (by decide) rfl rfl hitems hl
          (return_target w value fr.activ _))
      w ⟨rfl, s.top.items, (List.append_nil _).symm, rfl⟩
  · have hpassage : ∃ l r, Passage env clause
          (unwind env .FIN_EXIT (.list [.int (layout lower).length, .int pc]) (s.vm w)) l r ∧
        (∃ vm, r = .exit vm ∧ vm.entry = (activs s.rest, layout lower, toPc pc)) ∧
        l.map Vm.entry = clauses .FIN_EXIT (.list [.int (layout lower).length, .int pc])
          (marksAbove s.top s.rest lower upper) :=
      passage_of_region hb (by decide)
        (fun fr rest l => rest = s.rest ∧ ∃ upper, fr.items = upper ++ lower ∧
          l = marksAbove fr rest lower upper)
        (fun r => ∃ vm, r = .exit vm ∧ vm.entry = (activs s.rest, layout lower, toPc pc))
        (fun {w fr rest l} h => by
          obtain ⟨rfl, upper, hitems, hl⟩ := h
          refine local_step (by decide) (by decide) rfl (exitTarget_eq lower pc) hitems
            hl fun hpop => ?_
          rw [unwindTurn.eq_def, hpop]
          exact ⟨_, rfl, ⟨_, rfl, rfl⟩, by simp⟩)
        w ⟨rfl, upper, hitems, rfl⟩
    obtain ⟨l, r, hpass, ⟨vm, rfl, hvm⟩, hl⟩ := hpassage
    exact ⟨l, vm, hpass, hvm, hl⟩

end Passages

/-- `raise_error` on such a stack: in the clause or the arm that the search promises, or, with no
arm for the code, in a clause or at the end of the task. -/
theorem raiseError_stop {env : Env D} {w : World} {s : Stack D} {code value : Var} {msg : Str}
    (h : ArmsKept env w s code) : ∃ r, raiseError env code msg value (s.vm w) = some r ∧
      ((∃ f vm, findHandlerActiv w code (s.vm w).activs = some (some f) ∧ r = .catch vm ∧
        vm.rest.length = f) ∨
        (∃ vm, r = .finally vm) ∨
        (findHandlerActiv w code (s.vm w).activs = some none ∧
          ∃ w', r = .finish .OUTCOME_ABORTED w')) := by
  have hsearch := isSome_search w s code
  cases hfind : findHandlerActiv w code (s.vm w).activs with
  | none => rw [hfind] at hsearch; cases hsearch
  | some found =>
    have hw : (s.vm w).world = w := rfl
    cases found with
    | some f =>
      have hagree : HandlerAgreement env w s code [.str msg, value, .list (makeStackList env f
        ((s.vm w).activs.take ((s.vm w).activs.length - f)))] := .of_armsKept h
      obtain ⟨above, m, below, pc, -, rfl, -, -, w', hstop⟩ := hagree.caught f hfind
      simp only [raiseError, hw, hfind, Option.bind_eq_bind, Option.bind_some]
      rcases hstop with ⟨x, -, -, hx⟩ | hm
      · exact ⟨_, hx, .inr (.inl ⟨_, rfl⟩)⟩
      · exact ⟨_, hm, .inl ⟨_, _, rfl, rfl, by simp [Mark.armVm, Mark.index, activs]⟩⟩
    | none =>
      simp only [raiseError, hw, hfind, Option.bind_eq_bind, Option.bind_some]
      refine ⟨_, unwindLoop_eq env (.inr rfl) _ _ s.top s.rest, ?_⟩
      split
      · next w' m r hwalk =>
        obtain ⟨-, rfl⟩ := Search.walk_bar (fun x => if_neg (by decide)) hwalk
        exact .inr (.inl ⟨_, rfl⟩)
      · exact .inr (.inr ⟨trivial, _, rfl⟩)

/-- How the interpreter uses the unwinding. `raise_error` stops in the clause or the arm that the
search promises, or, with no arm for the code, in a clause or at the end of the task; after a clause
that an error or an exit has entered, `EOP_CONTINUE` goes on with the unwinding; and the functions
that are resumed on the way end, whatever the bound. -/
structure Driven (env : Env D) (w : World) (s : Stack D) (code : Var) : Prop where
  raises : ArmsKept env w s code → ∀ msg value, ∃ r,
    raiseError env code msg value (s.vm w) = some r ∧
    ((∃ f vm, findHandlerActiv w code (s.vm w).activs = some (some f) ∧ r = .catch vm ∧
      vm.rest.length = f) ∨
      (∃ vm, r = .finally vm) ∨
      (findHandlerActiv w code (s.vm w).activs = some none ∧ ∃ w', r = .finish .OUTCOME_ABORTED w'))
  continues : ∀ vm vm' why value, popReason vm = some (why, value, vm') → why ≠ .FIN_FALL_THRU →
    why ≠ .FIN_RETURN →
    eopContinue env vm = (unwind env why value vm').map .inr
  settles : ∀ (w : World) (a : Activation D) activs n, a.biFuncPc ≠ 0 →
    env.rank w a.biFuncId a.biFuncPc a.biFuncData < n →
    squelch env w a activs = squelchLoop env activs a.biFuncId n w a.biFuncPc a.progr a.biFuncData

theorem driven (env : Env D) (w : World) (s : Stack D) (code : Var) : Driven env w s code where
  raises h _ _ := raiseError_stop h
  continues _ _ _ _ h hthru hwhy := eopContinue_eq h hthru hwhy
  settles w a activs n hpc hn := by
    rw [squelch, if_pos hpc]
    exact squelchLoop_bound env activs a.biFuncId (Nat.lt_succ_self _) hn

/-- For every stack with well-formed run-time stacks and every code: search and unwinding agree, and
the other reasons enter every clause and no arm, exactly when the functions that the raise resumes
keep the arms. -/
theorem handlers_agree_iff (env : Env D) (w : World) (s : Stack D) (code : Var) :
    (((∀ tail, HandlerAgreement env w s code tail) ∧ ClauseAgreement env w s) ↔
      ArmsKept env w s code) ∧ Driven env w s code :=
  ⟨⟨fun h => .of_agreement (h.1 []), fun h => ⟨fun _ => .of_armsKept h, clauseAgreement env w s⟩⟩,
    driven env w s code⟩

/-- No activation with a function that waits for it: nothing is resumed. -/
theorem timeline_world {env : Env D} {w : World} {l : List (Frame D)}
    (h : ∀ fr ∈ l, fr.activ.biFuncPc = 0)
    {x : World × Mark D} (hx : x ∈ timeline env w l) : x.1 = w := by
  induction l with
  | nil => cases hx
  | cons fr rest ih =>
    rcases List.mem_append.mp hx with hx | hx
    · obtain ⟨m, -, rfl⟩ := List.mem_map.mp hx
      rfl
    · have hsquelch : squelch env w fr.activ (activs rest) = w :=
        if_neg fun hne => hne (h fr (List.mem_cons_self ..))
      rw [hsquelch] at hx
      exact ih (fun fr hfr => h fr (List.mem_cons_of_mem _ hfr)) hx

/-- While only verbs are on the stack, search and unwinding agree. -/
theorem armsKept_of_verbs {env : Env D} {w : World} {s : Stack D} (code : Var)
    (h : ∀ fr ∈ s.frames, fr.activ.biFuncPc = 0) : ArmsKept env w s code :=
  .inr (Search.steady_of_eq fun _ hx => by rw [timeline_world h hx])

/-! ## A verb that raises the object that is being recycled -/

section Recycled

/-- An object `#0` with a child `#1`. -/
def parentAndChild : Db where
  objects := [
    some { id := 0, owner := 0, location := NOTHING, contents := NOTHING, next := NOTHING,
           parent := NOTHING,
           child := 1, sibling := NOTHING, name := [], flags := 0, verbdefs := [], propdefs :=
             [], propval := [] },
    some { id := 1, owner := 0, location := NOTHING, contents := NOTHING,
           next := NOTHING, parent := 0,
           child := NOTHING, sibling := NOTHING, name := [], flags := 0, verbdefs := [], propdefs :=
             [], propval := [] }]
  allUsers := []
  vcTable := none
  nextPid := 0

def childWorld : World := ⟨parentAndChild, fun _ => NOTHING, none⟩

/-- The function that waits is `recycle`, of the object in its data; no verb answers its further
calls. -/
def recycling : Env Objid where
  call w _ _ _ _ progr data :=
    match w.db.bfRecycle2 data progr fun _ _ => .E_VERBNF with
    | some (_, db) => ({ w with db }, .ret (.int 0))
    | none => (w, .ret (.int 0))
  lineNumber _ _ := 0
  funcName _ := []
  backtrace _ _ := .list []
  rank _ _ _ _ := 0
  settles h := by
    split at h <;> cases h

/-- A verb that has `try recycle(#1); except (#0) ... endtry` running. -/
def trier : Frame Objid where
  activ := { rtStack := [.catch 1, .int 20, .list [.obj 0]], pc := 10, errorPc := 10,
             biFuncPc := 0, biFuncId := 0,
             biFuncData := NOTHING, this := .obj 0, player := 0, progr := 0, vloc := 0, verb :=
               [], debug := true }
  items := [.catch [⟨⟨.list [.obj 0], rfl⟩, 20⟩]]
  laidOut := rfl

/-- The verb `recycle` of `#1`, which `recycle` waits for. -/
def recycleVerb : Frame Objid where
  activ := { rtStack := [], pc := 5, errorPc := 5, biFuncPc := 2, biFuncId := 0,
             biFuncData := 1, this := .obj 1,
             player := 0, progr := 0, vloc := 1, verb := [], debug := true }
  items := []
  laidOut := rfl

/-- `raise(#1)` in that verb: the search finds the arm for `#0`, the parent of `#1`. The unwinding
first lets `recycle` finish, then no arm takes the code and the task ends. -/
theorem recycled_code_missed :
    findHandlerActiv childWorld (.obj 1) (activs [recycleVerb, trier]) = some (some 0) ∧
    (∃ w, unwind recycling .FIN_RAISE (.list [.obj 1])
      (Stack.vm ⟨recycleVerb, [trier]⟩ childWorld) =
      some (.finish .OUTCOME_ABORTED w)) ∧
    ¬ ((∀ tail, HandlerAgreement recycling childWorld ⟨recycleVerb, [trier]⟩ (.obj 1) tail) ∧
      ClauseAgreement recycling childWorld ⟨recycleVerb, [trier]⟩) := by
  have hfind : findHandlerActiv childWorld (.obj 1) (activs [recycleVerb, trier]) =
      some (some 0) := rfl
  have hmiss : ∃ w, unwind recycling .FIN_RAISE (.list [.obj 1])
      (Stack.vm ⟨recycleVerb, [trier]⟩ childWorld) =
      some (.finish .OUTCOME_ABORTED w) := ⟨_, rfl⟩
  refine ⟨hfind, hmiss, fun h => ?_⟩
  obtain ⟨w, hw⟩ := hmiss
  obtain ⟨above, m, below, pc, -, -, -, -, w', hstop⟩ := (h.1 []).caught 0 hfind
  rcases hstop with ⟨x, -, -, hx⟩ | hm
  · cases hw.symm.trans hx
  · cases hw.symm.trans hm

end Recycled

end NuMoo.Exec
