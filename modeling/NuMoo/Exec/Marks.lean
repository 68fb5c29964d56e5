import NuMoo.Exec.Unwind
import NuMoo.Lib.Search

/-!
# The markers of a stack of activations

The run-time stack of a `Frame` is laid out from items: values, `TYPE_FINALLY` markers and
`TYPE_CATCH` markers with their arms. `marks` lists the markers of a stack of activations, the
innermost first.

Results:
1. `findHandlerActiv_eq`: the search for a handler seeks an arm in `marks`.
2. `unwindLoop_eq`: the unwinding on an error walks the same list. Each mark comes with the world
   that the squelched built-in functions above it leave (`timeline`).
-/

namespace NuMoo

/-- A value that is no marker. -/
def Var.isPlain : Var → Bool
  | .catch _ => false
  | .finally _ => false
  | _ => true

namespace Exec

structure PlainVar where
  val : Var
  plain : val.isPlain = true

/-- One arm of a handler: the codes it names and the pc of its clause. -/
structure Arm where
  codes : PlainVar
  pc : Int

/-- What a run-time stack holds. -/
inductive Item where
  | value (v : PlainVar)
  | finally (pc : Int)
  | catch (arms : List Arm)

/-- The slots of the arms of a marker, with their top first. -/
def armsLayout (arms : List Arm) : List Var :=
  (arms.flatMap fun a => [a.codes.val, .int a.pc]).reverse

def Item.layout : Item → List Var
  | .value v => [v.val]
  | .finally pc => [.finally pc]
  | .catch arms => .catch arms.length :: armsLayout arms

def layout (l : List Item) : List Var := l.flatMap Item.layout

@[simp] theorem layout_nil : layout [] = [] := rfl

@[simp] theorem layout_cons (i : Item) (l : List Item) :
    layout (i :: l) = i.layout ++ layout l := rfl

@[simp] theorem layout_append (l m : List Item) : layout (l ++ m) = layout l ++ layout m :=
  List.flatMap_append

theorem Item.layout_length_pos (i : Item) : 0 < i.layout.length := by cases i <;> simp [Item.layout]

/-- An activation whose run-time stack is well formed. -/
structure Frame (D : Type) where
  activ : Activation D
  items : List Item
  laidOut : activ.rtStack = layout items

inductive MarkKind where
  | finally (pc : Int)
  | catch (arms : List Arm)

/-- A marker on the stack of activations, with what lies below it. -/
structure Mark (D : Type) where
  frame : Frame D
  rest : List (Frame D)
  kind : MarkKind
  below : List Item

variable {D : Type}

/-- The activations of frames. -/
def activs (l : List (Frame D)) : List (Activation D) := l.map Frame.activ

namespace Mark

def isFinally (m : Mark D) : Bool :=
  match m.kind with
  | .finally _ => true
  | .catch _ => false

/-- The pc of the clause of a `TYPE_FINALLY` marker. -/
def clausePc (m : Mark D) : Int :=
  match m.kind with
  | .finally pc => pc
  | .catch _ => 0

/-- The pc of the first arm that handles the code. -/
def arm (w : World) (code : Var) (m : Mark D) : Option Nat :=
  match m.kind with
  | .finally _ => none
  | .catch arms => (arms.find? fun a => handledBy w code a.codes.val).map fun a => toPc a.pc

/-- The index of the activation that holds the marker. -/
def index (m : Mark D) : Nat := m.rest.length

/-- Where the marker lies: its activation and its slot. -/
def place (m : Mark D) : Nat × Nat := (m.index, (layout m.below).length)

/-- The state after the clause of a marker has been entered. -/
def clauseVm (w : World) (why : FinallyReason) (value : Var) (m : Mark D) : Vm D :=
  ⟨w, { m.frame.activ with pc := toPc m.clausePc,
                           rtStack := value :: .int why.num :: layout m.below }, activs m.rest⟩

/-- The state after an arm of a marker has been entered. -/
def armVm (w : World) (value : Var) (pc : Nat) (m : Mark D) : Vm D :=
  ⟨w, { m.frame.activ with pc, rtStack := value :: layout m.below }, activs m.rest⟩

end Mark

/-- The markers among the upper items of a frame, above the lower ones. -/
def marksAbove (fr : Frame D) (rest : List (Frame D)) (lower : List Item) :
    List Item → List (Mark D)
  | [] => []
  | .value _ :: l => marksAbove fr rest lower l
  | .finally pc :: l => ⟨fr, rest, .finally pc, l ++ lower⟩ :: marksAbove fr rest lower l
  | .catch arms :: l => ⟨fr, rest, .catch arms, l ++ lower⟩ :: marksAbove fr rest lower l

/-- All markers of a stack of activations, the innermost first. -/
def marks : List (Frame D) → List (Mark D)
  | [] => []
  | fr :: rest => marksAbove fr rest [] fr.items ++ marks rest

/-- The markers with the world in which an unwinding on an error comes to them. -/
def timeline (env : Env D) : World → List (Frame D) → List (World × Mark D)
  | _, [] => []
  | w, fr :: rest =>
    (marksAbove fr rest [] fr.items).map (Prod.mk w) ++
      timeline env (squelch env w fr.activ (activs rest)) rest

/-- The world when the whole stack has been unwound on an error. -/
def lastWorld (env : Env D) : World → List (Frame D) → World
  | w, [] => w
  | w, [_] => w
  | w, fr :: fr' :: rest =>
    lastWorld env (squelch env w fr.activ (activs (fr' :: rest))) (fr' :: rest)

theorem timeline_marks (env : Env D) (w : World) (l : List (Frame D)) :
    (timeline env w l).map Prod.snd = marks l := by
  induction l generalizing w with
  | nil => rfl
  | cons fr rest ih => simp [timeline, marks, ih, Function.comp_def]

/-! ## Places -/

section Places

variable {fr : Frame D} {rest : List (Frame D)} {lower upper : List Item} {m : Mark D}

theorem mem_marksAbove (h : m ∈ marksAbove fr rest lower upper) :
    m.frame = fr ∧ m.rest = rest ∧ (layout m.below).length < (layout (upper ++ lower)).length := by
  induction upper with
  | nil => cases h
  | cons i l ih =>
    have hpos := i.layout_length_pos
    rw [List.cons_append, layout_cons, List.length_append]
    cases i with
    | value v =>
      obtain ⟨hf, hr, hb⟩ := ih h
      exact ⟨hf, hr, by omega⟩
    | «finally» pc =>
      rcases List.mem_cons.mp h with rfl | h
      · exact ⟨rfl, rfl, by dsimp only; omega⟩
      · obtain ⟨hf, hr, hb⟩ := ih h
        exact ⟨hf, hr, by omega⟩
    | «catch» arms =>
      rcases List.mem_cons.mp h with rfl | h
      · exact ⟨rfl, rfl, by dsimp only; omega⟩
      · obtain ⟨hf, hr, hb⟩ := ih h
        exact ⟨hf, hr, by omega⟩

theorem nodup_marksAbove (fr : Frame D) (rest : List (Frame D)) (lower upper : List Item) :
    ((marksAbove fr rest lower upper).map Mark.place).Nodup := by
  induction upper with
  | nil => exact List.nodup_nil
  | cons i l ih =>
    have new : ∀ kind, Mark.place (⟨fr, rest, kind, l ++ lower⟩ : Mark D) ∉
        (marksAbove fr rest lower l).map Mark.place := by
      intro kind h
      obtain ⟨m, hm, hp⟩ := List.mem_map.mp h
      have hlt := (mem_marksAbove hm).2.2
      exact absurd (congrArg Prod.snd hp) (Nat.ne_of_lt hlt)
    cases i with
    | value v => exact ih
    | «finally» pc => exact List.nodup_cons.mpr ⟨new _, ih⟩
    | «catch» arms => exact List.nodup_cons.mpr ⟨new _, ih⟩

theorem mem_marks {l : List (Frame D)} (h : m ∈ marks l) : m.index < l.length := by
  induction l with
  | nil => cases h
  | cons fr rest ih =>
    rcases List.mem_append.mp h with h | h
    · rw [Mark.index, (mem_marksAbove h).2.1]
      exact Nat.lt_succ_self _
    · exact Nat.lt_succ_of_lt (ih h)

theorem nodup_marks (l : List (Frame D)) : ((marks l).map Mark.place).Nodup := by
  induction l with
  | nil => exact List.nodup_nil
  | cons fr rest ih =>
    rw [marks, List.map_append]
    refine (nodup_marksAbove fr rest [] fr.items).append ih ?_
    intro p hp hp'
    obtain ⟨m, hm, rfl⟩ := List.mem_map.mp hp
    obtain ⟨m', hm', he⟩ := List.mem_map.mp hp'
    have hi : m'.index = m.index := congrArg Prod.fst he
    have hlt := mem_marks hm'
    rw [hi, Mark.index, (mem_marksAbove hm).2.1] at hlt
    exact absurd hlt (Nat.lt_irrefl _)

/-- Marks of one stack that lie at one place are the same. -/
theorem eq_of_place {l : List (Frame D)} {m m' : Mark D} (h : m ∈ marks l) (h' : m' ∈ marks l)
    (hp : m.place = m'.place) :
    m = m' :=
  List.inj_on_of_nodup_map (nodup_marks l) h h' hp

end Places

/-! ## Arms on the stack -/

section Arms

variable {w : World} {code : Var} {arms : List Arm} {s : List Var}

theorem pairUp_flatMap (arms : List Arm) :
    pairUp (arms.flatMap fun a => [a.codes.val, .int a.pc]) = arms.map fun a =>
      (a.codes.val, .int a.pc) := by
  induction arms with
  | nil => rfl
  | cons a arms ih => simp [pairUp, ih]

theorem armsLayout_length (arms : List Arm) : (armsLayout arms).length = armSlots arms.length := by
  induction arms with
  | nil => rfl
  | cons a arms ih =>
    simp only [armsLayout, armSlots, List.length_reverse, Int.toNat_natCast] at ih
    simp only [armsLayout, armSlots, List.length_reverse, Int.toNat_natCast, List.flatMap_cons,
      List.length_append, ih,
      List.length_cons, List.length_nil]
    omega

theorem armsBelow_layout (arms : List Arm) (s : List Var) :
    armsBelow (armSlots arms.length) (armsLayout arms ++ s) =
      some (arms.map fun a => (a.codes.val, .int a.pc)) := by
  have hlen := armsLayout_length arms
  rw [armsBelow, if_neg (by rw [List.length_append, hlen]; omega), ← hlen,
    List.take_left', armsLayout,
    List.reverse_reverse, pairUp_flatMap]
  rfl

theorem firstArm_layout (w : World) (code : Var) (arms : List Arm) :
    firstArm w code (arms.map fun a => (a.codes.val, .int a.pc)) =
      (arms.find? fun a => handledBy w code a.codes.val).map fun a => Var.int a.pc := by
  rw [firstArm, List.find?_map, Option.map_map]
  rfl

theorem plain_armsLayout {v : Var} (h : v ∈ armsLayout arms) : v.isPlain = true := by
  simp only [armsLayout, List.mem_reverse, List.mem_flatMap, List.mem_cons,
    List.not_mem_nil, or_false] at h
  obtain ⟨a, -, rfl | rfl⟩ := h
  · exact a.codes.plain
  · rfl

end Arms

/-! ## The search -/

section Seeking

variable (w : World) (code : Var)

theorem activeHandler_skip (l s : List Var) :
    activeHandler w code l.length (l ++ s) = activeHandler w code 0 s := by
  induction l with
  | nil => rfl
  | cons v l ih =>
    rw [List.cons_append, List.length_cons, activeHandler]
    exact ih

theorem activeHandler_plain {v : Var} (h : v.isPlain = true) (s : List Var) :
    activeHandler w code 0 (v :: s) = activeHandler w code 0 s := by
  cases v with
  | «catch» n => cases h
  | «finally» n => cases h
  | _ => rfl

theorem any_handled (arms : List Arm) :
    ((arms.map fun a => (a.codes.val, Var.int a.pc)).any fun p => handledBy w code p.1) =
      (arms.find? fun a => handledBy w code a.codes.val).isSome := by
  rw [List.any_map, List.isSome_find?]
  rfl

theorem activeHandler_eq (fr : Frame D) (rest : List (Frame D)) (l : List Item) :
    activeHandler w code 0 (layout l) =
      some (Search.seek (Mark.arm w code) (marksAbove fr rest [] l)).isSome := by
  induction l with
  | nil => rfl
  | cons i l ih =>
    rw [layout_cons]
    cases i with
    | value v =>
      rw [Item.layout, List.singleton_append, activeHandler_plain w code v.plain]
      exact ih
    | «finally» pc => exact ih
    | «catch» arms =>
      simp only [Item.layout, List.cons_append, activeHandler, armsBelow_layout, any_handled,
        marksAbove, Search.seek,
        Mark.arm]
      rw [← armsLayout_length, activeHandler_skip, ih]
      cases arms.find? fun a => handledBy w code a.codes.val <;> rfl

/-- The search finds the frame of the first mark with an arm for the code. -/
theorem findHandlerActiv_eq (l : List (Frame D)) :
    findHandlerActiv w code (activs l) =
      some ((Search.seek (Mark.arm w code) (marks l)).map fun r => r.1.index) := by
  induction l with
  | nil => rfl
  | cons fr rest ih =>
    have hstack := activeHandler_eq w code fr rest fr.items
    simp only [activs, List.map_cons, findHandlerActiv, fr.laidOut, hstack, Option.bind_eq_bind,
      Option.bind_some, marks,
      Search.seek_append]
    cases hs : Search.seek (Mark.arm w code) (marksAbove fr rest [] fr.items) with
    | none => exact ih
    | some r =>
      obtain ⟨above, below, hl, -, -⟩ := Search.seek_eq_some.mp hs
      have hm : r.1 ∈ marksAbove fr rest [] fr.items := by rw [hl]; simp
      have hrest : r.1.rest = rest := (mem_marksAbove hm).2.1
      simp [Mark.index, hrest]

end Seeking

/-! ## The walk -/

section Walking

variable {w : World} {why : FinallyReason} {code : Var} {goal : Nat}

theorem popStack_skip (l s : List Var) :
    popStack w why code goal l.length (l ++ s) = popStack w why code goal 0 s := by
  induction l with
  | nil => rfl
  | cons v l ih =>
    rw [List.cons_append, List.length_cons, popStack]
    exact ih

theorem popStack_plain {v : Var} {s : List Var} (h : v.isPlain = true) (hs : goal ≤ s.length) :
    popStack w why code goal 0 (v :: s) = popStack w why code goal 0 s := by
  cases v with
  | «catch» n => cases h
  | «finally» n => cases h
  | _ => exact if_neg (Nat.not_lt.mpr hs)

theorem popStack_plains {l s : List Var} (h : ∀ v ∈ l, v.isPlain = true) (hs : goal ≤ s.length) :
    popStack w why code goal 0 (l ++ s) = popStack w why code goal 0 s := by
  induction l with
  | nil => rfl
  | cons v l ih =>
    rw [List.cons_append, popStack_plain (h v (List.mem_cons_self ..))
      (by rw [List.length_append]; omega)]
    exact ih fun v hv => h v (List.mem_cons_of_mem _ hv)

theorem popStack_goal (s : List Var) : popStack w why code s.length 0 s = some (.goal s) := by
  cases s with
  | nil => rfl
  | cons v s => exact if_pos (Nat.lt_succ_self _)

/-- The arm of a mark that an unwinding enters: a raise alone looks for one. -/
def Mark.armFor (why : FinallyReason) (w : World) (code : Var) (m : Mark D) : Option Nat :=
  if why = .FIN_RAISE then m.arm w code else none

/-- How the loop over a run-time stack ends at a mark. -/
def Mark.unwound (m : Mark D) : Option Nat → Unwound
  | none => .finally (toPc m.clausePc) (layout m.below)
  | some pc => .catch pc (layout m.below)

/-- The loop over a run-time stack walks the marks above its goal. A raise has the whole stack
before it. -/
theorem popStack_eq (fr : Frame D) (rest : List (Frame D)) (lower upper : List Item)
    (hwhy : why ≠ .FIN_ABORT)
    (hraise : why = .FIN_RAISE → lower = []) :
    popStack w why code (layout lower).length 0 (layout (upper ++ lower)) =
      some (match Search.walk Mark.isFinally (Mark.armFor why w code)
        (marksAbove fr rest lower upper) with
        | some (m, r) => m.unwound r
        | none => .goal (layout lower)) := by
  induction upper with
  | nil => exact popStack_goal _
  | cons i l ih =>
    have hle : (layout lower).length ≤ (layout (l ++ lower)).length := by
      rw [layout_append, List.length_append]; omega
    rw [List.cons_append, layout_cons]
    cases i with
    | value v =>
      rw [Item.layout, List.singleton_append, popStack_plain v.plain hle]
      exact ih
    | «finally» pc =>
      rw [Item.layout, List.singleton_append, popStack, if_neg (Nat.not_lt.mpr hle)]
      simp only [ne_eq, hwhy, not_false_eq_true, if_true]
      rfl
    | «catch» arms =>
      have hle' : (layout lower).length ≤ (armsLayout arms ++ layout (l ++ lower)).length := by
        rw [List.length_append]; omega
      rw [Item.layout, List.cons_append, popStack, if_neg (Nat.not_lt.mpr hle')]
      by_cases hr : why = .FIN_RAISE
      · -- the pairs go with their marker
        have hgoal : lower = [] := hraise hr
        simp only [hr, if_true, armsBelow_layout, firstArm_layout, marksAbove, Search.walk,
          Mark.isFinally, Mark.armFor,
          Mark.arm]
        cases arms.find? fun a => handledBy w code a.codes.val with
        | none =>
          rw [hr] at ih
          rw [← armsLayout_length]
          dsimp only [Option.map_none]
          rw [popStack_skip, ih]
          simp
        | some a =>
          dsimp only [Option.map_some]
          rw [← armsLayout_length, List.drop_left]
          rfl
      · -- the pairs are popped as values
        simp only [hr, if_false]
        rw [popStack_plains (fun v hv => plain_armsLayout hv) hle, ih]
        simp [marksAbove, Search.walk, Mark.isFinally, Mark.armFor, hr]

/-- Where an unwinding stops at a mark: in its clause, or in one of its arms. -/
def Mark.stopAt (why : FinallyReason) (value : Var) (w : World) (m : Mark D) : Option Nat → Stop D
  | none => .finally (m.clauseVm w why value)
  | some pc => .catch (m.armVm w value pc)

/-- The walk of one turn of the loop of `unwind_stack`. -/
abbrev turnWalk (why : FinallyReason) (code : Var) (w : World) (fr : Frame D)
    (rest : List (Frame D))
    (lower upper : List Item) : Option (Mark D × Option Nat) :=
  Search.walk Mark.isFinally (Mark.armFor why w code) (marksAbove fr rest lower upper)

section Turn

variable {env : Env D} {value : Var} {pc : Nat} {fr : Frame D} {rest : List (Frame D)}
    {lower upper : List Item}

/-- A turn ends at the first mark of its walk. -/
theorem unwindTurn_mark (hitems : fr.items = upper ++ lower) (hwhy : why ≠ .FIN_ABORT)
    (hraise : why = .FIN_RAISE → lower = []) {m : Mark D} {r : Option Nat}
    (h : turnWalk why code w fr rest lower upper = some (m, r)) :
    unwindTurn env why value code (layout lower).length pc w fr.activ (activs rest) =
      some (some (m.stopAt why value w r)) := by
  obtain ⟨hf, hr, -⟩ := mem_marksAbove (Search.walk_eq_some h).1
  have hpop : popStack w why code (layout lower).length 0 fr.activ.rtStack =
      some (m.unwound r) := by
    rw [fr.laidOut, hitems, popStack_eq fr rest lower upper hwhy hraise]
    rw [turnWalk] at h
    rw [h]
  rw [unwindTurn.eq_def, hpop]
  cases r <;> simp [Mark.unwound, Mark.stopAt, Mark.clauseVm, Mark.armVm, hf, hr]

/-- Without a mark the run-time stack is popped to its goal. -/
theorem popStack_none (hitems : fr.items = upper ++ lower) (hwhy : why ≠ .FIN_ABORT)
    (hraise : why = .FIN_RAISE → lower = []) (h : turnWalk why code w fr rest lower upper = none) :
    popStack w why code (layout lower).length 0 fr.activ.rtStack = some (.goal (layout lower)) := by
  rw [fr.laidOut, hitems, popStack_eq fr rest lower upper hwhy hraise]
  rw [turnWalk] at h
  rw [h]

end Turn

/-- A raise, or an error that nobody handles: the reasons that unwind the whole stack. -/
def FinallyReason.isError (why : FinallyReason) : Prop := why = .FIN_RAISE ∨ why = .FIN_UNCAUGHT

/-- The walk of an unwinding on an error. -/
abbrev errorWalk (env : Env D) (why : FinallyReason) (code : Var) (w : World) (l : List (Frame D)) :
    Option ((World × Mark D) × Option Nat) :=
  Search.walk (fun x => x.2.isFinally) (fun x => x.2.armFor why x.1 code) (timeline env w l)

theorem walk_map_mk (w : World) (l : List (Mark D)) :
    Search.walk (fun x => x.2.isFinally) (fun x => x.2.armFor why x.1 code) (l.map (Prod.mk w)) =
      (Search.walk Mark.isFinally (Mark.armFor why w code) l).map fun r => ((w, r.1), r.2) := by
  induction l with
  | nil => rfl
  | cons m l ih =>
    simp only [List.map_cons, Search.walk]
    split
    · rfl
    · cases m.armFor why w code with
      | some pc => rfl
      | none => exact ih

/-- The unwinding on an error stops where its walk over the timeline does. -/
theorem unwindLoop_eq (env : Env D) (he : why.isError) (value : Var) (w : World) (fr : Frame D)
    (rest : List (Frame D)) :
    unwindLoop env why value code 0 0 w fr.activ (activs rest) =
      some (match errorWalk env why code w (fr :: rest) with
        | some ((w', m), r) => m.stopAt why value w' r
        | none => .finish .OUTCOME_ABORTED (lastWorld env w (fr :: rest))) := by
  have habort : why ≠ .FIN_ABORT := by rcases he with rfl | rfl <;> decide
  have hreturn : why ≠ .FIN_RETURN := by rcases he with rfl | rfl <;> decide
  have hexit : why ≠ .FIN_EXIT := by rcases he with rfl | rfl <;> decide
  induction rest generalizing w fr with
  | nil =>
    have hitems : fr.items = fr.items ++ [] := (List.append_nil _).symm
    have hwalk : errorWalk env why code w [fr] =
        (turnWalk why code w fr [] [] fr.items).map fun r => ((w, r.1), r.2) := by
      simp only [errorWalk, timeline, List.append_nil, walk_map_mk]
    rw [hwalk]
    cases ht : turnWalk why code w fr [] [] fr.items with
    | some r =>
      have hturn := @unwindTurn_mark _ _ _ _ env value 0 _ _ _ _ hitems habort (fun _ => rfl) _ _ ht
      simp only [layout_nil, List.length_nil, activs, List.map_nil] at hturn
      simp only [activs, List.map_nil, unwindLoop, hturn]
      rfl
    | none =>
      have hpop := popStack_none hitems habort (fun _ => rfl) ht
      simp only [layout_nil, List.length_nil] at hpop
      simp only [activs, List.map_nil, unwindLoop, unwindTurn, hpop, hexit, hreturn, if_false]
      rfl
  | cons fr' rest ih =>
    have hitems : fr.items = fr.items ++ [] := (List.append_nil _).symm
    have hwalk : errorWalk env why code w (fr :: fr' :: rest) =
        ((turnWalk why code w fr (fr' :: rest) [] fr.items).map fun r => ((w, r.1), r.2)).or
          (errorWalk env why code (squelch env w fr.activ (activs (fr' :: rest)))
            (fr' :: rest)) := by
      simp only [errorWalk]
      rw [timeline, Search.walk_append, walk_map_mk]
    rw [hwalk]
    cases ht : turnWalk why code w fr (fr' :: rest) [] fr.items with
    | some r =>
      have hturn := @unwindTurn_mark _ _ _ _ env value 0 _ _ _ _ hitems habort (fun _ => rfl) _ _ ht
      simp only [layout_nil, List.length_nil, activs, List.map_cons] at hturn
      simp only [activs, List.map_cons, unwindLoop, hturn]
      rfl
    | none =>
      have hpop := popStack_none hitems habort (fun _ => rfl) ht
      simp only [layout_nil, List.length_nil] at hpop
      simp only [activs, List.map_cons, unwindLoop, unwindTurn, hpop, hexit, hreturn, if_false]
      exact ih _ fr'

end Walking

end Exec

end NuMoo
