import Mathlib.Logic.Equiv.Basic
import Mathlib.Logic.Function.Basic
import NuMoo.Lib.Chain

/-!
# Forests of intrusive lists

A forest in which each element stores a link to its parent, the head of the list
of its children and its successor on its parent's list. `Links.WF` says that the
lists and the parent links describe one forest. The operations below are the
usual ones on such a structure; each keeps `WF`.

Results:
1. `WF.remove`, `WF.append`, `WF.reparent`: moving an element to another list.
2. `WF.insert`, `WF.delete`: a new root, and the removal of a childless one.
3. `WF.rename`: renaming the elements along a permutation that fixes `nil`.
4. `Links.upN`: ancestors by distance; `WF.upN_inj` and `WF.length_lt` bound them.
-/

namespace Linked

variable {α : Type*}

/-- The three links of an element. -/
structure Cell (α : Type*) where
  up : α
  head : α
  next : α
deriving DecidableEq, Repr

/-- The links of all present elements. -/
abbrev Links (α : Type*) := α → Option (Cell α)

namespace Links

variable (L : Links α)

def up (x : α) : Option α := (L x).map Cell.up
def head (x : α) : Option α := (L x).map Cell.head
def next (x : α) : Option α := (L x).map Cell.next

variable {L}

theorem up_eq {x : α} {c : Cell α} (h : L x = some c) : L.up x = some c.up := by simp [up, h]
theorem head_eq {x : α} {c : Cell α} (h : L x = some c) : L.head x = some c.head := by
  simp [head, h]
theorem next_eq {x : α} {c : Cell α} (h : L x = some c) : L.next x = some c.next := by
  simp [next, h]

theorem isSome_of_up {L' : Links α} (h : L'.up = L.up) (x : α) : (L' x).isSome = (L x).isSome := by
  have := congrArg Option.isSome (congrFun h x)
  simpa [up] using this

theorem exists_of_up {L' : Links α} (h : L'.up = L.up) {c : Cell α} (hx : L x = some c) :
    ∃ c', L' x = some c' ∧ c'.up = c.up := by
  have hu := congrFun h x
  rw [up_eq hx] at hu
  simpa [up] using hu

theorem exists_of_next {z : α} (h : L.next x = some z) : ∃ c, L x = some c ∧ c.next = z := by
  simpa [next] using h

theorem exists_of_up_eq {z : α} (h : L.up x = some z) : ∃ c, L x = some c ∧ c.up = z := by
  simpa [up] using h

/-- The parent links and the child lists describe one forest. -/
structure WF (L : Links α) (nil : α) : Prop where
  nil_none : L nil = none
  kids : ∀ p c, L p = some c → ∃ l, Chain L.next nil c.head l ∧ ∀ x, x ∈ l ↔ L.up x = some p
  chain : ∀ x c, L x = some c → ∃ l, Chain L.up nil x l
  root_next : ∀ x c, L x = some c → c.up = nil → c.next = nil

section Setters

variable [DecidableEq α]

def setUp (x v : α) (L : Links α) : Links α :=
  fun y => if y = x then (L y).map fun c => { c with up := v } else L y

def setHead (x v : α) (L : Links α) : Links α :=
  fun y => if y = x then (L y).map fun c => { c with head := v } else L y

def setNext (x v : α) (L : Links α) : Links α :=
  fun y => if y = x then (L y).map fun c => { c with next := v } else L y

variable {x v y : α}

@[simp] theorem up_setHead : (L.setHead x v).up = L.up := by
  funext y
  by_cases h : y = x <;> cases hL : L y <;> simp [up, setHead, h, hL] <;> simp_all

@[simp] theorem up_setNext : (L.setNext x v).up = L.up := by
  funext y
  by_cases h : y = x <;> cases hL : L y <;> simp [up, setNext, h, hL] <;> simp_all

@[simp] theorem head_setUp : (L.setUp x v).head = L.head := by
  funext y
  by_cases h : y = x <;> cases hL : L y <;> simp [head, setUp, h, hL] <;> simp_all

@[simp] theorem head_setNext : (L.setNext x v).head = L.head := by
  funext y
  by_cases h : y = x <;> cases hL : L y <;> simp [head, setNext, h, hL] <;> simp_all

@[simp] theorem next_setUp : (L.setUp x v).next = L.next := by
  funext y
  by_cases h : y = x <;> cases hL : L y <;> simp [next, setUp, h, hL] <;> simp_all

@[simp] theorem next_setHead : (L.setHead x v).next = L.next := by
  funext y
  by_cases h : y = x <;> cases hL : L y <;> simp [next, setHead, h, hL] <;> simp_all

theorem up_setUp : (L.setUp x v).up y = if y = x then (L y).map fun _ => v else L.up y := by
  by_cases h : y = x <;> simp [up, setUp, h]; rfl

theorem head_setHead :
    (L.setHead x v).head y = if y = x then (L y).map fun _ => v else L.head y := by
  by_cases h : y = x <;> simp [head, setHead, h]; rfl

theorem next_setNext :
    (L.setNext x v).next y = if y = x then (L y).map fun _ => v else L.next y := by
  by_cases h : y = x <;> simp [next, setNext, h]; rfl

theorem next_setNext_of_ne (h : y ≠ x) : (L.setNext x v).next y = L.next y := by
  rw [next_setNext, if_neg h]

theorem next_setNext_self {c : Cell α} (h : L x = some c) : (L.setNext x v).next x = some v := by
  rw [next_setNext, if_pos rfl, h, Option.map_some]

end Setters

section Ops

variable [DecidableEq α] (nil : α) (fuel : Nat)

/-- Unlink `x` from the list of `w`. -/
def remove (w x : α) (L : Links α) : Option (Links α) := do
  let cw ← L w
  let cx ← L x
  if cw.head = x then some ((L.setHead w cx.next).setNext x nil)
  else
    match ← findPrev L.next nil x fuel cw.head with
    | some y => some ((L.setNext y cx.next).setNext x nil)
    | none => some (L.setNext x nil)

/-- Link `x` at the end of the list of `w`. -/
def append (w x : α) (L : Links α) : Option (Links α) := do
  let cw ← L w
  if cw.head = nil then some ((L.setHead w x).setNext x nil)
  else do
    let y ← findLast L.next nil fuel cw.head
    some ((L.setNext y x).setNext x nil)

/-- Unlink `x` from the list of `w`, if there is one. -/
def detach (w x : α) (L : Links α) : Option (Links α) :=
  if w = nil then some L else remove nil fuel w x L

/-- Link `x` at the end of the list of `w`, if there is one. -/
def attach (w x : α) (L : Links α) : Option (Links α) :=
  if w = nil then some L else append nil fuel w x L

/-- Move `x` from the list it is on to the end of the list of `p`. -/
def reparent (x p : α) (L : Links α) : Option (Links α) := do
  let c ← L x
  let L ← detach nil fuel c.up x L
  let L ← attach nil fuel p x L
  some (L.setUp x p)

end Ops

/-- Splicing an element out of the middle of a chain. -/
theorem splice {next next' : α → Option α} {nil a y x z : α} {m₁ m₂ : List α}
    (h : Chain next nil a (m₁ ++ y :: x :: m₂)) (hx : next x = some z)
    (hy' : next' y = some z) (hs : ∀ b ∈ m₁ ++ m₂, next' b = next b) :
    Chain next' nil a (m₁ ++ y :: m₂) := by
  induction m₁ generalizing a with
  | nil =>
    have hne : a ≠ nil := by rintro rfl; simp [Chain.nil_iff] at h
    obtain ⟨b, m, hm, hb, h⟩ := (Chain.cons_iff hne).mp h
    simp only [List.nil_append, List.cons.injEq] at hm
    obtain ⟨rfl, rfl⟩ := hm
    have hxn : b ≠ nil := by rintro rfl; simp [Chain.nil_iff] at h
    obtain ⟨z', m, hm, hz, h⟩ := (Chain.cons_iff hxn).mp h
    simp only [List.cons.injEq] at hm
    obtain ⟨rfl, rfl⟩ := hm
    rw [hx] at hz
    cases hz
    exact .step hne hy' (h.congr fun b hb => hs b (by simpa using hb))
  | cons c m₁ ih =>
    have hne : a ≠ nil := by rintro rfl; simp [Chain.nil_iff] at h
    obtain ⟨b, m, hm, hb, h⟩ := (Chain.cons_iff hne).mp h
    simp only [List.cons_append, List.cons.injEq] at hm
    obtain ⟨rfl, rfl⟩ := hm
    exact .step hne (by rw [hs c (by simp), hb]) (ih h fun d hd => hs d (by simp_all))

/-- Extending a chain at its last element. -/
theorem snoc {next next' : α → Option α} {nil a y x : α} {m : List α}
    (h : Chain next nil a (m ++ [y])) (hxn : x ≠ nil) (hy' : next' y = some x)
    (hx' : next' x = some nil)
    (hs : ∀ b ∈ m, next' b = next b) : Chain next' nil a (m ++ [y] ++ [x]) := by
  induction m generalizing a with
  | nil =>
    have hne : a ≠ nil := by rintro rfl; simp [Chain.nil_iff] at h
    obtain ⟨b, m, hm, hb, h⟩ := (Chain.cons_iff hne).mp h
    simp only [List.nil_append, List.cons.injEq] at hm
    obtain ⟨rfl, rfl⟩ := hm
    exact .step hne hy' (.step hxn hx' .done)
  | cons c m ih =>
    have hne : a ≠ nil := by rintro rfl; simp [Chain.nil_iff] at h
    obtain ⟨b, m', hm, hb, h⟩ := (Chain.cons_iff hne).mp h
    simp only [List.cons_append, List.cons.injEq] at hm
    obtain ⟨rfl, rfl⟩ := hm
    exact .step hne (by rw [hs c (by simp), hb]) (ih h fun d hd => hs d (by simp_all))

section OpSpecs

variable [DecidableEq α] {nil : α} {fuel : Nat}

/-- What unlinking does: the list loses `x`, `x` has no successor, and nothing else changes. -/
structure Removed (L L' : Links α) (nil w x : α) (l : List α) : Prop where
  up : L'.up = L.up
  list : ∃ h, L'.head w = some h ∧ Chain L'.next nil h (l.erase x)
  head : ∀ q, q ≠ w → L'.head q = L.head q
  next : ∀ y, y ∉ l → L'.next y = L.next y
  self : L'.next x = some nil

/-- What linking does: the list gains `x` at its end and nothing else changes. -/
structure Appended (L L' : Links α) (nil w x : α) (l : List α) : Prop where
  up : L'.up = L.up
  list : ∃ h, L'.head w = some h ∧ Chain L'.next nil h (l ++ [x])
  head : ∀ q, q ≠ w → L'.head q = L.head q
  next : ∀ y, y ∉ l → y ≠ x → L'.next y = L.next y
  self : L'.next x = some nil

theorem remove_spec {w x : α} {cw cx : Cell α} {l : List α} (hw : L w = some cw)
    (hx : L x = some cx)
    (hl : Chain L.next nil cw.head l) (hm : x ∈ l) (hf : l.length < fuel) :
    ∃ L', remove nil fuel w x L = some L' ∧ Removed L L' nil w x l := by
  have hnd := hl.nodup
  have hxn : x ≠ nil := hl.ne_nil_of_mem hm
  have hself : ∀ {L' : Links α}, L'.up = L.up → (L'.setNext x nil).next x = some nil := by
    intro L' h
    obtain ⟨c', hc', -⟩ := exists_of_up h hx
    exact next_setNext_self hc'
  simp only [remove, hw, hx, Option.bind_eq_bind, Option.bind_some]
  by_cases hh : cw.head = x
  · obtain ⟨b, m, rfl, hb, hc⟩ := (Chain.cons_iff (hh ▸ hxn)).mp hl
    rw [hh, next_eq hx] at hb
    cases hb
    rw [hh] at hnd
    have hxm : x ∉ m := (List.nodup_cons.mp hnd).1
    refine ⟨_, if_pos hh, by simp, ⟨cx.next, ?_, ?_⟩, fun q hq => ?_, fun y hy => ?_,
      hself (by simp)⟩
    · rw [head_setNext, head_setHead, if_pos rfl, hw, Option.map_some]
    · rw [hh, List.erase_cons_head]
      refine hc.congr fun y hy => ?_
      rw [next_setNext_of_ne (by rintro rfl; exact hxm hy), next_setHead]
    · rw [head_setNext, head_setHead, if_neg hq]
    · rw [hh] at hy
      rw [next_setNext_of_ne (fun h => hy (by simp [h])), next_setHead]
  · have hxt : x ∈ l.tail := by
      cases l with
      | nil => simp at hm
      | cons a m =>
        rcases List.mem_cons.mp hm with rfl | hm
        · obtain ⟨b, m', he, -, -⟩ :=
            (Chain.cons_iff (fun h => by rw [h, Chain.nil_iff] at hl; simp at hl)).mp hl
          exact absurd (List.cons.inj he).1.symm hh
        · exact hm
    obtain ⟨y, m₁, m₂, hfp, rfl⟩ := findPrev_of_mem hl hxt hf
    simp only [hh, if_false, hfp, Option.bind_some]
    simp only [List.nodup_append, List.nodup_cons, List.mem_cons, not_or] at hnd
    obtain ⟨-, ⟨⟨hyx, hym₂⟩, hxm₂, -⟩, hdis⟩ := hnd
    have hym₁ : y ∉ m₁ := fun h => hdis y h y (.inl rfl) rfl
    have hxm₁ : x ∉ m₁ := fun h => hdis x h x (.inr (.inl rfl)) rfl
    obtain ⟨cy, hy⟩ : ∃ cy, L y = some cy := by
      have := hl.next_isSome_of_mem (b := y) (by simp)
      simpa [Links.next, Option.isSome_iff_exists] using this
    have herase : (m₁ ++ y :: x :: m₂).erase x = m₁ ++ y :: m₂ := by
      rw [List.erase_append_right _ hxm₁, List.erase_cons_tail (by simpa using hyx),
        List.erase_cons_head]
    refine ⟨_, rfl, by simp, ⟨cw.head, ?_, ?_⟩, fun q _ => by simp, fun b hb => ?_, hself (by simp)⟩
    · rw [head_setNext, head_setNext, head_eq hw]
    · rw [herase]
      refine splice hl (next_eq hx) ?_ fun b hb => ?_
      · rw [next_setNext_of_ne hyx, next_setNext_self hy]
      · rw [next_setNext_of_ne, next_setNext_of_ne] <;> rintro rfl <;> simp_all
    · rw [next_setNext_of_ne, next_setNext_of_ne] <;> rintro rfl <;> simp_all

theorem append_spec {w x : α} {cw cx : Cell α} {l : List α} (hw : L w = some cw)
    (hx : L x = some cx)
    (hl : Chain L.next nil cw.head l) (hxn : x ≠ nil) (hm : x ∉ l) (hf : l.length < fuel) :
    ∃ L', append nil fuel w x L = some L' ∧ Appended L L' nil w x l := by
  have hself : ∀ {L' : Links α}, L'.up = L.up → (L'.setNext x nil).next x = some nil := by
    intro L' h
    obtain ⟨c', hc', -⟩ := exists_of_up h hx
    exact next_setNext_self hc'
  simp only [append, hw, Option.bind_eq_bind, Option.bind_some]
  by_cases hh : cw.head = nil
  · have hle := hl
    rw [hh, Chain.nil_iff] at hle
    subst hle
    refine ⟨_, if_pos hh, by simp, ⟨x, ?_, ?_⟩, fun q hq => ?_, fun y _ hyx => ?_, hself (by simp)⟩
    · rw [head_setNext, head_setHead, if_pos rfl, hw, Option.map_some]
    · exact .step hxn (hself (by simp)) .done
    · rw [head_setNext, head_setHead, if_neg hq]
    · rw [next_setNext_of_ne hyx, next_setHead]
  · obtain ⟨y, m, hfl, rfl⟩ := findLast_spec hl hh hf
    simp only [hh, if_false, hfl, Option.bind_some]
    have hyx : y ≠ x := by rintro rfl; simp at hm
    obtain ⟨cy, hy⟩ : ∃ cy, L y = some cy := by
      have := hl.next_isSome_of_mem (b := y) (by simp)
      simpa [Links.next, Option.isSome_iff_exists] using this
    have hym : y ∉ m := by
      have := hl.nodup
      simp only [List.nodup_append] at this
      exact fun h => this.2.2 y h y (by simp) rfl
    refine ⟨_, rfl, by simp, ⟨cw.head, ?_, ?_⟩, fun q _ => by simp, fun b hb hbx => ?_,
      hself (by simp)⟩
    · rw [head_setNext, head_setNext, head_eq hw]
    · refine snoc hl hxn ?_ (hself (by simp)) fun b hb => ?_
      · rw [next_setNext_of_ne hyx, next_setNext_self hy]
      · rw [next_setNext_of_ne, next_setNext_of_ne] <;> rintro rfl <;> simp_all
    · rw [next_setNext_of_ne hbx, next_setNext_of_ne]
      rintro rfl
      simp at hb

end OpSpecs

/-! ## Ancestors -/

/-- The ancestor of `x` at distance `k`. -/
def upN (L : Links α) : Nat → α → Option α
  | 0, x => (L x).map fun _ => x
  | k + 1, x => (L.up x).bind (L.upN k)

section WF

variable {nil : α}

theorem upN_succ {k : Nat} {x : α} {c : Cell α} (h : L x = some c) :
    L.upN (k + 1) x = L.upN k c.up := by
  simp [upN, up_eq h]

theorem upN_add {j k : Nat} {x y : α} (h : L.upN j x = some y) : L.upN (j + k) x = L.upN k y := by
  induction j generalizing x with
  | zero =>
    simp only [upN, Option.map_eq_some_iff] at h
    obtain ⟨c, -, rfl⟩ := h
    rw [Nat.zero_add]
  | succ j ih =>
    simp only [upN, Option.bind_eq_some_iff] at h
    obtain ⟨z, hz, hy⟩ := h
    rw [Nat.succ_add_eq_add_succ, Nat.add_succ, upN, hz, Option.bind_some, ih hy]

theorem upN_isSome {k : Nat} {x y : α} (h : L.upN k x = some y) : (L x).isSome ∧ (L y).isSome := by
  induction k generalizing x with
  | zero =>
    simp only [upN, Option.map_eq_some_iff] at h
    obtain ⟨c, hc, rfl⟩ := h
    simp [hc]
  | succ k ih =>
    simp only [upN, Option.bind_eq_some_iff] at h
    obtain ⟨z, hz, hy⟩ := h
    obtain ⟨c, hc, -⟩ := exists_of_up_eq hz
    exact ⟨by simp [hc], (ih hy).2⟩

/-- The ancestors of `x` are the elements of its parent chain, by distance. -/
theorem upN_eq_getElem? (hn : L nil = none) {x : α} {l : List α}
    (h : Chain L.up nil x l) (k : Nat) :
    L.upN k x = l[k]? := by
  induction k generalizing x l with
  | zero =>
    cases h with
    | done => simp [upN, hn]
    | step hne hb h =>
      obtain ⟨c, hc, -⟩ := exists_of_up_eq hb
      simp [upN, hc]
  | succ k ih =>
    cases h with
    | done => simp [upN, up, hn]
    | step hne hb h => simp [upN, hb, ih h]

/-- Two ancestors of one element are comparable. -/
theorem upN_comparable {x a b : α} {j k : Nat} (hj : L.upN j x = some a) (hk : L.upN k x = some b)
    (hjk : j ≤ k) : L.upN (k - j) a = some b := by
  rw [← upN_add hj (k := k - j), Nat.add_sub_cancel' hjk, hk]

variable (hL : L.WF nil)

include hL

theorem WF.ne_nil {x : α} {c : Cell α} (h : L x = some c) : x ≠ nil := by
  rintro rfl
  rw [hL.nil_none] at h
  cases h

theorem WF.up_isSome {x : α} {c : Cell α} (h : L x = some c) (hu : c.up ≠ nil) :
    ∃ cp, L c.up = some cp := by
  obtain ⟨l, hl⟩ := hL.chain x c h
  obtain ⟨b, m, rfl, hb, hm⟩ := (Chain.cons_iff (hL.ne_nil h)).mp hl
  rw [up_eq h] at hb
  cases hb
  have := hm.next_isSome_of_mem (hm.head_mem hu)
  simpa [up, Option.isSome_iff_exists] using this

theorem WF.head_isSome {x : α} {c : Cell α} (h : L x = some c) (hh : c.head ≠ nil) :
    L.up c.head = some x := by
  obtain ⟨l, hl, hmem⟩ := hL.kids x c h
  exact (hmem _).mp (hl.head_mem hh)

/-- An element that has a successor shares its parent with it. -/
theorem WF.next_up {x : α} {c : Cell α} (h : L x = some c) (hn : c.next ≠ nil) :
    ∃ cp l, L c.up = some cp ∧ Chain L.next nil cp.head l ∧ x ∈ l ∧ c.next ∈ l ∧
      ∀ y, y ∈ l ↔ L.up y = some c.up := by
  have hu : c.up ≠ nil := fun hu => hn (hL.root_next x c h hu)
  obtain ⟨cp, hcp⟩ := hL.up_isSome h hu
  obtain ⟨l, hl, hmem⟩ := hL.kids _ cp hcp
  have hx : x ∈ l := (hmem x).mpr (up_eq h)
  exact ⟨cp, l, hcp, hl, hx, hl.next_mem hx (next_eq h) hn, hmem⟩

/-- Distances to an ancestor are unique. -/
theorem WF.upN_inj {x y : α} {j k : Nat} (hj : L.upN j x = some y) (hk : L.upN k x = some y) :
    j = k := by
  obtain ⟨c, hc⟩ := Option.isSome_iff_exists.mp (upN_isSome hj).1
  obtain ⟨l, hl⟩ := hL.chain x c hc
  rw [upN_eq_getElem? hL.nil_none hl] at hj hk
  exact (List.getElem?_inj (List.getElem?_eq_some_iff.mp hj).1 hl.nodup).mp (hj.trans hk.symm)

theorem WF.upN_irrefl {x : α} {k : Nat} : L.upN (k + 1) x ≠ some x := by
  intro h
  obtain ⟨c, hc⟩ := Option.isSome_iff_exists.mp (upN_isSome h).1
  have h0 : L.upN 0 x = some x := by simp [upN, hc]
  exact absurd (hL.upN_inj h h0) (Nat.succ_ne_zero k)

end WF

section Moves

variable [DecidableEq α] {nil : α} {fuel : Nat}

/-- Moving `x` under `p`: the parent links change at `x` only, and the lists lose
and gain `x`. -/
structure Reparented (L L' : Links α) (x p : α) : Prop where
  up : L'.up = fun y => if y = x then (L y).map fun _ => p else L.up y
  isSome : ∀ y, (L' y).isSome = (L y).isSome

theorem WF.reparent (hL : L.WF nil) {x p : α} {c : Cell α} (hx : L x = some c)
    (hp : p = nil ∨ ∃ cp, L p = some cp) (hacyc : ∀ k, L.upN k p ≠ some x)
    (hf : ∀ l : List α, l.Nodup → (∀ y ∈ l, (L y).isSome) → l.length < fuel) :
    ∃ L', L.reparent nil fuel x p = some L' ∧ L'.WF nil ∧ Reparented L L' x p := by
  have hxn := hL.ne_nil hx
  have hlen : ∀ {q cq l}, L q = some cq → Chain L.next nil cq.head l → l.length < fuel := by
    intro q cq l _ hl
    refine hf l hl.nodup fun y hy => ?_
    have := hl.next_isSome_of_mem hy
    simpa [next, Option.isSome_map] using this
  -- After unlinking, `x` is on no list.
  obtain ⟨L₁, h₁, hup₁, hself₁, hroot₁, hlist₁⟩ : ∃ L₁, detach nil fuel c.up x L = some L₁ ∧
      L₁.up = L.up ∧ L₁.next x = some nil ∧ (∀ y, y ≠ x → L.up y = some nil →
        L₁.next y = L.next y) ∧
      ∀ q cq, L q = some cq → ∃ h l, L₁.head q = some h ∧ Chain L₁.next nil h l ∧
        ∀ y, y ∈ l ↔ L.up y = some q ∧ y ≠ x := by
    by_cases hu : c.up = nil
    · refine ⟨L, by simp [detach, hu], rfl, by rw [next_eq hx, hL.root_next x c hx hu],
        fun _ _ _ => rfl,
        fun q cq hq => ?_⟩
      obtain ⟨l, hl, hmem⟩ := hL.kids q cq hq
      refine ⟨cq.head, l, head_eq hq, hl, fun y => ?_⟩
      rw [hmem]
      refine ⟨fun h => ⟨h, ?_⟩, And.left⟩
      rintro rfl
      rw [up_eq hx, hu] at h
      exact hL.ne_nil hq (Option.some.inj h).symm
    · obtain ⟨cp, hcp⟩ := hL.up_isSome hx hu
      obtain ⟨l, hl, hmem⟩ := hL.kids _ cp hcp
      obtain ⟨L₁, h₁, hr⟩ := remove_spec hcp hx hl ((hmem x).mpr (up_eq hx)) (hlen hcp hl)
      refine ⟨L₁, by rw [detach, if_neg hu, h₁], hr.up, hr.self,
        fun y _ hy => hr.next y fun hyl => ?_,
        fun q cq hq => ?_⟩
      · rw [(hmem y).mp hyl] at hy
        exact hu (Option.some.inj hy)
      by_cases hqw : q = c.up
      · subst hqw
        obtain ⟨h, hh, hc⟩ := hr.list
        refine ⟨h, _, hh, hc, fun y => ?_⟩
        rw [hl.nodup.mem_erase_iff, hmem, and_comm]
      · obtain ⟨lq, hlq, hmq⟩ := hL.kids q cq hq
        refine ⟨cq.head, lq, by rw [hr.head q hqw, head_eq hq],
          hlq.congr fun y hy => hr.next y fun hyl => ?_,
          fun y => ?_⟩
        · have h1 := (hmq y).mp hy
          rw [(hmem y).mp hyl] at h1
          exact hqw (Option.some.inj h1).symm
        · rw [hmq]
          refine ⟨fun h => ⟨h, ?_⟩, And.left⟩
          rintro rfl
          rw [up_eq hx] at h
          exact hqw (Option.some.inj h).symm
  -- After linking, `x` is on the list of `p`.
  obtain ⟨L₂, h₂, hup₂, hself₂, hroot₂, hlist₂⟩ : ∃ L₂, attach nil fuel p x L₁ = some L₂ ∧
      L₂.up = L.up ∧ L₂.next x = some nil ∧ (∀ y, y ≠ x → L.up y = some nil →
        L₂.next y = L.next y) ∧
      ∀ q cq, L q = some cq → ∃ h l, L₂.head q = some h ∧ Chain L₂.next nil h l ∧
        ∀ y, y ∈ l ↔ (L.up y = some q ∧ y ≠ x) ∨ (y = x ∧ q = p) := by
    rcases hp with rfl | ⟨cp, hcp⟩
    · refine ⟨L₁, by simp [attach], hup₁, hself₁, hroot₁, fun q cq hq => ?_⟩
      obtain ⟨h, l, hh, hl, hmem⟩ := hlist₁ q cq hq
      refine ⟨h, l, hh, hl, fun y => ?_⟩
      rw [hmem]
      have hqn := hL.ne_nil hq
      tauto
    · have hpn := hL.ne_nil hcp
      obtain ⟨cp₁, hcp₁, -⟩ := exists_of_up hup₁ hcp
      obtain ⟨cx₁, hcx₁, -⟩ := exists_of_up hup₁ hx
      obtain ⟨h, l, hh, hl, hmem⟩ := hlist₁ p cp hcp
      rw [head_eq hcp₁] at hh
      cases hh
      have hfl : l.length < fuel := by
        refine hf l hl.nodup fun y hy => ?_
        obtain ⟨cy, hcy, -⟩ := exists_of_up_eq ((hmem y).mp hy).1
        simp [hcy]
      obtain ⟨L₂, h₂, ha⟩ := append_spec hcp₁ hcx₁ hl hxn (fun h => ((hmem x).mp h).2 rfl) hfl
      refine ⟨L₂, by rw [attach, if_neg hpn, h₂], ha.up.trans hup₁, ha.self, fun y hyx hy => ?_,
        fun q cq hq => ?_⟩
      · rw [ha.next y (fun hyl => ?_) hyx, hroot₁ y hyx hy]
        rw [((hmem y).mp hyl).1] at hy
        exact hpn (Option.some.inj hy)
      by_cases hqp : q = p
      · subst hqp
        obtain ⟨h, hh, hc⟩ := ha.list
        refine ⟨h, _, hh, hc, fun y => ?_⟩
        simp [hmem]
      · obtain ⟨hq', lq, hhq, hlq, hmq⟩ := hlist₁ q cq hq
        refine ⟨hq', lq, by rw [ha.head q hqp, hhq], hlq.congr fun y hy => ?_, fun y => ?_⟩
        · refine ha.next y (fun hyl => ?_) ((hmq y).mp hy).2
          have h1 := ((hmq y).mp hy).1
          rw [((hmem y).mp hyl).1] at h1
          exact hqp (Option.some.inj h1).symm
        · rw [hmq]
          tauto
  refine ⟨L₂.setUp x p,
    by simp only [Links.reparent, hx, Option.bind_eq_bind, Option.bind_some, h₁, h₂], ?_, ?_⟩
  · have hupx : ∀ y, (L₂.setUp x p).up y = if y = x then some p else L.up y := by
      intro y
      rw [up_setUp, hup₂]
      by_cases h : y = x
      · subst h
        obtain ⟨c₂, hc₂, -⟩ := exists_of_up hup₂ hx
        simp [hc₂]
      · simp [h]
    have hsome : ∀ y c', (L₂.setUp x p) y = some c' → ∃ c, L y = some c := by
      intro y c' h
      have : (L₂ y).isSome := by
        simp only [setUp] at h
        split at h
        · simp only [Option.map_eq_some_iff] at h
          obtain ⟨c'', h'', -⟩ := h
          simp [h'']
        · simp [h]
      rw [isSome_of_up hup₂] at this
      exact Option.isSome_iff_exists.mp this
    -- The ancestors of `p` never meet `x`, so their parent chains stay.
    have hchain : ∀ y l, Chain L.up nil y l → (x ∉ l → Chain (L₂.setUp x p).up nil y l) := by
      intro y l h hxl
      exact h.congr fun z hz => by rw [hupx, if_neg (by rintro rfl; exact hxl hz)]
    have hxchain : ∃ l, Chain (L₂.setUp x p).up nil x l := by
      rcases hp with rfl | ⟨cp, hcp⟩
      · exact ⟨[x], .step hxn (by rw [hupx, if_pos rfl]) .done⟩
      · obtain ⟨l, hl⟩ := hL.chain p cp hcp
        have hxl : x ∉ l := by
          intro hm
          obtain ⟨k, hk⟩ := List.mem_iff_getElem?.mp hm
          exact hacyc k (by rw [upN_eq_getElem? hL.nil_none hl, hk])
        exact ⟨x :: l, .step hxn (by rw [hupx, if_pos rfl]) (hchain p l hl hxl)⟩
    refine ⟨?_, fun q cq hq => ?_, fun y cy hy => ?_, fun y cy hy hu => ?_⟩
    · cases h : (L₂.setUp x p) nil with
      | none => rfl
      | some c' =>
        obtain ⟨c, hc⟩ := hsome nil c' h
        rw [hL.nil_none] at hc
        cases hc
    · obtain ⟨cq₀, hq₀⟩ := hsome q cq hq
      obtain ⟨h, l, hh, hl, hmem⟩ := hlist₂ q cq₀ hq₀
      have he : cq.head = h := by
        have h1 := congrFun (head_setUp (L := L₂) (x := x) (v := p)) q
        rw [head_eq hq, hh] at h1
        exact Option.some.inj h1
      refine ⟨l, by rw [he, next_setUp]; exact hl, fun y => ?_⟩
      rw [hmem, hupx]
      by_cases hyx : y = x
      · subst hyx
        simp [eq_comm]
      · simp [hyx]
    · obtain ⟨cy₀, hy₀⟩ := hsome y cy hy
      obtain ⟨l, hl⟩ := hL.chain y cy₀ hy₀
      by_cases hxl : x ∈ l
      · -- The chain of `y` runs down to `x` and continues with the new chain of `x`.
        obtain ⟨lx, hlx⟩ := hxchain
        clear hy hy₀
        induction hl with
        | done => simp at hxl
        | @step a b l hne hb h ih =>
          by_cases hax : a = x
          · subst hax
            exact ⟨lx, hlx⟩
          · obtain ⟨m, hm⟩ := ih ((List.mem_cons.mp hxl).resolve_left (Ne.symm hax))
            exact ⟨a :: m, .step hne (by rw [hupx, if_neg hax, hb]) hm⟩
      · exact ⟨l, hchain y l hl hxl⟩
    · obtain ⟨cy₀, hy₀⟩ := hsome y cy hy
      by_cases hyx : y = x
      · subst hyx
        have h1 := congrFun (next_setUp (L := L₂) (x := y) (v := p)) y
        rw [next_eq hy, hself₂] at h1
        exact Option.some.inj h1
      · have hu0 : cy₀.up = nil := by
          have h1 := hupx y
          rw [up_eq hy, if_neg hyx, up_eq hy₀, hu] at h1
          exact (Option.some.inj h1).symm
        have h1 := congrFun (next_setUp (L := L₂) (x := x) (v := p)) y
        rw [next_eq hy, hroot₂ y hyx (by rw [up_eq hy₀, hu0]), next_eq hy₀,
          hL.root_next y cy₀ hy₀ hu0] at h1
        exact Option.some.inj h1
  · refine ⟨?_, fun y => ?_⟩
    · funext y
      rw [up_setUp, hup₂]
      by_cases h : y = x
      · subst h
        obtain ⟨c₂, hc₂, -⟩ := exists_of_up hup₂ hx
        simp [hc₂, hx]
      · simp [h]
    · rw [← isSome_of_up hup₂ y]
      simp only [setUp]
      split <;> simp

/-- A new root without children. -/
theorem WF.insert (hL : L.WF nil) {x : α} (hx : L x = none) (hxn : x ≠ nil) :
    Links.WF (Function.update L x (some ⟨nil, nil, nil⟩)) nil := by
  have hup : ∀ y, Links.up (Function.update L x (some ⟨nil, nil, nil⟩)) y = if y = x then some nil
    else L.up y := by
    intro y
    by_cases h : y = x
    · subst h; simp [up]
    · simp [up, h]
  have hnext : ∀ y, y ≠ x → Links.next (Function.update L x (some ⟨nil, nil, nil⟩)) y =
      L.next y := by
    intro y h
    simp [next, h]
  -- no chain goes through a cell that was not there
  have hfree : ∀ {f : Links α → α → Option α} {a l}, (∀ y, f L y = none ↔ L y = none) →
      Chain (f L) nil a l → x ∉ l := by
    intro f a l hf h hm
    have := h.next_isSome_of_mem hm
    rw [(hf x).mpr hx] at this
    cases this
  refine ⟨by rw [Function.update_of_ne hxn.symm, hL.nil_none], fun q cq hq => ?_, fun y cy hy => ?_,
    fun y cy hy hu => ?_⟩
  · by_cases h : q = x
    · subst h
      rw [Function.update_self] at hq
      cases hq
      refine ⟨[], .done, fun y => ?_⟩
      rw [hup]
      have h1 : L.up y ≠ some q := by
        intro hy
        obtain ⟨c, hc, rfl⟩ := exists_of_up_eq hy
        obtain ⟨cp, hcp⟩ := hL.up_isSome hc hxn
        rw [hx] at hcp
        cases hcp
      by_cases hyx : y = q <;> simp [hyx, hxn.symm, h1]
    · rw [Function.update_of_ne h] at hq
      obtain ⟨l, hl, hmem⟩ := hL.kids q cq hq
      have hxl := hfree (f := Links.next) (fun y => by simp [next]) hl
      refine ⟨l, hl.congr fun y hy => hnext y (by rintro rfl; exact hxl hy), fun y => ?_⟩
      rw [hup]
      by_cases hyx : y = x
      · subst hyx
        simp [hxl, (hL.ne_nil hq).symm]
      · simp [hmem, hyx]
  · by_cases h : y = x
    · subst h
      exact ⟨[y], .step hxn (by rw [hup, if_pos rfl]) .done⟩
    · rw [Function.update_of_ne h] at hy
      obtain ⟨l, hl⟩ := hL.chain y cy hy
      have hxl := hfree (f := Links.up) (fun y => by simp [up]) hl
      exact ⟨l, hl.congr fun z hz => by rw [hup, if_neg (by rintro rfl; exact hxl hz)]⟩
  · by_cases h : y = x
    · subst h
      rw [Function.update_self] at hy
      cases hy
      rfl
    · rw [Function.update_of_ne h] at hy
      exact hL.root_next y cy hy hu

/-- Removing a root without children. -/
theorem WF.delete (hL : L.WF nil) {x : α} {c : Cell α} (hx : L x = some c) (hu : c.up = nil)
    (hh : c.head = nil) : Links.WF (Function.update L x none) nil := by
  have hne : ∀ {y cy}, Function.update L x none y = some cy → y ≠ x ∧ L y = some cy := by
    intro y cy h
    by_cases hyx : y = x
    · subst hyx
      simp at h
    · rw [Function.update_of_ne hyx] at h
      exact ⟨hyx, h⟩
  have hupx : ∀ y, L.up y ≠ some x := by
    intro y hy
    obtain ⟨l, hl, hmem⟩ := hL.kids x c hx
    rw [hh, Chain.nil_iff] at hl
    have := (hmem y).mpr hy
    simp [hl] at this
  have hup : ∀ y, y ≠ x → Links.up (Function.update L x none) y = L.up y := by
    intro y h
    simp [up, h]
  refine ⟨?_, fun q cq hq => ?_, fun y cy hy => ?_, fun y cy hy hu' =>
    hL.root_next y cy (hne hy).2 hu'⟩
  · rw [Function.update_of_ne (hL.ne_nil hx).symm, hL.nil_none]
  · obtain ⟨hqx, hq⟩ := hne hq
    obtain ⟨l, hl, hmem⟩ := hL.kids q cq hq
    have hxl : x ∉ l := by
      rw [hmem, up_eq hx, hu]
      exact fun h => hL.ne_nil hq (Option.some.inj h).symm
    refine ⟨l, hl.congr fun y hy => ?_, fun y => ?_⟩
    · have : y ≠ x := by rintro rfl; exact hxl hy
      simp [next, this]
    · by_cases hyx : y = x
      · subst hyx
        simp [hxl, up]
      · rw [hmem, hup y hyx]
  · obtain ⟨hyx, hy⟩ := hne hy
    obtain ⟨l, hl⟩ := hL.chain y cy hy
    refine ⟨l, hl.congr fun z hz => hup z ?_⟩
    rintro rfl
    obtain ⟨w, -, hw⟩ := hl.exists_pred hz hyx.symm
    exact hupx w hw

end Moves

/-! ## Renaming -/

/-- Rename the elements along a permutation. -/
def rename (e : α ≃ α) (L : Links α) : Links α :=
  fun y => (L (e.symm y)).map fun c => ⟨e c.up, e c.head, e c.next⟩

theorem up_rename {e : α ≃ α} (y : α) : (L.rename e).up (e y) = (L.up y).map e := by
  simp [rename, up, Function.comp_def]

theorem next_rename {e : α ≃ α} (y : α) : (L.rename e).next (e y) = (L.next y).map e := by
  simp [rename, next, Function.comp_def]

theorem WF.rename {nil : α} (hL : L.WF nil) {e : α ≃ α} (he : e nil = nil) :
    (L.rename e).WF nil := by
  have hen : ∀ x, e x = nil ↔ x = nil := fun x => by rw [← he, e.apply_eq_iff_eq, he]
  have hsymm : e.symm nil = nil := by rw [Equiv.symm_apply_eq, he]
  have hget : ∀ {y c}, L.rename e y = some c →
      ∃ c₀, L (e.symm y) = some c₀ ∧ c = ⟨e c₀.up, e c₀.head, e c₀.next⟩ := by
    intro y c h
    simp only [Links.rename, Option.map_eq_some_iff] at h
    obtain ⟨c₀, h₀, rfl⟩ := h
    exact ⟨c₀, h₀, rfl⟩
  refine ⟨by simp [Links.rename, hsymm, hL.nil_none], fun q cq hq => ?_, fun y cy hy => ?_,
    fun y cy hy hu => ?_⟩
  · obtain ⟨c₀, h₀, rfl⟩ := hget hq
    obtain ⟨l, hl, hmem⟩ := hL.kids _ c₀ h₀
    refine ⟨l.map e, hl.map e hen fun x _ => next_rename x, fun y => ?_⟩
    rw [← e.apply_symm_apply y, List.mem_map_of_injective e.injective, hmem, up_rename,
      Option.map_eq_some_iff]
    simp [← Equiv.eq_symm_apply]
  · obtain ⟨c₀, h₀, rfl⟩ := hget hy
    obtain ⟨l, hl⟩ := hL.chain _ c₀ h₀
    refine ⟨l.map e, ?_⟩
    have := hl.map e (g := (L.rename e).up) hen fun x _ => up_rename x
    rwa [e.apply_symm_apply] at this
  · obtain ⟨c₀, h₀, rfl⟩ := hget hy
    exact (hen _).mpr (hL.root_next _ c₀ h₀ ((hen _).mp hu))

section Renumber

variable [DecidableEq α] (nil : α) (fuel : Nat)

/-- Rewrite the link to `old` on the list of `p`. -/
def redirect (old new p : α) (L : Links α) : Option (Links α) :=
  if p = nil then some L
  else (L p).bind fun cp =>
    if cp.head = old then some (L.setHead p new)
    else (findPrev L.next nil old fuel cp.head).bind fun y => y.map fun y => L.setNext y new

/-- The element `new` has the links that `old` had: rewrite the one list link and the
parent links that refer to `old`. -/
def relink (old new : α) (L : Links α) : Option (Links α) := do
  let c ← L new
  let L ← redirect nil fuel old new c.up L
  let c ← L new
  forChain Links.next nil (fun x L => (L x).map fun _ => L.setUp x new) fuel c.head L

/-- Give the element `old` the unused name `new`. -/
def renumber (old new : α) (L : Links α) : Option (Links α) :=
  (L old).bind fun c =>
    relink nil fuel old new (Function.update (Function.update L new (some c)) old none)

variable {nil fuel}

theorem foldlM_setUp {v : α} (l : List α) (hl : ∀ x ∈ l, (L x).isSome) :
    l.foldlM (fun L x => (L x).map fun _ => L.setUp x v) L =
      some fun y => if y ∈ l then (L y).map fun c => { c with up := v } else L y := by
  induction l generalizing L with
  | nil => simp
  | cons x l ih =>
    obtain ⟨c, hc⟩ := Option.isSome_iff_exists.mp (hl x List.mem_cons_self)
    rw [List.foldlM_cons, hc]
    simp only [Option.map_some, Option.bind_eq_bind, Option.bind_some]
    rw [ih fun y hy => ?_]
    · congr 1
      funext y
      by_cases hyx : y = x
      · subst hyx
        by_cases hyl : y ∈ l <;> simp [setUp, hyl, Function.comp_def]
      · simp [setUp, hyx]
    · have := hl y (List.mem_cons_of_mem _ hy)
      by_cases hyx : y = x <;> simp [setUp, hyx, this, hc]

theorem WF.renumber (hL : L.WF nil) {old new : α} {c : Cell α} (hold : L old = some c)
    (hnew : L new = none)
    (hnn : new ≠ nil) (hf : ∀ l : List α, l.Nodup → (∀ y ∈ l, (L y).isSome) → l.length < fuel) :
    L.renumber nil fuel old new = some (L.rename (Equiv.swap old new)) := by
  have hon : old ≠ new := by rintro rfl; rw [hold] at hnew; cases hnew
  have honil := hL.ne_nil hold
  have hlen : ∀ {q cq l}, L q = some cq → Chain L.next nil cq.head l → l.length < fuel := by
    intro q cq l _ hl
    refine hf l hl.nodup fun y hy => ?_
    have := hl.next_isSome_of_mem hy
    simpa [next, Option.isSome_map] using this
  have hvalid : ∀ {y z}, L.up y = some z → y ≠ new ∧ z ≠ new := by
    intro y z h
    obtain ⟨cy, hy, rfl⟩ := exists_of_up_eq h
    refine ⟨(by rintro rfl; simp [hnew] at hy), fun h => ?_⟩
    obtain ⟨cp, hcp⟩ := hL.up_isSome hy (h ▸ hnn)
    rw [h, hnew] at hcp
    cases hcp
  have hupn : ∀ {y cy}, L y = some cy → cy.up ≠ new := fun hy => (hvalid (up_eq hy)).2
  have hheadn : ∀ {y cy}, L y = some cy → cy.head ≠ new := fun hy h =>
    (hvalid (hL.head_isSome hy (h ▸ hnn))).1 h
  have hnextn : ∀ {y cy}, L y = some cy → cy.next ≠ new := by
    intro y cy hy h
    obtain ⟨cp, l, -, -, -, hm, hmem⟩ := hL.next_up hy (h ▸ hnn)
    exact (hvalid ((hmem _).mp hm)).1 h
  have hupo : c.up ≠ old := by
    intro h
    refine hL.upN_irrefl (x := old) (k := 0) ?_
    rw [upN_succ hold, h]
    simp [upN, hold]
  have hheado : ∀ {y cy}, L y = some cy → cy.head = old → c.up = y := by
    intro y cy hy h
    have := hL.head_isSome hy (h ▸ honil)
    rw [h, up_eq hold] at this
    exact Option.some.inj this
  have hnexto : ∀ {y cy}, L y = some cy → cy.next = old → ∃ cp l, L c.up = some cp ∧
      Chain L.next nil cp.head l ∧ y ∈ l := by
    intro y cy hy h
    obtain ⟨cp, l, hcp, hl, hyl, hm, hmem⟩ := hL.next_up hy (h ▸ honil)
    have := (hmem _).mp hm
    rw [h, up_eq hold] at this
    rw [← Option.some.inj this] at hcp
    exact ⟨cp, l, hcp, hl, hyl⟩
  -- The lists once the link to `old` has been redirected.
  obtain ⟨L₁, h₁, hL₁⟩ : ∃ L₁, redirect nil fuel old new c.up
      (Function.update (Function.update L new (some c)) old none) = some L₁ ∧
      ∀ y, L₁ y = if y = old then none else if y = new then some c else
        (L y).map fun cy => ⟨cy.up, Equiv.swap old new cy.head, Equiv.swap old new cy.next⟩ := by
    have hget : ∀ y, Function.update (Function.update L new (some c)) old none y =
        if y = old then none else if y = new then some c else L y := by
      intro y
      simp [Function.update_apply]
    by_cases hu : c.up = nil
    · refine ⟨_, (by simp only [redirect, hu, if_true]; rfl), fun y => ?_⟩
      rw [hget]
      by_cases hyo : y = old
      · simp [hyo]
      by_cases hyn : y = new
      · simp [hyn, hon.symm]
      simp only [hyo, hyn, if_false]
      cases hy : L y with
      | none => rfl
      | some cy =>
        have h1 : cy.head ≠ old := fun h => hL.ne_nil hy ((hheado hy h).symm.trans hu)
        have h2 : cy.next ≠ old := by
          intro h
          obtain ⟨cp, l, hcp, -, -⟩ := hnexto hy h
          exact hL.ne_nil hcp hu
        simp [Equiv.swap_apply_of_ne_of_ne, h1, h2, hheadn hy, hnextn hy]
    · obtain ⟨cw, hcw⟩ := hL.up_isSome hold hu
      have hwn : c.up ≠ new := hupn hold
      obtain ⟨l, hl, hmem⟩ := hL.kids _ cw hcw
      have hol : old ∈ l := (hmem old).mpr (up_eq hold)
      have hcw' : Function.update (Function.update L new (some c)) old none c.up = some cw := by
        rw [hget, if_neg hupo, if_neg hwn, hcw]
      by_cases hh : cw.head = old
      · refine ⟨_,
          (by simp only [redirect, hu, hcw', hh, if_true, if_false, Option.bind_some]; rfl),
          fun y => ?_⟩
        simp only [setHead, hget]
        by_cases hyo : y = old
        · simp [hyo, hupo.symm]
        by_cases hyn : y = new
        · simp [hyn, hon.symm, hwn.symm]
        simp only [hyo, hyn, if_false]
        cases hy : L y with
        | none => simp
        | some cy =>
          have h2 : cy.next ≠ old := by
            intro h
            obtain ⟨cp, l', hcp, hl', hyl⟩ := hnexto hy h
            rw [hcw] at hcp
            cases hcp
            exact hl'.next_ne_head hyl (by rw [next_eq hy, h, hh])
          by_cases hyw : y = c.up
          · subst hyw
            rw [hcw] at hy
            cases hy
            simp [hh, Equiv.swap_apply_of_ne_of_ne h2 (hnextn hcw)]
          · have h1 : cy.head ≠ old := fun h => hyw (hheado hy h).symm
            simp [hyw, Equiv.swap_apply_of_ne_of_ne, h1, h2, hheadn hy, hnextn hy]
      · have hot : old ∈ l.tail := by
          cases l with
          | nil => simp at hol
          | cons a m =>
            rcases List.mem_cons.mp hol with rfl | h
            · exact absurd (by cases hl; rfl) hh
            · exact h
        obtain ⟨z, m₁, m₂, hfp, rfl⟩ := findPrev_of_mem hl hot (hlen hcw hl)
        have hzo : L.next z = some old := hl.next_of_append
        obtain ⟨cz, hcz, hczn⟩ := exists_of_next hzo
        have hzold : z ≠ old := by
          rintro rfl
          have := hl.nodup
          simp [List.nodup_append] at this
        have hznew : z ≠ new := by rintro rfl; rw [hnew] at hcz; cases hcz
        have hfp' := hfp
        rw [← findPrev_congr
          (Links.next (Function.update (Function.update L new (some c)) old none))
          hl hh (fun y hy hyo => ?_)] at hfp'
        · refine ⟨_, (by simp only [redirect, hu, hcw', hh, if_false, Option.bind_some, hfp',
            Option.map_some]; rfl), fun y => ?_⟩
          simp only [setNext, hget]
          by_cases hyo : y = old
          · simp [hyo, hzold.symm]
          by_cases hyn : y = new
          · simp [hyn, hon.symm, hznew.symm]
          simp only [hyo, hyn, if_false]
          cases hy : L y with
          | none => simp
          | some cy =>
            have h1 : cy.head ≠ old := by
              intro h
              have := hheado hy h
              rw [this, hy] at hcw
              cases hcw
              exact hh h
            by_cases hyz : y = z
            · subst hyz
              rw [hcz] at hy
              cases hy
              simp [hczn, Equiv.swap_apply_of_ne_of_ne h1 (hheadn hcz)]
            · have h2 : cy.next ≠ old := by
                intro h
                obtain ⟨cp, l', hcp, hl', hyl⟩ := hnexto hy h
                rw [hcw] at hcp
                cases hcp
                rw [hl'.unique hl] at hyl
                exact hyz (hl.next_inj hyl (by simp) (by rw [next_eq hy, h]) hzo)
              simp [hyz, Equiv.swap_apply_of_ne_of_ne, h1, h2, hheadn hy, hnextn hy]
        · have : y ≠ new := by
            have h := (hmem y).mp hy
            exact (hvalid h).1
          simp only [next, hget, hyo, this, if_false]
  obtain ⟨lc, hlc, hmc⟩ := hL.kids old c hold
  have hlc₁ : Chain L₁.next nil c.head lc := by
    refine hlc.congr fun y hy => ?_
    have hy' := (hmc y).mp hy
    obtain ⟨cy, hcy, hcyu⟩ := exists_of_up_eq hy'
    have hyo : y ≠ old := by rintro rfl; rw [hold] at hcy; cases hcy; exact hupo hcyu
    have h2 : cy.next ≠ old := by
      intro h
      have hm := hlc.next_mem hy (next_eq hcy) (h ▸ honil)
      rw [h, hmc, up_eq hold] at hm
      exact hupo (Option.some.inj hm)
    simp [next, hL₁, hyo, (hvalid hy').1, hcy, Equiv.swap_apply_of_ne_of_ne h2 (hnextn hcy)]
  have hnew₁ : L₁ new = some c := by rw [hL₁, if_neg hon.symm, if_pos rfl]
  have hnew₀ : Function.update (Function.update L new (some c)) old none new = some c := by
    simp [hon.symm]
  simp only [Links.renumber, relink, hold, hnew₀, Option.bind_eq_bind, Option.bind_some, h₁, hnew₁]
  have hbody : ∀ x ∈ lc, ∀ L L' : Links α, ((L x).map fun _ => L.setUp x new) = some L' →
      L'.next = L.next := by
    intro x _ L L' h
    simp only [Option.map_eq_some_iff] at h
    obtain ⟨_, -, rfl⟩ := h
    exact next_setUp
  rw [forChain_eq hlc₁ hbody (hlen hold hlc), foldlM_setUp]
  · congr 1
    funext y
    simp only [Links.rename, Equiv.symm_swap, hL₁]
    by_cases hyo : y = old
    · subst hyo
      have : y ∉ lc := by rw [hmc, up_eq hold]; exact fun h => hupo (Option.some.inj h)
      simp [this, hnew]
    by_cases hyn : y = new
    · subst hyn
      have : y ∉ lc := fun h => (hvalid ((hmc y).mp h)).1 rfl
      have h1 : c.head ≠ old := fun h => hupo (hheado hold h)
      have h2 : c.next ≠ old := by
        intro h
        obtain ⟨cp, l, -, hl, hol⟩ := hnexto hold h
        exact hl.next_ne_self hol (by rw [next_eq hold, h])
      simp [this, hyo, hold, Equiv.swap_apply_of_ne_of_ne, hupo, h1, h2, hupn hold,
        hheadn hold, hnextn hold]
    · simp only [hyo, hyn, if_false, Equiv.swap_apply_of_ne_of_ne hyo hyn]
      cases hy : L y with
      | none => simp
      | some cy =>
        by_cases hyc : y ∈ lc
        · have := (hmc y).mp hyc
          rw [up_eq hy] at this
          simp [hyc, Option.some.inj this]
        · have h1 : cy.up ≠ old := fun h => hyc ((hmc y).mpr (by rw [up_eq hy, h]))
          simp [hyc, Equiv.swap_apply_of_ne_of_ne h1 (hupn hy)]
  · intro x hx
    have := hlc₁.next_isSome_of_mem hx
    simpa [next] using this

end Renumber

end Links

end Linked
