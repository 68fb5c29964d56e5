import Mathlib.Data.List.Count
import Mathlib.Logic.Function.Basic
import Mathlib.Tactic.Common

/-!
# Reference-counted cells

A heap of cells that count their references, and the references themselves as a list of addresses:
a heap is owned by them if each cell counts how often its address is among them, and no other cell
is live. What one reference does leaves the cells of the others alone, unless it writes to a cell
that it shares.

Results:
1. `Owned.alloc`, `Owned.addref`, `Owned.delref`, `Owned.write`: one rule for each operation.
2. `Owned.unshared`: a cell whose count is one is no other reference's.
-/

namespace NuMoo

/-- Cells with their counts, and the first address that has never been used. -/
structure RcHeap (α : Type*) where
  cell : Nat → Option (Nat × α)
  next : Nat

namespace RcHeap

variable {α : Type*}

/-- What the cell at `a` holds. -/
def get (h : RcHeap α) (a : Nat) : Option α := (h.cell a).map Prod.snd

def refcount (h : RcHeap α) (a : Nat) : Nat := ((h.cell a).map Prod.fst).getD 0

/-- Another cell at `a`, or none. -/
def put (a : Nat) (e : Option (Nat × α)) (h : RcHeap α) : RcHeap α :=
  { h with cell := Function.update h.cell a e }

/-- A new cell with one reference. -/
def alloc (v : α) (h : RcHeap α) : Nat × RcHeap α :=
  (h.next, { h.put h.next (some (1, v)) with next := h.next + 1 })

/-- One reference more; fails on a cell that is gone. -/
def addref (a : Nat) (h : RcHeap α) : Option (RcHeap α) :=
  (h.cell a).map fun c => h.put a (some (c.1 + 1, c.2))

/-- One reference less; the cell goes with the last one. -/
def delref (a : Nat) (h : RcHeap α) : Option (RcHeap α) :=
  (h.cell a).map fun c => h.put a (if c.1 = 1 then none else some (c.1 - 1, c.2))

/-- Write to a cell in place, for all its references. -/
def write (a : Nat) (v : α) (h : RcHeap α) : Option (RcHeap α) :=
  (h.cell a).map fun c => h.put a (some (c.1, v))

/-- The heap counts the references `roots`, and has nothing else. -/
structure Owned (h : RcHeap α) (roots : List Nat) : Prop where
  count : ∀ a, h.refcount a = roots.count a
  live : ∀ a c, h.cell a = some c → 0 < c.1
  fresh : ∀ a, h.next ≤ a → h.cell a = none

variable {h : RcHeap α} {roots roots' : List Nat} {a b : Nat} {v : α}

theorem get_eq {c : Nat × α} (hc : h.cell a = some c) : h.get a = some c.2 := by
  rw [get, hc, Option.map_some]

theorem refcount_eq {c : Nat × α} (hc : h.cell a = some c) : h.refcount a = c.1 := by
  rw [refcount, hc, Option.map_some, Option.getD_some]

theorem put_cell (e : Option (Nat × α)) (a b : Nat) :
    (h.put a e).cell b = if b = a then e else h.cell b :=
  Function.update_apply _ _ _ _

theorem put_cell_self (e : Option (Nat × α)) (a : Nat) : (h.put a e).cell a = e := by
  rw [put_cell, if_pos rfl]

theorem put_cell_of_ne (e : Option (Nat × α)) (hne : b ≠ a) : (h.put a e).cell b = h.cell b := by
  rw [put_cell, if_neg hne]

theorem alloc_cell (v : α) (h : RcHeap α) (b : Nat) :
    (h.alloc v).2.cell b = if b = h.next then some (1, v) else h.cell b :=
  Function.update_apply _ _ _ _

namespace Owned

theorem perm (ho : h.Owned roots) (hp : ∀ a, roots'.count a = roots.count a) : h.Owned roots' :=
  ⟨fun a => (ho.count a).trans (hp a).symm, ho.live, ho.fresh⟩

/-- A reference is to a live cell. -/
theorem cell_of_mem (ho : h.Owned roots) (ha : a ∈ roots) : ∃ c, h.cell a = some c := by
  cases hc : h.cell a with
  | some c => exact ⟨c, rfl⟩
  | none =>
    have hcount := ho.count a
    rw [refcount, hc, Option.map_none, Option.getD_none] at hcount
    exact absurd hcount.symm (Nat.ne_of_gt (List.count_pos_iff.mpr ha))

theorem lt_next (ho : h.Owned roots) (ha : a ∈ roots) : a < h.next := by
  obtain ⟨c, hc⟩ := ho.cell_of_mem ha
  by_contra hge
  rw [ho.fresh a (by omega)] at hc
  cases hc

/-- A cell whose count is one is no other reference's. -/
theorem unshared (ho : h.Owned (a :: roots)) (h1 : h.refcount a = 1) : a ∉ roots := by
  have hcount := ho.count a
  rw [h1, List.count_cons_self] at hcount
  exact List.count_eq_zero.mp (by omega)

theorem alloc (ho : h.Owned roots) (v : α) :
    (h.alloc v).2.Owned ((h.alloc v).1 :: roots) ∧ (h.alloc v).2.get (h.alloc v).1 = some v ∧
      ∀ b ∈ roots, (h.alloc v).2.get b = h.get b := by
  have hnone : h.cell h.next = none := ho.fresh _ (Nat.le_refl _)
  refine ⟨⟨fun a => ?_, fun a c hc => ?_, fun a ha => ?_⟩, ?_, fun b hb => ?_⟩
  · have hcount := ho.count a
    show _ = (h.next :: roots).count a
    rw [refcount, alloc_cell]
    by_cases hx : a = h.next
    · subst hx
      rw [refcount, hnone, Option.map_none, Option.getD_none] at hcount
      rw [if_pos rfl, List.count_cons_self, ← hcount]
      rfl
    · rw [if_neg hx, List.count_cons_of_ne (Ne.symm hx), ← hcount, refcount]
  · rw [alloc_cell] at hc
    split at hc
    · cases hc
      exact Nat.one_pos
    · exact ho.live a c hc
  · have ha : h.next + 1 ≤ a := ha
    rw [alloc_cell, if_neg (by omega)]
    exact ho.fresh a (by omega)
  · rw [get, alloc_cell]
    exact congrArg (Option.map Prod.snd) (if_pos rfl)
  · have hne : b ≠ h.next := Nat.ne_of_lt (ho.lt_next hb)
    rw [get, alloc_cell, if_neg hne, get]

/-- The heap with the references to one cell changed. -/
theorem put (ho : h.Owned roots) {c : Nat × α} (hc : h.cell a = some c) {e : Option (Nat × α)}
    (hcount : ((e.map Prod.fst).getD 0) = roots'.count a) (hlive : ∀ c, e = some c → 0 < c.1)
    (hrest : ∀ b, b ≠ a → roots'.count b = roots.count b) : (h.put a e).Owned roots' := by
  refine ⟨fun b => ?_, fun b d hd => ?_, fun b hb => ?_⟩
  · by_cases hx : b = a
    · subst hx
      rw [refcount, put_cell_self, hcount]
    · rw [refcount, put_cell_of_ne e hx, hrest b hx, ← ho.count, refcount]
  · by_cases hx : b = a
    · subst hx
      rw [put_cell_self] at hd
      exact hlive d hd
    · rw [put_cell_of_ne e hx] at hd
      exact ho.live b d hd
  · have hne : b ≠ a := by
      rintro rfl
      rw [ho.fresh b hb] at hc
      cases hc
    rw [put_cell_of_ne e hne]
    exact ho.fresh b hb

theorem get_put {e : Option (Nat × α)} (hne : b ≠ a) : (h.put a e).get b = h.get b := by
  rw [get, put_cell_of_ne e hne, get]

theorem addref (ho : h.Owned roots) (ha : a ∈ roots) :
    ∃ h', h.addref a = some h' ∧ h'.Owned (a :: roots) ∧ ∀ b, h'.get b = h.get b := by
  obtain ⟨c, hc⟩ := ho.cell_of_mem ha
  refine ⟨_, by rw [RcHeap.addref, hc, Option.map_some], ho.put hc ?_ ?_ ?_, fun b => ?_⟩
  · rw [Option.map_some, Option.getD_some, List.count_cons_self, ← ho.count, refcount_eq hc]
  · intro d hd
    cases hd
    exact Nat.succ_pos _
  · exact fun b hb => List.count_cons_of_ne (Ne.symm hb)
  · by_cases hx : b = a
    · subst hx
      rw [get, put_cell_self, Option.map_some, get_eq hc]
    · exact get_put hx

theorem delref (ho : h.Owned (a :: roots)) :
    ∃ h', h.delref a = some h' ∧ h'.Owned roots ∧ ∀ b ∈ roots, h'.get b = h.get b := by
  obtain ⟨c, hc⟩ := ho.cell_of_mem List.mem_cons_self
  have hcount := ho.count a
  rw [refcount_eq hc, List.count_cons_self] at hcount
  refine ⟨_, by rw [RcHeap.delref, hc, Option.map_some], ho.put hc ?_ ?_ ?_, fun b hb => ?_⟩
  · split
    · rw [Option.map_none, Option.getD_none]
      omega
    · rw [Option.map_some, Option.getD_some]
      omega
  · intro d hd
    split at hd
    · cases hd
    · cases hd
      show 0 < c.1 - 1
      omega
  · exact fun b hb => (List.count_cons_of_ne (Ne.symm hb)).symm
  · by_cases hx : b = a
    · subst hx
      have hpos := List.count_pos_iff.mpr hb
      rw [get, put_cell_self, if_neg (by omega), Option.map_some, get_eq hc]
    · exact get_put hx

theorem write (ho : h.Owned roots) (ha : a ∈ roots) (v : α) :
    ∃ h', h.write a v = some h' ∧ h'.Owned roots ∧ h'.get a = some v ∧ ∀ b, b ≠ a →
    h'.get b = h.get b := by
  obtain ⟨c, hc⟩ := ho.cell_of_mem ha
  refine ⟨_, by rw [RcHeap.write, hc, Option.map_some], ho.put hc ?_ ?_ fun _ _ => rfl, ?_,
    fun b hb => get_put hb⟩
  · rw [Option.map_some, Option.getD_some, ← ho.count, refcount_eq hc]
  · intro d hd
    cases hd
    exact ho.live a c hc
  · rw [get, put_cell_self, Option.map_some]

end Owned

end RcHeap

end NuMoo
