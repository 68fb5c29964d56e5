import Mathlib.Data.List.Basic
import Mathlib.Data.List.Nodup
import Mathlib.Logic.Function.Basic

/-!
# Linked lists with slots

A singly linked list in memory, where the list is edited through slots: the head
pointer and the `next` field of each cell. The slot at the end of a list is the one
that its last cell holds, or the head when the list is empty; a pointer to that slot
is what a program keeps to append in constant time.

Results:
1. `Mem.load_endSlot`: the slot at the end of a prefix holds the next cell.
2. `Mem.store_endSlot`: a store at the end of a prefix replaces the rest of the list.
3. `Mem.unlink` and `Mem.push`: a cell is taken off the list, and one is put in front.
-/

namespace Linked

variable {α : Type*}

/-- A place that holds a pointer of a list: its head, or the `next` field of a cell. -/
inductive Slot (α : Type*) where
  | head
  | field (a : α)
deriving DecidableEq, Repr

/-- The slot at the end of a list of cells. -/
def endSlot (l : List α) : Slot α :=
  match l.getLast? with
  | none => .head
  | some a => .field a

@[simp] theorem endSlot_nil : endSlot ([] : List α) = .head := rfl

theorem endSlot_append {m l : List α} (h : l ≠ []) : endSlot (m ++ l) = endSlot l := by
  rw [endSlot, endSlot, List.getLast?_append_of_ne_nil _ h]

@[simp] theorem endSlot_append_singleton (l : List α) (a : α) : endSlot (l ++ [a]) = .field a := by
  simp [endSlot]

/-- The head and the `next` fields; a field of a cell that is not allocated is absent. -/
structure Mem (α : Type*) where
  head : Option α
  next : α → Option (Option α)

namespace Mem

/-- Following `next` from a pointer visits the list. -/
def Run (next : α → Option (Option α)) : Option α → List α → Prop
  | p, [] => p = none
  | p, a :: l => p = some a ∧ ∃ n, next a = some n ∧ Run next n l

variable {next next' : α → Option (Option α)} {p : Option α} {l m r : List α} {M : Mem α} {a : α}

theorem Run.congr (h : Run next p l) (hn : ∀ a ∈ l, next' a = next a) : Run next' p l := by
  induction l generalizing p with
  | nil => exact h
  | cons a l ih =>
    obtain ⟨rfl, n, ha, hl⟩ := h
    exact ⟨rfl, n, by rw [hn a List.mem_cons_self, ha], ih hl fun b hb =>
      hn b (List.mem_cons_of_mem _ hb)⟩

theorem Run.head? (h : Run next p l) : p = l.head? := by
  cases l with
  | nil => exact h
  | cons a l => exact h.1

theorem Run.isSome (h : Run next p l) (ha : a ∈ l) : (next a).isSome := by
  induction l generalizing p with
  | nil => simp at ha
  | cons b l ih =>
    obtain ⟨_, n, hb, hl⟩ := h
    rcases List.mem_cons.mp ha with rfl | ha
    · simp [hb]
    · exact ih hl ha

/-- The list that the head begins. -/
def Holds (M : Mem α) (l : List α) : Prop := Run M.next M.head l

/-- What a slot holds. -/
def load (M : Mem α) : Slot α → Option (Option α)
  | .head => some M.head
  | .field a => M.next a

theorem Run.split (h : Run next p (m ++ a :: r)) : ∃ n, next a = some n ∧ Run next n r := by
  induction m generalizing p with
  | nil => exact h.2
  | cons b m ih =>
    obtain ⟨_, n, _, hr⟩ := h
    exact ih hr

theorem load_endSlot (h : M.Holds (m ++ r)) : M.load (endSlot m) = some r.head? := by
  rcases List.eq_nil_or_concat m with rfl | ⟨m, a, rfl⟩
  · rw [endSlot_nil, load, Run.head? h]
    rfl
  · obtain ⟨n, ha, hr⟩ := Run.split (by simpa [Holds, List.append_assoc] using h)
    rw [List.concat_eq_append, endSlot_append_singleton, load, ha, hr.head?]

/-- The slot at the end of a list is in a cell of the list. -/
theorem endSlot_ne_field (h : a ∉ l) : endSlot l ≠ .field a := by
  intro he
  rcases List.eq_nil_or_concat l with rfl | ⟨m, b, rfl⟩
  · simp at he
  · rw [List.concat_eq_append, endSlot_append_singleton, Slot.field.injEq] at he
    exact h (by simp [he])

variable [DecidableEq α]

/-- A slot is given a new pointer. -/
def store (M : Mem α) (s : Slot α) (p : Option α) : Mem α :=
  match s with
  | .head => { M with head := p }
  | .field a => { M with next := Function.update M.next a (some p) }

theorem store_next_of_ne {s : Slot α} (h : s ≠ .field a) : (M.store s p).next a = M.next a := by
  cases s with
  | head => rfl
  | field b =>
    have hab : a ≠ b := fun he => h (by rw [he])
    exact Function.update_of_ne hab _ _

theorem Run.update_append {v : Option α} (h : Run next p (m ++ a :: r)) (hnd : a ∉ m)
    (hl : Run (Function.update next a (some v)) v l) :
    Run (Function.update next a (some v)) p (m ++ a :: l) := by
  induction m generalizing p with
  | nil => exact ⟨h.1, v, by simp, hl⟩
  | cons b m ih =>
    obtain ⟨hp, n, hb, hr⟩ := h
    have hba : b ≠ a := fun he => hnd (by simp [he])
    exact ⟨hp, n, by rw [Function.update_of_ne hba, hb], ih hr fun hm =>
      hnd (List.mem_cons_of_mem _ hm)⟩

theorem store_endSlot {v : Option α} (h : M.Holds (m ++ r)) (hnd : m.Nodup)
    (hl : Run (M.store (endSlot m) v).next v l) : (M.store (endSlot m) v).Holds (m ++ l) := by
  rcases List.eq_nil_or_concat m with rfl | ⟨m, a, rfl⟩
  · exact hl
  · rw [List.concat_eq_append] at h hnd hl ⊢
    rw [endSlot_append_singleton, store] at hl ⊢
    have ham : a ∉ m := fun hm => by
      rw [List.nodup_append] at hnd
      exact hnd.2.2 a hm a (by simp) rfl
    rw [List.append_assoc, List.singleton_append] at h ⊢
    exact Run.update_append h ham hl

/-- A cell is taken off the list: the slot in front of it is given what it held. -/
theorem unlink {n : Option α} (h : M.Holds (m ++ a :: r)) (hnd : (m ++ a :: r).Nodup)
    (ha : M.next a = some n) :
    (M.store (endSlot m) n).Holds (m ++ r) := by
  obtain ⟨hm, -, hdisj⟩ := List.nodup_append.mp hnd
  obtain ⟨n', hn', hrun⟩ := Run.split h
  obtain rfl : n = n' := Option.some.inj (ha.symm.trans hn')
  refine store_endSlot h hm (hrun.congr fun b hb =>
    store_next_of_ne (endSlot_ne_field fun hbm => ?_))
  exact hdisj b hbm b (List.mem_cons_of_mem _ hb) rfl

/-- A cell that is not on the list is put in front of it. -/
theorem push (h : M.Holds l) (ha : a ∉ l) :
    ((M.store (.field a) M.head).store .head (some a)).Holds (a :: l) := by
  refine ⟨rfl, M.head, Function.update_self _ _ _, h.congr fun b hb => Function.update_of_ne ?_ _ _⟩
  rintro rfl
  exact ha hb

end Mem

end Linked
