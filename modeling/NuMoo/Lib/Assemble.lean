import Mathlib.Algebra.BigOperators.Group.List.Basic
import Mathlib.Algebra.Order.Group.Nat
import Mathlib.Algebra.Ring.Nat
import Mathlib.Data.List.Induction
import Mathlib.Order.Basic
import Mathlib.Data.List.Basic
import Mathlib.Tactic.Common

/-!
# Laying out items of different sizes

Items of any type are written one after the other, each with its own number of
units. `offset` is where an item begins. Numbers are written in base 256, the most
significant byte first.

Results:
1. `segment`: at the offset of an item stand the units of that item.
2. `offset_lt_offset`: offsets are ordered as the items are.
3. `offset_eq_add`: an offset is the number of items before it and what each has in
   excess of one unit.
4. `readBig_bigEndian`: a number that fits is read back.
-/

namespace NuMoo.Assemble

variable {α β : Type*} (size : α → Nat) {items more : List α} {p q : Nat} {x : α}

/-- Where the item with the given index begins. -/
def offset (items : List α) (p : Nat) : Nat := ((items.take p).map size).sum

variable {size}

@[simp] theorem offset_zero : offset size items 0 = 0 := rfl

theorem offset_succ (h : items[p]? = some x) :
    offset size items (p + 1) = offset size items p + size x := by
  rw [offset, List.take_add_one, h]
  simp [offset]

theorem offset_length : offset size items items.length = (items.map size).sum := by
  rw [offset, List.take_length]

theorem offset_mono (h : p ≤ q) : offset size items p ≤ offset size items q := by
  induction h with
  | refl => exact le_refl _
  | @step q _ ih =>
    cases hx : items[q]? with
    | some x => rw [offset_succ hx]; omega
    | none =>
      rw [List.getElem?_eq_none_iff] at hx
      have hend : offset size items (q + 1) = offset size items q := by
        rw [offset, offset, List.take_of_length_le hx, List.take_of_length_le (by omega)]
      rwa [hend]

theorem offset_lt_offset (hpos : ∀ x ∈ items, 0 < size x) (h : p < q) (hp : p < items.length) :
    offset size items p < offset size items q := by
  have hx : items[p]? = some items[p] := List.getElem?_eq_getElem hp
  have hle : offset size items (p + 1) ≤ offset size items q := offset_mono h
  have := hpos _ (List.getElem_mem hp)
  rw [offset_succ hx] at hle
  omega

/-- With at least one unit for every item, an offset counts the items before it and their excess. -/
theorem offset_eq_add {extra : α → Nat} (hsize : ∀ x ∈ items, size x = 1 + extra x)
    (hp : p ≤ items.length) :
    offset size items p = p + offset extra items p := by
  induction p with
  | zero => simp
  | succ p ih =>
    have hx : items[p]? = some items[p] := List.getElem?_eq_getElem (by omega)
    rw [offset_succ hx, offset_succ hx, ih (by omega), hsize _ (List.getElem_mem _)]
    omega

/-- The units of an item stand at its offset. -/
theorem segment {write : α → List β} (hw : ∀ x ∈ items, (write x).length = size x)
    (h : items[p]? = some x) :
    ((items.flatMap write).drop (offset size items p)).take (size x) = write x := by
  induction items generalizing p with
  | nil => simp at h
  | cons y items ih =>
    have hy : (write y).length = size y := hw y (by simp)
    cases p with
    | zero =>
      have hxy : y = x := by simpa using h
      subst hxy
      simp [← hy]
    | succ p =>
      have hoff : offset size (y :: items) (p + 1) = (write y).length + offset size items p := by
        simp [offset, hy]
      rw [hoff, List.flatMap_cons, ← List.drop_drop, List.drop_left]
      exact ih (fun z hz => hw z (List.mem_cons_of_mem _ hz)) (by simpa using h)

theorem length_flatMap {write : α → List β} (hw : ∀ x ∈ items, (write x).length = size x) :
    (items.flatMap write).length = (items.map size).sum := by
  rw [List.length_flatMap]
  exact congrArg List.sum (List.map_congr_left hw)

/-! ## Numbers -/

/-- The low bytes of a number, the most significant one first. -/
def bigEndian : Nat → Nat → List UInt8
  | 0, _ => []
  | n + 1, value => bigEndian n (value / 256) ++ [UInt8.ofNat value]

/-- The number that bytes stand for. -/
def readBig (l : List UInt8) : Nat := l.foldl (fun value b => value * 256 + b.toNat) 0

@[simp] theorem length_bigEndian (n value : Nat) : (bigEndian n value).length = n := by
  induction n generalizing value with
  | zero => rfl
  | succ n ih => simp [bigEndian, ih]

theorem readBig_bigEndian (n value : Nat) : readBig (bigEndian n value) = value % 256 ^ n := by
  induction n generalizing value with
  | zero => simp [bigEndian, readBig, Nat.mod_one]
  | succ n ih =>
    have hstep : readBig (bigEndian n (value / 256) ++ [UInt8.ofNat value])
        = readBig (bigEndian n (value / 256)) * 256 + value % 256 := by
      simp [readBig, List.foldl_append]
    rw [bigEndian, hstep, ih, Nat.pow_succ, Nat.mul_comm (256 ^ n) 256, Nat.mod_mul]
    omega

end NuMoo.Assemble
