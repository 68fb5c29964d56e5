import NuMoo.Lib.Chain
import Mathlib.Logic.Function.Iterate

/-!
# Two speeds on one chain

The search for a cycle that walks a chain at two speeds. On a set that the successor function does
not leave, it ends within as many turns as the set has elements, and tells a chain from a cycle.

Results:
1. `exists_double`: in a finite set the walk repeats itself at a double distance.
2. `not_cycle_of_double`: a walk that repeats itself does not end.
3. `cycleAhead_spec`: the search is right, wherever the cycle begins.
-/

namespace Linked

variable {α : Type*} [DecidableEq α]

/-- Walk at two speeds until the faster walk ends or is met by the slower one. -/
def cycleAhead (next : α → Option α) (nil : α) : Nat → α → α → Option Bool
  | 0, _, _ => none
  | n + 1, slower, faster =>
    if faster = nil then some false
    else (next faster).bind fun faster =>
      if faster = nil then some false
      else (next faster).bind fun faster => (next slower).bind fun slower =>
        if faster = slower then some true else cycleAhead next nil n slower faster

/-- Where `k` steps lead; the end is not left again. -/
def after (next : α → Option α) (nil : α) (k : Nat) (a : α) : α :=
  (fun x => (next x).getD nil)^[k] a

/-- A set that the walk stays in until it ends. -/
structure Walk (next : α → Option α) (nil : α) (S : α → Prop) : Prop where
  ne_nil : ∀ x, S x → x ≠ nil
  next_nil : next nil = none
  step : ∀ x, S x → ∃ y, next x = some y ∧ (y = nil ∨ S y)

section

variable {next : α → Option α} {nil a b : α} {S : α → Prop} {k m n N : Nat}

omit [DecidableEq α] in
theorem after_succ (k : Nat) (a : α) :
    after next nil (k + 1) a = (next (after next nil k a)).getD nil :=
  Function.iterate_succ_apply' _ k a

omit [DecidableEq α] in
theorem after_add (j k : Nat) (a : α) :
    after next nil (j + k) a = after next nil j (after next nil k a) :=
  Function.iterate_add_apply _ j k a

omit [DecidableEq α] in
/-- From a repetition on, the walk repeats itself. -/
theorem after_periodic {i p : Nat} (h : after next nil (i + p) a = after next nil i a)
    (hk : i ≤ k) (n : Nat) :
    after next nil (k + n * p) a = after next nil k a := by
  induction n with
  | zero => rw [Nat.zero_mul, Nat.add_zero]
  | succ n ih =>
    obtain ⟨d, rfl⟩ := Nat.exists_eq_add_of_le hk
    calc after next nil (i + d + (n + 1) * p) a = after next nil ((d + n * p) + (i + p)) a := by
          congr 1
          rw [Nat.add_mul, Nat.one_mul]
          omega
      _ = after next nil ((d + n * p) + i) a := by rw [after_add, h, ← after_add]
      _ = after next nil (i + d + n * p) a := by
          congr 1
          omega
      _ = after next nil (i + d) a := ih

namespace Walk

omit [DecidableEq α]

theorem after_nil (hw : Walk next nil S) (k : Nat) : after next nil k nil = nil := by
  induction k with
  | zero => rfl
  | succ k ih => rw [after_succ, ih, hw.next_nil, Option.getD_none]

theorem after_mono (hw : Walk next nil S) (h : after next nil k a = nil) (hm : k ≤ m) :
    after next nil m a = nil := by
  obtain ⟨d, rfl⟩ := Nat.exists_eq_add_of_le' hm
  rw [after_add, h, hw.after_nil]

theorem after_mem (hw : Walk next nil S) (ha : a = nil ∨ S a) (k : Nat) :
    after next nil k a = nil ∨ S (after next nil k a) := by
  induction k with
  | zero => exact ha
  | succ k ih =>
    rw [after_succ]
    rcases ih with h | h
    · rw [h, hw.next_nil]
      exact .inl rfl
    · obtain ⟨y, hy, hy'⟩ := hw.step _ h
      rw [hy]
      exact hy'

/-- One step of the walk, read off `next`. -/
theorem next_after (hw : Walk next nil S) (ha : a = nil ∨ S a) (h : after next nil k a ≠ nil) :
    next (after next nil k a) = some (after next nil (k + 1) a) := by
  obtain ⟨y, hy, -⟩ := hw.step _ ((hw.after_mem ha k).resolve_left h)
  rw [after_succ, hy, Option.getD_some]

/-- A chain is a walk that ends. -/
theorem chain_iff (hw : Walk next nil S) (ha : a = nil ∨ S a) :
    (∃ l, Chain next nil a l) ↔ ∃ k, after next nil k a = nil := by
  constructor
  · rintro ⟨l, hl⟩
    induction hl with
    | done => exact ⟨0, rfl⟩
    | @step a b l hne hb hl ih =>
      have hb' : b = nil ∨ S b := by
        obtain ⟨y, hy, hy'⟩ := hw.step _ (ha.resolve_left hne)
        rw [hb] at hy
        exact Option.some.inj hy ▸ hy'
      obtain ⟨k, hk⟩ := ih hb'
      refine ⟨k + 1, ?_⟩
      rw [after_add, after_succ]
      show after next nil k ((next a).getD nil) = nil
      rw [hb]
      exact hk
  · rintro ⟨k, hk⟩
    induction k generalizing a with
    | zero => exact ⟨[], (show a = nil from hk) ▸ .done⟩
    | succ k ih =>
      rcases ha with rfl | ha
      · exact ⟨[], .done⟩
      · obtain ⟨y, hy, hy'⟩ := hw.step a ha
        rw [after_add, after_succ] at hk
        have hk : after next nil k ((next a).getD nil) = nil := hk
        rw [hy] at hk
        obtain ⟨l, hl⟩ := ih hy' hk
        exact ⟨a :: l, .step (hw.ne_nil a ha) hy hl⟩

/-- A walk that repeats itself does not end. -/
theorem not_cycle_of_double (hw : Walk next nil S)
    (h : after next nil (2 * (k + 1)) a = after next nil (k + 1) a)
    (hm : after next nil m a = nil) : after next nil (k + 1) a = nil := by
  have hp :=
    after_periodic (i := k + 1) (p := k + 1) (by rw [← Nat.two_mul]; exact h) (Nat.le_refl _) m
  rw [← hp]
  refine hw.after_mono hm ?_
  exact Nat.le_trans (Nat.le_mul_of_pos_right m (Nat.succ_pos k)) (Nat.le_add_left _ _)

/-- In a finite set the walk repeats itself at a double distance. -/
theorem exists_double (hw : Walk next nil S) (ha : a = nil ∨ S a)
    (hN : ∀ l : List α, l.Nodup → (∀ x ∈ l, S x) → l.length ≤ N)
    (hne : ∀ m, m ≤ N → after next nil m a ≠ nil) :
    ∃ k, k < N ∧ after next nil (2 * (k + 1)) a = after next nil (k + 1) a := by
  -- Among the first `N + 1` places two are the same.
  have hdup : ¬ ((List.range (N + 1)).map fun k => after next nil k a).Nodup := by
    intro hnd
    have := hN _ hnd fun x hx => by
      obtain ⟨k, hk, rfl⟩ := List.mem_map.mp hx
      exact (hw.after_mem ha k).resolve_left (hne k (Nat.le_of_lt_succ (List.mem_range.mp hk)))
    rw [List.length_map, List.length_range] at this
    exact absurd this (Nat.not_succ_le_self N)
  obtain ⟨i, j, hij, hj, heq⟩ : ∃ i j, i < j ∧ j ≤ N ∧ after next nil i a = after next nil j a := by
    by_contra hcon
    refine hdup (List.Nodup.map_on (fun i hi j hj he => ?_) List.nodup_range)
    rw [List.mem_range] at hi hj
    rcases Nat.lt_trichotomy i j with h | h | h
    · exact absurd ⟨i, j, h, Nat.le_of_lt_succ hj, he⟩ hcon
    · exact h
    · exact absurd ⟨j, i, h, Nat.le_of_lt_succ hi, he.symm⟩ hcon
  obtain ⟨p, rfl⟩ := Nat.exists_eq_add_of_lt hij
  -- A multiple of the period, after the beginning of the cycle.
  obtain ⟨q, hq, hlo, hhi⟩ : ∃ q, 0 < q * (p + 1) ∧ i ≤ q * (p + 1) ∧ q * (p + 1) ≤ i + p + 1 := by
    have hmod : i % (p + 1) < p + 1 := Nat.mod_lt i (Nat.succ_pos p)
    have hdiv := Nat.div_add_mod' i (p + 1)
    refine ⟨i / (p + 1) + 1, Nat.mul_pos (Nat.succ_pos _) (Nat.succ_pos _), ?_, ?_⟩ <;>
      rw [Nat.add_mul, Nat.one_mul] <;> omega
  obtain ⟨k, hk⟩ := Nat.exists_eq_succ_of_ne_zero (Nat.ne_of_gt hq)
  refine ⟨k, by omega, ?_⟩
  have hper := after_periodic (i := i) (p := p + 1) (a := a) heq.symm hlo q
  rw [hk] at hper
  rw [Nat.two_mul]
  exact hper

end Walk

theorem cycleAhead_eq (hw : Walk next nil S) (ha : a = nil ∨ S a)
    (hN : ∀ l : List α, l.Nodup → (∀ x ∈ l, S x) → l.length ≤ N)
    (hdouble : ∀ j, j < k → after next nil (2 * (j + 1)) a ≠ after next nil (j + 1) a)
    (hne : ∀ j, j < 2 * k → after next nil j a ≠ nil) (hn : N < n + k) :
    ∃ b, cycleAhead next nil n (after next nil k a) (after next nil (2 * k) a) = some b ∧
      (b = true ↔ ∀ m, after next nil m a ≠ nil) := by
  induction n generalizing k with
  | zero =>
    obtain ⟨j, hj, he⟩ := hw.exists_double ha hN fun m hm => hne m (by omega)
    exact absurd he (hdouble j (by omega))
  | succ n ih =>
    rw [cycleAhead]
    by_cases h₀ : after next nil (2 * k) a = nil
    · exact ⟨false, if_pos h₀, fun h => (nomatch h), fun h => absurd h₀ (h _)⟩
    rw [if_neg h₀, hw.next_after ha h₀]
    simp only [Option.bind_some]
    by_cases h₁ : after next nil (2 * k + 1) a = nil
    · exact ⟨false, if_pos h₁, fun h => (nomatch h), fun h => absurd h₁ (h _)⟩
    have hslow : after next nil k a ≠ nil := fun h => h₀ (hw.after_mono h (by omega))
    rw [if_neg h₁, hw.next_after ha h₁, hw.next_after ha hslow]
    simp only [Option.bind_some]
    by_cases h₂ : after next nil (2 * k + 1 + 1) a = after next nil (k + 1) a
    · refine ⟨true, if_pos h₂, fun _ m hm => h₁ ?_, fun _ => rfl⟩
      exact hw.after_mono (hw.not_cycle_of_double h₂ hm) (by omega)
    · rw [if_neg h₂]
      refine ih (k := k + 1) (fun j hj => ?_) (fun j hj => ?_) (by omega)
      · rcases Nat.lt_succ_iff_lt_or_eq.mp hj with hj | rfl
        · exact hdouble j hj
        · exact h₂
      · rcases (show j < 2 * k ∨ j = 2 * k ∨ j = 2 * k + 1 by omega) with hj | rfl | rfl
        · exact hne j hj
        · exact h₀
        · exact h₁

/-- The search ends, and finds a cycle exactly when the walk does not end. -/
theorem cycleAhead_spec (hw : Walk next nil S) (ha : a = nil ∨ S a)
    (hN : ∀ l : List α, l.Nodup → (∀ x ∈ l, S x) → l.length ≤ N) (hn : N < n) :
    ∃ b, cycleAhead next nil n a a = some b ∧ (b = true ↔ ¬ ∃ l, Chain next nil a l) := by
  obtain ⟨b, h, hb⟩ := cycleAhead_eq (k := 0) hw ha hN (fun _ hj => absurd hj (Nat.not_lt_zero _))
    (fun _ hj => absurd hj (Nat.not_lt_zero _)) hn
  refine ⟨b, h, hb.trans ?_⟩
  rw [hw.chain_iff ha, not_exists]

end

end Linked
