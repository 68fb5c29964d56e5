import Mathlib.Data.Set.Insert
import Mathlib.Data.Set.Subsingleton

/-!
# The only element

A search that wants the only element with a property keeps what it has found so far: nothing, one
element, or that there are several. What it ends with depends on the set of what it has come across,
and not on the order or on how often.

Results:
1. `Sole.Of.unique`: a set has one outcome.
2. `Sole.Of.add`: what is kept is the outcome of what has been seen.
-/

/-- What has been found. -/
inductive Sole (α : Type*) where
  | none
  | one (a : α)
  | many
deriving DecidableEq, Repr

namespace Sole

variable {α : Type*}

/-- Another element is found. -/
def add [DecidableEq α] : Sole α → α → Sole α
  | none, a => one a
  | one b, a => if a = b then one b else many
  | many, _ => many

/-- The outcome for a set. -/
def Of (s : Set α) : Sole α → Prop
  | none => s = ∅
  | one a => s = {a}
  | many => s.Nontrivial

variable {s t : Set α} {r r' : Sole α} {a b : α}

theorem Of.unique (h : Of s r) (h' : Of s r') : r = r' := by
  cases r with
  | none =>
    cases h
    cases r' with
    | none => rfl
    | one a => exact absurd h' (Set.singleton_ne_empty a).symm
    | many => exact absurd h' Set.not_nontrivial_empty
  | one a =>
    cases h
    cases r' with
    | none => exact absurd h' (Set.singleton_ne_empty a)
    | one b => rw [Set.singleton_eq_singleton_iff.mp h']
    | many => exact absurd h' Set.not_nontrivial_singleton
  | many =>
    cases r' with
    | none =>
      cases h'
      exact absurd h Set.not_nontrivial_empty
    | one b =>
      cases h'
      exact absurd h Set.not_nontrivial_singleton
    | many => rfl

theorem Of.exists (s : Set α) : ∃ r, Of s r := by
  rcases s.eq_empty_or_nonempty with h | ⟨a, ha⟩
  · exact ⟨none, h⟩
  · by_cases hs : s.Nontrivial
    · exact ⟨many, hs⟩
    · exact ⟨one a, (Set.not_nontrivial_iff.mp hs).eq_singleton_of_mem ha⟩

variable [DecidableEq α]

/-- An element is come across. -/
theorem Of.add (h : Of s r) (a : α) : Of (insert a s) (r.add a) := by
  cases r with
  | none =>
    cases h
    exact insert_empty_eq a
  | one b =>
    cases h
    rw [Sole.add]
    split
    · next hab =>
      show insert a {b} = {b}
      rw [hab, Set.pair_eq_singleton]
    · next hab => exact ⟨a, Set.mem_insert _ _, b, Set.mem_insert_of_mem _ rfl, hab⟩
  | many => exact (show s.Nontrivial from h).mono (Set.subset_insert a s)

end Sole
