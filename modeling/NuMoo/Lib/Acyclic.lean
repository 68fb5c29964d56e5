import Mathlib.Data.Finset.Card
import Mathlib.Data.Fintype.Basic
import Mathlib.Logic.Relation

/-!
# Acyclic references

References between the elements of a type, no element of which reaches itself.

Results:
1. `Acyclic.link`: new references from one element to others that do not reach it make no cycle.
2. `Acyclic.within`: paths inside a finite set are no longer than the set is large, so that
   recursion along the references needs no more fuel.
3. `Acyclic.reclaimable`: the elements of a finite set can be dropped one by one, each when no
   element that is left refers to it.
-/

namespace References

open Relation

variable {α : Type*} {R R' : α → α → Prop}

/-- No element reaches itself. -/
def Acyclic (R : α → α → Prop) : Prop := ∀ a, ¬ TransGen R a a

/-- The paths from an element have fewer than `n` steps. -/
inductive Within (R : α → α → Prop) : Nat → α → Prop
  | intro {n : Nat} {a : α} : (∀ b, R a b → Within R n b) → Within R (n + 1) a

theorem Acyclic.mono (h : Acyclic R) (hle : ∀ a b, R' a b → R a b) : Acyclic R' :=
  fun a ha => h a (TransGen.mono (fun a b => hle a b) a a ha)

theorem Within.mono {n : Nat} {a : α} (h : Within R n a) (hle : ∀ a b, R' a b → R a b) :
    Within R' n a := by
  induction h with
  | intro _ ih => exact .intro fun b hb => ih b (hle _ b hb)

/-- A path with the new references either uses none of them or starts with a path to the element
that has them and ends with a path from one of their targets. -/
theorem transGen_link {x : α} {B : α → Prop} (hlink : ∀ a b, R' a b → R a b ∨ a = x ∧ B b)
    (hfree : ∀ b, B b → ¬ ReflTransGen R b x) {a c : α} (h : TransGen R' a c) :
    TransGen R a c ∨ ReflTransGen R a x ∧ ∃ b, B b ∧ ReflTransGen R b c := by
  induction h with
  | single h =>
    rcases hlink _ _ h with h | ⟨rfl, hb⟩
    · exact .inl (.single h)
    · exact .inr ⟨.refl, _, hb, .refl⟩
  | tail _ h ih =>
    rcases hlink _ _ h with h | ⟨rfl, hb⟩
    · rcases ih with ih | ⟨hax, b, hb, hbc⟩
      · exact .inl (ih.tail h)
      · exact .inr ⟨hax, b, hb, hbc.tail h⟩
    · rcases ih with ih | ⟨hax, b, hb', hbc⟩
      · exact .inr ⟨ih.to_reflTransGen, _, hb, .refl⟩
      · exact absurd hbc (hfree b hb')

/-- References to elements that do not reach their source make no cycle. -/
theorem Acyclic.link (h : Acyclic R) {x : α} {B : α → Prop}
    (hlink : ∀ a b, R' a b → R a b ∨ a = x ∧ B b)
    (hfree : ∀ b, B b → ¬ ReflTransGen R b x) : Acyclic R' := by
  intro a ha
  rcases transGen_link hlink hfree ha with ha | ⟨hax, b, hb, hba⟩
  · exact h a ha
  · exact hfree b hb (hba.trans hax)

section Finite

variable [DecidableEq α]

/-- Paths inside a finite set are no longer than the set is large. -/
theorem Acyclic.within (h : Acyclic R) {s : Finset α} {a : α} (ha : a ∈ s)
    (hs : ∀ b, TransGen R a b → b ∈ s) :
    Within R s.card a := by
  induction hn : s.card generalizing s a with
  | zero =>
    rw [Finset.card_eq_zero.mp hn] at ha
    cases ha
  | succ n ih =>
    refine .intro fun b hb => ?_
    have hne : ∀ c, ReflTransGen R b c → c ≠ a := by
      rintro c hbc rfl
      exact h c (TransGen.head' hb hbc)
    refine ih (s := s.erase a) (Finset.mem_erase.mpr ⟨hne b .refl, hs b (.single hb)⟩)
      (fun c hc => ?_) ?_
    · exact Finset.mem_erase.mpr ⟨hne c hc.to_reflTransGen, hs c (.head hb hc)⟩
    · rw [Finset.card_erase_of_mem ha, hn]
      rfl

/-- In a finite set that is not empty some element is not referred to. -/
theorem Acyclic.exists_unreferenced (h : Acyclic R) {s : Finset α} (hs : s.Nonempty) :
    ∃ a ∈ s, ∀ b ∈ s, ¬ R b a := by
  by_contra hall
  push Not at hall
  -- Going backwards inside the set never ends.
  have hback : ∀ n : Nat, ∀ a ∈ s, ∃ l : List α, l.length = n ∧
      (∀ b ∈ l, b ∈ s ∧ TransGen R b a) ∧ l.Nodup := by
    intro n
    induction n with
    | zero => exact fun a _ => ⟨[], rfl, by simp, List.nodup_nil⟩
    | succ n ih =>
      intro a ha
      obtain ⟨b, hb, hba⟩ := hall a ha
      obtain ⟨l, hlen, hl, hnd⟩ := ih b hb
      refine ⟨b :: l, by simp [hlen], fun c hc => ?_,
        List.nodup_cons.mpr ⟨fun hm => h b (hl b hm).2, hnd⟩⟩
      rcases List.mem_cons.mp hc with rfl | hc
      · exact ⟨hb, .single hba⟩
      · exact ⟨(hl c hc).1, (hl c hc).2.tail hba⟩
  obtain ⟨a, ha⟩ := hs
  obtain ⟨l, hlen, hl, hnd⟩ := hback (s.card + 1) a ha
  have hle : l.toFinset.card ≤ s.card :=
    Finset.card_le_card fun b hb => (hl b (List.mem_toFinset.mp hb)).1
  rw [List.toFinset_card_of_nodup hnd, hlen] at hle
  omega

/-- An order in which elements can be dropped: nothing that is left refers to the next one. -/
inductive Reclaim (R : α → α → Prop) : List α → Prop
  | nil : Reclaim R []
  | cons {a : α} {l : List α} : a ∉ l → (∀ b ∈ a :: l, ¬ R b a) → Reclaim R l → Reclaim R (a :: l)

/-- The elements of a finite set can be dropped one by one. -/
theorem Acyclic.reclaimable (h : Acyclic R) (s : Finset α) :
    ∃ l : List α, (∀ a, a ∈ l ↔ a ∈ s) ∧ Reclaim R l := by
  induction hn : s.card generalizing s with
  | zero => exact ⟨[], by simp [Finset.card_eq_zero.mp hn], .nil⟩
  | succ n ih =>
    obtain ⟨a, ha, hfree⟩ := h.exists_unreferenced (s := s) (Finset.card_pos.mp (by omega))
    obtain ⟨l, hl, hr⟩ := ih (s.erase a) (by rw [Finset.card_erase_of_mem ha, hn]; rfl)
    refine ⟨a :: l, fun b => ?_, .cons (by simp [hl]) (fun b hb => hfree b ?_) hr⟩
    · by_cases hba : b = a
      · simp [hba, ha]
      · simp [hba, hl]
    · rcases List.mem_cons.mp hb with rfl | hb
      · exact ha
      · exact (Finset.mem_erase.mp ((hl b).mp hb)).2

end Finite

end References
