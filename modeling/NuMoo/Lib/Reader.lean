import Mathlib.Tactic.Common

/-!
# Readers of a text

A reader takes characters from the front of a text and yields a value, or fails. `Reads m w P` says
that the reader `m` takes just `w`, whatever follows it, and that what it yields satisfies `P`: so a
reader stays in step with whoever wrote `w`.

Results:
1. `Reads.pure`, `Reads.bind`, `Reads.map`: readers one after the other.
2. `Reads.many`: a number of readers in a row.
-/

universe u

variable {σ α β : Type u}

/-- A reader of texts over the characters `σ`. -/
abbrev Reader (σ : Type u) := StateT (List σ) Option

/-- In front of any text, the reader takes `w` and yields a value with the property. -/
def Reads (m : Reader σ α) (w : List σ) (P : α → Prop) : Prop :=
  ∀ rest, ∃ a, m (w ++ rest) = some (a, rest) ∧ P a

namespace Reader

/-- The same reader, so many times. -/
def many (m : Reader σ α) : Nat → Reader σ (List α)
  | 0 => pure []
  | n + 1 => do
    let a ← m
    let l ← many m n
    pure (a :: l)

theorem bind_eq {m : Reader σ α} {f : α → Reader σ β} {l rest : List σ} {a : α}
    (h : m l = some (a, rest)) :
    (m >>= f) l = f a rest := by
  change (m l).bind (fun p => f p.1 p.2) = _
  rw [h]
  rfl

end Reader

namespace Reads

variable {m : Reader σ α} {f : α → Reader σ β} {w w' : List σ} {P Q : α → Prop} {R : β → Prop}

theorem pure {a : α} (h : P a) : Reads (Pure.pure a : Reader σ α) [] P := fun _ => ⟨a, rfl, h⟩

theorem mono (h : Reads m w P) (hpq : ∀ a, P a → Q a) : Reads m w Q := by
  intro rest
  obtain ⟨a, ha, hp⟩ := h rest
  exact ⟨a, ha, hpq a hp⟩

theorem bind (h : Reads m w P) (hf : ∀ a, P a → Reads (f a) w' R) :
    Reads (m >>= f) (w ++ w') R := by
  intro rest
  obtain ⟨a, ha, hp⟩ := h (w' ++ rest)
  obtain ⟨b, hb, hr⟩ := hf a hp rest
  refine ⟨b, ?_, hr⟩
  rw [List.append_assoc, Reader.bind_eq ha, hb]

/-- What is left to do takes no characters. -/
theorem bind_nil (h : Reads m w P) (hf : ∀ a, P a → Reads (f a) [] R) : Reads (m >>= f) w R := by
  have h' := h.bind hf
  rwa [List.append_nil] at h'

theorem map {g : α → β} (h : Reads m w P) (hg : ∀ a, P a → R (g a)) :
    Reads (m >>= fun a => Pure.pure (g a)) w R :=
  h.bind_nil fun a ha => .pure (hg a ha)

/-- A reader that looks at the whole text first. -/
theorem get_bind {f : List σ → Reader σ β} (hf : ∀ s, Reads (f s) w R) : Reads (get >>= f) w R :=
  fun rest => hf _ rest

/-- A reader for each of some texts in a row. -/
theorem many {γ : Type*} {write : γ → List σ} {S : γ → α → Prop} {l : List γ}
    (h : ∀ x ∈ l, Reads m (write x) (S x)) :
    Reads (Reader.many m l.length) (l.flatMap write) (List.Forall₂ S l) := by
  induction l with
  | nil => exact Reads.pure .nil
  | cons x l ih =>
    have ih := ih fun y hy => h y (List.mem_cons_of_mem x hy)
    exact (h x List.mem_cons_self).bind fun a ha => ih.map fun l' hl' => .cons ha hl'

end Reads
