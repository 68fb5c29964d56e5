import NuMoo.Lib.Acyclic
import NuMoo.Waif.Values

/-!
# References between waifs

A waif refers to the waifs that occur in its values, alone or inside lists.

Results:
1. `refersTo_spec`: `refers_to` returns, and a negative answer means that the value does not lead to
   the waif.
2. `HeapOk.within`: references stay among the waifs that exist, so that paths are short.
-/

namespace NuMoo

open Relation References

/-! ## The waifs in a value -/

mutual

/-- The waifs that occur in a value, alone or inside lists. -/
def Var.waifs : Var → List Nat
  | .list l => Var.waifsOf l
  | .waif a => [a]
  | .int _ | .obj _ | .str _ | .err _ | .clear | .none | .catch _ | .finally _ | .float _ => []

/-- The waifs that occur in some values. -/
def Var.waifsOf : List Var → List Nat
  | [] => []
  | v :: l => Var.waifs v ++ Var.waifsOf l

end

theorem Var.mem_waifsOf {l : List Var} {a : Nat} : a ∈ Var.waifsOf l ↔ ∃ v ∈ l, a ∈ v.waifs := by
  induction l with
  | nil => simp [Var.waifsOf]
  | cons v l ih => simp [Var.waifsOf, ih]

@[simp] theorem Var.waifs_clear : Var.clear.waifs = [] := rfl

/-- What a search through a value finds, if it can look into the waifs that it meets. -/
def Found (key : Nat) (sub : Nat → Option Bool) (l : List Nat) (r : Option Bool) : Prop :=
  ∃ b, r = some b ∧ (b = false → ∀ a ∈ l, a ≠ key ∧ sub a = some false)

mutual

theorem Var.refersTo_found {key : Nat} {bits : UInt64} {sub : Nat → Option Bool} :
    (v : Var) → (∀ a ∈ v.waifs, a ≠ key → ∃ b, sub a = some b) →
    Found key sub v.waifs (v.refersTo key bits sub)
  | .list l, h => by
    rw [Var.refersTo, Var.waifs]
    exact Var.refersToAny_found l h
  | .waif a, h => by
    rw [Var.refersTo]
    by_cases ha : a = key
    · exact ⟨true, if_pos ha, fun hb => by cases hb⟩
    · obtain ⟨b, hb⟩ := h a (by simp [Var.waifs]) ha
      refine ⟨b, by rw [if_neg ha, hb], fun hf c hc => ?_⟩
      rw [Var.waifs, List.mem_singleton] at hc
      subst hc
      exact ⟨ha, by rw [hb, hf]⟩
  | .float bits', _ => ⟨bits' == bits, by rw [Var.refersTo], fun _ a ha => by cases ha⟩
  | .int _, _ | .obj _, _ | .str _, _ | .err _, _ | .clear, _ | .none, _ | .catch _, _
  | .finally _, _ =>
    ⟨false, by rw [Var.refersTo], fun _ a ha => by cases ha⟩

theorem Var.refersToAny_found {key : Nat} {bits : UInt64} {sub : Nat → Option Bool} :
    (l : List Var) → (∀ a ∈ Var.waifsOf l, a ≠ key → ∃ b, sub a = some b) →
      Found key sub (Var.waifsOf l) (Var.refersToAny key bits sub l)
  | [], _ => ⟨false, by rw [Var.refersToAny], fun _ a ha => by cases ha⟩
  | v :: l, h => by
    obtain ⟨b, hb, hbf⟩ := Var.refersTo_found v fun a ha => h a (by simp [Var.waifsOf, ha])
    obtain ⟨c, hc, hcf⟩ := Var.refersToAny_found l fun a ha => h a (by simp [Var.waifsOf, ha])
    rw [Var.refersToAny, hb, Option.bind_some]
    cases b with
    | true => exact ⟨true, rfl, fun h => by cases h⟩
    | false =>
      refine ⟨c, hc, fun hf a ha => ?_⟩
      rw [Var.waifsOf, List.mem_append] at ha
      exact ha.elim (hbf rfl a) (hcf hf a)

end

namespace Server

/-! ## References -/

/-- A waif refers to the waifs that occur in its values. -/
def Refers (s : Server) (a b : Nat) : Prop := ∃ w, s.waifs a = some w ∧ b ∈ Var.waifsOf w.vals

/-- The waifs that exist, and what they refer to. -/
structure HeapOk (s : Server) : Prop where
  ok : ∀ a w, s.waifs a = some w → WaifOk s w
  alloc : ∀ a, (s.waifs a).isSome = true ↔ a < s.nextWaif
  closed : ∀ a b, s.Refers a b → b < s.nextWaif
  acyclic : Acyclic s.Refers

variable {s s' : Server} {a : Nat}

theorem HeapOk.lt (h : s.HeapOk) {w : Waif} (hw : s.waifs a = some w) : a < s.nextWaif :=
  (h.alloc a).mp (by rw [hw]; rfl)

theorem HeapOk.exists (h : s.HeapOk) (ha : a < s.nextWaif) : ∃ w, s.waifs a = some w :=
  Option.isSome_iff_exists.mp ((h.alloc a).mpr ha)

/-- No path of references is longer than there are waifs. -/
theorem HeapOk.within (h : s.HeapOk) (ha : a < s.nextWaif) : Within s.Refers s.nextWaif a := by
  have hpath : ∀ b, TransGen s.Refers a b → b ∈ Finset.range s.nextWaif := by
    intro b hb
    refine Finset.mem_range.mpr ?_
    cases hb with
    | single h' => exact h.closed _ _ h'
    | tail _ h' => exact h.closed _ _ h'
  have hw := h.acyclic.within (Finset.mem_range.mpr ha) hpath
  rwa [Finset.card_range] at hw

/-- The loop of `refers_to` over a waif returns. -/
theorem refersToVals_spec (h : s.HeapOk) (key : Nat) {n : Nat} (hn : Within s.Refers n a)
    (ha : a < s.nextWaif) :
    ∃ b, s.refersToVals key n a = some b ∧ (b = false → ∀ c, TransGen s.Refers a c → c ≠ key) := by
  induction hn with
  | @intro n a hsub ih =>
    obtain ⟨w, hw⟩ := h.exists ha
    have hok := h.ok a w hw
    have hrefers : ∀ c ∈ Var.waifsOf w.vals, s.Refers a c := fun c hc => ⟨w, hw, hc⟩
    obtain ⟨b, hb, hbf⟩ := Var.refersToAny_found
      w.vals fun c hc _ => by
        obtain ⟨b, hb, -⟩ := ih c (hrefers c hc) (h.closed a c (hrefers c hc))
        exact ⟨b, hb⟩
    refine ⟨b, ?_, fun hf c hc => ?_⟩
    · simp only [refersToVals, hw, hok.count, Option.bind_eq_bind, Option.bind_some,
        Nat.le_refl, if_true,
        List.take_length]
      exact hb
    · -- The first step of the path leads to a waif that was searched.
      obtain ⟨d, had, hdc⟩ := TransGen.head'_iff.mp hc
      obtain ⟨w', hw', hd⟩ := had
      rw [hw] at hw'
      cases hw'
      obtain ⟨hne, hsome⟩ := hbf hf d hd
      rcases reflTransGen_iff_eq_or_transGen.mp hdc with rfl | hdc
      · exact hne
      · obtain ⟨b', hb', hbf'⟩ := ih d (hrefers d hd) (h.closed a d (hrefers d hd))
        rw [hsome] at hb'
        cases hb'
        exact hbf' rfl c hdc

/-- `refers_to` returns, and a negative answer means that the value does not lead to the waif. -/
theorem refersTo_spec (h : s.HeapOk) (key : Nat) {val : Var}
    (hval : ∀ a ∈ val.waifs, a < s.nextWaif) :
    ∃ b, s.refersTo val key = some b ∧
      (b = false → ∀ a ∈ val.waifs, ¬ ReflTransGen s.Refers a key) := by
  have hsub : ∀ a ∈ val.waifs, ∃ b, s.refersToVals key (s.nextWaif + 1) a = some b ∧
      (b = false → ∀ c, TransGen s.Refers a c → c ≠ key) := fun a ha => by
    have hw := h.within (hval a ha)
    exact refersToVals_spec h key (.intro fun b hb => (h.within (h.closed a b hb))) (hval a ha)
  obtain ⟨b, hb, hbf⟩ := Var.refersTo_found
    val fun a ha _ => by
      obtain ⟨b, hb, -⟩ := hsub a ha
      exact ⟨b, hb⟩
  refine ⟨b, hb, fun hf a ha hreach => ?_⟩
  obtain ⟨hne, hsome⟩ := hbf hf a ha
  obtain ⟨b', hb', hbf'⟩ := hsub a ha
  rw [hsome] at hb'
  cases hb'
  rcases reflTransGen_iff_eq_or_transGen.mp hreach with rfl | hreach
  · exact hne rfl
  · exact hbf' rfl key hreach rfl

end Server

end NuMoo
