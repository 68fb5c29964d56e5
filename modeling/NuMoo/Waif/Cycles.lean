import NuMoo.Waif.Runs

/-!
# No cycles of waifs

`waif_put_prop` looks for the waif in the value that it stores. The search walks the values that the
waifs hold at that time, which for a waif out of step with its class may be more than it keeps.

Results:
1. `Reachable.noCycles`: no waif leads to itself, `refers_to` returns, and the waifs that nothing
   leads to can be freed one after the other as their counts become zero.
-/

namespace NuMoo

open Relation References

namespace Server

/-- Some root leads to the waif. -/
def Live (s : Server) (roots : Nat → Prop) (a : Nat) : Prop :=
  ∃ r, roots r ∧ ReflTransGen s.Refers r a

/-- References between waifs make no cycle. -/
structure NoCycles (s : Server) : Prop where
  acyclic : ∀ a, ¬ TransGen s.Refers a a
  refersTo : ∀ (target : Var) (key : Nat), (∀ b ∈ target.waifs, b < s.nextWaif) →
    ∃ b, s.refersTo target key = some b
  /-- The waifs that no root leads to, in an order in which each is referred to only by earlier
  ones. -/
  reclaim : ∀ roots : Nat → Prop, ∃ l : List Nat, (∀ a, a ∈ l ↔ a < s.nextWaif ∧ ¬ s.Live roots a) ∧
    ∀ l₁ a l₂, l = l₁ ++ a :: l₂ → ∀ b, s.Refers b a → b ∈ l₁

variable {s : Server}

/-- In an order for dropping, what comes later does not refer to what comes earlier. -/
theorem Reclaim.split {α : Type*} {R : α → α → Prop} {l₁ l₂ : List α} {a : α}
    (h : Reclaim R (l₁ ++ a :: l₂)) :
    ∀ b ∈ a :: l₂, ¬ R b a := by
  induction l₁ with
  | nil =>
    cases h with
    | cons _ hfree _ => exact hfree
  | cons c l₁ ih =>
    cases h with
    | cons _ _ h => exact ih h

theorem HeapOk.reclaim (h : s.HeapOk) (roots : Nat → Prop) : ∃ l : List Nat,
    (∀ a, a ∈ l ↔ a < s.nextWaif ∧ ¬ s.Live roots a) ∧ ∀ l₁ a l₂, l = l₁ ++ a :: l₂ →
    ∀ b, s.Refers b a → b ∈ l₁ := by
  classical
  obtain ⟨l, hl, hr⟩ :=
    h.acyclic.reclaimable ((Finset.range s.nextWaif).filter fun a => ¬ s.Live roots a)
  have hmem : ∀ a, a ∈ l ↔ a < s.nextWaif ∧ ¬ s.Live roots a := fun a => by
    rw [hl, Finset.mem_filter, Finset.mem_range]
  refine ⟨l, hmem, fun l₁ a l₂ hsplit b hba => ?_⟩
  obtain ⟨-, hdead⟩ := (hmem a).mp (hsplit ▸ List.mem_append_right _ List.mem_cons_self)
  have hb : b ∈ l := by
    obtain ⟨w, hw, -⟩ := id hba
    refine (hmem b).mpr ⟨h.lt hw, fun ⟨r, hroot, hrb⟩ => hdead ⟨r, hroot, hrb.tail hba⟩⟩
  rw [hsplit, List.mem_append] at hb
  rcases hb with hb | hb
  · exact hb
  · exact absurd hba (Reclaim.split (hsplit ▸ hr) b hb)

/-- No reachable server has a cycle of waifs. -/
theorem Reachable.noCycles (h : Reachable s) : s.NoCycles where
  acyclic := h.ok.heap.acyclic
  refersTo target key hval := by
    obtain ⟨b, hb, -⟩ := refersTo_spec h.ok.heap key hval
    exact ⟨b, hb⟩
  reclaim := h.ok.heap.reclaim

/-! ## A server with a reference -/

/-- The step, if it can be made. -/
def next (act : Act) (s : Server) : Server := (act.run s).getD s

theorem Reachable.next (h : Reachable s) (act : Act) (ha : act.Allowed s)
    (hrun : (act.run s).isSome = true) :
    Reachable (next act s) := by
  obtain ⟨s', hs'⟩ := Option.isSome_iff_exists.mp hrun
  refine h.step act ha ?_
  rw [Server.next, hs']
  rfl

/-- ":a" is the string at every address. -/
def start : Server := empty (fun _ => [58, 97]) fun _ => 0

/-- An object with the property ":a" and two waifs of it. -/
def twoWaifs : Server :=
  next (.newWaif 0 0) <| next (.newWaif 0 0) <| next (.addPropdef 0 0 (.int 5) 0 3) <|
    next (.createObject 0) start

theorem reachable_twoWaifs : Reachable twoWaifs :=
  (((Reachable.empty _ _).next (.createObject 0) trivial rfl).next (.addPropdef 0 0 (.int 5) 0 3)
    ⟨Db.valid_iff.mp (by decide), by decide⟩ (by decide)).next (.newWaif 0 0)
      (Db.valid_iff.mp (by decide)) (by decide)
    |>.next (.newWaif 0 0) (Db.valid_iff.mp (by decide)) (by decide)

/-- The first waif refers to the second, inside a list. -/
def linked : Server := next (.putProp 0 [97] (.list [.waif 1]) 0) twoWaifs

theorem reachable_linked : Reachable linked :=
  reachable_twoWaifs.next (.putProp 0 [97] (.list [.waif 1]) 0) ⟨by decide, by decide,
    by decide⟩ (by decide)

theorem noCycles_linked : linked.refersTo (.waif 0) 1 = some true ∧ linked.NoCycles :=
  ⟨by decide, reachable_linked.noCycles⟩

end Server

end NuMoo
