import Mathlib.Data.List.NodupEquivFin
import Mathlib.Data.List.Range

/-!
# Matching two lists in order

The entries of a new list are looked for in an old one, each behind the entry that was
found for the one before it. What is passed over is not looked at again.

Results:
1. `Match.matching_sound`, `Match.matching_increasing`: an entry is matched with an equal one,
   further on each time.
2. `Match.matching_complete`: if the common entries stand in one order, all of them are matched.
-/

namespace Match

variable {α : Type*} [DecidableEq α]

/-- For each entry of the new list the place in the old one, whose first entry has the place `i`. -/
def matching (old : List α) (i : Nat) : List α → List (Option Nat)
  | [] => []
  | b :: bs =>
    match old.findIdx? (· == b) with
    | some k => some (i + k) :: matching (old.drop (k + 1)) (i + k + 1) bs
    | none => none :: matching old i bs

variable {old new bs : List α} {b : α} {i j k n : Nat}

theorem matching_some (h : old.findIdx? (· == b) = some k) :
    matching old i (b :: bs) = some (i + k) :: matching (old.drop (k + 1)) (i + k + 1) bs := by
  rw [matching, h]

theorem matching_none (h : old.findIdx? (· == b) = none) :
    matching old i (b :: bs) = none :: matching old i bs := by
  rw [matching, h]

@[simp] theorem matching_length (old : List α) (i : Nat) (new : List α) :
    (matching old i new).length = new.length := by
  induction new generalizing old i with
  | nil => rfl
  | cons b bs ih =>
    cases h : old.findIdx? (· == b) with
    | none => rw [matching_none h, List.length_cons, ih, List.length_cons]
    | some k => rw [matching_some h, List.length_cons, ih, List.length_cons]

/-- A match is an equal entry. -/
theorem matching_sound (h : (matching old i new)[j]? = some (some n)) :
    i ≤ n ∧ ∃ b, old[n - i]? = some b ∧ new[j]? = some b := by
  induction new generalizing old i j with
  | nil => cases h
  | cons b bs ih =>
    cases hk : old.findIdx? (· == b) with
    | none =>
      rw [matching_none hk] at h
      cases j with
      | zero => cases h
      | succ j => exact ih h
    | some k =>
      obtain ⟨hlt, heq, -⟩ := List.findIdx?_eq_some_iff_getElem.mp hk
      rw [matching_some hk] at h
      cases j with
      | zero =>
        cases h
        refine ⟨Nat.le_add_right i k, b, ?_, rfl⟩
        rw [Nat.add_sub_cancel_left, List.getElem?_eq_getElem hlt, eq_of_beq heq]
      | succ j =>
        obtain ⟨hle, c, hold, hnew⟩ := ih h
        refine ⟨by omega, c, ?_, hnew⟩
        rw [List.getElem?_drop] at hold
        rw [← hold]
        congr 1
        omega

theorem le_of_mem_matching (h : some n ∈ matching old i new) : i ≤ n := by
  obtain ⟨j, hj⟩ := List.mem_iff_getElem?.mp h
  exact (matching_sound hj).1

/-- The places increase. -/
theorem matching_increasing (old : List α) (i : Nat) (new : List α) :
    ((matching old i new).filterMap id).Pairwise (· < ·) := by
  induction new generalizing old i with
  | nil => exact List.Pairwise.nil
  | cons b bs ih =>
    cases hk : old.findIdx? (· == b) with
    | none =>
      rw [matching_none hk]
      exact ih old i
    | some k =>
      rw [matching_some hk]
      show ((i + k) :: (matching (old.drop (k + 1)) (i + k + 1) bs).filterMap id).Pairwise (· < ·)
      rw [List.pairwise_cons]
      refine ⟨fun n hn => ?_, ih _ _⟩
      obtain ⟨o, ho, rfl⟩ := List.mem_filterMap.mp hn
      exact Nat.lt_of_succ_le (le_of_mem_matching ho)

theorem not_mem_of_findIdx?_none (h : old.findIdx? (· == b) = none) : b ∉ old := by
  rw [List.findIdx?_eq_none_iff] at h
  intro hb
  exact Bool.false_ne_true ((h b hb).symm.trans (beq_self_eq_true b))

/-- The first place of an entry splits the list. -/
theorem split_of_findIdx? (h : old.findIdx? (· == b) = some k) :
    old = old.take k ++ b :: old.drop (k + 1) ∧ b ∉ old.take k := by
  obtain ⟨hlt, heq, hbefore⟩ := List.findIdx?_eq_some_iff_getElem.mp h
  constructor
  · rw [← eq_of_beq heq, ← List.drop_eq_getElem_cons hlt, List.take_append_drop]
  · intro hmem
    obtain ⟨j, hj, heq'⟩ := List.mem_take_iff_getElem.mp hmem
    exact hbefore j (by omega) (by rw [heq', beq_self_eq_true])

/-- If the entries that the lists have in common stand in one order, each is matched. -/
theorem matching_complete (hnd : new.Nodup) (horder : old.filter (· ∈ new) = new.filter (· ∈ old))
    (hj : new[j]? = some b)
    (hb : b ∈ old) : ∃ n, (matching old i new)[j]? = some (some n) := by
  induction new generalizing old i j with
  | nil => cases hj
  | cons c cs ih =>
    obtain ⟨hc, hcs⟩ := List.nodup_cons.mp hnd
    cases hk : old.findIdx? (· == c) with
    | none =>
      -- `c` is not in the old list, and counts for neither side.
      have hnot := not_mem_of_findIdx?_none hk
      rw [matching_none hk]
      cases j with
      | zero =>
        cases hj
        exact absurd hb hnot
      | succ j =>
        refine ih hcs ?_ hj hb
        rw [List.filter_cons_of_neg (by simpa using hnot)] at horder
        rw [← horder]
        refine List.filter_congr fun x hx => ?_
        have hne : x ≠ c := fun h => hnot (h ▸ hx)
        simp [hne]
    | some k =>
      obtain ⟨hsplit, hfirst⟩ := split_of_findIdx? hk
      rw [matching_some hk]
      cases j with
      | zero => exact ⟨i + k, rfl⟩
      | succ j =>
        -- What is passed over is not in the new list, and what follows has no `c` any more.
        have hcold : c ∈ old := by
          rw [hsplit]
          exact List.mem_append_right _ List.mem_cons_self
        rw [List.filter_cons_of_pos (by simpa using hcold)] at horder
        rw [hsplit, List.filter_append, List.filter_cons_of_pos (by simp), ← hsplit] at horder
        have hpre : (old.take k).filter (· ∈ c :: cs) = [] := by
          cases hl : (old.take k).filter (· ∈ c :: cs) with
          | nil => rfl
          | cons x xs =>
            rw [hl, List.cons_append, List.cons.injEq] at horder
            have hmem : x ∈ (old.take k).filter (· ∈ c :: cs) := hl ▸ List.mem_cons_self
            exact absurd (horder.1 ▸ List.mem_of_mem_filter hmem) hfirst
        rw [hpre, List.nil_append, List.cons.injEq] at horder
        have hrest := horder.2
        have hpost : c ∉ old.drop (k + 1) := by
          intro hmem
          have hin : c ∈ cs.filter (· ∈ old) := hrest ▸ List.mem_filter.mpr ⟨hmem, by simp⟩
          exact hc (List.mem_of_mem_filter hin)
        have hiff : ∀ x ∈ cs, x ∈ old ↔ x ∈ old.drop (k + 1) := by
          intro x hx
          refine ⟨fun hmem => ?_, fun hmem => List.mem_of_mem_drop hmem⟩
          rw [hsplit, List.mem_append, List.mem_cons] at hmem
          rcases hmem with hmem | rfl | hmem
          · have hin : x ∈ (old.take k).filter (· ∈ c :: cs) :=
              List.mem_filter.mpr ⟨hmem, decide_eq_true (List.mem_cons_of_mem c hx)⟩
            rw [hpre] at hin
            cases hin
          · exact absurd hx hc
          · exact hmem
        have hbcs : b ∈ cs := List.mem_of_getElem? hj
        refine ih hcs ?_ hj ((hiff b hbcs).mp hb)
        calc (old.drop (k + 1)).filter (· ∈ cs) = (old.drop (k + 1)).filter (· ∈ c :: cs) := by
              refine List.filter_congr fun x hx => ?_
              have hne : x ≠ c := fun h => hpost (h ▸ hx)
              simp [hne]
          _ = cs.filter (· ∈ old) := hrest
          _ = cs.filter (· ∈ old.drop (k + 1)) :=
            List.filter_congr fun x hx => by simp only [hiff x hx]

omit [DecidableEq α] in
/-- An entry that a filter keeps once stands at one place. -/
theorem place_unique {l : List α} {p : α → Bool} {x : α} (h : (l.filter p).Nodup) (hx : p x = true)
    (hi : l[i]? = some x)
    (hj : l[j]? = some x) : i = j := by
  have hlt : ∀ {i j : Nat}, l[i]? = some x → l[j]? = some x → ¬ i < j := by
    intro i j hi hj hij
    obtain ⟨hil, hix⟩ := List.getElem?_eq_some_iff.mp hi
    obtain ⟨hjl, hjx⟩ := List.getElem?_eq_some_iff.mp hj
    have hdup : List.Duplicate x l :=
      List.duplicate_iff_exists_distinct_get.mpr ⟨⟨i, hil⟩, ⟨j, hjl⟩, hij, hix.symm, hjx.symm⟩
    have hsub := (List.duplicate_iff_sublist.mp hdup).filter p
    rw [List.filter_cons_of_pos hx, List.filter_cons_of_pos hx, List.filter_nil] at hsub
    exact (List.nodup_cons.mp (h.sublist hsub)).1 List.mem_cons_self
  exact Nat.le_antisymm (Nat.le_of_not_lt (hlt hj hi)) (Nat.le_of_not_lt (hlt hi hj))

end Match
