import Mathlib.Data.List.Basic
import Mathlib.Data.List.Nodup

/-!
# Searching a list and walking it

`seek` looks for the first element that a test accepts. `walk` goes along the same list with
a test of its own and stops early at an element that bars its way.

Results:
1. `seek_eq_some`, `walk_eq_some`: where the two stop.
2. `walk_of_seek`: with one test, the walk stops at a bar above the element that is sought or at
   that element.
3. `walk_congr`, `steady_of_stop`: a walk with a second test stops in view of what the first one
   seeks exactly when the tests agree on all that the walk reaches.
-/

namespace Search

variable {α β : Type*}

/-- The first element that `p` accepts, with its answer. -/
def seek (p : α → Option β) : List α → Option (α × β)
  | [] => none
  | x :: l =>
    match p x with
    | some b => some (x, b)
    | none => seek p l

/-- The first element that bars the walk or that `p` accepts. -/
def walk (bar : α → Bool) (p : α → Option β) : List α → Option (α × Option β)
  | [] => none
  | x :: l =>
    if bar x then some (x, none)
    else
      match p x with
      | some b => some (x, some b)
      | none => walk bar p l

section Stops

variable {bar : α → Bool} {p : α → Option β} {l : List α} {x : α} {b : β}

theorem seek_cons (a : α) : seek p (a :: l) = match p a with
    | some b => some (a, b)
    | none => seek p l := rfl

theorem seek_eq_some : seek p l = some (x, b) ↔
    ∃ above below, l = above ++ x :: below ∧ p x = some b ∧ ∀ y ∈ above, p y = none := by
  induction l with
  | nil => simp [seek]
  | cons a l ih =>
    rw [seek_cons]
    split
    · next c hc =>
      constructor
      · rintro ⟨⟩
        exact ⟨[], l, rfl, hc, by simp⟩
      · rintro ⟨above, below, hl, hx, hn⟩
        cases above with
        | nil =>
          obtain ⟨rfl, rfl⟩ := List.cons.inj hl
          rw [hc] at hx
          cases hx
          rfl
        | cons y above =>
          obtain ⟨rfl, rfl⟩ := List.cons.inj hl
          rw [hn a (List.mem_cons_self ..)] at hc
          cases hc
    · next hc =>
      rw [ih]
      constructor
      · rintro ⟨above, below, rfl, hx, hn⟩
        exact ⟨a :: above, below, rfl, hx, by simpa [hc] using hn⟩
      · rintro ⟨above, below, hl, hx, hn⟩
        cases above with
        | nil =>
          obtain ⟨rfl, rfl⟩ := List.cons.inj hl
          rw [hc] at hx
          cases hx
        | cons y above =>
          obtain ⟨rfl, rfl⟩ := List.cons.inj hl
          exact ⟨above, below, rfl, hx, fun y hy => hn y (List.mem_cons_of_mem _ hy)⟩

theorem seek_eq_none : seek p l = none ↔ ∀ x ∈ l, p x = none := by
  induction l with
  | nil => simp [seek]
  | cons a l ih =>
    rw [seek_cons]
    split
    · next c hc => simp [hc]
    · next hc => simp [hc, ih]

theorem seek_map {γ : Type*} (f : γ → α) (m : List γ) :
    seek p (m.map f) = (seek (p ∘ f) m).map fun r => (f r.1, r.2) := by
  induction m with
  | nil => rfl
  | cons a m ih =>
    rw [List.map_cons, seek_cons, seek_cons, Function.comp_apply]
    split
    · rfl
    · exact ih

theorem seek_append (m : List α) : seek p (l ++ m) = (seek p l).or (seek p m) := by
  induction l with
  | nil => rfl
  | cons a l ih =>
    rw [List.cons_append, seek_cons, seek_cons]
    split
    · rfl
    · exact ih

theorem walk_cons (a : α) : walk bar p (a :: l) =
    if bar a then some (a, none) else match p a with
      | some b => some (a, some b)
      | none => walk bar p l := rfl

theorem walk_append (m : List α) : walk bar p (l ++ m) = (walk bar p l).or (walk bar p m) := by
  induction l with
  | nil => rfl
  | cons a l ih =>
    rw [List.cons_append, walk_cons, walk_cons]
    split
    · rfl
    · split
      · rfl
      · exact ih

/-- What the walk stops at is on the list, and it bars the walk or is accepted. -/
theorem walk_eq_some {r : Option β} (h : walk bar p l = some (x, r)) :
    x ∈ l ∧ ((bar x = true ∧ r = none) ∨ (bar x = false ∧ r = p x ∧ r ≠ none)) := by
  induction l with
  | nil => cases h
  | cons a l ih =>
    rw [walk_cons] at h
    split at h
    · next hb =>
      cases h
      exact ⟨List.mem_cons_self .., .inl ⟨hb, rfl⟩⟩
    · next hb =>
      split at h
      · next c hc =>
        cases h
        exact ⟨List.mem_cons_self .., .inr ⟨by simpa using hb, hc.symm, by simp⟩⟩
      · obtain ⟨hx, hr⟩ := ih h
        exact ⟨List.mem_cons_of_mem _ hx, hr⟩

/-- A walk that accepts nothing stops at a bar. -/
theorem walk_bar {r : Option β} (hp : ∀ x, p x = none) (h : walk bar p l = some (x, r)) :
    bar x = true ∧ r = none := by
  rcases (walk_eq_some h).2 with hr | ⟨-, hr, hne⟩
  · exact hr
  · exact absurd (hr.trans (hp x)) hne

/-- No bar lies before the stop of a walk. -/
theorem walk_split {r : Option β} (h : walk bar p l = some (x, r)) :
    ∃ above below, l = above ++ x :: below ∧ ∀ y ∈ above, bar y = false := by
  induction l with
  | nil => cases h
  | cons a l ih =>
    rw [walk_cons] at h
    split at h
    · cases h
      exact ⟨[], l, rfl, by simp⟩
    · next hb =>
      split at h
      · cases h
        exact ⟨[], l, rfl, by simp⟩
      · obtain ⟨above, below, rfl, hn⟩ := ih h
        exact ⟨a :: above, below, rfl, by simpa [hb] using hn⟩

theorem walk_eq_none (h : walk bar p l = none) : ∀ y ∈ l, bar y = false := by
  induction l with
  | nil => simp
  | cons a l ih =>
    rw [walk_cons] at h
    split at h
    · cases h
    · next hb =>
      split at h
      · cases h
      · simpa [hb] using ih h

/-- The walk stops at a bar before the element that is sought, or there. -/
theorem walk_of_seek {above below : List α} (hx : p x = some b) (hbar : bar x = false)
    (hn : ∀ y ∈ above, p y = none) :
    (∃ y ∈ above, bar y = true ∧ walk bar p (above ++ x :: below) = some (y, none)) ∨
      ((∀ y ∈ above, bar y = false) ∧ walk bar p (above ++ x :: below) = some (x, some b)) := by
  induction above with
  | nil => exact .inr ⟨by simp, by simp [walk, hbar, hx]⟩
  | cons a above ih =>
    have ha : p a = none := hn a (List.mem_cons_self ..)
    cases hb : bar a with
    | true => exact .inl ⟨a, List.mem_cons_self .., hb, by simp [walk, hb]⟩
    | false =>
      have hw : walk bar p (a :: above ++ x :: below) = walk bar p (above ++ x :: below) := by
        simp [walk, hb, ha]
      rw [hw]
      rcases ih fun y hy => hn y (List.mem_cons_of_mem _ hy) with ⟨y, hy, hyb,
        hstop⟩ | ⟨hall, hstop⟩
      · exact .inl ⟨y, List.mem_cons_of_mem _ hy, hyb, hstop⟩
      · exact .inr ⟨by simpa [hb] using hall, hstop⟩

end Stops

section TwoTests

variable (bar : α → Bool) (p q : α → Option β)

/-- The tests agree on what a walk with the first of them reaches and does not stop at as a bar. -/
def Steady : List α → Prop
  | [] => True
  | x :: l => bar x = false → q x = p x ∧ (p x = none → Steady l)

variable {bar p q} {l : List α}

theorem walk_congr (h : Steady bar p q l) : walk bar q l = walk bar p l := by
  induction l with
  | nil => rfl
  | cons a l ih =>
    simp only [walk]
    split
    · rfl
    · next hb =>
      obtain ⟨hq, hl⟩ := h (by simpa using hb)
      rw [hq]
      split
      · rfl
      · next hp => exact ih (hl hp)

theorem steady_of_eq (h : ∀ x ∈ l, q x = p x) : Steady bar p q l := by
  induction l with
  | nil => trivial
  | cons a l ih => exact fun _ =>
    ⟨h a (List.mem_cons_self ..), fun _ => ih fun x hx => h x (List.mem_cons_of_mem _ hx)⟩

/-- On a list without duplicates the tests agree when the walk with the second one stops in view of
what the first one seeks: at a bar above it, or there with its answer. -/
theorem steady_of_stop {above below : List α} {x : α} {b : β} (hnd : l.Nodup)
    (hl : l = above ++ x :: below)
    (hx : p x = some b) (hbar : bar x = false) (hn : ∀ y ∈ above, p y = none)
    (h : (∃ y ∈ above, walk bar q l = some (y, none)) ∨ walk bar q l = some (x, some b)) :
    Steady bar p q l := by
  induction above generalizing l with
  | nil =>
    obtain rfl : l = x :: below := hl
    have hstop : walk bar q (x :: below) = some (x, some b) := by
      rcases h with ⟨y, hy, -⟩ | h
      · cases hy
      · exact h
    intro _
    cases hq : q x with
    | some c =>
      simp only [walk, hbar, hq] at hstop
      cases hstop
      exact ⟨hx.symm, fun h => by rw [hx] at h; cases h⟩
    | none =>
      simp only [walk, hbar, hq] at hstop
      exact absurd (walk_eq_some hstop).1 (List.nodup_cons.mp hnd).1
  | cons a above ih =>
    obtain rfl : l = a :: (above ++ x :: below) := hl
    obtain ⟨ha, hnd⟩ := List.nodup_cons.mp hnd
    have hpa : p a = none := hn a (List.mem_cons_self ..)
    intro hb
    cases hq : q a with
    | some c =>
      simp only [walk, hb, hq] at h
      rcases h with ⟨y, -, hy⟩ | hy
      · cases hy
      · cases hy
        exact absurd (by simp) ha
    | none =>
      refine ⟨hpa.symm, fun _ => ih hnd rfl (fun y hy => hn y (List.mem_cons_of_mem _ hy)) ?_⟩
      simp only [walk, hb, hq] at h
      rcases h with ⟨y, hy, hw⟩ | hw
      · rcases List.mem_cons.mp hy with rfl | hy
        · exact absurd (walk_eq_some hw).1 ha
        · exact .inl ⟨y, hy, hw⟩
      · exact .inr hw

end TwoTests

end Search
