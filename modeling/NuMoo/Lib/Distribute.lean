import Mathlib.Data.List.Basic
import Mathlib.Order.Basic
import Mathlib.Tactic.Common

/-!
# Dividing a list among receivers

Each receiver takes one element, at most one, or any number of them, in order. Those that take at
most one are served from the left, and before anyone takes more.

Results:
1. `Splits`: what such a division is.
2. `distribute_splits`: a single pass that counts how many optional elements are left makes one.
3. `Splits.filled`: with an element for each receiver everyone who takes at most one is served.
-/

namespace NuMoo.Distribute

/-- How many elements a receiver takes. -/
inductive Arity where
  | one | opt | many
deriving DecidableEq, Repr

variable {α : Type*}

/-- A division of a list: in order the parts are the list, and the optional elements go to the
leftmost receivers. -/
structure Splits (arities : List Arity) (l : List α) (parts : List (List α)) : Prop where
  length : parts.length = arities.length
  flatten : parts.flatten = l
  one : ∀ x ∈ arities.zip parts, x.1 = .one → x.2.length = 1
  opt : ∀ x ∈ arities.zip parts, x.1 = .opt → x.2.length ≤ 1
  leftmost : (arities.zip parts).Pairwise fun x y => x.1 = .opt → y.1 = .opt → x.2 = [] → y.2 = []
  many : ∀ x ∈ arities.zip parts, x.1 = .many → x.2 ≠ [] →
    ∀ y ∈ arities.zip parts, y.1 = .opt → y.2 ≠ []

/-- One pass over the receivers: `avail` optional elements are left, and `spare` is what a receiver
of many takes. -/
def distribute : List Arity → (avail spare : Nat) → List α → List (List α)
  | [], _, _, _ => []
  | .one :: arities, avail, spare, l => l.take 1 :: distribute arities avail spare (l.drop 1)
  | .opt :: arities, 0, spare, l => [] :: distribute arities 0 spare l
  | .opt :: arities, avail + 1, spare, l => l.take 1 :: distribute arities avail spare (l.drop 1)
  | .many :: arities, avail, spare, l =>
    l.take spare :: distribute arities avail spare (l.drop spare)

/-- The number of elements that the pass hands out. -/
def need : List Arity → (avail spare : Nat) → Nat
  | [], _, _ => 0
  | .one :: arities, avail, spare => 1 + need arities avail spare
  | .opt :: arities, 0, spare => need arities 0 spare
  | .opt :: arities, avail + 1, spare => 1 + need arities avail spare
  | .many :: arities, avail, spare => spare + need arities avail spare

variable {arities : List Arity} {avail spare : Nat} {l : List α}

theorem need_eq (arities : List Arity) (avail spare : Nat) :
    need arities avail spare = arities.count .one + min avail (arities.count .opt) +
      arities.count .many * spare := by
  induction arities generalizing avail with
  | nil => simp [need]
  | cons a arities ih =>
    cases a with
    | one =>
      simp [need, ih]
      omega
    | opt =>
      cases avail with
      | zero => simp [need, ih]
      | succ avail =>
        simp [need, ih, Nat.succ_min_succ]
        omega
    | many =>
      simp [need, ih, Nat.add_mul]
      omega

/-- The receivers by what they take. -/
theorem length_eq_count (arities : List Arity) :
    arities.length = arities.count .one + arities.count .opt + arities.count .many := by
  induction arities with
  | nil => rfl
  | cons a arities ih =>
    cases a with
    | many => simp [ih, Nat.add_assoc]
    | _ =>
      simp [ih]
      omega

/-- The spare elements of a list that is divided. -/
def spareOf (arities : List Arity) (n : Nat) : Nat :=
  if .many ∈ arities ∧ arities.length ≤ n then n - arities.length + 1 else 0

/-- The whole list is handed out. -/
theorem need_of_length {n : Nat} (hone : arities.count .one ≤ n) (hmany : arities.count .many ≤ 1)
    (hlen : .many ∈ arities ∨ n ≤ arities.length) (hspare : .many ∈ arities →
      spare = spareOf arities n) :
    need arities (n - arities.count .one) spare = n := by
  have hcount := length_eq_count arities
  rw [need_eq]
  by_cases hmem : Arity.many ∈ arities
  · rw [hspare hmem, spareOf]
    have hpos := List.count_pos_iff.mpr hmem
    have hcount₁ : arities.count .many = 1 := Nat.le_antisymm hmany hpos
    rw [hcount₁, Nat.one_mul]
    split
    · next h =>
      rw [Nat.min_eq_right (by omega)]
      omega
    · next h =>
      have hlt : n < arities.length := Nat.lt_of_not_le fun hle => h ⟨hmem, hle⟩
      rw [Nat.min_eq_left (by omega)]
      omega
  · have hzero : arities.count .many = 0 := List.count_eq_zero.mpr hmem
    have hle := hlen.resolve_left hmem
    rw [hzero, Nat.zero_mul, Nat.add_zero, Nat.min_eq_left (by omega)]
    omega

theorem length_distribute : (distribute arities avail spare l).length = arities.length := by
  induction arities generalizing avail l with
  | nil => rfl
  | cons a arities ih =>
    cases a with
    | opt => cases avail <;> simp [distribute, ih]
    | _ => simp [distribute, ih]

/-- The parts are the list, by induction on the receivers. -/
theorem flatten_distribute (h : l.length = need arities avail spare) :
    (distribute arities avail spare l).flatten = l := by
  induction arities generalizing avail l with
  | nil => exact (List.eq_nil_of_length_eq_zero h).symm
  | cons a arities ih =>
    have hrest : ∀ {avail n}, l.length = n + need arities avail spare →
        (l.take n :: distribute arities avail spare (l.drop n)).flatten = l := by
      intro avail n h
      rw [List.flatten_cons, ih (by rw [List.length_drop, h, Nat.add_sub_cancel_left]),
        List.take_append_drop]
    cases a with
    | one => exact hrest h
    | opt =>
      cases avail with
      | zero => exact ih h
      | succ avail => exact hrest h
    | many => exact hrest h

/-! ## Who is served -/

/-- A property of the receivers with their parts, one by one. -/
theorem forall_zip_distribute {P : Arity → List α → Prop}
    (one : ∀ l : List α, 1 ≤ l.length → P .one (l.take 1)) (none : P .opt [])
    (some : ∀ l : List α, 1 ≤ l.length → P .opt (l.take 1))
    (many : ∀ l : List α, P .many (l.take spare))
    (h : l.length = need arities avail spare) :
    ∀ x ∈ arities.zip (distribute arities avail spare l), P x.1 x.2 := by
  induction arities generalizing avail l with
  | nil =>
    intro x hx
    cases hx
  | cons a arities ih =>
    have hrest : ∀ {avail n}, l.length = n + need arities avail spare → P a (l.take n) →
        ∀ x ∈ (a, l.take n) :: arities.zip (distribute arities avail spare (l.drop n)),
        P x.1 x.2 := by
      intro avail n h hp x hx
      rcases List.mem_cons.mp hx with rfl | hx
      · exact hp
      · exact ih (by rw [List.length_drop, h, Nat.add_sub_cancel_left]) x hx
    cases a with
    | one => exact hrest h (one l (by rw [h, need]; exact Nat.le_add_right _ _))
    | opt =>
      cases avail with
      | zero =>
        intro x hx
        rcases List.mem_cons.mp hx with rfl | hx
        · exact none
        · exact ih h x hx
      | succ avail => exact hrest h (some l (by rw [h, need]; exact Nat.le_add_right _ _))
    | many => exact hrest h (many l)

/-- With no optional element left, the later receivers of at most one take none. -/
theorem opt_of_avail_zero :
    ∀ x ∈ arities.zip (distribute arities 0 spare l), x.1 = .opt → x.2 = [] := by
  induction arities generalizing l with
  | nil =>
    intro x hx
    cases hx
  | cons a arities ih =>
    intro x hx hopt
    cases a with
    | opt =>
      rcases List.mem_cons.mp hx with rfl | hx
      · rfl
      · exact ih x hx hopt
    | _ =>
      rcases List.mem_cons.mp hx with rfl | hx
      · cases hopt
      · exact ih x hx hopt

theorem leftmost_distribute (h : l.length = need arities avail spare) :
    (arities.zip (distribute arities avail spare l)).Pairwise fun x y => x.1 = .opt → y.1 = .opt →
    x.2 = [] → y.2 = [] := by
  induction arities generalizing avail l with
  | nil => exact .nil
  | cons a arities ih =>
    have hih : ∀ {avail n}, l.length = n + need arities avail spare →
        (arities.zip (distribute arities avail spare (l.drop n))).Pairwise
          fun x y => x.1 = .opt → y.1 = .opt → x.2 = [] → y.2 = [] :=
      fun h => ih (by rw [List.length_drop, h, Nat.add_sub_cancel_left])
    cases a with
    | one => exact List.pairwise_cons.mpr ⟨fun y _ hopt => (nomatch hopt), hih h⟩
    | opt =>
      cases avail with
      | zero =>
        exact List.pairwise_cons.mpr ⟨fun y hy _ hopt _ => opt_of_avail_zero y hy hopt, ih h⟩
      | succ avail =>
        refine List.pairwise_cons.mpr ⟨fun y _ _ _ hnil => ?_, hih h⟩
        have hlen : 1 ≤ l.length := by
          rw [h, need]
          exact Nat.le_add_right _ _
        have hnil' : l.take 1 = [] := hnil
        rw [List.take_eq_nil_iff] at hnil'
        rcases hnil' with hone | rfl
        · cases hone
        · cases hlen
    | many => exact List.pairwise_cons.mpr ⟨fun y _ hopt => (nomatch hopt), hih h⟩

/-- With enough optional elements, every receiver of at most one takes one. -/
theorem opt_of_avail (h : l.length = need arities avail spare)
    (havail : arities.count .opt ≤ avail) :
    ∀ x ∈ arities.zip (distribute arities avail spare l), x.1 = .opt → x.2 ≠ [] := by
  induction arities generalizing avail l with
  | nil =>
    intro x hx
    cases hx
  | cons a arities ih =>
    intro x hx hopt
    have hih : ∀ {avail n}, l.length = n + need arities avail spare → arities.count .opt ≤ avail →
        x ∈ arities.zip (distribute arities avail spare (l.drop n)) → x.2 ≠ [] :=
      fun h havail hx => ih (by rw [List.length_drop, h, Nat.add_sub_cancel_left]) havail x hx hopt
    cases a with
    | opt =>
      rw [List.count_cons_self] at havail
      cases avail with
      | zero => exact absurd havail (Nat.not_succ_le_zero _)
      | succ avail =>
        rcases List.mem_cons.mp hx with rfl | hx
        · have hlen : 1 ≤ l.length := by
            rw [h, need]
            exact Nat.le_add_right _ _
          exact List.ne_nil_of_length_pos
            (by rw [List.length_take, Nat.min_eq_left hlen]; exact Nat.one_pos)
        · exact hih h (Nat.le_of_succ_le_succ havail) hx
    | one =>
      rw [List.count_cons_of_ne (by decide)] at havail
      rcases List.mem_cons.mp hx with rfl | hx
      · cases hopt
      · exact hih h havail hx
    | many =>
      rw [List.count_cons_of_ne (by decide)] at havail
      rcases List.mem_cons.mp hx with rfl | hx
      · cases hopt
      · exact hih h havail hx

/-- A receiver of many is given something only if all others have been served. -/
theorem count_opt_le {n : Nat} (hmany : arities.count .many ≤ 1) (hmem : .many ∈ arities)
    (hspare : spare = spareOf arities n)
    (hpos : spare ≠ 0) : arities.count .opt ≤ n - arities.count .one := by
  have hle : arities.length ≤ n := by
    unfold spareOf at hspare
    split at hspare
    · next h => exact h.2
    · exact absurd hspare hpos
  have hone := List.count_pos_iff.mpr hmem
  have hcount := length_eq_count arities
  omega

/-- The pass divides the list. -/
theorem distribute_splits {n : Nat} (hn : l.length = n) (hone : arities.count .one ≤ n)
    (hmany : arities.count .many ≤ 1)
    (hlen : .many ∈ arities ∨ n ≤ arities.length) (hspare : .many ∈ arities →
      spare = spareOf arities n) :
    Splits arities l (distribute arities (n - arities.count .one) spare l) := by
  have hneed := hn.trans (need_of_length hone hmany hlen hspare).symm
  refine ⟨length_distribute, flatten_distribute hneed, ?_, ?_, leftmost_distribute hneed, ?_⟩
  · refine forall_zip_distribute (P := fun a part => a = .one → part.length = 1) ?_ ?_ ?_ ?_ hneed
    · intro l hl _
      rw [List.length_take, Nat.min_eq_left hl]
    · exact nofun
    · exact fun _ _ => nofun
    · exact fun _ => nofun
  · refine forall_zip_distribute (P := fun a part => a = .opt → part.length ≤ 1) ?_ ?_ ?_ ?_ hneed
    · exact fun _ _ => nofun
    · exact fun _ => Nat.zero_le 1
    · intro l _ _
      rw [List.length_take]
      exact Nat.min_le_left _ _
    · exact fun _ => nofun
  · intro x hx hx₁ hne
    have hmem : Arity.many ∈ arities := hx₁ ▸ (List.of_mem_zip hx).1
    have hpos : spare ≠ 0 := by
      refine forall_zip_distribute (P := fun a part => a = .many → part ≠ [] →
        spare ≠ 0) ?_ ?_ ?_ ?_ hneed x hx hx₁ hne
      · exact fun _ _ => nofun
      · exact nofun
      · exact fun _ _ => nofun
      · intro l _ hne hzero
        rw [hzero] at hne
        exact hne rfl
    exact opt_of_avail hneed (count_opt_le hmany hmem (hspare hmem) hpos)

/-! ## An element for each -/

theorem length_flatten_le {parts : List (List α)} (h : ∀ part ∈ parts, part.length ≤ 1) :
    parts.flatten.length ≤ parts.length := by
  induction parts with
  | nil => exact Nat.le_refl 0
  | cons part parts ih =>
    obtain ⟨hpart, hrest⟩ := List.forall_mem_cons.mp h
    have hle := ih hrest
    rw [List.flatten_cons, List.length_append, List.length_cons]
    omega

theorem length_flatten_lt {parts : List (List α)} (h : ∀ part ∈ parts, part.length ≤ 1)
    (hnil : [] ∈ parts) :
    parts.flatten.length < parts.length := by
  induction parts with
  | nil => cases hnil
  | cons part parts ih =>
    obtain ⟨hpart, hrest⟩ := List.forall_mem_cons.mp h
    rw [List.flatten_cons, List.length_append, List.length_cons]
    rcases List.mem_cons.mp hnil with rfl | hnil
    · have hle := length_flatten_le hrest
      rw [List.length_nil]
      omega
    · have hlt := ih hrest hnil
      omega

/-- If someone of at most one were not served, those of many would have nothing either, and an
element would be left. -/
theorem Splits.filled {parts : List (List α)} (h : Splits arities l parts)
    (hlen : l.length = arities.length) :
    ∀ x ∈ arities.zip parts, x.1 = .opt → x.2 ≠ [] := by
  intro x hx hopt hnil
  have hone : ∀ y ∈ arities.zip parts, y.2.length ≤ 1 := by
    intro y hy
    cases hy₁ : y.1 with
    | one => exact Nat.le_of_eq (h.one y hy hy₁)
    | opt => exact h.opt y hy hy₁
    | many =>
      have hempty : y.2 = [] := by
        by_contra hne
        exact h.many y hy hy₁ hne x hx hopt hnil
      rw [hempty]
      exact Nat.zero_le 1
  have hparts : (arities.zip parts).map Prod.snd = parts := List.map_snd_zip (Nat.le_of_eq h.length)
  have hsizes : ∀ part ∈ parts, part.length ≤ 1 := by
    rw [← hparts]
    intro part hpart
    obtain ⟨y, hy, rfl⟩ := List.mem_map.mp hpart
    exact hone y hy
  have hlt := length_flatten_lt hsizes (hnil ▸ (List.of_mem_zip hx).2)
  rw [h.flatten, hlen, h.length] at hlt
  exact Nat.lt_irrefl _ hlt

end NuMoo.Distribute
