import Mathlib.Data.Nat.Count

/-!
# Packed arrays

Entries with an index below `N` are stored only where a bitmap `p` says so, one after the other;
the entries from `N` on follow, all of them.

Results:
1. `slot_lt`, `slot_inj`: every stored entry has a slot of its own inside the array.
2. `read_set`, `read_insert`: storing into a slot, and making a slot, change one entry.
3. `expand_eq`: copying the array while a slot is left out inserts it.
4. `map_filter_rank`: the stored entries in order.
5. `read_pack`: packing a list of entries and reading them back.
-/

namespace Packed

variable {α : Type*}

/-- How many entries below `i` are stored. -/
def rank (p : Nat → Bool) (i : Nat) : Nat := Nat.count (fun j => p j = true) i

/-- The slot of an entry, if it is stored. -/
def slot (p : Nat → Bool) (N i : Nat) : Option Nat :=
  if i < N then if p i then some (rank p i) else none else some (rank p N + (i - N))

/-- The length of an array for `len` entries. -/
def size (p : Nat → Bool) (N len : Nat) : Nat := rank p N + (len - N)

/-- The entry with an index; `dflt` stands for the ones that are not stored. -/
def read (p : Nat → Bool) (N : Nat) (dflt : α) (a : List α) (i : Nat) : Option α :=
  match slot p N i with
  | none => some dflt
  | some k => a[k]?

/-- The bitmap with one more entry. -/
def insert (p : Nat → Bool) (idx : Nat) : Nat → Bool := Function.update p idx true

section Slots

variable {p q : Nat → Bool} {N len i j k : Nat}

@[simp] theorem rank_zero : rank p 0 = 0 := Nat.count_zero _

theorem rank_succ (p : Nat → Bool) (i : Nat) : rank p (i + 1) = rank p i + (if p i then 1 else 0) :=
  Nat.count_succ _ i

theorem rank_mono (h : i ≤ j) : rank p i ≤ rank p j := Nat.count_monotone _ h

theorem rank_lt (hp : p i = true) (h : i < j) : rank p i < rank p j := by
  have hsucc := rank_succ p i
  have hle : rank p (i + 1) ≤ rank p j := rank_mono h
  simp only [hp, if_true] at hsucc
  omega

theorem rank_congr (h : ∀ j, j < i → p j = q j) : rank p i = rank q i := by
  induction i with
  | zero => simp
  | succ i ih => rw [rank_succ, rank_succ, ih fun j hj => h j (by omega), h i (Nat.lt_succ_self i)]

theorem slot_lt (h : slot p N i = some k) (hi : i < len) : k < size p N len := by
  rw [slot] at h
  split at h
  · next hN =>
    split at h
    · next hp =>
      cases h
      exact Nat.lt_of_lt_of_le (rank_lt hp hN) (Nat.le_add_right _ _)
    · cases h
  · cases h
    rw [size]
    omega

theorem slot_inj (hi : slot p N i = some k) (hj : slot p N j = some k) : i = j := by
  rw [slot] at hi hj
  split at hi <;> split at hj
  · next hiN hjN =>
    split at hi <;> split at hj <;> first | cases hi; done | cases hj; done | skip
    next hpi hpj =>
    cases hi
    have hrank : rank p j = rank p i := Option.some.inj hj
    rcases Nat.lt_trichotomy i j with h | h | h
    · exact absurd hrank (Nat.ne_of_gt (rank_lt hpi h))
    · exact h
    · exact absurd hrank (Nat.ne_of_lt (rank_lt hpj h))
  · next hiN hjN =>
    split at hi
    · next hpi =>
      cases hi
      have hlt := rank_lt hpi hiN
      simp only [Option.some.injEq] at hj
      omega
    · cases hi
  · next hiN hjN =>
    split at hj
    · next hpj =>
      cases hj
      have hlt := rank_lt hpj hjN
      simp only [Option.some.injEq] at hi
      omega
    · cases hj
  · cases hi
    simp only [Option.some.injEq] at hj
    omega

/-- Storing into a slot changes its entry only. -/
theorem read_set {a : List α} {dflt v : α} (hk : slot p N i = some k)
    (hlt : k < a.length) (j : Nat) :
    read p N dflt (a.set k v) j = if j = i then some v else read p N dflt a j := by
  by_cases h : j = i
  · subst h
    rw [if_pos rfl, read, hk]
    simp [hlt]
  · rw [if_neg h, read, read]
    cases hj : slot p N j with
    | none => rfl
    | some k' =>
      have hne : k ≠ k' := by
        rintro rfl
        exact h (slot_inj hj hk)
      exact List.getElem?_set_ne hne

theorem rank_insert_le {idx : Nat} (h : i ≤ idx) : rank (insert p idx) i = rank p i :=
  rank_congr fun j hj => Function.update_of_ne (by omega) _ _

theorem rank_insert_gt {idx : Nat} (hp : p idx = false) (h : idx < i) :
    rank (insert p idx) i = rank p i + 1 := by
  induction i with
  | zero => cases h
  | succ i ih =>
    rw [rank_succ, rank_succ]
    rcases Nat.lt_succ_iff_lt_or_eq.mp h with h | rfl
    · have hne : insert p idx i = p i := Function.update_of_ne (by omega) _ _
      rw [ih h, hne]
      omega
    · have hself : insert p idx idx = true := by simp [insert]
      rw [rank_insert_le (Nat.le_refl _), hself, hp]
      simp

theorem size_insert {idx : Nat} (hp : p idx = false) (h : idx < N) :
    size (insert p idx) N len = size p N len + 1 := by
  rw [size, size, rank_insert_gt hp h]
  omega

/-- A new slot shifts the ones behind it. -/
theorem slot_insert {idx : Nat} (hp : p idx = false) (hN : idx < N) (j : Nat) :
    slot (insert p idx) N j = if j = idx then some (rank p idx) else
      (slot p N j).map fun k => if k < rank p idx then k else k + 1 := by
  rcases Nat.lt_trichotomy j idx with h | rfl | h
  · have hj : insert p idx j = p j := Function.update_of_ne (by omega) _ _
    have hjN : j < N := Nat.lt_trans h hN
    simp only [slot, hjN, hj, rank_insert_le (Nat.le_of_lt h), Nat.ne_of_lt h, if_true, if_false]
    split
    · next hpj => simp [rank_lt hpj h]
    · rfl
  · have hj : insert p j j = true := by simp [insert]
    rw [if_pos rfl, slot, if_pos hN, hj, rank_insert_le (Nat.le_refl _), if_pos rfl]
  · have hj : insert p idx j = p j := Function.update_of_ne (by omega) _ _
    have hle : rank p idx ≤ rank p j := rank_mono (Nat.le_of_lt h)
    rw [if_neg (by omega), slot, slot]
    split
    · rw [hj, rank_insert_gt hp h]
      split
      · have hnlt : ¬ rank p j < rank p idx := by omega
        simp [hnlt]
      · rfl
    · have hmono : rank p idx ≤ rank p N := rank_mono (Nat.le_of_lt hN)
      have hnlt : ¬ rank p N + (j - N) < rank p idx := by omega
      simp only [rank_insert_gt hp hN, Option.map_some, hnlt, if_false, Option.some.injEq]
      omega

/-- Making a slot for an entry changes that entry only. -/
theorem read_insert {a : List α} {dflt v : α} {idx : Nat} (hp : p idx = false) (hN : idx < N)
    (hlen : rank p idx ≤ a.length)
    (j : Nat) : read (insert p idx) N dflt (a.insertIdx (rank p idx) v) j =
      if j = idx then some v else read p N dflt a j := by
  rw [read, slot_insert hp hN]
  by_cases h : j = idx
  · simp [h, List.getElem?_insertIdx, hlen]
  · rw [if_neg h, if_neg h, read]
    cases slot p N j with
    | none => rfl
    | some k =>
      simp only [Option.map_some, List.getElem?_insertIdx]
      by_cases hk : k < rank p idx
      · simp [hk]
      · have h1 : ¬ k + 1 < rank p idx := by omega
        have h2 : k + 1 ≠ rank p idx := by omega
        simp [hk, h1, h2]

end Slots

/-- The entries that are stored, in order, are the array. -/
theorem map_filter_rank {p : Nat → Bool} {a : List α} {d : α} {n : Nat} (h : rank p n ≤ a.length) :
    ((List.range n).filter p).map (fun i => a.getD (rank p i) d) = a.take (rank p n) := by
  induction n with
  | zero => simp
  | succ n ih =>
    have hsucc := rank_succ p n
    rw [List.range_succ, List.filter_append, List.map_append, ih (by omega)]
    cases hp : p n with
    | false =>
      rw [hp, if_neg Bool.false_ne_true, Nat.add_zero] at hsucc
      simp [hp, hsucc]
    | true =>
      rw [hp, if_pos rfl] at hsucc
      have hlt : rank p n < a.length := by omega
      rw [hsucc, List.take_add_one, List.getElem?_eq_getElem hlt]
      simp [hp, List.getD_eq_getElem?_getD, hlt]

/-- Only the bits below `N` matter. -/
theorem read_congr {p q : Nat → Bool} {N : Nat} (h : ∀ j < N, p j = q j) (dflt : α)
    (a : List α) (i : Nat) :
    read p N dflt a i = read q N dflt a i := by
  have hslot : slot p N i = slot q N i := by
    rw [slot, slot, rank_congr h]
    split
    · next hi => rw [h i hi, rank_congr fun j hj => h j (by omega)]
    · rfl
  rw [read, read, hslot]

/-! ## Re-packing -/

/-- Copy the stored entries from index `i` on, `n` of them by the bitmap and then the rest; a place
with `v` is made for the entry `idx`. -/
def expand (p : Nat → Bool) (idx : Nat) (v : α) : Nat → Nat → List α → Option (List α)
  | 0, _, old => some old
  | n + 1, i, old =>
    if p i then
      if i = idx then (expand p idx v n (i + 1) old).map (v :: ·)
      else
        match old with
        | [] => none
        | x :: old => (expand p idx v n (i + 1) old).map (x :: ·)
    else expand p idx v n (i + 1) old

section Expand

variable {p : Nat → Bool} {idx : Nat} {v : α}

theorem expand_succ (n i : Nat) (old : List α) : expand p idx v (n + 1) i old =
    if p i then
      if i = idx then (expand p idx v n (i + 1) old).map (v :: ·)
      else
        match old with
        | [] => none
        | x :: old => (expand p idx v n (i + 1) old).map (x :: ·)
    else expand p idx v n (i + 1) old := rfl

/-- Behind the new entry nothing changes. -/
theorem expand_after {n i : Nat} {old : List α} (hi : idx < i)
    (hlen : rank p (i + n) - rank p i ≤ old.length) :
    expand p idx v n i old = some old := by
  induction n generalizing i old with
  | zero => rfl
  | succ n ih =>
    have hsucc := rank_succ p i
    have hmono : rank p (i + 1) ≤ rank p (i + (n + 1)) := rank_mono (by omega)
    rw [expand_succ, if_neg (show ¬ i = idx by omega)]
    split
    · next hp =>
      simp only [hp, if_true] at hsucc
      cases old with
      | nil => simp only [List.length_nil] at hlen; omega
      | cons x old =>
        dsimp only
        rw [ih (i := i + 1) (by omega)
          (by rw [show i + 1 + n = i + (n + 1) by
            omega]; simp only [List.length_cons] at hlen; omega)]
        rfl
    · next hp =>
      simp only [hp, Bool.false_eq_true, if_false] at hsucc
      exact ih (by omega) (by rw [show i + 1 + n = i + (n + 1) by omega]; omega)

/-- Up to the new entry the array is copied. -/
theorem expand_before {n i : Nat} {old : List α} (hp : p idx = true) (hi : i ≤ idx)
    (hn : idx < i + n)
    (hlen : rank p (i + n) - rank p i ≤ old.length + 1) :
    expand p idx v n i old = some (old.insertIdx (rank p idx - rank p i) v) := by
  induction n generalizing i old with
  | zero => omega
  | succ n ih =>
    have hsucc := rank_succ p i
    have hshift : i + 1 + n = i + (n + 1) := by omega
    have hmono : rank p (i + 1) ≤ rank p (i + (n + 1)) := rank_mono (by omega)
    rw [expand_succ]
    by_cases hidx : i = idx
    · subst hidx
      simp only [hp, if_true] at hsucc ⊢
      have hrest : rank p (i + 1 + n) - rank p (i + 1) ≤ old.length := by
        rw [hshift]
        omega
      rw [expand_after (Nat.lt_succ_self i) hrest, Nat.sub_self]
      rfl
    · have hlt : i < idx := by omega
      rw [if_neg hidx]
      split
      · next hpi =>
        simp only [hpi, if_true] at hsucc
        have hr := rank_lt hpi hlt
        have hr' : rank p idx < rank p (i + (n + 1)) := rank_lt hp hn
        cases old with
        | nil => simp only [List.length_nil] at hlen; omega
        | cons x old =>
          dsimp only
          rw [ih (show i + 1 ≤ idx from hlt) (by omega)
            (by rw [hshift]; simp only [List.length_cons] at hlen; omega),
            show rank p idx - rank p i = (rank p idx - rank p (i + 1)) + 1 by omega]
          rfl
      · next hpi =>
        simp only [hpi, Bool.false_eq_true, if_false] at hsucc
        rw [ih (show i + 1 ≤ idx from hlt) (by omega) (by rw [hshift]; omega), hsucc, Nat.add_zero]

/-- The copy has the new entry in its slot. -/
theorem expand_eq {q : Nat → Bool} {N len : Nat} {old : List α} (hp : q idx = false) (hN : idx < N)
    (hlen : old.length = size q N len) :
    expand (insert q idx) idx v N 0 old = some (old.insertIdx (rank q idx) v) := by
  have hself : insert q idx idx = true := by simp [insert]
  have hsize : rank (insert q idx) N = rank q N + 1 := rank_insert_gt hp hN
  rw [expand_before hself (Nat.zero_le _) (by omega)
    (by rw [Nat.zero_add, hsize, hlen, size]; omega), rank_zero,
    Nat.sub_zero, rank_insert_le (Nat.le_refl _)]

end Expand

/-! ## Packing -/

section Pack

variable [DecidableEq α] {dflt : α} {N : Nat}

/-- The packed array of a list of entries. -/
def pack (dflt : α) (N : Nat) (xs : List α) : List α := (xs.take N).filter (· ≠ dflt) ++ xs.drop N

/-- The bitmap of the entries that are packed. -/
def packed (dflt : α) (xs : List α) (i : Nat) : Bool := decide (xs.getD i dflt ≠ dflt)

theorem filter_take_length (xs : List α) (n : Nat) :
    ((xs.take n).filter (· ≠ dflt)).length = rank (packed dflt xs) n := by
  induction n with
  | zero => simp
  | succ n ih =>
    rw [rank_succ, ← ih, List.take_add_one, List.filter_append, List.length_append, packed,
      List.getD_eq_getElem?_getD]
    cases xs[n]? with
    | none => simp
    | some x => by_cases hx : x = dflt <;> simp [hx]

theorem pack_length (xs : List α) :
    (pack dflt N xs).length = size (packed dflt xs) N xs.length := by
  rw [pack, List.length_append, filter_take_length, List.length_drop, size]

/-- Reading the packed array gives the entries back. -/
theorem read_pack {xs : List α} {i : Nat} (hi : i < xs.length) :
    read (packed dflt xs) N dflt (pack dflt N xs) i = some xs[i] := by
  have hget : xs.getD i dflt = xs[i] := by
    rw [List.getD_eq_getElem?_getD, List.getElem?_eq_getElem hi]; rfl
  rw [read, slot]
  by_cases hN : i < N
  · rw [if_pos hN]
    by_cases hx : xs[i] = dflt
    · rw [if_neg (by rw [packed, hget, hx]; simp)]
      exact congrArg some hx.symm
    · have hp : packed dflt xs i = true := by rw [packed, hget]; simp [hx]
      have hsplit : (xs.take N).filter (· ≠ dflt) =
          (xs.take i).filter (· ≠ dflt) ++ xs[i] ::
            ((xs.take N).drop (i + 1)).filter (· ≠ dflt) := by
        have hiN : i < (xs.take N).length := by rw [List.length_take]; omega
        have hcut : xs.take N = xs.take i ++ xs[i] :: (xs.take N).drop (i + 1) := by
          have := (List.take_append_drop i (xs.take N)).symm
          rwa [List.drop_eq_getElem_cons hiN, List.take_take, Nat.min_eq_left (Nat.le_of_lt hN),
            List.getElem_take] at this
        calc (xs.take N).filter (· ≠ dflt) =
          (xs.take i ++ xs[i] :: (xs.take N).drop (i + 1)).filter (· ≠ dflt) := by rw [← hcut]
          _ = _ := by rw [List.filter_append, List.filter_cons_of_pos (by simpa using hx)]
      have hlen : ((xs.take i).filter (· ≠ dflt)).length = _ := filter_take_length xs i
      rw [if_pos hp, pack, hsplit]
      simp only [List.append_assoc]
      rw [List.getElem?_append_right (Nat.le_of_eq hlen), hlen, Nat.sub_self]
      rfl
  · rw [if_neg hN, pack]
    have hlen : ((xs.take N).filter (· ≠ dflt)).length = _ := filter_take_length xs N
    simp only
    rw [List.getElem?_append_right (by omega), hlen, Nat.add_sub_cancel_left, List.getElem?_drop,
      Nat.add_sub_cancel' (Nat.le_of_not_lt hN), List.getElem?_eq_getElem hi]

end Pack

end Packed
