import Mathlib.Data.List.Basic

/-!
# Tables that grow

An array in memory with room to spare. When it is full its entries are copied into a block of twice
the size, and when little of it is in use, into one of half the size. A result `none` is an access
outside a block, or to an entry that was never written.

Results:
1. `copy_spec`, `shift_spec`: the loops that copy, between two blocks and within one.
2. `Table.push_holds`, `Table.delete_holds`: an entry more at the end, and one less anywhere.
3. `Table.search_eq`: the first entry that passes a test.
-/

namespace Memory

variable {α β : Type*}

/-- A store into a block. -/
def store (block : List β) (k : Nat) (x : β) : Option (List β) :=
  if k < block.length then some (block.set k x) else none

/-- The loop that copies `n` entries of one block into another, in ascending order. -/
def copy (src : List β) (a b : Nat) : Nat → List β → Option (List β)
  | 0, dst => some dst
  | n + 1, dst => do
    let x ← src[a]?
    let dst ← store dst b x
    copy src (a + 1) (b + 1) n dst

/-- The loop that moves the `n` entries behind `k` down by one, in ascending order. -/
def shift (k : Nat) : Nat → List β → Option (List β)
  | 0, block => some block
  | n + 1, block => do
    let x ← block[k + 1]?
    let block ← store block k x
    shift (k + 1) n block

theorem store_eq {block : List β} {k : Nat} (hk : k < block.length) (x : β) :
    store block k x = some (block.set k x) :=
  if_pos hk

theorem copy_spec (src dst : List β) {a b n : Nat} (hsrc : a + n ≤ src.length)
    (hdst : b + n ≤ dst.length) :
    ∃ new, copy src a b n dst = some new ∧ new.length = dst.length ∧
      ∀ i, new[i]? = if b ≤ i ∧ i < b + n then src[a + (i - b)]? else dst[i]? := by
  induction n generalizing dst a b with
  | zero => exact ⟨dst, rfl, rfl, fun i => by rw [if_neg (by omega)]⟩
  | succ n ih =>
    have hlt : a < src.length := by omega
    have hto : b < dst.length := by omega
    obtain ⟨new, hnew, hlen, hget⟩ := ih (dst.set b src[a]) (a := a + 1) (b := b + 1)
      (by omega) (by rw [List.length_set]; omega)
    refine ⟨new, ?_, by rw [hlen, List.length_set], fun i => ?_⟩
    · rw [copy, List.getElem?_eq_getElem hlt]
      show (store dst b src[a]).bind _ = _
      rw [store_eq hto]
      exact hnew
    · rw [hget]
      by_cases hi : i = b
      · subst hi
        rw [if_neg (by omega), if_pos (by omega), List.getElem?_set_self hto,
          Nat.sub_self, Nat.add_zero,
          List.getElem?_eq_getElem hlt]
      · rw [List.getElem?_set_ne (Ne.symm hi)]
        by_cases hin : b + 1 ≤ i ∧ i < b + 1 + n
        · rw [if_pos hin, if_pos (by omega)]
          congr 1
          omega
        · rw [if_neg hin, if_neg (by omega)]

theorem shift_spec (block : List β) {k n : Nat} (hn : k + n < block.length) :
    ∃ new, shift k n block = some new ∧ new.length = block.length ∧
      ∀ i, new[i]? = if k ≤ i ∧ i < k + n then block[i + 1]? else block[i]? := by
  induction n generalizing block k with
  | zero => exact ⟨block, rfl, rfl, fun i => by rw [if_neg (by omega)]⟩
  | succ n ih =>
    have hlt : k + 1 < block.length := by omega
    have hk : k < block.length := by omega
    obtain ⟨new, hnew, hlen, hget⟩ := ih (block.set k block[k + 1]) (k := k + 1)
      (by rw [List.length_set]; omega)
    refine ⟨new, ?_, by rw [hlen, List.length_set], fun i => ?_⟩
    · rw [shift, List.getElem?_eq_getElem hlt]
      show (store block k block[k + 1]).bind _ = _
      rw [store_eq hk]
      exact hnew
    · rw [hget]
      by_cases hi : i = k
      · subst hi
        rw [if_neg (by omega), if_pos (by omega), List.getElem?_set_self hk,
          List.getElem?_eq_getElem hlt]
      · -- the entries behind `k` are still those of the block
        by_cases hin : k + 1 ≤ i ∧ i < k + 1 + n
        · rw [if_pos hin, if_pos (by omega), List.getElem?_set_ne (by omega)]
        · rw [if_neg hin, if_neg (by omega), List.getElem?_set_ne (Ne.symm hi)]

/-- A block, of whose entries the first `length` are in use. An entry that was never written is
`none`. -/
structure Table (α : Type*) where
  block : List (Option α)
  length : Nat

namespace Table

/-- The entries move into a block of twice the size. -/
def grow (t : Table α) : Option (Table α) :=
  let size := if t.block.length = 0 then 8 else 2 * t.block.length
  (copy t.block 0 0 t.block.length (List.replicate size none)).map fun block => { t with block }

/-- An entry more at the end. -/
def push (t : Table α) (x : α) : Option (Table α) :=
  (if t.length = t.block.length then t.grow else some t).bind fun t =>
    (store t.block t.length (some x)).map fun block => ⟨block, t.length + 1⟩

/-- An entry less; if little of the block is in use the others move into one of half the size. -/
def delete (t : Table α) (i : Nat) : Option (Table α) :=
  let max := t.block.length
  let rest := t.length - (i + 1)
  (if max > 8 ∧ t.length ≤ max * 3 / 8 then
    (copy t.block 0 0 i (List.replicate (max / 2) none)).bind fun block =>
      copy t.block (i + 1) i rest block
  else shift i rest t.block).map fun block => ⟨block, t.length - 1⟩

/-- The loop that looks for an entry from `i` on, among so many. -/
def searchFrom (test : α → Bool) (t : Table α) : Nat → Nat → Option (Option Nat)
  | 0, _ => some none
  | n + 1, i =>
    t.block[i]?.join.bind fun x => if test x then some (some i) else searchFrom test t n (i + 1)

def search (test : α → Bool) (t : Table α) : Option (Option Nat) := searchFrom test t t.length 0

/-- The entries in use are those of a list. -/
structure Holds (t : Table α) (l : List α) : Prop where
  length : t.length = l.length
  entry : ∀ (i : Nat) (x : α), l[i]? = some x → t.block[i]? = some (some x)

variable {t : Table α} {l : List α}

theorem Holds.room (h : t.Holds l) : l.length ≤ t.block.length := by
  rcases Nat.eq_zero_or_pos l.length with hzero | hpos
  · omega
  · have hlast := h.entry (l.length - 1) _ (List.getElem?_eq_getElem (by omega))
    have := (List.getElem?_eq_some_iff.mp hlast).1
    omega

/-- Growing keeps the entries and makes room for one more. -/
theorem Holds.grow (h : t.Holds l) (hfull : t.length = t.block.length) :
    ∃ t', t.grow = some t' ∧ t'.Holds l ∧ t'.length < t'.block.length := by
  set size := if t.block.length = 0 then 8 else 2 * t.block.length with hsize
  have hroom : t.block.length < size := by
    rw [hsize]
    split <;> omega
  obtain ⟨block, hcopy, hlen, hget⟩ :=
    copy_spec t.block (List.replicate size none) (a := 0) (b := 0)
    (n := t.block.length) (by omega) (by rw [List.length_replicate]; omega)
  refine ⟨{ t with block }, by rw [Table.grow, hcopy]; rfl, ⟨h.length, fun i x hx => ?_⟩, ?_⟩
  · have hentry := h.entry i x hx
    have hi := (List.getElem?_eq_some_iff.mp hentry).1
    show block[i]? = _
    rw [hget, if_pos (by omega), Nat.sub_zero, Nat.zero_add, hentry]
  · show t.length < block.length
    rw [hlen, List.length_replicate]
    omega

theorem push_holds (h : t.Holds l) (x : α) : ∃ t', t.push x = some t' ∧ t'.Holds (l ++ [x]) := by
  have hgrown : ∃ t₁, (if t.length = t.block.length then t.grow else some t) =
      some t₁ ∧ t₁.Holds l ∧
      t₁.length < t₁.block.length := by
    have hroom := h.room
    have hlength := h.length
    split
    · next hfull => exact h.grow hfull
    · next hfull => exact ⟨t, rfl, h, by omega⟩
  obtain ⟨t₁, ht₁, h₁, hlt⟩ := hgrown
  refine ⟨⟨t₁.block.set t₁.length (some x), t₁.length + 1⟩, ?_, ?_, fun i y hy => ?_⟩
  · rw [push, ht₁, Option.bind_some, store_eq hlt]
    rfl
  · rw [List.length_append, ← h₁.length]
    rfl
  · show (t₁.block.set t₁.length (some x))[i]? = _
    by_cases hi : i = t₁.length
    · subst hi
      rw [h₁.length, List.getElem?_append_right (Nat.le_refl _), Nat.sub_self] at hy
      rw [List.getElem?_set_self hlt, ← hy]
      rfl
    · have hlast : i < l.length := by
        have hbound := (List.getElem?_eq_some_iff.mp hy).1
        rw [List.length_append, List.length_singleton] at hbound
        have := h₁.length
        omega
      rw [List.getElem?_append_left hlast] at hy
      rw [List.getElem?_set_ne (Ne.symm hi), h₁.entry i y hy]

theorem delete_holds (h : t.Holds l) {i : Nat} (hi : i < l.length) :
    ∃ t', t.delete i = some t' ∧ t'.Holds (l.eraseIdx i) := by
  have hroom := h.room
  have hlength := h.length
  have hholds : ∀ block : List (Option α), (∀ j, j < l.length - 1 →
    block[j]? = if j < i then t.block[j]? else t.block[j + 1]?) →
      Holds ⟨block, t.length - 1⟩ (l.eraseIdx i) := by
    intro block hblock
    refine ⟨by rw [List.length_eraseIdx_of_lt hi, ← hlength], fun j x hx => ?_⟩
    have hj := (List.getElem?_eq_some_iff.mp hx).1
    rw [List.length_eraseIdx_of_lt hi] at hj
    rw [List.getElem?_eraseIdx] at hx
    show block[j]? = _
    rw [hblock j hj]
    by_cases hji : j < i
    · rw [if_pos hji] at hx ⊢
      exact h.entry j x hx
    · rw [if_neg hji] at hx ⊢
      exact h.entry (j + 1) x hx
  rw [delete]
  by_cases hmax : t.block.length > 8 ∧ t.length ≤ t.block.length * 3 / 8
  · obtain ⟨b₁, hb₁, hlen₁, hget₁⟩ :=
      copy_spec t.block (List.replicate (t.block.length / 2) none) (a := 0)
      (b := 0) (n := i) (by omega) (by rw [List.length_replicate]; omega)
    rw [List.length_replicate] at hlen₁
    obtain ⟨b₂, hb₂, -, hget₂⟩ := copy_spec t.block b₁ (a := i + 1) (b := i)
      (n := t.length - (i + 1)) (by omega) (by omega)
    refine ⟨⟨b₂, t.length - 1⟩, ?_, hholds b₂ fun j hj => ?_⟩
    · rw [if_pos hmax, hb₁, Option.bind_some, hb₂]
      rfl
    · rw [hget₂]
      by_cases hji : j < i
      · rw [if_neg (by omega), hget₁, if_pos (by omega), if_pos hji, Nat.sub_zero, Nat.zero_add]
      · rw [if_pos (by omega), if_neg hji]
        congr 1
        omega
  · obtain ⟨b, hb, -, hget⟩ := shift_spec t.block (k := i) (n := t.length - (i + 1)) (by omega)
    refine ⟨⟨b, t.length - 1⟩, ?_, hholds b fun j hj => ?_⟩
    · rw [if_neg hmax, hb]
      rfl
    · rw [hget]
      by_cases hji : j < i
      · rw [if_neg (by omega), if_pos hji]
      · rw [if_pos (by omega), if_neg hji]

/-- A table that is full grows, and one of which less than three eighths are in use shrinks. -/
example : ((⟨List.replicate 8 (some 1), 8⟩ : Table Nat).push 2).map (fun t =>
    (t.block.length, t.length)) = some (16, 9) ∧
    ((⟨List.replicate 16 (some 1), 6⟩ : Table Nat).delete 2).map (fun t =>
      (t.block.length, t.length)) = some (8, 5) := by
  decide

theorem search_eq (h : t.Holds l) (test : α → Bool) : t.search test = some (l.findIdx? test) := by
  have hfrom : ∀ n i, i + n = l.length → searchFrom test t n i =
      some (((l.drop i).findIdx? test).map (· + i)) := by
    intro n
    induction n with
    | zero =>
      intro i hi
      rw [List.drop_of_length_le (by omega)]
      rfl
    | succ n ih =>
      intro i hi
      have hlt : i < l.length := by omega
      have hentry := h.entry i _ (List.getElem?_eq_getElem hlt)
      rw [searchFrom, hentry, List.drop_eq_getElem_cons hlt, List.findIdx?_cons]
      show (if test l[i] then _ else _) = _
      cases htest : test l[i] with
      | true => simp
      | false =>
        simp only [Bool.false_eq_true, if_false, ih (i + 1) (by omega), Option.map_map]
        refine congrArg some (congrFun (congrArg _ (funext fun k => ?_)) _)
        show k + (i + 1) = k + 1 + i
        omega
  rw [search, hfrom t.length 0 (by rw [h.length, Nat.zero_add]), List.drop_zero]
  cases l.findIdx? test <;> rfl

end Table

end Memory
