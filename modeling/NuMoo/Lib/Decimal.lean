import Mathlib.Data.Nat.Digits.Lemmas

/-!
# Decimal numbers in a text

Writing an integer in decimal, and reading one from the front of a text the way the C library does:
a sign if there is one, and then digits for as long as there are any.

Results:
1. `value_natText`: the value of the digits of a number.
2. `scan_text`: what was written is read back, and what follows it is left alone.
3. `length_text_le`: how many characters a number takes.
-/

namespace Decimal

/-- `isdigit` -/
def isDigit (c : UInt8) : Bool := 48 ≤ c && c ≤ 57

/-- `isspace` -/
def isSpace (c : UInt8) : Bool := c == 32 || (9 ≤ c && c ≤ 13)

def digitChar (d : Nat) : UInt8 := UInt8.ofNat (48 + d)

/-- A natural number in decimal. -/
def natText (n : Nat) : List UInt8 :=
  if n = 0 then [48] else (Nat.digits 10 n).reverse.map digitChar

/-- An integer in decimal. -/
def text (n : Int) : List UInt8 := if n < 0 then 45 :: natText n.natAbs else natText n.natAbs

/-- The value of some digits. -/
def value (l : List UInt8) : Nat := l.foldl (fun n c => 10 * n + (c.toNat - 48)) 0

/-- The sign at the front of a text. -/
def scanSign : List UInt8 → Bool × List UInt8
  | [] => (false, [])
  | c :: l => if c = 45 then (true, l) else if c = 43 then (false, l) else (false, c :: l)

/-- The number at the front of a text, and what follows it. -/
def scan (l : List UInt8) : Option Int × List UInt8 :=
  let (negative, l) := scanSign l
  let n : Int := value (l.takeWhile isDigit)
  (if l.takeWhile isDigit = [] then none else some (if negative then -n else n),
    l.dropWhile isDigit)

/-- The text does not go on with a digit. -/
def Ends (l : List UInt8) : Prop := ∀ c ∈ l.head?, isDigit c = false

/-! ## Digits -/

theorem digitChar_toNat {d : Nat} (h : d < 10) : (digitChar d).toNat = 48 + d := by
  rw [digitChar, UInt8.toNat_ofNat']
  exact Nat.mod_eq_of_lt (by omega)

theorem isDigit_digitChar {d : Nat} (h : d < 10) : isDigit (digitChar d) = true := by
  rw [isDigit, Bool.and_eq_true, decide_eq_true_eq, decide_eq_true_eq, UInt8.le_iff_toNat_le,
    UInt8.le_iff_toNat_le,
    digitChar_toNat h]
  exact ⟨Nat.le_add_right 48 d, Nat.add_le_add_left (Nat.le_of_lt_succ h) 48⟩

theorem natText_isDigit (n : Nat) : ∀ c ∈ natText n, isDigit c = true := by
  unfold natText
  split
  · simp [isDigit]
  · intro c hc
    obtain ⟨d, hd, rfl⟩ := List.mem_map.mp hc
    exact isDigit_digitChar (Nat.digits_lt_base (by decide) (List.mem_reverse.mp hd))

theorem natText_ne_nil (n : Nat) : natText n ≠ [] := by
  unfold natText
  split
  · exact List.cons_ne_nil _ _
  · next h =>
    rw [Ne, List.map_eq_nil_iff, List.reverse_eq_nil_iff]
    exact Nat.digits_ne_nil_iff_ne_zero.mpr h

theorem value_natText (n : Nat) : value (natText n) = n := by
  unfold natText
  split
  · next h => exact h.symm
  · have key : ∀ ds : List Nat, (∀ d ∈ ds, d < 10) →
        value (ds.reverse.map digitChar) = Nat.ofDigits 10 ds := by
      intro ds
      induction ds with
      | nil => exact fun _ => rfl
      | cons d ds ih =>
        intro h
        have hd := digitChar_toNat (h d List.mem_cons_self)
        have ih := ih fun e he => h e (List.mem_cons_of_mem d he)
        unfold value at ih ⊢
        rw [List.reverse_cons, List.map_append, List.foldl_append, ih, Nat.ofDigits_cons,
          List.map_cons, List.map_nil,
          List.foldl_cons, List.foldl_nil, hd, Nat.add_sub_cancel_left, Nat.add_comm]
    rw [key _ fun d hd => Nat.digits_lt_base (by decide) hd, Nat.ofDigits_digits]

/-! ## Reading a number back -/

theorem isDigit_ne_sign {c : UInt8} (h : isDigit c = true) : c ≠ 45 ∧ c ≠ 43 := by
  constructor <;> rintro rfl <;> exact absurd h (by decide)

theorem isDigit_ne_space {c : UInt8} (h : isDigit c = true) : isSpace c = false := by
  rw [isDigit, Bool.and_eq_true, decide_eq_true_eq, decide_eq_true_eq, UInt8.le_iff_toNat_le,
    UInt8.le_iff_toNat_le] at h
  simp only [UInt8.reduceToNat] at h
  simp only [isSpace, Bool.or_eq_false_iff, beq_eq_false_iff_ne, ne_eq, Bool.and_eq_false_iff,
    decide_eq_false_iff_not,
    UInt8.le_iff_toNat_le, ← UInt8.toNat_inj, UInt8.reduceToNat]
  omega

theorem natText_cons (n : Nat) : ∃ c l, natText n = c :: l ∧ isDigit c = true := by
  obtain ⟨c, l, h⟩ := List.exists_cons_of_ne_nil (natText_ne_nil n)
  exact ⟨c, l, h, natText_isDigit n c (h ▸ List.mem_cons_self)⟩

theorem scanSign_natText (n : Nat) (rest : List UInt8) :
    scanSign (natText n ++ rest) = (false, natText n ++ rest) := by
  obtain ⟨c, l, h, hc⟩ := natText_cons n
  rw [h, List.cons_append, scanSign, if_neg (isDigit_ne_sign hc).1, if_neg (isDigit_ne_sign hc).2]

theorem takeWhile_natText (n : Nat) {rest : List UInt8} (h : Ends rest) :
    (natText n ++ rest).takeWhile isDigit = natText n := by
  rw [List.takeWhile_append_of_pos (natText_isDigit n)]
  cases rest with
  | nil => exact List.append_nil _
  | cons c rest => rw [List.takeWhile_cons_of_neg (by rw [h c rfl]; decide), List.append_nil]

theorem dropWhile_natText (n : Nat) {rest : List UInt8} (h : Ends rest) :
    (natText n ++ rest).dropWhile isDigit = rest := by
  rw [List.dropWhile_append_of_pos (natText_isDigit n)]
  cases rest with
  | nil => rfl
  | cons c rest => exact List.dropWhile_cons_of_neg (by rw [h c rfl]; decide)

theorem scanSign_text (n : Int) (rest : List UInt8) :
    scanSign (text n ++ rest) = (decide (n < 0), natText n.natAbs ++ rest) := by
  unfold text
  split
  · next h => rw [List.cons_append, scanSign, if_pos rfl, decide_eq_true h]
  · next h => rw [scanSign_natText, decide_eq_false h]

/-- A number is read back up to where its digits end. -/
theorem scan_text (n : Int) {rest : List UInt8} (h : Ends rest) :
    scan (text n ++ rest) = (some n, rest) := by
  rw [scan, scanSign_text]
  dsimp only
  rw [takeWhile_natText _ h, dropWhile_natText _ h, value_natText, if_neg (natText_ne_nil _)]
  congr 2
  by_cases hn : n < 0
  · rw [decide_eq_true hn, if_pos rfl]
    omega
  · rw [decide_eq_false hn, if_neg Bool.false_ne_true]
    omega

/-- A number does not start with white space. -/
theorem dropWhile_isSpace_text (n : Int) (rest : List UInt8) :
    (text n ++ rest).dropWhile isSpace = text n ++ rest := by
  unfold text
  split
  · exact List.dropWhile_cons_of_neg (by decide)
  · obtain ⟨c, l, h, hc⟩ := natText_cons n.natAbs
    rw [h, List.cons_append, List.dropWhile_cons_of_neg (by rw [isDigit_ne_space hc]; decide)]

/-! ## How long a number is -/

theorem length_natText_le {n k : Nat} (hk : 0 < k) (h : n < 10 ^ k) : (natText n).length ≤ k := by
  unfold natText
  split
  · exact hk
  · rw [List.length_map, List.length_reverse]
    exact (Nat.digits_length_le_iff (by decide) n).mpr h

theorem length_text_le {n : Int} {k : Nat} (hk : 0 < k) (h : n.natAbs < 10 ^ k) :
    (text n).length ≤ k + 1 := by
  have hl := length_natText_le hk h
  unfold text
  split
  · exact Nat.succ_le_succ hl
  · exact Nat.le_succ_of_le hl

theorem mem_text {n : Int} {c : UInt8} (h : c ∈ text n) : c = 45 ∨ isDigit c = true := by
  unfold text at h
  split at h
  · exact (List.mem_cons.mp h).imp id (natText_isDigit _ c)
  · exact .inr (natText_isDigit _ c h)

end Decimal
