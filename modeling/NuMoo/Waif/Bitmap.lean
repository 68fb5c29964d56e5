import Mathlib.Data.Nat.Bitwise
import Mathlib.Logic.Function.Basic
import NuMoo.Lib.Bits
import NuMoo.Lib.Packed

/-!
# The bitmap of a waif

The words of `map` are of type `unsigned long`, and the macros use 32 bits of each. The shift
`1 << 31` is a negative `int`, so that setting the last bit of a group sets the upper half of its
word as well, and testing it tests that half.

Results:
1. `countSetBits_eq`: `count_set_bits` counts the low half of a word.
2. `mapped_mapProp`: `MAP_PROP` sets the bit that `PROP_MAPPED` tests, and no other.
3. `mapCount_eq`, `partialCount_eq`: the counts over the words are ranks in the bitmap.
-/

namespace NuMoo

open Bits Packed

def WAIF_MAPSZ : Nat := 2

def N_MAPPABLE_PROPS : Nat := WAIF_MAPSZ * 32

/-- `map` of a waif. -/
abbrev PropMap := Fin WAIF_MAPSZ → UInt64

/-- `1 << b`, converted to `unsigned long`. -/
def shiftBit (b : Nat) : UInt64 := ((1 : Int32) <<< Int32.ofNat b).toInt64.toUInt64

/-- `PROP_MAPPED` -/
def propMapped (m : PropMap) (bit : Nat) : Bool :=
  if h : bit / 32 < WAIF_MAPSZ then m ⟨bit / 32, h⟩ &&& shiftBit (bit % 32) != 0 else false

/-- `MAP_PROP` -/
def mapProp (m : PropMap) (bit : Nat) : PropMap :=
  if h : bit / 32 < WAIF_MAPSZ then
    Function.update m ⟨bit / 32, h⟩ (m ⟨bit / 32, h⟩ ||| shiftBit (bit % 32))
  else m

/-- One line of `count_set_bits`. -/
def addPairs (mask : UInt32) (w : Nat) (i : UInt64) : UInt64 :=
  ((i &&& mask.toUInt64) >>> UInt64.ofNat w) + (i &&& (~~~mask).toUInt64)

/-- `count_set_bits` -/
def countSetBits (x : UInt64) : Nat :=
  let i := addPairs 0xAAAAAAAA 1 x
  let i := addPairs 0xCCCCCCCC 2 i
  let i := addPairs 0xF0F0F0F0 4 i
  let i := addPairs 0xFF00FF00 8 i
  let i := addPairs 0xFFFF0000 16 i
  i.toNat

/-- The loop that counts the first `n` words. -/
def countWords (m : PropMap) (n : Nat) : Nat :=
  (((List.finRange WAIF_MAPSZ).take n).map fun j => countSetBits (m j)).sum

/-- The count of a partial word, whose mask is `~0U >> (32 - n)`. -/
def countPartial (x : UInt64) (n : Nat) : Nat :=
  if n ≠ 0 then countSetBits (x &&& ((~~~(0 : UInt32)).toUInt64 >>> UInt64.ofNat (32 - n))) else 0

/-! ## Counting -/

/-- A mask of 32 bits ignores the upper half. -/
theorem land_low {k y m : Nat} (hm : m < 2 ^ k) : y &&& m = y % 2 ^ k &&& m := by
  have hy : y % 2 ^ k < 2 ^ k := Nat.mod_lt _ (Nat.two_pow_pos k)
  have h := land_concat hy hm (y / 2 ^ k) 0
  rw [Nat.mod_add_div, Nat.mul_zero, Nat.add_zero, Nat.and_zero, Nat.mul_zero, Nat.add_zero] at h
  exact h

/-- The number is a row of `len` lanes of `w` bits with sum `s`. -/
def InLanes (w len y s : Nat) : Prop :=
  ∃ ds, ds.length = len ∧ (∀ d ∈ ds, d < 2 ^ w) ∧ ds.sum = s ∧ y = lanes w ds

/-- One line adds the lanes in pairs. -/
theorem addPairs_spec {w n s : Nat} {x : UInt64} (mask : UInt32) (hhi : mask.toNat = hiMask w n)
    (hlo : (~~~mask).toNat = loMask w n) (hw : 0 < w) (hw64 : w < 64)
    (hx : InLanes w (2 * n) (x.toNat % 2 ^ 32) s) :
    InLanes (2 * w) n (addPairs mask w x).toNat s := by
  obtain ⟨ds, hlen, hlt, hsum, hx⟩ := hx
  have h32 : hiMask w n < 2 ^ 32 := hhi ▸ mask.toNat_lt
  have l32 : loMask w n < 2 ^ 32 := hlo ▸ (~~~mask).toNat_lt
  have hmod : w % 2 ^ 64 % 64 = w := by omega
  have hle₁ : x.toNat &&& hiMask w n ≤ hiMask w n := Nat.and_le_right
  have hle₂ : x.toNat &&& loMask w n ≤ loMask w n := Nat.and_le_right
  have hsh : (x.toNat &&& hiMask w n) >>> w ≤ x.toNat &&& hiMask w n := Nat.shiftRight_le _ _
  refine ⟨pairSums ds, pairSums_length hlen, pairSums_lt hw hlt, (pairSums_sum hlen).trans hsum, ?_⟩
  rw [addPairs, UInt64.toNat_add, UInt64.toNat_shiftRight, UInt64.toNat_and, UInt64.toNat_and,
    UInt32.toNat_toUInt64,
    UInt32.toNat_toUInt64, hhi, hlo, UInt64.toNat_ofNat', hmod, Nat.mod_eq_of_lt (by omega),
    land_low h32, land_low l32,
    hx]
  exact mergeLanes_lanes hlen hlt

theorem InLanes.low {w len y s : Nat} (h : InLanes w len y s) (h32 : w * len = 32) :
    InLanes w len (y % 2 ^ 32) s := by
  obtain ⟨ds, rfl, hlt, hsum, rfl⟩ := h
  exact ⟨ds, rfl, hlt, hsum, Nat.mod_eq_of_lt (h32 ▸ lanes_lt hlt)⟩

/-- `count_set_bits` counts the low half of a word. -/
theorem countSetBits_eq (x : UInt64) :
    countSetBits x = Nat.count (fun j => x.toNat.testBit j = true) 32 := by
  have h₀ : InLanes 1 (2 * 16) (x.toNat % 2 ^ 32)
      (Nat.count (fun j => x.toNat.testBit j = true) 32) :=
    ⟨bitList 32 x.toNat, bitList_length 32 _, fun d hd => bitList_lt hd, sum_bitList 32 _,
      (lanes_bitList 32 _).symm⟩
  have h₁ := addPairs_spec 0xAAAAAAAA (by decide) (by decide) (by decide) (by decide) h₀
  have h₂ :=
    addPairs_spec (n := 8) 0xCCCCCCCC (by decide) (by decide) (by decide) (by decide) (h₁.low rfl)
  have h₃ :=
    addPairs_spec (n := 4) 0xF0F0F0F0 (by decide) (by decide) (by decide) (by decide) (h₂.low rfl)
  have h₄ :=
    addPairs_spec (n := 2) 0xFF00FF00 (by decide) (by decide) (by decide) (by decide) (h₃.low rfl)
  have h₅ :=
    addPairs_spec (n := 1) 0xFFFF0000 (by decide) (by decide) (by decide) (by decide) (h₄.low rfl)
  obtain ⟨ds, hlen, -, hsum, hy⟩ := h₅
  obtain ⟨d, rfl⟩ := List.length_eq_one_iff.mp hlen
  rw [← hsum, countSetBits]
  simpa [lanes] using hy

/-! ## Testing and setting bits -/

/-- The upper half of a word repeats the last bit of its group. -/
def WordOk (x : UInt64) : Prop := ∀ j, 31 ≤ j → j < 64 → x.toNat.testBit j = x.toNat.testBit 31

/-- Every word of the map was made by `MAP_PROP`. -/
def MapOk (m : PropMap) : Prop := ∀ j, WordOk (m j)

theorem shiftBit_testBit : ∀ b < 32, ∀ j < 64,
    (shiftBit b).toNat.testBit j = (decide (j = b) || decide (b = 31 ∧ 31 ≤ j)) := by decide +kernel

theorem ne_zero_iff {x : UInt64} : (x != 0) = true ↔ ∃ j < 64, x.toNat.testBit j = true := by
  rw [bne_iff_ne, Ne, ← UInt64.toNat_inj]
  constructor
  · intro h
    obtain ⟨j, hj⟩ := Nat.exists_testBit_of_ne_zero h
    refine ⟨j, ?_, hj⟩
    by_contra hlt
    have hbit : x.toNat.testBit j = false :=
      Nat.testBit_lt_two_pow (Nat.lt_of_lt_of_le x.toNat_lt
        (Nat.pow_le_pow_right (by decide) (Nat.le_of_not_lt hlt)))
    rw [hbit] at hj
    cases hj
  · rintro ⟨j, -, hj⟩ h
    rw [h] at hj
    simp at hj

/-- Testing a bit of a word that is well formed. -/
theorem testBit_of_word {x : UInt64} (hx : WordOk x) {b : Nat} (hb : b < 32) :
    (x &&& shiftBit b != 0) = x.toNat.testBit b := by
  rw [Bool.eq_iff_iff, ne_zero_iff]
  constructor
  · rintro ⟨j, hj, h⟩
    rw [UInt64.toNat_and, Nat.testBit_and, shiftBit_testBit b hb j hj, Bool.and_eq_true,
      Bool.or_eq_true,
      decide_eq_true_eq, decide_eq_true_eq] at h
    obtain ⟨h, rfl | ⟨rfl, h31⟩⟩ := h
    · exact h
    · rwa [hx j h31 hj] at h
  · intro h
    refine ⟨b, by omega, ?_⟩
    rw [UInt64.toNat_and, Nat.testBit_and, shiftBit_testBit b hb b (by omega), h]
    simp

theorem orBit_testBit {x : UInt64} {b j : Nat} (hb : b < 32) (hj : j < 64) :
    (x ||| shiftBit b).toNat.testBit j =
      (x.toNat.testBit j || (decide (j = b) || decide (b = 31 ∧ 31 ≤ j))) := by
  rw [UInt64.toNat_or, Nat.testBit_or, shiftBit_testBit b hb j hj]

theorem WordOk.orBit {x : UInt64} (hx : WordOk x) {b : Nat} (hb : b < 32) :
    WordOk (x ||| shiftBit b) := by
  intro j hj31 hj
  rw [orBit_testBit hb hj, orBit_testBit hb (by decide), hx j hj31 hj]
  by_cases h : b = 31
  · simp [h, hj31]
  · simp [h, show j ≠ b by omega, Ne.symm h]

theorem word_lt {i : Nat} (hi : i < N_MAPPABLE_PROPS) : i / 32 < WAIF_MAPSZ :=
  Nat.div_lt_of_lt_mul (by rwa [Nat.mul_comm])

theorem propMapped_eq {m : PropMap} (hm : MapOk m) {i : Nat} (hi : i < N_MAPPABLE_PROPS) :
    propMapped m i = (m ⟨i / 32, word_lt hi⟩).toNat.testBit (i % 32) := by
  rw [propMapped, dif_pos (word_lt hi), testBit_of_word (hm _) (Nat.mod_lt _ (by decide))]

theorem MapOk.mapProp {m : PropMap} (hm : MapOk m) (i : Nat) : MapOk (mapProp m i) := by
  intro j
  rw [NuMoo.mapProp]
  split
  · next h =>
    by_cases hj : j = ⟨i / 32, h⟩
    · subst hj
      rw [Function.update_self]
      exact (hm _).orBit (Nat.mod_lt _ (by decide))
    · rw [Function.update_of_ne hj]
      exact hm j
  · exact hm j

theorem MapOk.zero : MapOk fun _ => 0 := fun _ j _ _ => by simp

/-- `MAP_PROP` sets one bit. -/
theorem propMapped_mapProp {m : PropMap} (hm : MapOk m) {i j : Nat} (hi : i < N_MAPPABLE_PROPS)
    (hj : j < N_MAPPABLE_PROPS) :
    propMapped (mapProp m i) j = (decide (j = i) || propMapped m j) := by
  rw [propMapped_eq (hm.mapProp i) hj, propMapped_eq hm hj, mapProp, dif_pos (word_lt hi)]
  by_cases hw : j / 32 = i / 32
  · have hfin : (⟨j / 32, word_lt hj⟩ : Fin WAIF_MAPSZ) = ⟨i / 32, word_lt hi⟩ := Fin.ext hw
    have hj32 : j % 32 < 32 := Nat.mod_lt _ (by decide)
    have hi32 : i % 32 < 32 := Nat.mod_lt _ (by decide)
    have hiff : j % 32 = i % 32 ↔ j = i := by omega
    have h31 : ¬ (i % 32 = 31 ∧ 31 ≤ j % 32) ∨ j % 32 = i % 32 := by omega
    rw [hfin, Function.update_self, orBit_testBit hi32 (by omega), Bool.or_comm]
    rcases h31 with h31 | h31
    · simp [h31, hiff]
    · simp [hiff.mp h31]
  · have hne : (⟨j / 32, word_lt hj⟩ : Fin WAIF_MAPSZ) ≠ ⟨i / 32, word_lt hi⟩ :=
      fun h => hw (Fin.ext_iff.mp h)
    have hji : j ≠ i := fun h => hw (by rw [h])
    rw [Function.update_of_ne hne]
    simp [hji]

/-! ## Ranks -/

/-- The first bits of a word are the next bits of the map. -/
theorem rank_word {m : PropMap} (hm : MapOk m) {j n : Nat} (hj : j < WAIF_MAPSZ) (hn : n ≤ 32) :
    rank (propMapped m) (32 * j + n) =
      rank (propMapped m) (32 * j) + Nat.count (fun k => (m ⟨j, hj⟩).toNat.testBit k = true) n := by
  induction n with
  | zero => simp
  | succ n ih =>
    have hi : 32 * j + n < N_MAPPABLE_PROPS := by
      rw [N_MAPPABLE_PROPS]
      omega
    have hdiv : (⟨(32 * j + n) / 32, word_lt hi⟩ : Fin WAIF_MAPSZ) = ⟨j, hj⟩ :=
      Fin.ext (by simp only; omega)
    have hmod : (32 * j + n) % 32 = n := by omega
    rw [← Nat.add_assoc, rank_succ, ih (by omega), Nat.count_succ, propMapped_eq hm hi, hdiv,
      hmod, Nat.add_assoc]

/-- Counting whole words. -/
theorem countWords_eq {m : PropMap} (hm : MapOk m) {n : Nat} (hn : n ≤ WAIF_MAPSZ) :
    countWords m n = rank (propMapped m) (32 * n) := by
  induction n with
  | zero => simp [countWords]
  | succ n ih =>
    have hlt : n < (List.finRange WAIF_MAPSZ).length := by rwa [List.length_finRange]
    rw [countWords, List.take_add_one, List.getElem?_eq_getElem hlt, List.map_append,
      List.sum_append, Nat.mul_succ,
      rank_word hm hn (Nat.le_refl 32), ← countSetBits_eq, ← ih (Nat.le_of_succ_le hn), countWords]
    simp

theorem mask_testBit : ∀ n < 32, n ≠ 0 → ∀ j < 32,
    ((~~~(0 : UInt32)).toUInt64 >>> UInt64.ofNat (32 - n)).toNat.testBit j = decide (j < n) := by
  decide +kernel

/-- Counting the bits of a word below one of them. -/
theorem countPartial_eq (x : UInt64) {n : Nat} (hn : n < 32) :
    countPartial x n = Nat.count (fun k => x.toNat.testBit k = true) n := by
  rw [countPartial]
  split
  · next h0 =>
    have hbit :
        ∀ j < 32, (x &&& ((~~~(0 : UInt32)).toUInt64 >>> UInt64.ofNat (32 - n))).toNat.testBit j =
        (x.toNat.testBit j && decide (j < n)) := fun j hj => by
      rw [UInt64.toNat_and, Nat.testBit_and, mask_testBit n hn h0 j hj]
    have hcount : ∀ k ≤ 32,
        Nat.count (fun j =>
          (x &&& ((~~~(0 : UInt32)).toUInt64 >>> UInt64.ofNat (32 - n))).toNat.testBit j
        = true) k = Nat.count (fun j => x.toNat.testBit j = true) (min k n) := by
      intro k hk
      induction k with
      | zero => simp
      | succ k ih =>
        rw [Nat.count_succ, ih (by omega), hbit k hk]
        by_cases hkn : k < n
        · rw [Nat.min_eq_left (by omega), Nat.min_eq_left (by omega), Nat.count_succ]
          simp [hkn]
        · rw [Nat.min_eq_right (by omega), Nat.min_eq_right (by omega)]
          simp [hkn]
    rw [countSetBits_eq, hcount 32 (Nat.le_refl _), Nat.min_eq_right (Nat.le_of_lt hn)]
  · next h0 =>
    rw [not_not.mp h0, Nat.count_zero]

/-- The offset of a mapped property counts the bits below it. -/
theorem rank_eq {m : PropMap} (hm : MapOk m) {i : Nat} (hi : i < N_MAPPABLE_PROPS) :
    countWords m (i / 32) + countPartial (m ⟨i / 32, word_lt hi⟩)
    (i % 32) = rank (propMapped m) i := by
  have hmod : i % 32 < 32 := Nat.mod_lt i (by decide)
  have hsplit : 32 * (i / 32) + i % 32 = i := Nat.div_add_mod i 32
  rw [countWords_eq hm (Nat.le_of_lt (word_lt hi)),
    countPartial_eq _ hmod, ← rank_word hm _ (Nat.le_of_lt hmod), hsplit]

theorem mapCount_eq {m : PropMap} (hm : MapOk m) :
    countWords m WAIF_MAPSZ = rank (propMapped m) N_MAPPABLE_PROPS :=
  countWords_eq hm (Nat.le_refl _)

end NuMoo
