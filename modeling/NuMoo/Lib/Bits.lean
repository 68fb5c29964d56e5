import Mathlib.Data.Nat.Bitwise
import Mathlib.Data.Nat.Count
import Mathlib.Tactic.Linarith
import Mathlib.Tactic.Ring

/-!
# Counting bits in parallel

A number is read as a row of lanes of `w` bits. Masking every second lane, shifting and adding
merges neighbouring lanes without a carry between the pairs.

Results:
1. `land_concat`: masks act on the two halves of a number by themselves.
2. `mergeLanes_lanes`: one merge adds the lanes in pairs.
3. `lanes_testBit`: the bits of a number as lanes of width one, and their sum.
-/

namespace Bits

theorem land_concat {k x m : Nat} (hx : x < 2 ^ k) (hm : m < 2 ^ k) (y n : Nat) :
    (x + 2 ^ k * y) &&& (m + 2 ^ k * n) = (x &&& m) + 2 ^ k * (y &&& n) := by
  have hxm : x &&& m < 2 ^ k := lt_of_le_of_lt Nat.and_le_left hx
  refine Nat.eq_of_testBit_eq fun j => ?_
  rw [Nat.testBit_and, Nat.add_comm x, Nat.add_comm m, Nat.add_comm (x &&& m),
    Nat.testBit_two_pow_mul_add y hx,
    Nat.testBit_two_pow_mul_add n hm, Nat.testBit_two_pow_mul_add _ hxm]
  split <;> rw [Nat.testBit_and]

/-- The number with the given lanes of `w` bits, the lowest first. -/
def lanes (w : Nat) : List Nat → Nat
  | [] => 0
  | d :: ds => d + 2 ^ w * lanes w ds

/-- The sums of neighbouring lanes. -/
def pairSums : List Nat → List Nat
  | a :: b :: ds => (a + b) :: pairSums ds
  | _ => []

/-- Add every second lane of `w` bits, which `hi` masks, to the lane below it, which `lo` masks. -/
def mergeLanes (w hi lo x : Nat) : Nat := ((x &&& hi) >>> w) + (x &&& lo)

/-- The mask of the lower lanes of `n` pairs. -/
def loMask (w n : Nat) : Nat := lanes (2 * w) (List.replicate n (2 ^ w - 1))

/-- The mask of the upper lanes of `n` pairs. -/
def hiMask (w n : Nat) : Nat := lanes (2 * w) (List.replicate n (2 ^ w * (2 ^ w - 1)))

section Merge

variable {w n : Nat} {ds : List Nat}

theorem hiMask_succ : hiMask w (n + 1) = (0 + 2 ^ w * (2 ^ w - 1)) + 2 ^ (2 * w) * hiMask w n := by
  rw [hiMask, List.replicate_succ, lanes, Nat.zero_add]
  rfl

theorem loMask_succ : loMask w (n + 1) = ((2 ^ w - 1) + 2 ^ w * 0) + 2 ^ (2 * w) * loMask w n := by
  rw [loMask, List.replicate_succ, lanes, Nat.mul_zero, Nat.add_zero]
  rfl

theorem pair_lt {a b : Nat} (ha : a < 2 ^ w) (hb : b < 2 ^ w) : a + 2 ^ w * b < 2 ^ (2 * w) := by
  have hmul : 2 ^ w * b + 2 ^ w ≤ 2 ^ w * 2 ^ w := by
    rw [← Nat.mul_succ]
    exact Nat.mul_le_mul_left _ hb
  rw [two_mul, pow_add]
  omega

theorem lanes_pair (a b : Nat) (ds : List Nat) :
    lanes w (a :: b :: ds) = (a + 2 ^ w * b) + 2 ^ (2 * w) * lanes w ds := by
  simp only [lanes, two_mul, pow_add]
  ring

theorem lanes_lt (hlt : ∀ d ∈ ds, d < 2 ^ w) : lanes w ds < 2 ^ (w * ds.length) := by
  induction ds with
  | nil => simp [lanes]
  | cons d ds ih =>
    have hd : d < 2 ^ w := hlt d (by simp)
    have hds : lanes w ds < 2 ^ (w * ds.length) := ih fun e he => hlt e (by simp [he])
    have hmul : 2 ^ w * (lanes w ds + 1) ≤ 2 ^ w * 2 ^ (w * ds.length) := Nat.mul_le_mul_left _ hds
    rw [lanes, List.length_cons, Nat.mul_succ, pow_add, Nat.mul_comm (2 ^ (w * ds.length))]
    rw [Nat.mul_succ] at hmul
    omega

theorem mask_lt : 2 ^ w - 1 < 2 ^ w := Nat.sub_lt (Nat.two_pow_pos w) Nat.one_pos

/-- One merge adds the lanes in pairs. -/
theorem mergeLanes_lanes (hlen : ds.length = 2 * n) (hlt : ∀ d ∈ ds, d < 2 ^ w) :
    mergeLanes w (hiMask w n) (loMask w n) (lanes w ds) = lanes (2 * w) (pairSums ds) := by
  -- what the upper mask leaves is a multiple of a lane
  have key : ∃ u l, lanes w ds &&& hiMask w n = 2 ^ w * u ∧ lanes w ds &&& loMask w n = l ∧
      u + l = lanes (2 * w) (pairSums ds) := by
    induction n generalizing ds with
    | zero =>
      obtain rfl : ds = [] := List.eq_nil_of_length_eq_zero hlen
      exact ⟨0, 0, by simp [lanes], by simp [lanes], rfl⟩
    | succ n ih =>
      match ds, hlen with
      | a :: b :: ds, hlen =>
        have ha : a < 2 ^ w := hlt a (by simp)
        have hb : b < 2 ^ w := hlt b (by simp)
        obtain ⟨u, l, hu, hl, hsum⟩ := @ih ds (by simp only [List.length_cons] at hlen; omega)
          fun d hd => hlt d (by simp [hd])
        have hfull : b &&& (2 ^ w - 1) = b := Nat.and_two_pow_sub_one_of_lt_two_pow hb
        have hfull' : a &&& (2 ^ w - 1) = a := Nat.and_two_pow_sub_one_of_lt_two_pow ha
        refine ⟨b + 2 ^ (2 * w) * u, a + 2 ^ (2 * w) * l, ?_, ?_, ?_⟩
        · rw [lanes_pair, hiMask_succ, land_concat (pair_lt ha hb)
            (pair_lt (Nat.two_pow_pos w) mask_lt),
            land_concat ha (Nat.two_pow_pos w), hu, Nat.and_zero, hfull]
          ring
        · rw [lanes_pair, loMask_succ, land_concat (pair_lt ha hb)
            (pair_lt mask_lt (Nat.two_pow_pos w)),
            land_concat ha mask_lt, hl, Nat.and_zero, hfull']
          ring
        · rw [pairSums, lanes, ← hsum]
          ring
  obtain ⟨u, l, hu, hl, hsum⟩ := key
  rw [mergeLanes, hu, hl, Nat.shiftRight_eq_div_pow,
    Nat.mul_div_cancel_left u (Nat.two_pow_pos w), hsum]

theorem pairSums_length (hlen : ds.length = 2 * n) : (pairSums ds).length = n := by
  induction n generalizing ds with
  | zero =>
    obtain rfl : ds = [] := List.eq_nil_of_length_eq_zero hlen
    rfl
  | succ n ih =>
    match ds, hlen with
    | a :: b :: ds, hlen =>
      rw [pairSums, List.length_cons, ih (by simp only [List.length_cons] at hlen; omega)]

theorem pairSums_sum (hlen : ds.length = 2 * n) : (pairSums ds).sum = ds.sum := by
  induction n generalizing ds with
  | zero =>
    obtain rfl : ds = [] := List.eq_nil_of_length_eq_zero hlen
    rfl
  | succ n ih =>
    match ds, hlen with
    | a :: b :: ds, hlen =>
      rw [pairSums, List.sum_cons, ih (by simp only [List.length_cons] at hlen; omega),
        List.sum_cons, List.sum_cons,
        Nat.add_assoc]

theorem pairSums_lt (hw : 0 < w) (hlt : ∀ d ∈ ds, d < 2 ^ w) :
    ∀ d ∈ pairSums ds, d < 2 ^ (2 * w) := by
  have hpow : 2 ^ (w + 1) ≤ 2 ^ (2 * w) := Nat.pow_le_pow_right (by omega) (by omega)
  rw [pow_succ] at hpow
  induction ds using pairSums.induct with
  | case1 a b ds ih =>
    intro d hd
    rcases List.mem_cons.mp hd with rfl | hd
    · have ha := hlt a (by simp)
      have hb := hlt b (by simp)
      omega
    · exact ih (fun d hd => hlt d (by simp [hd])) d hd
  | case2 ds h =>
    intro d hd
    rw [pairSums.eq_def] at hd
    split at hd
    · exact absurd rfl (h _ _ _)
    · cases hd

end Merge

/-! ## The bits of a number -/

/-- The lowest `n` bits of a number. -/
def bitList (n x : Nat) : List Nat := (List.range n).map fun j => (x.testBit j).toNat

theorem bitList_succ (n x : Nat) : bitList (n + 1) x = x % 2 :: bitList n (x / 2) := by
  rw [bitList, List.range_succ_eq_map, List.map_cons, List.map_map, Nat.testBit_zero]
  congr 1
  · rcases Nat.mod_two_eq_zero_or_one x with h | h <;> simp [h]
  · exact List.map_congr_left fun j _ => by
      rw [Function.comp_apply, Nat.succ_eq_add_one, Nat.testBit_succ]

theorem bitList_lt {n x d : Nat} (h : d ∈ bitList n x) : d < 2 ^ 1 := by
  obtain ⟨j, -, rfl⟩ := List.mem_map.mp h
  cases x.testBit j <;> decide

@[simp] theorem bitList_length (n x : Nat) : (bitList n x).length = n := by simp [bitList]

/-- The bits are the lanes of width one. -/
theorem lanes_bitList (n x : Nat) : lanes 1 (bitList n x) = x % 2 ^ n := by
  induction n generalizing x with
  | zero => rw [pow_zero, Nat.mod_one]; rfl
  | succ n ih =>
    rw [bitList_succ, lanes, ih, pow_one, pow_succ, Nat.mul_comm (2 ^ n), Nat.mod_mul]

theorem sum_bitList (n x : Nat) :
    (bitList n x).sum = Nat.count (fun j => x.testBit j = true) n := by
  induction n with
  | zero => rfl
  | succ n ih =>
    rw [Nat.count_succ, ← ih, bitList, List.range_succ, List.map_append, List.sum_append, bitList]
    cases h : x.testBit n <;> simp [h]

end Bits
