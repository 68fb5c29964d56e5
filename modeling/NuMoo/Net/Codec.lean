import Mathlib.Tactic.Ring
import NuMoo.Net.Utf

/-!
# Reading back what was encoded

`get_utf` over a string in memory: the bytes, the NUL that ends them and whatever follows it. A
ghost `getRune` keeps the steps that assign `INVALID_RUNE` apart from a character that is U+FFFD.

Results:
1. `getRune_putUtf`: what `put_utf` writes is read back, and no more.
2. `getRune_valid`: a character that is not `INVALID_RUNE` by default came from its encoding.
3. `utf_codec`: the same of whole strings.
-/

namespace NuMoo
namespace Net

/-- The first byte of a longer sequence: how many bytes continue it, the bits it holds, and the
values that are not valid there. -/
def lead (c : UInt8) : Option (Nat × Nat × (Nat → Bool)) :=
  if c ≤ 0xbf then none
  else if c ≤ 0xdf then some (1, (c &&& 0x1f).toNat, fun v => v ≤ 0x7f)
  else if c ≤ 0xef then some (2, (c &&& 0x0f).toNat, fun v => v ≤ 0x7ff ||
    (v ≥ 0xd800 && v ≤ 0xdfff))
  else if c ≤ 0xf7 then some (3, (c &&& 0x07).toNat, fun v => v ≤ 0xffff || v > 0x10ffff)
  else none

instance (r : Nat) : Decidable (Encodable r) := inferInstanceAs (Decidable (_ ∧ _))

/-- `get_utf` with `none` for the character where it assigns `INVALID_RUNE`. -/
def getRune : Str → Option (Option Nat × Str)
  | [] => none
  | c :: p =>
    match lead c with
    | none => some (if c ≤ 0x7f then some c.toNat else none, p)
    | some (n, v, invalid) => (getConts n v p).map fun (o, p) => (o.filter (!invalid ·), p)

/-- The bytes that continue a sequence of `n` more bytes for a character. -/
def tailBytes : Nat → Nat → Str
  | 0, _ => []
  | n + 1, r => UInt8.ofNat (0x80 ||| ((r >>> (6 * n)) &&& 0x3f)) :: tailBytes n r

/-- `put_utf` on the `int` it is given, which it takes as unsigned. -/
def putUtfInt (vv : Int) : Option Str := putUtf (vv % 2 ^ 32).toNat

/-- The loop of `strlen_utf`, with the characters it counts and where it ends up. The fuel is the
memory. -/
def scanN : Nat → Str → Option (List (Option Nat) × Str)
  | 0, _ => none
  | n + 1, p =>
    match getRune p with
    | none => none
    | some (o, p) =>
      if o.getD INVALID_RUNE = 0 then some ([], p) else (scanN n p).map fun (l, p) => (o :: l, p)

def scan (p : Str) : Option (List (Option Nat) × Str) := scanN p.length p

/-- `strlen_utf` -/
def strlenUtf (p : Str) : Option Nat := (scan p).map (·.1.length)

variable {p p' s t : Str} {c : UInt8} {n v r : Nat} {o : Option Nat} {invalid : Nat → Bool}

/-- The ghost says what `get_utf` does. -/
theorem getUtf_eq (p : Str) :
    getUtf p = (getRune p).map fun (o, p) => (o.getD INVALID_RUNE, p) := by
  have hseq : ∀ (n v : Nat) (invalid : Nat → Bool) (p : Str), getSequence n v invalid p =
      ((getConts n v p).map fun (o, p) => (o.filter (!invalid ·), p)).map fun (o, p) =>
        (o.getD INVALID_RUNE, p) := by
    intro n v invalid p
    cases hc : getConts n v p with
    | none => simp [getSequence, hc]
    | some d =>
      obtain ⟨_ | w, q⟩ := d
      · simp [getSequence, hc]
      · cases hi : invalid w <;> simp [getSequence, hc, hi, Option.filter]
  cases p with
  | nil => rfl
  | cons c p =>
    simp only [getUtf, getRune, lead]
    by_cases h₁ : c ≤ 0x7f
    · have h₂ : c ≤ 0xbf := UInt8.le_trans h₁ (by decide)
      simp [h₁, h₂]
    · rw [if_neg h₁]
      split
      · simp
      · split
        · exact hseq _ _ _ _
        · split
          · exact hseq _ _ _ _
          · split
            · exact hseq _ _ _ _
            · simp

/-! ## One character -/

theorem shiftRight_six (n r : Nat) : r >>> (6 * n) = r / 64 ^ n := by
  rw [Nat.shiftRight_eq_div_pow, Nat.pow_mul]

theorem contByte_sub (x : Nat) :
    UInt8.ofNat (0x80 ||| (x &&& 0x3f)) - 0x80 = UInt8.ofNat (x % 64) := by
  have h : ∀ y < 64, UInt8.ofNat (0x80 ||| y) - 0x80 = UInt8.ofNat y := by decide
  rw [show x &&& 0x3f = x % 64 from Nat.and_two_pow_sub_one_eq_mod x 6]
  exact h _ (Nat.mod_lt _ (by decide))

theorem contByte_of_sub (h : ¬ c - 0x80 > 0x3f) {x : Nat} (hx : x % 64 = (c - 0x80).toNat) :
    UInt8.ofNat (0x80 ||| (x &&& 0x3f)) = c := by
  have key : ∀ m < 256, ¬ UInt8.ofNat m - 0x80 > 0x3f →
      UInt8.ofNat (0x80 ||| (UInt8.ofNat m - 0x80).toNat) = UInt8.ofNat m := by
    decide +kernel
  have hc := key c.toNat c.toNat_lt
  rw [UInt8.ofNat_toNat] at hc
  rw [show x &&& 0x3f = x % 64 from Nat.and_two_pow_sub_one_eq_mod x 6, hx]
  exact hc h

/-- The bytes of `tailBytes` are read back. -/
theorem getConts_tailBytes (n v r : Nat) (p : Str) :
    getConts n v (tailBytes n r ++ p) = some (some (v * 64 ^ n + r % 64 ^ n), p) := by
  induction n generalizing v with
  | zero => simp [getConts, tailBytes, Nat.mod_one]
  | succ n ih =>
    have hsub := contByte_sub (r >>> (6 * n))
    have hlt : (r >>> (6 * n)) % 64 < 64 := Nat.mod_lt _ (by decide)
    have hnat : (UInt8.ofNat ((r >>> (6 * n)) % 64)).toNat = (r >>> (6 * n)) % 64 := by
      rw [UInt8.toNat_ofNat']
      omega
    have hle : ¬ UInt8.ofNat ((r >>> (6 * n)) % 64) > 0x3f := by
      rw [gt_iff_lt, UInt8.lt_iff_toNat_lt, hnat]
      show ¬ 63 < _
      omega
    rw [tailBytes, List.cons_append, getConts, hsub, if_neg hle, ih, hnat, shiftRight_six,
      Nat.shiftLeft_eq]
    have hmod : r % 64 ^ (n + 1) = r % 64 ^ n + 64 ^ n * (r / 64 ^ n % 64) := by
      rw [Nat.pow_succ, Nat.mod_mul]
    rw [hmod, Nat.pow_succ]
    congr 3
    ring

/-- Bytes that are accepted are the ones of their value. -/
theorem getConts_inv (h : getConts n v p = some (some r, p')) :
    p = tailBytes n r ++ p' ∧ r / 64 ^ n = v := by
  induction n generalizing v p with
  | zero =>
    simp only [getConts, Option.some.injEq, Prod.mk.injEq] at h
    obtain ⟨rfl, rfl⟩ := h
    simp [tailBytes]
  | succ n ih =>
    cases p with
    | nil => simp [getConts] at h
    | cons c p =>
      rw [getConts] at h
      split at h
      · simp at h
      · next hc =>
        obtain ⟨rfl, hv⟩ := ih h
        have hle : (c - 0x80).toNat ≤ 63 := UInt8.le_iff_toNat_le.mp (by simpa using hc)
        rw [Nat.shiftLeft_eq] at hv
        have hx : (r >>> (6 * n)) % 64 = (c - 0x80).toNat := by
          rw [shiftRight_six, hv]
          omega
        refine ⟨by rw [tailBytes, contByte_of_sub hc hx, List.cons_append], ?_⟩
        rw [Nat.pow_succ, ← Nat.div_div_eq_div_mul, hv]
        omega

/-- A lead byte is the first byte of every character it can begin. -/
theorem putUtf_of_lead (h : lead c = some (n, v, invalid)) (hv : r / 64 ^ n = v)
    (hr : invalid r = false) :
    Encodable r ∧ putUtf r = some (c :: tailBytes n r) := by
  have key : ∀ m < 256, (¬ UInt8.ofNat m ≤ 0xbf → UInt8.ofNat m ≤ 0xdf →
    UInt8.ofNat (0xc0 ||| (UInt8.ofNat m &&& 0x1f).toNat) = UInt8.ofNat m) ∧
      (¬ UInt8.ofNat m ≤ 0xdf → UInt8.ofNat m ≤ 0xef →
        UInt8.ofNat (0xe0 ||| (UInt8.ofNat m &&& 0x0f).toNat) = UInt8.ofNat m) ∧
      (¬ UInt8.ofNat m ≤ 0xef → UInt8.ofNat m ≤ 0xf7 →
        UInt8.ofNat (0xf0 ||| (UInt8.ofNat m &&& 0x07).toNat) = UInt8.ofNat m) := by
    decide +kernel
  obtain ⟨k₁, k₂, k₃⟩ := key c.toNat c.toNat_lt
  rw [UInt8.ofNat_toNat] at k₁ k₂ k₃
  unfold lead at h
  split at h
  · simp at h
  · next h₀ =>
    split at h
    · next h₁ =>
      simp only [Option.some.injEq, Prod.mk.injEq] at h
      obtain ⟨rfl, rfl, rfl⟩ := h
      have hle : (c &&& 0x1f).toNat ≤ 31 := by rw [UInt8.toNat_and]; exact Nat.and_le_right
      have hlo : 0x7f < r := by simpa using hr
      have hhi : r ≤ 0x7ff := by omega
      refine ⟨⟨by omega, by omega⟩, ?_⟩
      rw [putUtf, if_neg (by omega), if_pos hhi,
        show r >>> 6 = (c &&& 0x1f).toNat from (shiftRight_six 1 r).trans hv, k₁ h₀ h₁]
      rfl
    · next h₁ =>
      split at h
      · next h₂ =>
        simp only [Option.some.injEq, Prod.mk.injEq] at h
        obtain ⟨rfl, rfl, rfl⟩ := h
        have hle : (c &&& 0x0f).toNat ≤ 15 := by rw [UInt8.toNat_and]; exact Nat.and_le_right
        simp only [Bool.or_eq_false_iff, Bool.and_eq_false_iff, decide_eq_false_iff_not] at hr
        have hhi : r ≤ 0xffff := by omega
        have hsur : ¬ (0xd800 ≤ r ∧ r ≤ 0xdfff) := by omega
        refine ⟨⟨by omega, hsur⟩, ?_⟩
        rw [putUtf, if_neg (by omega), if_neg (by omega), if_pos hhi, if_neg hsur,
          show r >>> 12 = (c &&& 0x0f).toNat from (shiftRight_six 2 r).trans hv, k₂ h₁ h₂]
        rfl
      · next h₂ =>
        split at h
        · next h₃ =>
          simp only [Option.some.injEq, Prod.mk.injEq] at h
          obtain ⟨rfl, rfl, rfl⟩ := h
          simp only [Bool.or_eq_false_iff, decide_eq_false_iff_not] at hr
          refine ⟨⟨by omega, by omega⟩, ?_⟩
          rw [putUtf, if_neg (by omega), if_neg (by omega), if_neg (by omega), if_pos (by omega),
            show r >>> 18 = (c &&& 0x07).toNat from (shiftRight_six 3 r).trans hv, k₃ h₂ h₃]
          rfl
        · simp at h

/-- The first byte that `put_utf` writes leads the sequence. -/
theorem lead_putUtf (h : Encodable r) (hr : 0x7f < r) :
    ∃ c n invalid, lead c = some (n, r / 64 ^ n, invalid) ∧ invalid r = false ∧
      putUtf r = some (c :: tailBytes n r) := by
  have k₁ : ∀ m < 32, ¬ UInt8.ofNat (0xc0 ||| m) ≤ 0xbf ∧ UInt8.ofNat (0xc0 ||| m) ≤ 0xdf ∧
      (UInt8.ofNat (0xc0 ||| m) &&& 0x1f).toNat = m := by
    decide
  have k₂ : ∀ m < 16, ¬ UInt8.ofNat (0xe0 ||| m) ≤ 0xdf ∧ UInt8.ofNat (0xe0 ||| m) ≤ 0xef ∧
      (UInt8.ofNat (0xe0 ||| m) &&& 0x0f).toNat = m := by
    decide
  have k₃ : ∀ m < 8, ¬ UInt8.ofNat (0xf0 ||| m) ≤ 0xef ∧ UInt8.ofNat (0xf0 ||| m) ≤ 0xf7 ∧
      (UInt8.ofNat (0xf0 ||| m) &&& 0x07).toNat = m := by
    decide
  have hbf : ∀ c : UInt8, ¬ c ≤ 0xdf → ¬ c ≤ 0xbf :=
    fun c hc hb => hc (UInt8.le_trans hb (by decide))
  have hdf : ∀ c : UInt8, ¬ c ≤ 0xef → ¬ c ≤ 0xdf :=
    fun c hc hb => hc (UInt8.le_trans hb (by decide))
  have hsur := h.2
  have hmax := h.1
  by_cases h₁ : r ≤ 0x7ff
  · obtain ⟨a, b, e⟩ := k₁ (r / 64 ^ 1) (by omega)
    refine ⟨_, 1, _, by rw [lead, if_neg a, if_pos b, e], by simpa using hr, ?_⟩
    rw [putUtf, if_neg (by omega), if_pos h₁, show r >>> 6 = r / 64 ^ 1 from shiftRight_six 1 r]
    rfl
  · by_cases h₂ : r ≤ 0xffff
    · obtain ⟨a, b, e⟩ := k₂ (r / 64 ^ 2) (by omega)
      refine ⟨_, 2, _, by rw [lead, if_neg (hbf _ a), if_neg a, if_pos b, e], ?_, ?_⟩
      · simp only [Bool.or_eq_false_iff, Bool.and_eq_false_iff, decide_eq_false_iff_not]
        omega
      · rw [putUtf, if_neg (by omega), if_neg h₁, if_pos h₂, if_neg hsur,
          show r >>> 12 = r / 64 ^ 2 from shiftRight_six 2 r]
        rfl
    · obtain ⟨a, b, e⟩ := k₃ (r / 64 ^ 3) (by omega)
      refine ⟨_, 3, _,
        by rw [lead, if_neg (hbf _ (hdf _ a)), if_neg (hdf _ a), if_neg a, if_pos b, e], ?_, ?_⟩
      · simp only [Bool.or_eq_false_iff, decide_eq_false_iff_not]
        omega
      · rw [putUtf, if_neg (by omega), if_neg h₁, if_neg h₂, if_pos hmax,
          show r >>> 18 = r / 64 ^ 3 from shiftRight_six 3 r]
        rfl

/-- What `put_utf` writes is read back, and no more. -/
theorem getRune_putUtf (h : Encodable r) (p : Str) :
    getRune ((putUtf r).getD [] ++ p) = some (some r, p) := by
  by_cases hr : r ≤ 0x7f
  · have hc : (UInt8.ofNat r).toNat = r := by
      rw [UInt8.toNat_ofNat']
      omega
    have hle : UInt8.ofNat r ≤ 0x7f := UInt8.le_iff_toNat_le.mpr (by rw [hc]; exact hr)
    rw [putUtf, if_pos hr, Option.getD_some, List.singleton_append, getRune, lead,
      if_pos (UInt8.le_trans hle (by decide))]
    simp [hle, hc]
  · obtain ⟨c, n, invalid, hl, hi, hput⟩ := lead_putUtf h (by omega)
    have hval : r / 64 ^ n * 64 ^ n + r % 64 ^ n = r := by
      rw [Nat.mul_comm]
      exact Nat.div_add_mod r (64 ^ n)
    rw [hput, Option.getD_some, List.cons_append, getRune, hl]
    simp only [getConts_tailBytes, hval, Option.map_some, Option.filter, hi,
      Bool.not_false, if_true]

/-- A character that is not `INVALID_RUNE` by default came from its encoding. -/
theorem getRune_valid (h : getRune p = some (some r, p')) :
    Encodable r ∧ p = (putUtf r).getD [] ++ p' := by
  cases p with
  | nil => simp [getRune] at h
  | cons c p =>
    rw [getRune] at h
    cases hl : lead c with
    | none =>
      simp only [hl, Option.some.injEq, Prod.mk.injEq] at h
      obtain ⟨hr, rfl⟩ := h
      split at hr
      · next hc =>
        obtain rfl : c.toNat = r := by simpa using hr
        have hle : c.toNat ≤ 0x7f := UInt8.le_iff_toNat_le.mp hc
        refine ⟨⟨by omega, by omega⟩, ?_⟩
        rw [putUtf, if_pos hle, Option.getD_some, UInt8.ofNat_toNat]
        rfl
      · simp at hr
    | some d =>
      obtain ⟨n, v, invalid⟩ := d
      simp only [hl, Option.map_eq_some_iff, Prod.exists, Prod.mk.injEq] at h
      obtain ⟨o, q, hc, ho, rfl⟩ := h
      obtain ⟨rfl, hr⟩ := Option.filter_eq_some_iff.mp ho
      obtain ⟨rfl, hv⟩ := getConts_inv hc
      obtain ⟨henc, hput⟩ := putUtf_of_lead hl hv (by simpa using hr)
      exact ⟨henc, by rw [hput, Option.getD_some, List.cons_append]⟩

/-- A sequence is never continued by the NUL: in a string that has one, reading stops before it. -/
theorem getConts_string (n v : Nat) (hs : 0 ∉ s) (t : Str) :
    ∃ o m s', getConts n v (s ++ 0 :: t) = some (o, s' ++ 0 :: t) ∧ s = m ++ s' := by
  induction n generalizing v s with
  | zero => exact ⟨some v, [], s, rfl, rfl⟩
  | succ n ih =>
    cases s with
    | nil => exact ⟨none, [], [], by rw [List.nil_append, getConts, if_pos (by decide)], rfl⟩
    | cons c s =>
      rw [List.cons_append, getConts]
      split
      · exact ⟨none, [], c :: s, rfl, rfl⟩
      · obtain ⟨o, m, s', he, rfl⟩ :=
          ih ((v <<< 6) + (c - 0x80).toNat) (fun h => hs (List.mem_cons_of_mem _ h))
        exact ⟨o, c :: m, s', he, rfl⟩

/-- Before the NUL, one step takes at least a byte and leaves the NUL where it is. -/
theorem getRune_string (hs : 0 ∉ c :: s) (t : Str) :
    ∃ o m s', getRune (c :: s ++ 0 :: t) = some (o, s' ++ 0 :: t) ∧ s = m ++ s' := by
  rw [List.cons_append, getRune]
  cases hl : lead c with
  | none => exact ⟨_, [], s, rfl, rfl⟩
  | some d =>
    obtain ⟨n, v, invalid⟩ := d
    obtain ⟨o, m, s', he, hm⟩ := getConts_string n v (fun h => hs (List.mem_cons_of_mem _ h)) t
    exact ⟨o.filter (!invalid ·), m, s', by simp only [he, Option.map_some], hm⟩

/-- Whatever the bytes are, the character is one that could have been written. -/
theorem getRune_encodable (h : getRune p = some (o, p')) : Encodable (o.getD INVALID_RUNE) := by
  cases o with
  | none => exact (by decide : Encodable INVALID_RUNE)
  | some r => exact (getRune_valid h).1

/-- Only the NUL reads as zero. -/
theorem getRune_ne_zero (hc : c ≠ 0) (h : getRune (c :: p) = some (o, p')) :
    o.getD INVALID_RUNE ≠ 0 := by
  cases o with
  | none => decide
  | some r =>
    rintro rfl
    have he := (getRune_valid h).2
    rw [show (putUtf 0).getD [] = [0] from rfl] at he
    exact hc (List.cons.inj he).1

theorem getRune_nul (t : Str) : getRune (0 :: t) = some (some 0, t) := rfl

/-! ## A whole string -/

theorem scanN_of_le {m : Nat} {l : List (Option Nat)} (h : scanN n p = some (l, p')) (hm : n ≤ m) :
    scanN m p = some (l, p') := by
  induction n generalizing m p l with
  | zero => simp [scanN] at h
  | succ n ih =>
    obtain ⟨m, rfl⟩ : ∃ k, m = k + 1 := ⟨m - 1, by omega⟩
    rw [scanN] at h ⊢
    cases hg : getRune p with
    | none => simp [hg] at h
    | some d =>
      obtain ⟨o, q⟩ := d
      simp only [hg] at h ⊢
      split at h
      · next hz => rwa [if_pos hz]
      · next hz =>
        obtain ⟨⟨l', q'⟩, hq, he⟩ := Option.map_eq_some_iff.mp h
        obtain ⟨rfl, rfl⟩ := Prod.mk.inj he
        rw [if_neg hz, ih hq (by omega)]
        rfl

/-- The string `s` is read as the characters `l`, in that order, up to its NUL. -/
theorem scanN_nil (n : Nat) (t : Str) : scanN (n + 1) (0 :: t) = some ([], t) := rfl

theorem scanN_cons {l : List (Option Nat)} {q : Str} (h : getRune p = some (o, p'))
    (ho : o.getD INVALID_RUNE ≠ 0)
    (hl : scanN n p' = some (l, q)) : scanN (n + 1) p = some (o :: l, q) := by
  rw [scanN, h]
  simp only [if_neg ho, hl, Option.map_some]

/-- Encoded characters are read back, up to the NUL behind them. -/
theorem scan_encode {l : List Nat} (h : ∀ r ∈ l, Encodable r ∧ r ≠ 0) (t : Str) :
    scan (encode l ++ 0 :: t) = some (l.map some, t) := by
  have key : scanN (l.length + 1) (encode l ++ 0 :: t) = some (l.map some, t) := by
    induction l with
    | nil => exact scanN_nil 0 t
    | cons r l ih =>
      obtain ⟨⟨henc, hr⟩, hl⟩ := List.forall_mem_cons.mp h
      have he : encode (r :: l) ++ 0 :: t = (putUtf r).getD [] ++ (encode l ++ 0 :: t) := by
        simp [encode]
      rw [he]
      exact scanN_cons (getRune_putUtf henc _) hr (ih hl)
  have hlen : l.length ≤ (encode l).length := by
    clear key
    induction l with
    | nil => exact Nat.le_refl _
    | cons r l ih =>
      obtain ⟨⟨henc, _⟩, hl⟩ := List.forall_mem_cons.mp h
      obtain ⟨c, m, hput, _⟩ := putUtf_shape henc
      have := ih hl
      simp only [encode, List.map_cons, List.flatten_cons, List.length_append, List.length_cons,
        hput, Option.getD_some] at this ⊢
      omega
  exact scanN_of_le key (by rw [List.length_append, List.length_cons]; omega)

/-- A string is read up to its NUL, and is the encoding of its characters if none is malformed. -/
theorem scan_string (hs : 0 ∉ s) (t : Str) :
    ∃ l, scan (s ++ 0 :: t) = some (l, t) ∧ ((∀ o ∈ l, o ≠ none) →
      encode (l.map (·.getD INVALID_RUNE)) = s) := by
  have key : ∃ l, scanN (s.length + 1) (s ++ 0 :: t) = some (l, t) ∧
      ((∀ o ∈ l, o ≠ none) → encode (l.map (·.getD INVALID_RUNE)) = s) := by
    generalize hn : s.length = n
    induction n using Nat.strongRecOn generalizing s with
    | ind n ih =>
      cases s with
      | nil => exact ⟨[], scanN_nil n t, fun _ => rfl⟩
      | cons c s =>
        obtain ⟨o, m, s', hg, rfl⟩ := getRune_string hs t
        have hs' : 0 ∉ s' := fun h => hs (by simp [h])
        rw [List.length_cons, List.length_append] at hn
        obtain ⟨l, hl, henc⟩ := ih s'.length (by omega) hs' rfl
        have hne := getRune_ne_zero (fun h => hs (by simp [h])) hg
        obtain ⟨k, rfl⟩ : ∃ k, n = k + 1 := ⟨n - 1, by omega⟩
        refine ⟨o :: l, scanN_cons hg hne (scanN_of_le hl (by omega)), fun hall => ?_⟩
        obtain ⟨ho, htail⟩ := List.forall_mem_cons.mp hall
        obtain ⟨r, rfl⟩ := Option.ne_none_iff_exists'.mp ho
        have hbytes := (getRune_valid hg).2
        rw [← List.append_assoc] at hbytes
        have hbytes : c :: (m ++ s') = (putUtf r).getD [] ++ s' := List.append_cancel_right hbytes
        rw [hbytes, ← henc htail]
        simp [encode]
  obtain ⟨l, hl, henc⟩ := key
  exact ⟨l, scanN_of_le hl (by rw [List.length_append, List.length_cons]; omega), henc⟩

/-- `strlen_utf` counts the characters of an encoded string. -/
theorem strlenUtf_encode {l : List Nat} (h : ∀ r ∈ l, Encodable r ∧ r ≠ 0) (t : Str) :
    strlenUtf (encode l ++ 0 :: t) = some l.length := by
  rw [strlenUtf, scan_encode h]
  simp

theorem putUtf_eq_none : putUtf v = none ↔ ¬ Encodable v := by
  constructor
  · intro h henc
    obtain ⟨c, m, hput, _⟩ := putUtf_shape henc
    rw [h] at hput
    simp at hput
  · intro h
    have hv : ¬ v ≤ 0x7f ∧ ¬ v ≤ 0x7ff := by unfold Encodable at h; omega
    rw [putUtf, if_neg hv.1, if_neg hv.2]
    split
    · exact if_pos (by unfold Encodable at h; omega)
    · exact if_neg (by unfold Encodable at h; omega)

/-- The decoder and the encoder: characters are read back from their encoding and nothing else is
accepted as one; in a string, reading goes forward up to the NUL; and `put_utf` refuses exactly what
is no character. -/
theorem utf_codec :
    (∀ (l : List Nat) (t : Str), (∀ r ∈ l, Encodable r ∧ r ≠ 0) →
      scan (encode l ++ 0 :: t) = some (l.map some, t)) ∧
      (∀ (c : UInt8) (s t : Str), 0 ∉ c :: s →
        ∃ o m s', getRune (c :: s ++ 0 :: t) = some (o, s' ++ 0 :: t) ∧ s = m ++ s' ∧
          getUtf (c :: s ++ 0 :: t) = some (o.getD INVALID_RUNE, s' ++ 0 :: t) ∧
          Encodable (o.getD INVALID_RUNE) ∧ o.getD INVALID_RUNE ≠ 0) ∧
      (∀ s t : Str, 0 ∉ s → ∃ l, scan (s ++ 0 :: t) = some (l, t) ∧
        ((∀ o ∈ l, o ≠ none) → encode (l.map (·.getD INVALID_RUNE)) = s)) ∧
      (∀ vv : Int, -2 ^ 31 ≤ vv → vv < 2 ^ 31 →
        (putUtfInt vv = none ↔ vv < 0 ∨ (0xd800 ≤ vv ∧ vv ≤ 0xdfff) ∨ 0x10ffff < vv)) := by
  refine ⟨fun l t h => scan_encode h t, fun c s t hs => ?_, fun s t hs => scan_string hs t,
    fun vv hlo hhi => ?_⟩
  · obtain ⟨o, m, s', hg, hm⟩ := getRune_string hs t
    exact ⟨o, m, s', hg, hm, by rw [getUtf_eq, hg]; rfl, getRune_encodable hg,
      getRune_ne_zero (fun h => hs (by simp [h])) hg⟩
  · rw [putUtfInt, putUtf_eq_none, Encodable]
    omega

theorem utf_codec_accented : scan [0xc3, 0xa9, 0x41, 0, 0x41] =
    some ([some 0xe9, some 0x41], [0x41]) ∧ putUtfInt (-1) = none :=
  ⟨utf_codec.1 [0xe9, 0x41] [0x41] (by decide),
    (utf_codec.2.2.2 (-1) (by decide) (by decide)).mpr (.inl (by decide))⟩

end Net
end NuMoo
