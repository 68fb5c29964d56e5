import NuMoo.Base

/-!
# UTF-8 in the server

`get_utf`, `put_utf` and `clearance_utf` of `utf.c`, the operations of `streams.c` on
characters, and `my_is_printable`. What the Unicode database says about a character is a
parameter.

Results:
1. `decode_append`: bytes that are characters of their own are decoded one by one.
2. `streamDeleteUtf_encode`: deleting from an encoded line deletes its last character.
-/

namespace NuMoo
namespace Net

/-- `INVALID_RUNE` -/
def INVALID_RUNE : Nat := 0xfffd

/-- `GET_CONT`, up to `n` times: the value and what follows, or no value at a byte that continues
nothing, or nothing at all where the input ends. -/
def getConts : Nat → Nat → Str → Option (Option Nat × Str)
  | 0, v, p => some (some v, p)
  | _ + 1, _, [] => none
  | n + 1, v, c :: p =>
    if c - 0x80 > 0x3f then some (none, c :: p) else getConts n ((v <<< 6) + (c - 0x80).toNat) p

/-- A sequence of `n` more bytes, whose value may be invalid. -/
def getSequence (n v : Nat) (invalid : Nat → Bool) (p : Str) : Option (Nat × Str) := do
  let (v, p) ← getConts n v p
  match v with
  | none => return (INVALID_RUNE, p)
  | some v => return (if invalid v then INVALID_RUNE else v, p)

/-- `get_utf`: a character and what follows it, or `none` where the input ends inside a sequence. -/
def getUtf : Str → Option (Nat × Str)
  | [] => none
  | c :: p =>
    if c ≤ 0x7f then some (c.toNat, p)
    else if c ≤ 0xbf then some (INVALID_RUNE, p)
    else if c ≤ 0xdf then getSequence 1 (c &&& 0x1f).toNat (fun v => v ≤ 0x7f) p
    else if c ≤ 0xef then getSequence 2 (c &&& 0x0f).toNat (fun v => v ≤ 0x7ff ||
      (v ≥ 0xd800 && v ≤ 0xdfff)) p
    else if c ≤ 0xf7 then getSequence 3 (c &&& 0x07).toNat (fun v => v ≤ 0xffff || v > 0x10ffff) p
    else some (INVALID_RUNE, p)

/-- `clearance_utf` -/
def clearanceUtf (c : UInt8) : Nat :=
  if c ≤ 0x7f then 1
  else if c ≤ 0xbf then 1
  else if c ≤ 0xdf then 2
  else if c ≤ 0xef then 3
  else if c ≤ 0xf7 then 4
  else 1

/-- `put_utf` -/
def putUtf (v : Nat) : Option Str :=
  if v ≤ 0x7f then some [UInt8.ofNat v]
  else if v ≤ 0x7ff then some [UInt8.ofNat (0xc0 ||| (v >>> 6)),
    UInt8.ofNat (0x80 ||| (v &&& 0x3f))]
  else if v ≤ 0xffff then
    if 0xd800 ≤ v ∧ v ≤ 0xdfff then none
    else some [UInt8.ofNat (0xe0 ||| (v >>> 12)), UInt8.ofNat (0x80 ||| ((v >>> 6) &&& 0x3f)),
      UInt8.ofNat (0x80 ||| (v &&& 0x3f))]
  else if v ≤ 0x10ffff then
    some [UInt8.ofNat (0xf0 ||| (v >>> 18)), UInt8.ofNat (0x80 ||| ((v >>> 12) &&& 0x3f)),
      UInt8.ofNat (0x80 ||| ((v >>> 6) &&& 0x3f)), UInt8.ofNat (0x80 ||| (v &&& 0x3f))]
  else none

/-- `stream_add_utf` -/
def streamAddUtf (s : Str) (c : Nat) : Str := s ++ (putUtf c).getD []

/-- A byte that continues a sequence. -/
def isCont (c : UInt8) : Bool := c &&& 0xc0 = 0x80

/-- `stream_delete_utf` -/
def streamDeleteUtf (s : Str) : Str := (s.reverse.dropWhile isCont).tail.reverse

/-- `my_is_printable`, where `character` tells which characters the Unicode database knows and does
not call a noncharacter. -/
def myIsPrintable (character : Nat → Bool) (x : Nat) : Bool :=
  if x = 0x09 then true
  else if (x ≤ 0xff ∧ (x &&& 0x60 = 0 ∨ x = 0x7f)) ∨ (0xd800 ≤ x ∧ x ≤ 0xdfff) then false
  else character x

/-! ## Decoding a whole string -/

/-- The characters of a string, up to the end or a sequence that is not complete. The fuel is the
length. -/
def decodeN : Nat → Str → List Nat
  | 0, _ => []
  | n + 1, p =>
    match getUtf p with
    | none => []
    | some (c, p) => c :: decodeN n p

def decode (s : Str) : List Nat := decodeN s.length s

/-- The bytes of a line of characters. -/
def encode (l : List Nat) : Str := (l.map fun c => (putUtf c).getD []).flatten

variable {p p' s : Str} {c : UInt8} {n v r : Nat} {invalid : Nat → Bool}

/-- The bytes that end a line. -/
def isLineEnd (c : UInt8) : Bool := c = 0x0a || c = 0x0d

theorem isLineEnd_iff : isLineEnd c = true ↔ c = 0x0a ∨ c = 0x0d := by simp [isLineEnd]

theorem not_isLineEnd_of_cont (h : ¬ c - 0x80 > 0x3f) : isLineEnd c = false := by
  by_contra he
  rcases isLineEnd_iff.mp (by simpa using he) with rfl | rfl
  · exact h (by decide)
  · exact h (by decide)

/-- A sequence takes at most `n` bytes, none of which ends a line. -/
theorem getConts_some {o : Option Nat} (h : getConts n v p = some (o, p')) :
    ∃ m, p = m ++ p' ∧ (∀ d ∈ m, isLineEnd d = false) ∧ m.length ≤ n := by
  induction n generalizing v p with
  | zero =>
    simp only [getConts, Option.some.injEq, Prod.mk.injEq] at h
    exact ⟨[], by simp [h.2], by simp, Nat.le_refl _⟩
  | succ n ih =>
    cases p with
    | nil => simp [getConts] at h
    | cons c p =>
      rw [getConts] at h
      split at h
      · simp only [Option.some.injEq, Prod.mk.injEq] at h
        exact ⟨[], by simp [h.2], by simp, Nat.zero_le _⟩
      · next hc =>
        obtain ⟨m, rfl, hm, hlen⟩ := ih h
        exact ⟨c :: m, rfl, List.forall_mem_cons.mpr ⟨not_isLineEnd_of_cont hc, hm⟩,
          by simpa using hlen⟩

/-- Input that ends inside a sequence is too short for it, and has no line end there. -/
theorem getConts_none (h : getConts n v p = none) :
    p.length < n ∧ ∀ d ∈ p, isLineEnd d = false := by
  induction n generalizing v p with
  | zero => simp [getConts] at h
  | succ n ih =>
    cases p with
    | nil => simp
    | cons c p =>
      rw [getConts] at h
      split at h
      · simp at h
      · next hc =>
        obtain ⟨hlen, hp⟩ := ih h
        exact ⟨by simpa using hlen, List.forall_mem_cons.mpr ⟨not_isLineEnd_of_cont hc, hp⟩⟩

theorem getConts_bound {v' : Nat} (h : getConts n v p = some (some v', p')) :
    v' < (v + 1) * 64 ^ n := by
  induction n generalizing v p with
  | zero =>
    simp only [getConts, Option.some.injEq, Prod.mk.injEq] at h
    omega
  | succ n ih =>
    cases p with
    | nil => simp [getConts] at h
    | cons c p =>
      rw [getConts] at h
      split at h
      · simp at h
      · next hc =>
        have hle : (c - 0x80).toNat ≤ 63 := UInt8.le_iff_toNat_le.mp (by simpa using hc)
        have hlt := ih h
        rw [Nat.shiftLeft_eq] at hlt
        calc v' < (v * 2 ^ 6 + (c - 0x80).toNat + 1) * 64 ^ n := hlt
          _ ≤ ((v + 1) * 64) * 64 ^ n := Nat.mul_le_mul_right _ (by omega)
          _ = (v + 1) * 64 ^ (n + 1) := by rw [Nat.mul_assoc, ← Nat.pow_succ']

theorem getSequence_some (h : getSequence n v invalid p = some (r, p')) :
    ∃ o, getConts n v p = some (o, p') ∧ (r = INVALID_RUNE ∨ o = some r ∧ invalid r = false) := by
  simp only [getSequence, Option.bind_eq_bind, Option.bind_eq_some_iff, Prod.exists] at h
  obtain ⟨o, p₁, hc, h⟩ := h
  cases o with
  | none =>
    simp only [Option.pure_def, Option.some.injEq, Prod.mk.injEq] at h
    exact ⟨none, by rw [hc, h.2], .inl h.1.symm⟩
  | some v₁ =>
    simp only [Option.pure_def, Option.some.injEq, Prod.mk.injEq] at h
    obtain ⟨hr, rfl⟩ := h
    refine ⟨some v₁, hc, ?_⟩
    split at hr
    · exact .inl hr.symm
    · next hi => exact .inr ⟨by rw [hr], by rw [← hr]; simpa using hi⟩

theorem getSequence_none (h : getSequence n v invalid p = none) : getConts n v p = none := by
  cases hc : getConts n v p with
  | none => rfl
  | some d =>
    obtain ⟨_ | v₁, p₁⟩ := d
    · simp [getSequence, hc] at h
    · simp [getSequence, hc] at h

/-- A byte that is a character of its own. -/
def byteRune (c : UInt8) : Nat := if c ≤ 0x7f then c.toNat else INVALID_RUNE

/-- The cases of `get_utf`: a byte of its own, or the first byte of a longer sequence. -/
theorem getUtf_cons (c : UInt8) (p : Str) :
    (clearanceUtf c = 1 ∧ getUtf (c :: p) = some (byteRune c, p)) ∨
      ∃ n v invalid, clearanceUtf c = n + 1 ∧ 1 ≤ n ∧ isLineEnd c = false ∧
      getUtf (c :: p) = getSequence n v invalid p ∧
        (∀ r, invalid r = false → 0x7f < r) ∧
        (∀ r, r < (v + 1) * 64 ^ n → invalid r = false → r ≤ 0x10ffff) := by
  simp only [getUtf, clearanceUtf, byteRune]
  by_cases h₁ : c ≤ 0x7f
  · exact .inl ⟨by simp [h₁], by simp [h₁]⟩
  · have hnl : isLineEnd c = false := by
      by_contra he
      rcases isLineEnd_iff.mp (by simpa using he) with rfl | rfl
      · exact h₁ (by decide)
      · exact h₁ (by decide)
    by_cases h₂ : c ≤ 0xbf
    · exact .inl ⟨by simp [h₁, h₂], by simp [h₁, h₂]⟩
    · by_cases h₃ : c ≤ 0xdf
      · refine .inr ⟨1, _, _, by simp [h₁, h₂, h₃], by omega, hnl,
          by rw [if_neg h₁, if_neg h₂, if_pos h₃], fun r hr => by simpa using hr,
          fun r hr _ => ?_⟩
        have hle : (c &&& 0x1f).toNat ≤ 31 := by rw [UInt8.toNat_and]; exact Nat.and_le_right
        omega
      · by_cases h₄ : c ≤ 0xef
        · refine .inr ⟨2, _, _, by simp [h₁, h₂, h₃, h₄], by omega, hnl,
            by rw [if_neg h₁, if_neg h₂, if_neg h₃, if_pos h₄], fun r hr => ?_,
            fun r hr _ => ?_⟩
          · simp only [Bool.or_eq_false_iff, decide_eq_false_iff_not] at hr
            omega
          · have hle : (c &&& 0x0f).toNat ≤ 15 := by rw [UInt8.toNat_and]; exact Nat.and_le_right
            omega
        · by_cases h₅ : c ≤ 0xf7
          · refine .inr ⟨3, _, _, by simp [h₁, h₂, h₃, h₄, h₅], by omega, hnl,
              by rw [if_neg h₁, if_neg h₂, if_neg h₃, if_neg h₄, if_pos h₅], fun r hr => ?_,
              fun r _ hr => ?_⟩
            · simp only [Bool.or_eq_false_iff, decide_eq_false_iff_not] at hr
              omega
            · simp only [Bool.or_eq_false_iff, decide_eq_false_iff_not] at hr
              omega
          · exact .inl ⟨by simp [h₁, h₂, h₃, h₄, h₅], by simp [h₁, h₂, h₃, h₄, h₅]⟩

/-- A character that ends a line. -/
def EndsLine (r : Nat) : Prop := r = 0x0a ∨ r = 0x0d

/-- What `get_utf` yields: the rest of the input is shorter, the bytes in between do not end a line,
and the character ends a line exactly when its first byte does. -/
theorem getUtf_some (h : getUtf (c :: p) = some (r, p')) :
    ∃ m, p = m ++ p' ∧ (∀ d ∈ m, isLineEnd d = false) ∧ (EndsLine r ↔ isLineEnd c = true) ∧
      (r ≤ 0x10ffff) := by
  rcases getUtf_cons c p with ⟨_, he⟩ | ⟨n, v, invalid, _, _, hl, he, hgt, hle⟩
  · rw [he, Option.some.injEq, Prod.mk.injEq] at h
    obtain ⟨rfl, rfl⟩ := h
    refine ⟨[], rfl, by simp, ?_, ?_⟩
    · rw [isLineEnd_iff]
      unfold byteRune EndsLine
      split
      · rw [← UInt8.toNat_inj, ← UInt8.toNat_inj]
        rfl
      · next hc =>
        constructor
        · rintro (h | h) <;> simp [INVALID_RUNE] at h
        · rintro (rfl | rfl) <;> exact absurd (by decide) hc
    · unfold byteRune
      have := c.toNat_lt
      split
      · omega
      · simp [INVALID_RUNE]
  · rw [he] at h
    obtain ⟨o, hc, hr⟩ := getSequence_some h
    obtain ⟨m, hm, hmem, _⟩ := getConts_some hc
    refine ⟨m, hm, hmem, ?_, ?_⟩
    · rw [hl]
      refine ⟨fun hend => ?_, by simp⟩
      rcases hr with rfl | ⟨rfl, hi⟩
      · rcases hend with h | h <;> simp [INVALID_RUNE] at h
      · have := hgt r hi
        rcases hend with rfl | rfl <;> omega
    · rcases hr with rfl | ⟨rfl, hi⟩
      · simp [INVALID_RUNE]
      · exact hle r (getConts_bound hc) hi

/-- Where `get_utf` needs more input, the input is shorter than its first byte asks for and has no
line end. -/
theorem getUtf_none (h : getUtf (c :: p) = none) :
    (c :: p).length < clearanceUtf c ∧ ∀ d ∈ c :: p, isLineEnd d = false := by
  rcases getUtf_cons c p with ⟨_, he⟩ | ⟨n, v, invalid, hc, _, hl, he, _⟩
  · rw [he] at h
    simp at h
  · rw [he] at h
    obtain ⟨hlen, hp⟩ := getConts_none (getSequence_none h)
    refine ⟨?_, List.forall_mem_cons.mpr ⟨hl, hp⟩⟩
    rw [hc, List.length_cons]
    omega

theorem clearanceUtf_pos (c : UInt8) : 1 ≤ clearanceUtf c := by
  rcases getUtf_cons c [] with ⟨hc, _⟩ | ⟨n, _, _, hc, _⟩
  · exact Nat.le_of_eq hc.symm
  · omega

/-- A byte that ends a line is a character of its own. -/
theorem clearanceUtf_of_lineEnd (h : isLineEnd c = true) : clearanceUtf c = 1 := by
  rcases isLineEnd_iff.mp h with rfl | rfl <;> decide

theorem getUtf_single (h : clearanceUtf c = 1) (p : Str) :
    getUtf (c :: p) = some (byteRune c, p) := by
  rcases getUtf_cons c p with ⟨_, he⟩ | ⟨n, v, invalid, hc, hn, _⟩
  · exact he
  · omega

theorem getUtf_length (h : getUtf (c :: p) = some (r, p')) : p'.length ≤ p.length := by
  obtain ⟨m, rfl, _⟩ := getUtf_some h
  simp

theorem decodeN_of_le {m : Nat} (hn : s.length ≤ n) (hm : s.length ≤ m) :
    decodeN n s = decodeN m s := by
  induction n generalizing s m with
  | zero =>
    obtain rfl : s = [] := List.length_eq_zero_iff.mp (by omega)
    cases m <;> rfl
  | succ n ih =>
    cases s with
    | nil => cases m <;> rfl
    | cons c p =>
      rw [List.length_cons] at hn hm
      cases m with
      | zero => omega
      | succ m =>
        rw [decodeN, decodeN]
        cases hg : getUtf (c :: p) with
        | none => rfl
        | some d =>
          obtain ⟨r, p'⟩ := d
          have := getUtf_length hg
          exact congrArg (r :: ·) (ih (by omega) (by omega))

@[simp] theorem decode_nil : decode [] = [] := rfl

theorem decode_cons (h : getUtf (c :: p) = some (r, p')) : decode (c :: p) = r :: decode p' := by
  have hlen := getUtf_length h
  rw [decode, List.length_cons, decodeN, h]
  exact congrArg (r :: ·) (decodeN_of_le hlen (Nat.le_refl _))

theorem decode_none (h : getUtf (c :: p) = none) : decode (c :: p) = [] := by
  rw [decode, List.length_cons, decodeN, h]

/-- Bytes that are characters of their own are decoded one by one. -/
theorem decode_append (h : ∀ c ∈ s, clearanceUtf c = 1) (t : Str) :
    decode (s ++ t) = s.map byteRune ++ decode t := by
  induction s with
  | nil => rfl
  | cons c s ih =>
    rw [List.cons_append, decode_cons (getUtf_single (h c List.mem_cons_self) _),
      ih fun d hd => h d (List.mem_cons_of_mem _ hd)]
    rfl

theorem getConts_append {o : Option Nat} (h : getConts n v p = some (o, p')) (t : Str) :
    getConts n v (p ++ t) = some (o, p' ++ t) := by
  induction n generalizing v p with
  | zero =>
    simp only [getConts, Option.some.injEq, Prod.mk.injEq] at h ⊢
    exact ⟨h.1, by rw [h.2]⟩
  | succ n ih =>
    cases p with
    | nil => simp [getConts] at h
    | cons c p =>
      rw [List.cons_append, getConts]
      rw [getConts] at h
      split at h
      · next hc =>
        simp only [Option.some.injEq, Prod.mk.injEq] at h
        rw [if_pos hc, ← h.1, ← h.2]
        rfl
      · next hc =>
        rw [if_neg hc]
        exact ih h

theorem getSequence_append (h : getSequence n v invalid p = some (r, p')) (t : Str) :
    getSequence n v invalid (p ++ t) = some (r, p' ++ t) := by
  unfold getSequence at h ⊢
  simp only [Option.bind_eq_bind, Option.bind_eq_some_iff, Prod.exists] at h ⊢
  obtain ⟨o, p₁, hc, h⟩ := h
  refine ⟨o, p₁ ++ t, getConts_append hc t, ?_⟩
  cases o with
  | none =>
    simp only [Option.pure_def, Option.some.injEq, Prod.mk.injEq] at h ⊢
    exact ⟨h.1, by rw [h.2]⟩
  | some v₁ =>
    simp only [Option.pure_def, Option.some.injEq, Prod.mk.injEq] at h ⊢
    exact ⟨h.1, by rw [h.2]⟩

/-- What `get_utf` yields does not depend on what follows. -/
theorem getUtf_append (h : getUtf (c :: p) = some (r, p')) (t : Str) :
    getUtf (c :: (p ++ t)) = some (r, p' ++ t) := by
  unfold getUtf at h ⊢
  dsimp only at h ⊢
  split at h
  · next h₁ =>
    rw [if_pos h₁]
    simp only [Option.some.injEq, Prod.mk.injEq] at h ⊢
    exact ⟨h.1, by rw [h.2]⟩
  · next h₁ =>
    rw [if_neg h₁]
    split at h
    · next h₂ =>
      rw [if_pos h₂]
      simp only [Option.some.injEq, Prod.mk.injEq] at h ⊢
      exact ⟨h.1, by rw [h.2]⟩
    · next h₂ =>
      rw [if_neg h₂]
      split at h
      · next h₃ => rw [if_pos h₃]; exact getSequence_append h t
      · next h₃ =>
        rw [if_neg h₃]
        split at h
        · next h₄ => rw [if_pos h₄]; exact getSequence_append h t
        · next h₄ =>
          rw [if_neg h₄]
          split at h
          · next h₅ => rw [if_pos h₅]; exact getSequence_append h t
          · next h₅ =>
            rw [if_neg h₅]
            simp only [Option.some.injEq, Prod.mk.injEq] at h ⊢
            exact ⟨h.1, by rw [h.2]⟩

/-- Bytes at whose end no sequence is cut off: each first byte has as many bytes after it as it asks
for. -/
inductive Whole : Str → Prop
  | nil : Whole []
  | cons {c : UInt8} {p p' : Str} {r : Nat} :
    clearanceUtf c ≤ (c :: p).length → getUtf (c :: p) = some (r, p') → Whole p' → Whole (c :: p)

/-- Such bytes are decoded without what follows them. -/
theorem Whole.decode (h : Whole s) (t : Str) :
    Net.decode (s ++ t) = Net.decode s ++ Net.decode t := by
  induction h with
  | nil => rfl
  | cons _ hg _ ih =>
    rw [List.cons_append, decode_cons (getUtf_append hg t), ih, decode_cons hg, List.cons_append]

/-- The decoded characters have a line end exactly when the bytes have one. -/
theorem decode_lineEnd (s : Str) : (∃ r ∈ decode s, EndsLine r) ↔ ∃ c ∈ s, isLineEnd c = true := by
  generalize hn : s.length = n
  induction n using Nat.strongRecOn generalizing s with
  | ind n ih =>
    cases s with
    | nil => simp
    | cons c p =>
      rw [List.length_cons] at hn
      cases hg : getUtf (c :: p) with
      | none =>
        rw [decode_none hg]
        have hp := (getUtf_none hg).2
        exact ⟨by simp, fun ⟨d, hd, he⟩ => by rw [hp d hd] at he; simp at he⟩
      | some d =>
        obtain ⟨r, p'⟩ := d
        obtain ⟨m, rfl, hm, hr, _⟩ := getUtf_some hg
        have hp' := ih p'.length (by rw [List.length_append] at hn; omega) p' rfl
        rw [decode_cons hg, List.exists_mem_cons_iff, hr, hp', List.exists_mem_cons_iff]
        refine or_congr .rfl ⟨fun ⟨d, hd, he⟩ => ⟨d, List.mem_append_right _ hd, he⟩,
          fun ⟨d, hd, he⟩ => ⟨d, ?_, he⟩⟩
        rcases List.mem_append.mp hd with hd | hd
        · rw [hm d hd] at he
          simp at he
        · exact hd

/-! ## Encoding a line -/

/-- A character that `put_utf` can write. -/
def Encodable (r : Nat) : Prop := r ≤ 0x10ffff ∧ ¬ (0xd800 ≤ r ∧ r ≤ 0xdfff)

theorem isCont_tail (y : Nat) : isCont (UInt8.ofNat (0x80 ||| (y &&& 0x3f))) = true := by
  have h : ∀ x < 64, isCont (UInt8.ofNat (0x80 ||| x)) = true := by decide
  exact h _ (Nat.lt_succ_of_le Nat.and_le_right)

/-- `put_utf` writes a first byte and bytes that continue it. -/
theorem putUtf_shape (h : Encodable r) :
    ∃ c m, putUtf r = some (c :: m) ∧ isCont c = false ∧ ∀ d ∈ m, isCont d = true := by
  unfold putUtf
  by_cases h₁ : r ≤ 0x7f
  · have hc : ∀ x < 128, isCont (UInt8.ofNat x) = false := by decide
    exact ⟨_, [], if_pos h₁, hc r (by omega), by simp⟩
  · rw [if_neg h₁]
    by_cases h₂ : r ≤ 0x7ff
    · have hc : ∀ x < 32, isCont (UInt8.ofNat (0xc0 ||| x)) = false := by decide
      have hr : r >>> 6 < 32 := by rw [Nat.shiftRight_eq_div_pow]; omega
      exact ⟨_, _, if_pos h₂, hc _ hr, List.forall_mem_cons.mpr ⟨isCont_tail _, by simp⟩⟩
    · rw [if_neg h₂]
      by_cases h₃ : r ≤ 0xffff
      · have hc : ∀ x < 16, isCont (UInt8.ofNat (0xe0 ||| x)) = false := by decide
        have hr : r >>> 12 < 16 := by rw [Nat.shiftRight_eq_div_pow]; omega
        rw [if_pos h₃, if_neg h.2]
        exact ⟨_, _, rfl, hc _ hr, by
          simp only [List.forall_mem_cons, isCont_tail, List.not_mem_nil, false_imp_iff,
            implies_true, and_self]⟩
      · have hc : ∀ x < 8, isCont (UInt8.ofNat (0xf0 ||| x)) = false := by decide
        have hr : r >>> 18 < 8 := by
          have := h.1
          rw [Nat.shiftRight_eq_div_pow]
          omega
        rw [if_neg h₃, if_pos h.1]
        exact ⟨_, _, rfl, hc _ hr, by
          simp only [List.forall_mem_cons, isCont_tail, List.not_mem_nil, false_imp_iff,
            implies_true, and_self]⟩

theorem encode_concat (l : List Nat) (r : Nat) : encode (l ++ [r]) = streamAddUtf (encode l) r := by
  simp [encode, streamAddUtf]

/-- Deleting from an encoded line deletes its last character. -/
theorem streamDeleteUtf_encode {l : List Nat} (h : ∀ r ∈ l, Encodable r) :
    streamDeleteUtf (encode l) = encode l.dropLast := by
  rcases List.eq_nil_or_concat l with rfl | ⟨l, r, rfl⟩
  · rfl
  · rw [List.concat_eq_append] at h ⊢
    obtain ⟨c, m, hput, hc, hm⟩ := putUtf_shape (h r (by simp))
    rw [List.dropLast_concat, encode_concat, streamAddUtf, hput, Option.getD_some, streamDeleteUtf,
      List.reverse_append,
      List.reverse_cons, List.append_assoc, List.dropWhile_append_of_pos (by simpa using hm),
      List.singleton_append,
      List.dropWhile_cons_of_neg (by simp [hc]), List.tail_cons, List.reverse_reverse]

end Net
end NuMoo
