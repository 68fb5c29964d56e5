import NuMoo.Net.Codec

/-!
# Strings by characters

`skip_utf` of `utf.c`. A `Text` is a string of the server that is valid UTF-8; byte offsets into
it are found by skipping characters.

Results:
1. `encode_injective`: no two texts have the same bytes.
2. `skipUtf_encode`: a count of characters is turned into the bytes they take. A negative count is a
   count without end.
-/

namespace NuMoo
namespace Net

/-- The loop of `skip_utf`, which counts an `int` down. The fuel is the memory. -/
def skipUtfN : Nat → Str → Int → Option Nat
  | 0, _, _ => none
  | _ + 1, [], _ => none
  | n + 1, c :: p, i =>
    if c = 0 ∨ i = 0 then some 0
    else
      match getUtf (c :: p) with
      | none => none
      | some (_, q) => (skipUtfN n q (int32 (i - 1))).map (· + ((c :: p).length - q.length))

/-- `skip_utf` -/
def skipUtf (s0 : Str) (i : Int) : Option Nat := skipUtfN s0.length s0 i

/-- A character that a string can hold. -/
def IsChar (r : Nat) : Prop := Encodable r ∧ r ≠ 0

instance (r : Nat) : Decidable (IsChar r) := inferInstanceAs (Decidable (_ ∧ _))

/-- A string that is valid UTF-8. Its length is kept in an `int`. -/
structure Text where
  chars : List Nat
  valid : ∀ r ∈ chars, IsChar r
  bytes_lt : (encode chars).length + 1 < 2 ^ 31

/-- The bytes of a text, without the NUL. -/
def Text.str (s : Text) : Str := encode s.chars

variable {cs ds : List Nat} {r n k : Nat} {p t : Str}

/-! ## Encodings -/

@[simp] theorem encode_nil : encode [] = [] := rfl

theorem encode_cons (r : Nat) (cs : List Nat) :
    encode (r :: cs) = (putUtf r).getD [] ++ encode cs := rfl

@[simp] theorem encode_append (cs ds : List Nat) : encode (cs ++ ds) = encode cs ++ encode ds := by
  simp [encode]

theorem IsChar.of_take (h : ∀ r ∈ cs, IsChar r) (k : Nat) : ∀ r ∈ cs.take k, IsChar r :=
  fun r hr => h r (List.mem_of_mem_take hr)

theorem IsChar.of_drop (h : ∀ r ∈ cs, IsChar r) (k : Nat) : ∀ r ∈ cs.drop k, IsChar r :=
  fun r hr => h r (List.mem_of_mem_drop hr)

/-- The first byte of a character is not the NUL. -/
theorem IsChar.cons (h : IsChar r) : ∃ c m, (putUtf r).getD [] = c :: m ∧ c ≠ 0 := by
  obtain ⟨c, m, hput, -, -⟩ := putUtf_shape h.1
  have hbytes : (putUtf r).getD [] = c :: m := by rw [hput, Option.getD_some]
  refine ⟨c, m, hbytes, ?_⟩
  rintro rfl
  have hread := getRune_putUtf h.1 []
  rw [hbytes, List.append_nil, getRune_nul] at hread
  exact h.2 (Option.some_inj.mp (congrArg Prod.fst (Option.some_inj.mp hread))).symm

/-- No two texts have the same bytes. -/
theorem encode_injective (hc : ∀ r ∈ cs, IsChar r) (hd : ∀ r ∈ ds, IsChar r) :
    encode cs = encode ds ↔ cs = ds := by
  refine ⟨fun h => ?_, fun h => h ▸ rfl⟩
  have hcs := scan_encode hc []
  rw [h, scan_encode hd [], Option.some_inj, Prod.mk.injEq] at hcs
  exact (Option.some_injective _).list_map hcs.1.symm

/-- Every character takes a byte at least. -/
theorem length_le_encode (h : ∀ r ∈ cs, IsChar r) : cs.length ≤ (encode cs).length := by
  induction cs with
  | nil => exact Nat.le_refl _
  | cons r cs ih =>
    obtain ⟨hr, hcs⟩ := List.forall_mem_cons.mp h
    obtain ⟨c, m, hbytes, -⟩ := hr.cons
    have htail := ih hcs
    rw [encode_cons, hbytes, List.length_cons, List.length_append, List.length_cons]
    omega

theorem drop_encode (cs : List Nat) (k : Nat) (t : Str) :
    (encode cs ++ t).drop (encode (cs.take k)).length = encode (cs.drop k) ++ t := by
  conv_lhs => rw [← List.take_append_drop k cs, encode_append, List.append_assoc]
  rw [List.take_append_drop, List.drop_left]

theorem take_encode (cs : List Nat) (k : Nat) :
    (encode cs).take (encode (cs.take k)).length = encode (cs.take k) := by
  conv_lhs => rw [← List.take_append_drop k cs, encode_append]
  rw [List.take_append_drop, List.take_left]

/-! ## Skipping -/

/-- The count is a number of turns modulo `2^32`, by induction on the characters. -/
theorem skipUtfN_encode (h : ∀ r ∈ cs, IsChar r) (hn : cs.length < n) (t : Str) (i : Int)
    (hi : int32 i = i) :
    skipUtfN n (encode cs ++ 0 :: t) i = some (encode (cs.take (i % 2 ^ 32).toNat)).length := by
  induction cs generalizing n i with
  | nil =>
    obtain ⟨n, rfl⟩ := Nat.exists_eq_succ_of_ne_zero (Nat.ne_of_gt hn)
    rw [encode_nil, List.nil_append, skipUtfN, if_pos (.inl rfl), List.take_nil]
    rfl
  | cons r cs ih =>
    obtain ⟨n, rfl⟩ := Nat.exists_eq_succ_of_ne_zero (Nat.ne_of_gt (Nat.zero_lt_of_lt hn))
    obtain ⟨hr, hcs⟩ := List.forall_mem_cons.mp h
    obtain ⟨c, m, hbytes, hc⟩ := hr.cons
    have hbounds := int32_bounds i
    rw [hi] at hbounds
    rw [encode_cons, hbytes, List.append_assoc, List.cons_append, skipUtfN]
    split
    · next hstop =>
      obtain rfl : i = 0 := hstop.resolve_left hc
      rfl
    · next hgo =>
      have hzero : i ≠ 0 := fun h => hgo (.inr h)
      have hread : getUtf (c :: (m ++ (encode cs ++ 0 :: t))) = some (r, encode cs ++ 0 :: t) := by
        have hrune := getRune_putUtf hr.1 (encode cs ++ 0 :: t)
        rw [hbytes, List.cons_append] at hrune
        rw [getUtf_eq, hrune]
        rfl
      have hturns : (i % 2 ^ 32).toNat = (int32 (i - 1) % 2 ^ 32).toNat + 1 := by
        rw [int32_emod]
        omega
      rw [hread]
      dsimp only
      rw [ih hcs (Nat.lt_of_succ_lt_succ hn) _ (int32_int32 _), hturns, List.take_succ_cons,
        encode_cons, hbytes,
        Option.map_some]
      simp only [List.length_cons, List.length_append]
      congr 1
      omega

/-- Skipping characters of a text: a negative count is larger than any text is long. -/
theorem skipUtf_encode (h : ∀ r ∈ cs, IsChar r) (t : Str) (i : Int) (hi : int32 i = i) :
    skipUtf (encode cs ++ 0 :: t) i = some (encode (cs.take (i % 2 ^ 32).toNat)).length := by
  refine skipUtfN_encode h ?_ t i hi
  have hlen := length_le_encode h
  rw [List.length_append, List.length_cons]
  omega

theorem Text.length_lt (s : Text) : s.chars.length + 1 < 2 ^ 31 :=
  Nat.lt_of_le_of_lt (Nat.succ_le_succ (length_le_encode s.valid)) s.bytes_lt

theorem Text.strlenUtf (s : Text) : strlenUtf (s.str ++ [0]) = some s.chars.length :=
  strlenUtf_encode s.valid []

end Net
end NuMoo
