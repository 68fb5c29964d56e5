import NuMoo.Net.Text

/-!
# Subranges

`OP_RANGE_REF` with `sublist` and `substr`, and `EOP_RANGESET` with `listrangeset` and
`strrangeset`. The bounds are 64-bit values that are handed on as `int`s. A read outside the
elements of a list has no value.

Results:
1. `substr_encode` and `strrangeset_encode`: what the two functions do to the characters of a text.
2. `rangeRef_exact_iff`: when a subrange is the one that its bounds say.
3. `rangeSet_exact_iff`: when a string is changed as the list of its characters would be, and that a
   list is changed as it is meant to be.
-/

namespace NuMoo

open Net

/-- The element of a list at an index, counted from one. -/
def element {α : Type} (l : List α) (i : Int) : Option α :=
  if 1 ≤ i then l[(i - 1).toNat]? else none

/-- The loop that copies elements of a list, from an index on. -/
def elements {α : Type} (l : List α) : Int → Nat → Option (List α)
  | _, 0 => some []
  | i, n + 1 => do
    let x ← element l i
    return x :: (← elements l (i + 1) n)

/-- `sublist` -/
def sublist {α : Type} (list : List α) (lower upper : Int) : Option (List α) :=
  if lower > upper then some [] else elements list lower (upper - lower + 1).toNat

/-- `substr` -/
def substr (str : Str) (lower upper : Int) : Option Str :=
  if lower > upper then some []
  else do
    let lowerInd ← skipUtf (str ++ [0]) (int32 (lower - 1))
    let length ← skipUtf ((str ++ [0]).drop lowerInd) (int32 (upper + 1 - lower))
    return (str.drop lowerInd).take length

/-- What `OP_RANGE_REF` does with a base of the length `len`; `part` is what `substr` or `sublist`
returns. -/
def rangeRefOf (len f t : Int) (part : Option Var) : Option (Except ErrCode Var) :=
  if f ≤ t ∧ (f ≤ 0 ∨ f > len ∨ t ≤ 0 ∨ t > len) then some (.error .E_RANGE) else part.map .ok

/-- `OP_RANGE_REF` on its three operands. -/
def rangeRef (base f t : Var) : Option (Except ErrCode Var) :=
  match base, t, f with
  | .str s, .int t, .int f => do
    let len ← strlenUtf (s ++ [0])
    rangeRefOf (int32 len) f t ((substr s (int32 f) (int32 t)).map .str)
  | .list l, .int t, .int f =>
    rangeRefOf (int32 l.length) f t ((sublist l (int32 f) (int32 t)).map .list)
  | _, _, _ => some (.error .E_TYPE)

/-- `rangeset_check`, whether the range is outside. -/
def rangesetCheck (last f t : Int) : Bool := f > int32 (last + 1) || t < 0

/-- `listrangeset` -/
def listrangeset {α : Type} (base : List α) (f t : Int) (value : List α) : Option (List α) := do
  let lenleft := if f > 1 then f - 1 else 0
  let lenright := if base.length > t then base.length - t else 0
  let left ← elements base 1 lenleft.toNat
  let right ← elements base (t + 1) lenright.toNat
  return left ++ value ++ right

/-- `strrangeset` -/
def strrangeset (base : Str) (f t : Int) (value : Str) : Option Str := do
  let charsleft := if f > 1 then f - 1 else 0
  let lenleft ← skipUtf (base ++ [0]) charsleft
  let skipped ← skipUtf ((base ++ [0]).drop lenleft) (int32 (t - f + 1))
  return base.take lenleft ++ value ++ base.drop (lenleft + skipped)

/-- `EOP_RANGESET` on its four operands. -/
def rangeSet (base f t value : Var) : Option (Except ErrCode Var) :=
  match base, t, f, value with
  | .str s, .int t, .int f, .str v =>
    if rangesetCheck s.length (int32 f) (int32 t) then some (.error .E_RANGE)
    else (strrangeset s (int32 f) (int32 t) v).map (.ok ∘ .str)
  | .list l, .int t, .int f, .list v =>
    if rangesetCheck (int32 l.length) (int32 f) (int32 t) then some (.error .E_RANGE)
    else (listrangeset l (int32 f) (int32 t) v).map (.ok ∘ .list)
  | _, _, _, _ => some (.error .E_TYPE)

/-- A list of the server, whose length is an `int`. -/
structure Elements (α : Type) where
  elems : List α
  length_lt : elems.length + 1 < 2 ^ 31

/-- The subrange that a reference means. -/
def subrange {α : Type} (l : List α) (f t : Int) : Except ErrCode (List α) :=
  if t < f then .ok []
  else if 1 ≤ f ∧ f ≤ l.length ∧ 1 ≤ t ∧ t ≤ l.length then
    .ok ((l.drop (f - 1).toNat).take (t - f + 1).toNat)
  else .error .E_RANGE

/-- The list that an assignment to a subrange means. -/
def splice {α : Type} (l v : List α) (f t : Int) : Except ErrCode (List α) :=
  if l.length + 1 < f ∨ t < 0 then .error .E_RANGE
  else .ok (l.take (f - 1).toNat ++ v ++ l.drop t.toNat)

/-- Bounds in the wrong order whose low halves are in the right one. -/
def Misordered (f t : Int) : Prop := t < f ∧ int32 f ≤ int32 t

instance (f t : Int) : Decidable (Misordered f t) := inferInstanceAs (Decidable (_ ∧ _))

/-- The bounds between which a string of so many bytes is changed as the list of its characters `cs`
is. A range that is refused has to be refused for the bytes too. Otherwise a range that starts in
the string may not end before the character in front of it, and one that starts before the string
has to cover it. Bounds that lose their high halves are right if the low halves are; where these
begin inside the string, the characters that are kept have to be the same string before the value
and behind it. -/
def SplicesExactly (cs v : List Nat) (bytes : Nat) (f t : Int) : Prop :=
  if cs.length + 1 < f ∨ t < 0 then bytes + 1 < int32 f ∨ int32 t < 0
  else
    int32 f ≤ bytes + 1 ∧ 0 ≤ int32 t ∧
      if 1 ≤ f then
        if t < 2 ^ 31 then f ≤ t + 1 else int32 t < f - 1 ∨ cs.length ≤ int32 t
      else if int32 f ≤ 1 then
        (if t < 2 ^ 31 then int32 f = 1 ∨ cs.length ≤ t else cs.length ≤ int32 t + 1 - int32 f) ∧
          ¬ (int32 f = -2 ^ 31 ∧ int32 t = 2 ^ 31 - 1 ∧ cs ≠ [])
      else
        t < int32 f - 1 ∧ min (int32 f - 1) cs.length = cs.length - t ∧
          cs.take (cs.length - t).toNat ++ v = v ++ cs.drop t.toNat

variable {α : Type} {l v : List α} {f t i lower upper : Int} {n : Nat}

/-! ## Elements -/

theorem element_natCast (l : List α) (i : Nat) : element l (i + 1) = l[i]? := by
  rw [element, if_pos (by omega)]
  congr 1
  omega

/-- Elements within the list are copied, -/
theorem elements_eq (l : List α) (k n : Nat) (h : k + n ≤ l.length) :
    elements l (k + 1) n = some ((l.drop k).take n) := by
  induction n generalizing k with
  | zero => rfl
  | succ n ih =>
    have hk : k < l.length := by omega
    have hnext := ih (k + 1) (by omega)
    rw [Nat.cast_succ] at hnext
    rw [elements, element_natCast, List.getElem?_eq_getElem hk, List.drop_eq_getElem_cons hk,
      List.take_succ_cons, hnext]
    rfl

/-- and nothing is copied from outside. -/
theorem elements_outside (h : i < 1 ∨ (l.length : Int) < i + n) : elements l i (n + 1) = none := by
  induction n generalizing i with
  | zero =>
    have hnone : element l i = none := by
      unfold element
      split
      · exact List.getElem?_eq_none (by omega)
      · rfl
    rw [elements, hnone]
    rfl
  | succ n ih =>
    rw [elements]
    cases hx : element l i with
    | none => rfl
    | some x =>
      have h1 : 1 ≤ i := by
        by_contra hlt
        rw [element, if_neg hlt] at hx
        cases hx
      rw [ih (i := i + 1) (by omega)]
      rfl

/-! ## References -/

/-- Bounds of a list in the right order: the elements between them, or a read outside. -/
theorem sublist_of_le (h : lower ≤ upper) :
    sublist l lower upper =
      if 1 ≤ lower ∧ upper ≤ l.length then
        some ((l.drop (lower - 1).toNat).take (upper - lower + 1).toNat) else none := by
  rw [sublist, if_neg (Int.not_lt.mpr h)]
  split
  · next hin =>
    have hfirst : lower = ((lower - 1).toNat : Int) + 1 := by omega
    conv_lhs => rw [hfirst]
    rw [elements_eq l (lower - 1).toNat _ (by omega)]
    congr 3
    omega
  · next hout =>
    obtain ⟨n, hn⟩ : ∃ n : Nat, (upper - lower + 1).toNat = n + 1 :=
      ⟨(upper - lower).toNat, by omega⟩
    rw [hn]
    exact elements_outside (by omega)

/-- `substr` on the characters of a text: both counts are taken modulo `2^32`. -/
theorem substr_encode {cs : List Nat} (h : ∀ r ∈ cs, IsChar r) :
    substr (encode cs) lower upper =
      some (if lower > upper then []
        else encode ((cs.drop ((lower - 1) % 2 ^ 32).toNat).take
          ((upper + 1 - lower) % 2 ^ 32).toNat)) := by
  unfold substr
  split
  · rfl
  · rw [skipUtf_encode h _ _ (int32_int32 _), int32_emod]
    dsimp only [Option.bind_eq_bind, Option.bind_some]
    have hrest : (encode cs).drop (encode (cs.take ((lower - 1) % 2 ^ 32).toNat)).length =
        encode (cs.drop ((lower - 1) % 2 ^ 32).toNat) := by
      have hdrop := drop_encode cs ((lower - 1) % 2 ^ 32).toNat []
      rwa [List.append_nil, List.append_nil] at hdrop
    rw [drop_encode, skipUtf_encode (IsChar.of_drop h _) _ _ (int32_int32 _), int32_emod,
      Option.bind_some, hrest, take_encode]
    rfl

theorem rangeRefOf_of_le {len : Int} (h : f ≤ t) (part : Option Var) :
    rangeRefOf len f t part =
      if 1 ≤ f ∧ f ≤ len ∧ 1 ≤ t ∧ t ≤ len then part.map .ok else some (.error .E_RANGE) := by
  rw [rangeRefOf]
  split
  · next hout => rw [if_neg (by omega)]
  · next hin => rw [if_pos (by omega)]

theorem rangeRefOf_of_lt {len : Int} (h : t < f) (part : Option Var) :
    rangeRefOf len f t part = part.map .ok :=
  if_neg (by omega)

/-- Bounds in the right order are checked before they are cut down to `int`s. -/
theorem rangeRefOf_exact {len : Nat} (hlen : len + 1 < 2 ^ 31) (h : f ≤ t)
    {P : Int → Int → Option Var} {spec : Except ErrCode Var}
    (hin : 1 ≤ f ∧ f ≤ len ∧ 1 ≤ t ∧ t ≤ len → (P f t).map .ok = some spec)
    (hout : ¬ (1 ≤ f ∧ f ≤ len ∧ 1 ≤ t ∧ t ≤ len) → spec = .error .E_RANGE) :
    rangeRefOf (int32 len) f t (P (int32 f) (int32 t)) = some spec := by
  have hint : int32 len = len := int32_eq_self (by omega) (by omega)
  rw [rangeRefOf_of_le h, hint]
  split
  · next hin' =>
    rw [int32_eq_self (n := f) (by omega) (by omega), int32_eq_self (n := t) (by omega) (by omega)]
    exact hin hin'
  · next hout' => rw [hout hout']

theorem rangeRef_list_iff (l : Elements Var) (f t : Int) :
    rangeRef (.list l.elems) (.int f) (.int t) = some ((subrange l.elems f t).map .list) ↔
    ¬ Misordered f t := by
  have hlen := l.length_lt
  rcases lt_or_ge t f with hlt | hle
  · rw [rangeRef, rangeRefOf_of_lt hlt, subrange, if_pos hlt]
    constructor
    · rintro h ⟨-, horder⟩
      have hcount : (int32 t - int32 f + 1).toNat ≠ 0 := by omega
      rw [sublist_of_le horder] at h
      split at h
      · next hin =>
        simp only [Option.map_some, Except.map, Option.some_inj, Except.ok.injEq, Var.list.injEq,
          List.take_eq_nil_iff, hcount,
          false_or, List.drop_eq_nil_iff] at h
        omega
      · cases h
    · intro h
      have horder : int32 f > int32 t := by
        by_contra hn
        exact h ⟨hlt, Int.not_lt.mp hn⟩
      rw [sublist, if_pos horder]
      rfl
  · have hm : ¬ Misordered f t := fun h => absurd h.1 (Int.not_lt.mpr hle)
    refine ⟨fun _ => hm, fun _ => ?_⟩
    rw [rangeRef, subrange, if_neg (Int.not_lt.mpr hle)]
    refine rangeRefOf_exact (P := fun f t => (sublist l.elems f t).map .list) hlen hle
      (fun hin => ?_) fun hout => ?_
    · rw [sublist_of_le hle, if_pos ⟨hin.1, hin.2.2.2⟩, if_pos hin]
      rfl
    · rw [if_neg hout]
      rfl

theorem rangeRef_text_iff (s : Text) (f t : Int) :
    rangeRef (.str s.str) (.int f) (.int t) = some ((subrange s.chars f t).map (.str ∘ encode)) ↔
      ¬ (Misordered f t ∧ 1 ≤ int32 f ∧ int32 f ≤ s.chars.length) := by
  have hlen := s.length_lt
  have hbounds := int32_bounds f
  have hbounds' := int32_bounds t
  have hsub : ∀ lower upper : Int, (substr s.str lower upper).map Var.str = some (.str
      (if lower > upper then []
        else encode ((s.chars.drop ((lower - 1) % 2 ^ 32).toNat).take
          ((upper + 1 - lower) % 2 ^ 32).toNat))) :=
    fun lower upper => congrArg (Option.map Var.str) (substr_encode s.valid)
  rw [rangeRef, s.strlenUtf, Option.bind_eq_bind, Option.bind_some]
  rcases lt_or_ge t f with hlt | hle
  · rw [rangeRefOf_of_lt hlt, subrange, if_pos hlt, hsub]
    split
    · next horder => exact iff_of_true rfl fun h => absurd h.1.2 (Int.not_le.mpr horder)
    · next horder =>
      have hval : ∀ cs : List Nat, (∀ r ∈ cs, IsChar r) →
          ((some (Var.str (encode cs))).map (Except.ok (ε := ErrCode)) =
            some (((.ok [] : Except ErrCode (List Nat))).map (Var.str ∘ encode)) ↔ cs = []) := by
        intro cs hcs
        rw [← encode_injective hcs (List.forall_mem_nil _)]
        simp [Except.map]
      rw [hval _ (IsChar.of_take (IsChar.of_drop s.valid _) _), List.take_eq_nil_iff,
        List.drop_eq_nil_iff]
      have hm : Misordered f t := ⟨hlt, Int.not_lt.mp horder⟩
      simp only [hm, true_and]
      omega
  · have hm : ¬ Misordered f t := fun h => absurd h.1 (Int.not_lt.mpr hle)
    refine ⟨fun _ h => hm h.1, fun _ => ?_⟩
    rw [subrange, if_neg (Int.not_lt.mpr hle)]
    refine rangeRefOf_exact (P := fun f t => (substr s.str f t).map .str) hlen hle
      (fun hin => ?_) fun hout => ?_
    · rw [hsub, if_neg (Int.not_lt.mpr hle), if_pos hin]
      have hfirst : ((f - 1) % 2 ^ 32).toNat = (f - 1).toNat := by omega
      have hcount : ((t + 1 - f) % 2 ^ 32).toNat = (t - f + 1).toNat := by omega
      rw [hfirst, hcount]
      rfl
    · rw [if_neg hout]
      rfl

/-- A reference is exact, without a read outside, unless its bounds come in the wrong order and
their low halves in the right one; then a list is always wrong, and a text is if it has a character
there. -/
theorem rangeRef_exact_iff (f t : Int64) :
    (∀ l : Elements Var,
      rangeRef (.list l.elems) (.int f.toInt) (.int t.toInt) =
        some ((subrange l.elems f.toInt t.toInt).map .list) ↔
        ¬ Misordered f.toInt t.toInt) ∧
      ∀ s : Text,
        rangeRef (.str s.str) (.int f.toInt) (.int t.toInt) =
          some ((subrange s.chars f.toInt t.toInt).map (.str ∘ encode)) ↔
          ¬ (Misordered f.toInt t.toInt ∧ 1 ≤ int32 f.toInt ∧ int32 f.toInt ≤ s.chars.length) :=
  ⟨fun l => rangeRef_list_iff l f.toInt t.toInt, fun s => rangeRef_text_iff s f.toInt t.toInt⟩

/-- From `2^32 + 1` to `1`: the first element instead of none. -/
theorem rangeRef_misordered :
    rangeRef (.list [.obj 7]) (.int (2 ^ 32 + 1)) (.int 1) = some (.ok (.list [.obj 7])) ∧
      subrange [Var.obj 7] (2 ^ 32 + 1) 1 = .ok [] :=
  ⟨by rfl, by rfl⟩

/-! ## Assignments -/

/-- The list version does what is meant, for `int`s that pass the check. -/
theorem listrangeset_eq (base value : List α) (hf : f ≤ base.length + 1) (ht : 0 ≤ t) :
    (listrangeset base f t value).map .ok = some (splice base value f t) := by
  have hleft : (if f > 1 then f - 1 else 0).toNat = (f - 1).toNat := by
    split <;> omega
  have hright : (if (base.length : Int) > t then base.length - t else 0).toNat =
      base.length - t.toNat := by
    split <;> omega
  have hcopyleft : elements base 1 (f - 1).toNat = some (base.take (f - 1).toNat) :=
    elements_eq base 0 _ (by omega)
  have hcopyright : elements base (t + 1) (base.length - t.toNat) = some (base.drop t.toNat) := by
    lift t to Nat using ht
    rcases Nat.le_total t base.length with hle | hle
    · rw [Int.toNat_natCast, elements_eq base t _ (by omega),
        List.take_of_length_le (by rw [List.length_drop])]
    · rw [Int.toNat_natCast, Nat.sub_eq_zero_of_le hle, List.drop_eq_nil_of_le hle]
      rfl
  rw [listrangeset, hleft, hright, hcopyleft, hcopyright, splice, if_neg (by omega)]
  rfl

/-- `strrangeset` on the characters of texts: what it leaves out of the base is counted from the end
of the left part, modulo `2^32`. -/
theorem strrangeset_encode {cs : List Nat} (h : ∀ r ∈ cs, IsChar r) (value : List Nat)
    (hf : int32 f = f) :
    strrangeset (encode cs) f t (encode value) =
      some (encode (cs.take (f - 1).toNat ++ value ++
        cs.drop ((f - 1).toNat + ((t - f + 1) % 2 ^ 32).toNat))) := by
  have hbounds := int32_bounds f
  rw [hf] at hbounds
  have hcount : int32 (if f > 1 then f - 1 else 0) = if f > 1 then f - 1 else 0 :=
    int32_eq_self (by split <;> omega) (by split <;> omega)
  have hleft : ((if f > 1 then f - 1 else 0) % 2 ^ 32).toNat = (f - 1).toNat := by
    split <;> omega
  rw [strrangeset, skipUtf_encode h _ _ hcount, hleft]
  dsimp only [Option.bind_eq_bind, Option.bind_some]
  rw [drop_encode, skipUtf_encode (IsChar.of_drop h _) _ _ (int32_int32 _), int32_emod,
    Option.bind_some]
  generalize (f - 1).toNat = k
  generalize ((t - f + 1) % 2 ^ 32).toNat = m
  have hright : (encode cs).drop ((encode (cs.take k)).length +
    (encode ((cs.drop k).take m)).length) = encode (cs.drop (k + m)) := by
    have hdrop := drop_encode cs k []
    have hdrop' := drop_encode (cs.drop k) m []
    rw [List.append_nil, List.append_nil] at hdrop hdrop'
    rw [← List.drop_drop, hdrop, hdrop', List.drop_drop]
  rw [take_encode, hright, encode_append, encode_append]
  rfl

/-- With the same left part, the right parts have to begin at the same element. -/
theorem splice_eq_iff (l v : List α) (k a b : Nat) :
    l.take k ++ v ++ l.drop a = l.take k ++ v ++ l.drop b ↔ min a l.length = min b l.length := by
  rw [List.append_cancel_left_eq]
  constructor
  · intro h
    have hlen := congrArg List.length h
    rw [List.length_drop, List.length_drop] at hlen
    omega
  · intro h
    rcases Nat.lt_or_ge a l.length with ha | ha
    · obtain rfl : a = b := by omega
      rfl
    · rw [List.drop_eq_nil_of_le ha, List.drop_eq_nil_of_le (by omega)]

/-- With more of the list kept on the left, as much less has to be kept on the right, and what is
kept too much is what is missing. -/
theorem splice_eq_iff_rotated (l v : List α) {k a b : Nat} (hk : k ≤ l.length) :
    l.take k ++ v ++ l.drop a = v ++ l.drop b ↔
      k + (l.length - a) = l.length - b ∧ l.take k ++ v = v ++ (l.drop b).take k := by
  have hdrop : k + (l.length - a) = l.length - b → (l.drop b).drop k = l.drop a := by
    intro hlen
    have h := splice_eq_iff l [] 0 (b + k) a
    rw [List.take_zero, List.nil_append, List.nil_append, List.nil_append] at h
    rw [List.drop_drop, h]
    omega
  constructor
  · intro h
    have hlen : k + (l.length - a) = l.length - b := by
      have hlen := congrArg List.length h
      simp only [List.length_append, List.length_take, List.length_drop, Nat.min_eq_left hk] at hlen
      omega
    rw [← List.take_append_drop k (l.drop b), hdrop hlen, ← List.append_assoc] at h
    exact ⟨hlen, List.append_cancel_right h⟩
  · rintro ⟨hlen, h⟩
    rw [h, List.append_assoc, ← hdrop hlen, List.take_append_drop]

/-- Where the right part begins: a negative count leaves nothing of the string, and only one pair of
bounds makes the count overflow to zero. -/
theorem rightStart_eq {n : Nat} (hn : n < 2 ^ 31) (hlo : -2 ^ 31 ≤ f) (hhi : f < 2 ^ 31)
    (ht : 0 ≤ t) (hthi : t < 2 ^ 31) :
    (min ((f - 1).toNat + ((t - f + 1) % 2 ^ 32).toNat) n : Int) =
      if t < f - 1 then (n : Int) else if f = -2 ^ 31 ∧ t = 2 ^ 31 - 1 then 0
        else min (t - min (f - 1) 0) n := by
  split
  · next hlt =>
    have hcount : (t - f + 1) % 2 ^ 32 = 2 ^ 32 + (t - f + 1) := by omega
    rw [hcount]
    omega
  · next hge =>
    split
    · next hcorner =>
      obtain ⟨rfl, rfl⟩ := hcorner
      exact Nat.cast_zero
    · next hcorner =>
      have hcount : (t - f + 1) % 2 ^ 32 = t - f + 1 := by omega
      rw [hcount]
      omega

/-- An assignment within the bounds: by what becomes of the bounds on the way to `int`s. -/
theorem splice_iff {cs v : List Nat} {bytes : Nat} (hbytes : bytes + 1 < 2 ^ 31)
    (hlen : cs.length ≤ bytes)
    (hempty : cs.length = 0 → bytes = 0) (hin : ¬ (cs.length + 1 < f ∨ t < 0))
    (hf : int32 f ≤ bytes + 1) (ht : 0 ≤ int32 t) :
    cs.take (int32 f - 1).toNat ++ v ++ cs.drop ((int32 f - 1).toNat +
      ((int32 t - int32 f + 1) % 2 ^ 32).toNat) =
        cs.take (f - 1).toNat ++ v ++ cs.drop t.toNat ↔
      SplicesExactly cs v bytes f t := by
  obtain ⟨hlo, hhi⟩ := int32_bounds f
  obtain ⟨-, hthi⟩ := int32_bounds t
  have hint : t < 2 ^ 31 → int32 t = t := fun h => int32_eq_self (by omega) h
  have hint' : 1 ≤ f → int32 f = f := fun h => int32_eq_self (by omega) (by omega)
  have hnil : cs ≠ [] ↔ cs.length ≠ 0 := by rw [Ne, ← List.length_eq_zero_iff]
  have hright := rightStart_eq (n := cs.length) (by omega) hlo hhi ht hthi
  rw [SplicesExactly, if_neg hin]
  simp only [hf, ht, true_and, hnil]
  generalize ((int32 t - int32 f + 1) % 2 ^ 32).toNat = c at hright ⊢
  generalize int32 t = t' at *
  generalize int32 f = f' at *
  -- the bounds are cut, and the start of the right part is counted from the cut ones
  split
  · next h1 =>
    obtain rfl := hint' h1
    rw [splice_eq_iff]
    split
    · next hlt =>
      obtain rfl := hint hlt
      split at hright <;> omega
    · next hge => split at hright <;> omega
  · next h1 =>
    have hzero : (f - 1).toNat = 0 := by omega
    rw [hzero, List.take_zero]
    split
    · next hle =>
      have hzero' : (f' - 1).toNat = 0 := by omega
      have hsame := splice_eq_iff cs v 0 ((f' - 1).toNat + c) t.toNat
      rw [List.take_zero] at hsame
      rw [hzero', List.take_zero, ← hzero', hsame]
      split
      · next hlt =>
        obtain rfl := hint hlt
        split at hright <;> omega
      · next hge => split at hright <;> omega
    · next hgt =>
      have hmin : cs.take (f' - 1).toNat = cs.take (min (f' - 1).toNat cs.length) := by
        rw [List.take_eq_take_min]
      have hall : (cs.drop t.toNat).take (cs.length - t).toNat = cs.drop t.toNat :=
        List.take_of_length_le (by rw [List.length_drop]; omega)
      -- a start that wraps to the right: equal only if the texts are rotations of each other
      rw [List.nil_append, hmin, splice_eq_iff_rotated cs v (Nat.min_le_right _ _)]
      constructor
      · rintro ⟨hcount, hword⟩
        have hlt : t < 2 ^ 31 := by
          by_contra hge
          omega
        obtain rfl := hint hlt
        have hkept : min (f' - 1).toNat cs.length = (cs.length - t').toNat ∧ t' < f' - 1 := by
          split at hright <;> omega
        rw [hkept.1, hall] at hword
        exact ⟨hkept.2, by omega, hword⟩
      · rintro ⟨hlt, hcount, hword⟩
        have hkept : min (f' - 1).toNat cs.length = (cs.length - t).toNat := by omega
        obtain rfl := hint (by omega)
        rw [if_pos hlt] at hright
        rw [hkept, hall]
        exact ⟨by omega, hword⟩

theorem isChar_splice (s v : Text) (k m : Nat) :
    ∀ r ∈ s.chars.take k ++ v.chars ++ s.chars.drop m, IsChar r := by
  intro r hr
  rcases List.mem_append.mp hr with hr | hr
  · rcases List.mem_append.mp hr with hr | hr
    · exact IsChar.of_take s.valid k r hr
    · exact v.valid r hr
  · exact IsChar.of_drop s.valid m r hr

/-- A list is changed as it is meant to be, if the bounds are `int`s. -/
theorem rangeSet_list (l : Elements Var) (v : List Var) (hf : int32 f = f) (ht : int32 t = t) :
    rangeSet (.list l.elems) (.int f) (.int t) (.list v) =
      some ((splice l.elems v f t).map .list) := by
  have hlength := l.length_lt
  have hlen : int32 l.elems.length = l.elems.length := int32_eq_self (by omega) (by omega)
  have hlast : int32 ((l.elems.length : Int) + 1) = l.elems.length + 1 :=
    int32_eq_self (by omega) (by omega)
  have hcheck : rangesetCheck l.elems.length f t = true ↔ l.elems.length + 1 < f ∨ t < 0 := by
    rw [rangesetCheck, hlast, Bool.or_eq_true, decide_eq_true_iff, decide_eq_true_iff]
  rw [rangeSet, hlen, hf, ht]
  split
  · next hout =>
    rw [splice, if_pos (hcheck.mp hout)]
    rfl
  · next hin =>
    rw [hcheck] at hin
    have hset := listrangeset_eq l.elems v (f := f) (t := t) (by omega) (by omega)
    cases hr : listrangeset l.elems f t v with
    | none =>
      rw [hr] at hset
      cases hset
    | some r =>
      rw [hr] at hset
      rw [← Option.some.inj hset]
      rfl

/-- Strings are changed as lists of characters exactly within these bounds. -/
theorem rangeSet_str_iff (s v : Text) (f t : Int64) :
    rangeSet (.str s.str) (.int f.toInt) (.int t.toInt) (.str v.str) =
        some ((splice s.chars v.chars f.toInt t.toInt).map (.str ∘ encode)) ↔
      SplicesExactly s.chars v.chars s.str.length f.toInt t.toInt := by
  generalize f.toInt = f
  generalize t.toInt = t
  have hbytes : s.str.length + 1 < 2 ^ 31 := s.bytes_lt
  have hlast : int32 (s.str.length + 1) = s.str.length + 1 := int32_eq_self (by omega) (by omega)
  have hcheck : rangesetCheck s.str.length (int32 f) (int32 t) = true ↔
      s.str.length + 1 < int32 f ∨ int32 t < 0 := by
    rw [rangesetCheck, hlast, Bool.or_eq_true, decide_eq_true_iff, decide_eq_true_iff]
  rw [rangeSet]
  split
  · next hrefused =>
    rw [hcheck] at hrefused
    by_cases hout : (s.chars.length : Int) + 1 < f ∨ t < 0
    · rw [splice, if_pos hout, SplicesExactly, if_pos hout]
      exact iff_of_true rfl hrefused
    · rw [splice, if_neg hout, SplicesExactly, if_neg hout]
      exact iff_of_false nofun fun h => by omega
  · next haccepted =>
    rw [hcheck] at haccepted
    have hval : strrangeset s.str (int32 f) (int32 t) v.str = _ :=
      strrangeset_encode s.valid v.chars (int32_int32 f)
    rw [hval, splice]
    split
    · next hout =>
      rw [SplicesExactly, if_pos hout]
      exact iff_of_false nofun haccepted
    · next hin =>
      have hinj := encode_injective
        (isChar_splice s v (int32 f - 1).toNat ((int32 f - 1).toNat +
          ((int32 t - int32 f + 1) % 2 ^ 32).toNat))
        (isChar_splice s v (f - 1).toNat t.toNat)
      have hempty : s.chars.length = 0 → s.str.length = 0 := by
        intro h
        rw [Text.str, List.eq_nil_of_length_eq_zero h]
        rfl
      rw [← splice_iff hbytes (length_le_encode s.valid) hempty hin (by omega) (by omega), ← hinj]
      simp [Except.map]

/-- Strings are changed as lists of characters exactly within these bounds, and lists are changed as
they are meant to be by all bounds that are `int`s. -/
theorem rangeSet_exact_iff (s v : Text) (f t : Int64) :
    (rangeSet (.str s.str) (.int f.toInt) (.int t.toInt) (.str v.str) =
        some ((splice s.chars v.chars f.toInt t.toInt).map (.str ∘ encode)) ↔
      SplicesExactly s.chars v.chars s.str.length f.toInt t.toInt) ∧
    ∀ (l : Elements Var) (w : List Var), int32 f.toInt = f.toInt → int32 t.toInt = t.toInt →
      rangeSet (.list l.elems) (.int f.toInt) (.int t.toInt)
      (.list w) = some ((splice l.elems w f.toInt t.toInt).map .list) :=
  ⟨rangeSet_str_iff s v f t, fun l w hf ht => rangeSet_list l w hf ht⟩

/-- In front of the first character: two characters of `"ab"` are dropped instead of one. -/
theorem rangeSet_before_start :
    rangeSet (.str [0x61, 0x62]) (.int 0) (.int 1) (.str [0x78]) = some (.ok (.str [0x78])) ∧
      splice [0x61, 0x62] [0x78] 0 1 = .ok [0x78, 0x62] :=
  ⟨by decide, by decide⟩

end NuMoo
