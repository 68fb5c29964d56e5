import NuMoo.Net.Text

/-!
# Searching in strings

`strindex` and `strrindex` of `utils.c`. A position in memory is what is left of the memory from it
on, or for the backward search an offset.

Results:
1. `strindex_spec`: the forward search finds the first occurrence.
2. `strrindex_spec`: the backward search compares at the last character that leaves enough room, and
   before it at characters of one byte only.
3. `strindex_strrindex_iff`: when both searches find what they should.
-/

namespace NuMoo
namespace Net

/-- What of two bytes is compared. -/
def folded (caseCounts : Bool) (c : UInt8) : UInt8 := if caseCounts then c else cmap c

/-- Whether `strncmp`, or `mystrncasecmp` where case does not count, returns zero. -/
def strncmpZero (caseCounts : Bool) : Str → Str → Nat → Bool
  | _, _, 0 => true
  | s, t, n + 1 =>
    if folded caseCounts (s.headD 0) = folded caseCounts (t.headD 0) then
      if s.headD 0 = 0 then true else strncmpZero caseCounts s.tail t.tail n
    else false

/-- The loop of `strindex`. The fuel is the memory. -/
def strindexN (caseCounts : Bool) (what : Str) : Nat → Str → Nat → Option Nat
  | 0, _, _ => none
  | n + 1, s, ind =>
    if s.length ≤ what.length then some 0
    else if strncmpZero caseCounts s what what.length then some (ind + 1)
    else
      match getUtf s with
      | none => none
      | some (_, s) => strindexN caseCounts what n s (ind + 1)

/-- `strindex` -/
def strindex (source what : Str) (caseCounts : Bool) : Option Nat :=
  strindexN caseCounts what (source.length + 1) (source ++ [0]) 0

/-- The inner loops of `strrindex`, back to a byte that continues no character. -/
def alignBack (m : Str) : Nat → Option Nat
  | 0 => if isCont (m.getD 0 0) then none else some 0
  | s + 1 => if isCont (m.getD (s + 1) 0) then alignBack m s else some (s + 1)

/-- The outer loop of `strrindex`, which ends where `s` is before the source. -/
def strrindexN (caseCounts : Bool) (what m : Str) : Nat → Nat → Int → Option Int
  | 0, _, _ => none
  | n + 1, s, ind =>
    if strncmpZero caseCounts (m.drop s) what what.length then some (ind + 1)
    else
      match alignBack m s with
      | none => none
      | some 0 => some 0
      | some (s + 1) => strrindexN caseCounts what m n s (ind - 1)

/-- `strrindex` -/
def strrindex (source what : Str) (caseCounts : Bool) : Option Int :=
  if source.length < what.length then some 0
  else do
    let s ← alignBack (source ++ [0]) (source.length - what.length)
    let chars ← strlenUtf (source ++ [0])
    let left ← strlenUtf ((source ++ [0]).drop s)
    strrindexN caseCounts what (source ++ [0]) (s + 1) s (chars - left)

/-- The characters `ws` are found in `cs` from the character `k` on. -/
def OccursAt (caseCounts : Bool) (cs ws : List Nat) (k : Nat) : Prop :=
  k ≤ cs.length ∧ (encode ws).map (folded caseCounts) <+:
    (encode (cs.drop k)).map (folded caseCounts)

/-- The last character that has as many bytes from it on as are looked for. -/
def LastRoom (cs ws : List Nat) (k : Nat) : Prop :=
  k ≤ cs.length ∧ (encode ws).length ≤ (encode (cs.drop k)).length ∧
    ∀ j, k < j → j ≤ cs.length → (encode (cs.drop j)).length < (encode ws).length

/-- The index of the first place, from one on, or zero where there is none. -/
def IsFirst (P : Nat → Prop) (r : Nat) : Prop :=
  (r = 0 ∧ ∀ k, ¬ P k) ∨ ∃ k, r = k + 1 ∧ P k ∧ ∀ j < k, ¬ P j

/-- The index of the last place, from one on, or zero where there is none. -/
def IsLast (P : Nat → Prop) (r : Int) : Prop :=
  (r = 0 ∧ ∀ k, ¬ P k) ∨ ∃ k : Nat, r = k + 1 ∧ P k ∧ ∀ j, k < j → ¬ P j

variable {caseCounts : Bool} {cs ws : List Nat} {r k n : Nat} {s t : Str} {c : UInt8}

/-! ## Comparing -/

theorem folded_eq_zero : folded caseCounts c = 0 ↔ c = 0 := by
  cases caseCounts
  · exact cmap_eq_zero
  · rfl

/-- Only ASCII letters are folded. -/
theorem folded_high (h : 0x80 ≤ c) : folded caseCounts c = c := by
  cases caseCounts
  · show cmap c = c
    refine if_neg fun hc => ?_
    have hle : (0x80 : UInt8) ≤ 90 := UInt8.le_trans h hc.2
    exact absurd hle (by decide)
  · rfl

theorem folded_low (h : c < 0x80) : folded caseCounts c < 0x80 := by
  cases caseCounts
  · show cmap c < 0x80
    unfold cmap
    split
    · next hc =>
      have hle : c.toNat ≤ 90 := UInt8.le_iff_toNat_le.mp hc.2
      rw [UInt8.lt_iff_toNat_lt, UInt8.toNat_add]
      simp only [UInt8.reduceToNat]
      omega
    · exact h
  · exact h

theorem strncmpZero_cons (a b : UInt8) (s t : Str) (n : Nat) :
    strncmpZero caseCounts (a :: s) (b :: t) (n + 1) =
      if folded caseCounts a = folded caseCounts b then if a = 0 then true
        else strncmpZero caseCounts s t n else false := rfl

/-- A string in memory begins with another one, as far as bytes are compared. -/
theorem strncmpZero_iff (ht : 0 ∉ t) (rest : Str) :
    strncmpZero caseCounts (s ++ 0 :: rest) t t.length = true ↔
      t.map (folded caseCounts) <+: s.map (folded caseCounts) := by
  induction t generalizing s with
  | nil => simp [strncmpZero]
  | cons b t ih =>
    obtain ⟨hb, ht⟩ := not_or.mp (mt List.mem_cons.mpr ht)
    have hb0 : folded caseCounts b ≠ 0 := fun h => hb (folded_eq_zero.mp h).symm
    cases s with
    | nil =>
      have h0 : folded caseCounts 0 = 0 := folded_eq_zero.mpr rfl
      simp [strncmpZero, h0, hb0.symm]
    | cons a s =>
      rw [List.cons_append, List.length_cons, strncmpZero_cons, List.map_cons, List.map_cons,
        List.cons_prefix_cons]
      by_cases heq : folded caseCounts a = folded caseCounts b
      · have ha : a ≠ 0 := by
          rintro rfl
          exact hb0 (heq ▸ folded_eq_zero.mpr rfl)
        rw [if_pos heq, if_neg ha, ih ht]
        simp only [heq, true_and]
      · rw [if_neg heq]
        exact iff_of_false Bool.false_ne_true fun h => heq h.1.symm

theorem zero_notMem_encode (h : ∀ r ∈ cs, IsChar r) : 0 ∉ encode cs := by
  induction cs with
  | nil => exact List.not_mem_nil
  | cons r cs ih =>
    obtain ⟨hr, hcs⟩ := List.forall_mem_cons.mp h
    obtain ⟨c, m, hput, -, hm⟩ := putUtf_shape hr.1
    obtain ⟨c', m', hbytes, hc⟩ := hr.cons
    rw [encode_cons, hbytes]
    rw [hput, Option.getD_some] at hbytes
    obtain ⟨rfl, rfl⟩ := List.cons_eq_cons.mp hbytes
    intro h0
    rcases List.mem_append.mp h0 with h0 | h0
    · rcases List.mem_cons.mp h0 with h0 | h0
      · exact hc h0.symm
      · exact absurd (hm 0 h0) (by decide)
    · exact ih hcs h0

/-- Comparing at a character of a text tells whether the other text is found there. -/
theorem compare_iff (hw : ∀ r ∈ ws, IsChar r) (hk : k ≤ cs.length) (t : Str) :
    strncmpZero caseCounts (encode (cs.drop k) ++ 0 :: t) (encode ws) (encode ws).length = true ↔
    OccursAt caseCounts cs ws k := by
  rw [strncmpZero_iff (zero_notMem_encode hw), OccursAt]
  exact (and_iff_right hk).symm

/-! ## Places -/

theorem OccursAt.length_le (h : OccursAt caseCounts cs ws k) :
    (encode ws).length ≤ (encode (cs.drop k)).length := by
  have hlen := h.2.length_le
  rwa [List.length_map, List.length_map] at hlen

theorem occursAt_succ : OccursAt caseCounts (r :: cs) ws (k + 1) ↔ OccursAt caseCounts cs ws k := by
  rw [OccursAt, OccursAt, List.length_cons, Nat.add_le_add_iff_right, List.drop_succ_cons]

/-- Fewer bytes are left from a later character on. -/
theorem length_encode_drop_le (cs : List Nat) {j : Nat} (h : j ≤ k) :
    (encode (cs.drop k)).length ≤ (encode (cs.drop j)).length := by
  have hsplit : cs.drop j = (cs.drop j).take (k - j) ++ cs.drop k := by
    conv_lhs => rw [← List.take_append_drop (k - j) (cs.drop j)]
    rw [List.drop_drop, Nat.add_sub_cancel' h]
  rw [hsplit, encode_append, List.length_append]
  exact Nat.le_add_left _ _

theorem LastRoom.le (h : LastRoom cs ws n) (hk : OccursAt caseCounts cs ws k) : k ≤ n := by
  by_contra hlt
  exact absurd (h.2.2 k (Nat.lt_of_not_le hlt) hk.1) (Nat.not_lt.mpr hk.length_le)

/-! ## Forward -/

/-- By induction on the characters that are left. -/
theorem strindexN_spec (hc : ∀ r ∈ cs, IsChar r) (hw : ∀ r ∈ ws, IsChar r)
    (hn : cs.length < n) (ind : Nat) :
    ∃ r, strindexN caseCounts (encode ws) n (encode cs ++ [0]) ind = some r ∧
      ((r = 0 ∧ ∀ k, ¬ OccursAt caseCounts cs ws k) ∨
        ∃ k, r = ind + k + 1 ∧ OccursAt caseCounts cs ws k ∧ ∀ j < k,
        ¬ OccursAt caseCounts cs ws j) := by
  induction cs generalizing n ind with
  | nil =>
    obtain ⟨n, rfl⟩ := Nat.exists_eq_succ_of_ne_zero (Nat.ne_of_gt hn)
    rw [strindexN]
    split
    · next hlen =>
      refine ⟨0, rfl, .inl ⟨rfl, fun k hk => ?_⟩⟩
      have hle := hk.length_le
      rw [List.drop_nil] at hle
      rw [encode_nil, List.nil_append, List.length_singleton] at hlen
      exact absurd (Nat.le_trans hlen hle) (by decide)
    · next hlen =>
      have hnil : encode ws = [] := by
        rw [encode_nil, List.nil_append, List.length_singleton, Nat.not_le, Nat.lt_one_iff] at hlen
        exact List.eq_nil_of_length_eq_zero hlen
      rw [hnil]
      refine ⟨ind + 1, rfl, .inr ⟨0, rfl, ⟨Nat.le_refl 0, ?_⟩,
        fun j hj => absurd hj (Nat.not_lt_zero j)⟩⟩
      rw [hnil]
      exact List.nil_prefix
  | cons r cs ih =>
    obtain ⟨n, rfl⟩ := Nat.exists_eq_succ_of_ne_zero (Nat.ne_of_gt (Nat.zero_lt_of_lt hn))
    obtain ⟨hr, hcs⟩ := List.forall_mem_cons.mp hc
    have hcompare : strncmpZero caseCounts (encode (r :: cs) ++ [0]) (encode ws)
        (encode ws).length = true ↔
        OccursAt caseCounts (r :: cs) ws 0 := compare_iff hw (Nat.zero_le _) []
    rw [strindexN]
    split
    · next hlen =>
      refine ⟨0, rfl, .inl ⟨rfl, fun k hk => ?_⟩⟩
      have hle := Nat.le_trans hk.length_le (length_encode_drop_le (r :: cs) (Nat.zero_le k))
      rw [List.drop_zero] at hle
      rw [List.length_append, List.length_singleton] at hlen
      exact absurd (Nat.le_trans hlen hle) (Nat.not_succ_le_self _)
    · split
      · next hfound => exact ⟨ind + 1, rfl, .inr ⟨0, rfl, hcompare.mp hfound,
          fun j hj => absurd hj (Nat.not_lt_zero j)⟩⟩
      · next hmiss =>
        -- the search goes on a whole character behind, so no place in between is missed
        have hzero : ¬ OccursAt caseCounts (r :: cs) ws 0 := fun h => hmiss (hcompare.mpr h)
        have hread : getUtf (encode (r :: cs) ++ [0]) = some (r, encode cs ++ [0]) := by
          rw [getUtf_eq, encode_cons, List.append_assoc, getRune_putUtf hr.1]
          rfl
        rw [hread]
        obtain ⟨res, hres, hspec⟩ := ih hcs (Nat.lt_of_succ_lt_succ hn) (ind + 1)
        refine ⟨res, hres, ?_⟩
        rcases hspec with ⟨rfl, hnone⟩ | ⟨k, rfl, hk, hbefore⟩
        · refine .inl ⟨rfl, fun k hk => ?_⟩
          cases k with
          | zero => exact hzero hk
          | succ k => exact hnone k (occursAt_succ.mp hk)
        · refine .inr ⟨k + 1, by omega, occursAt_succ.mpr hk, fun j hj hj' => ?_⟩
          cases j with
          | zero => exact hzero hj'
          | succ j => exact hbefore j (Nat.lt_of_succ_lt_succ hj) (occursAt_succ.mp hj')

/-- The forward search finds the first occurrence. -/
theorem strindex_spec (source what : Text) (caseCounts : Bool) :
    ∃ i, strindex source.str what.str caseCounts = some i ∧
      IsFirst (OccursAt caseCounts source.chars what.chars) i := by
  have hlen := Nat.lt_succ_of_le (length_le_encode source.valid)
  have hloop := fun caseCounts => @strindexN_spec caseCounts _ _ _ source.valid what.valid hlen 0
  simp only [Nat.zero_add] at hloop
  exact hloop caseCounts

/-! ## Backward -/

theorem lead_bytes {v : Nat} {invalid : Nat → Bool} (h : lead c = some (n, v, invalid)) :
    0x80 ≤ c ∧ n ≠ 0 := by
  unfold lead at h
  split at h
  · cases h
  · next hc =>
    have hhigh : (0x80 : UInt8) ≤ c :=
      UInt8.le_trans (by decide) (UInt8.le_of_lt (UInt8.not_le.mp hc))
    refine ⟨hhigh, ?_⟩
    rintro rfl
    split at h
    · simp at h
    · split at h
      · simp at h
      · split at h
        · simp at h
        · cases h

/-- The bytes of a character; one byte is ASCII. -/
theorem IsChar.bytes (h : IsChar r) :
    ∃ c q, (putUtf r).getD [] = c :: q ∧ isCont c = false ∧ (∀ d ∈ q, isCont d = true) ∧
      (r < 0x80 ↔ q = []) ∧ (r < 0x80 ↔ c < 0x80) := by
  obtain ⟨c, q, hput, hc, hq⟩ := putUtf_shape h.1
  refine ⟨c, q, by rw [hput, Option.getD_some], hc, hq, ?_⟩
  by_cases hr : r ≤ 0x7f
  · have hlow : r < 0x80 := Nat.lt_succ_of_le hr
    rw [putUtf, if_pos hr, Option.some_inj] at hput
    obtain ⟨rfl, rfl⟩ := List.cons_eq_cons.mp hput
    refine ⟨iff_of_true hlow rfl, iff_of_true hlow ?_⟩
    rw [UInt8.lt_iff_toNat_lt, UInt8.toNat_ofNat', Nat.mod_eq_of_lt (Nat.lt_trans hlow (by decide))]
    exact hlow
  · obtain ⟨c', n, invalid, hlead, -, hput'⟩ := lead_putUtf h.1 (Nat.lt_of_not_le hr)
    obtain ⟨rfl, rfl⟩ := List.cons_eq_cons.mp (Option.some_inj.mp (hput.symm.trans hput'))
    obtain ⟨hhigh, hn⟩ := lead_bytes hlead
    have hnot : ¬ r < 0x80 := fun h => hr (Nat.le_of_lt_succ h)
    refine ⟨iff_of_false hnot ?_, iff_of_false hnot (UInt8.not_lt.mpr hhigh)⟩
    obtain ⟨n, rfl⟩ := Nat.exists_eq_succ_of_ne_zero hn
    exact List.cons_ne_nil _ _

theorem alignBack_stop (h : isCont (s.getD k 0) = false) : alignBack s k = some k := by
  cases k with
  | zero => rw [alignBack, if_neg (by rw [h]; exact Bool.false_ne_true)]
  | succ k => rw [alignBack, if_neg (by rw [h]; exact Bool.false_ne_true)]

/-- From a byte of a character back to its first one. -/
theorem alignBack_eq {a q b : Str} (hc : isCont c = false) (hq : ∀ d ∈ q, isCont d = true) {i : Nat}
    (hi : i ≤ q.length) :
    alignBack (a ++ c :: (q ++ b)) (a.length + i) = some a.length := by
  induction i with
  | zero =>
    refine alignBack_stop ?_
    rw [Nat.add_zero, List.getD_eq_getElem?_getD, List.getElem?_append_right (Nat.le_refl _),
      Nat.sub_self,
      List.getElem?_cons_zero, Option.getD_some]
    exact hc
  | succ i ih =>
    have hbyte : (a ++ c :: (q ++ b)).getD (a.length + i + 1) 0 = q.get ⟨i, hi⟩ := by
      rw [List.getD_eq_getElem?_getD, Nat.add_assoc,
        List.getElem?_append_right (Nat.le_add_right _ _), Nat.add_sub_cancel_left,
        List.getElem?_cons_succ, List.getElem?_append_left hi, List.getElem?_eq_getElem hi,
        Option.getD_some, List.get_eq_getElem]
    rw [← Nat.add_assoc, alignBack, hbyte, if_pos (hq _ (List.get_mem _ _))]
    exact ih (Nat.le_of_succ_le hi)

theorem length_encode_split (cs : List Nat) (k : Nat) :
    (encode cs).length = (encode (cs.take k)).length + (encode (cs.drop k)).length := by
  rw [← List.length_append, ← encode_append, List.take_append_drop]

/-- The bytes around the character `k`. -/
theorem split_at (hc : ∀ r ∈ cs, IsChar r) (hk : k < cs.length) :
    ∃ c q, isCont c = false ∧ (∀ d ∈ q, isCont d = true) ∧ (c < 0x80 ↔ q = []) ∧
      encode (cs.drop k) = c :: (q ++ encode (cs.drop (k + 1))) ∧
      encode cs ++ [0] = encode (cs.take k) ++ c :: (q ++ (encode (cs.drop (k + 1)) ++ [0])) ∧
      (encode (cs.take (k + 1))).length = (encode (cs.take k)).length + (q.length + 1) := by
  have hchar : IsChar cs[k] := hc _ (List.getElem_mem hk)
  obtain ⟨c, q, hbytes, hlead, hq, hone, hlow⟩ := hchar.bytes
  have hdrop : encode (cs.drop k) = c :: (q ++ encode (cs.drop (k + 1))) := by
    rw [List.drop_eq_getElem_cons hk, encode_cons, hbytes, List.cons_append]
  refine ⟨c, q, hlead, hq, hlow.symm.trans hone, hdrop, ?_, ?_⟩
  · conv_lhs => rw [← List.take_append_drop k cs, encode_append, hdrop]
    rw [List.append_assoc, List.cons_append, List.append_assoc]
  · have htake : cs.take (k + 1) = cs.take k ++ [cs[k]] := (List.take_append_getElem hk).symm
    have hone : encode [cs[k]] = c :: q := by
      rw [encode_cons, encode_nil, List.append_nil, hbytes]
    rw [htake, encode_append, List.length_append, hone, List.length_cons]

/-- The last place with enough room is where the backward search starts. -/
theorem exists_lastRoom (hc : ∀ r ∈ cs, IsChar r) (hfit : (encode ws).length ≤ (encode cs).length) :
    ∃ k, LastRoom cs ws k ∧
      alignBack (encode cs ++ [0]) ((encode cs).length - (encode ws).length) =
        some (encode (cs.take k)).length := by
  obtain ⟨k, hk, hroom, hlast⟩ : ∃ k, LastRoom cs ws k := by
    let P := fun k => (encode ws).length ≤ (encode (cs.drop k)).length
    refine ⟨Nat.findGreatest P cs.length, Nat.findGreatest_le _, ?_, fun j hj hle => ?_⟩
    · exact Nat.findGreatest_spec (P := P) (Nat.zero_le _) hfit
    · exact Nat.not_le.mp (Nat.findGreatest_is_greatest (P := P) hj hle)
  refine ⟨k, ⟨hk, hroom, hlast⟩, ?_⟩
  have hsplit := length_encode_split cs k
  rcases Nat.lt_or_eq_of_le hk with hlt | rfl
  · obtain ⟨c, q, hlead, hq, -, -, hmem, hnext⟩ := split_at hc hlt
    have hshort := hlast (k + 1) (Nat.lt_succ_self k) hlt
    have hsplit' := length_encode_split cs (k + 1)
    obtain ⟨i, hi⟩ : ∃ i, (encode cs).length - (encode ws).length =
        (encode (cs.take k)).length + i :=
      ⟨(encode cs).length - (encode ws).length - (encode (cs.take k)).length, by omega⟩
    rw [hmem, hi]
    exact alignBack_eq hlead hq (by omega)
  · have hnil : (encode ws).length = 0 := by
      rw [List.drop_length, encode_nil, List.length_nil] at hroom
      exact Nat.eq_zero_of_le_zero hroom
    rw [hnil, Nat.sub_zero, List.take_length]
    refine alignBack_stop ?_
    rw [List.getD_eq_getElem?_getD, List.getElem?_append_right (Nat.le_refl _), Nat.sub_self]
    rfl

/-- Where the other text is found, its first byte is the one of the character. -/
theorem OccursAt.head {w : Nat} {c' : UInt8} {q q' : Str} (h : OccursAt caseCounts cs (w :: ws) k)
    (hc : encode (cs.drop k) = c :: q)
    (hw : encode (w :: ws) = c' :: q') : c < 0x80 ↔ c' < 0x80 := by
  have hp := h.2
  rw [hc, hw, List.map_cons, List.map_cons, List.cons_prefix_cons] at hp
  have hfold := hp.1
  constructor
  · intro hlow
    by_contra hhigh
    have hlow' : folded caseCounts c < 0x80 := folded_low hlow
    rw [← hfold, folded_high (UInt8.not_lt.mp hhigh)] at hlow'
    exact hhigh hlow'
  · intro hlow
    by_contra hhigh
    have hlow' : folded caseCounts c' < 0x80 := folded_low hlow
    rw [hfold, folded_high (UInt8.not_lt.mp hhigh)] at hlow'
    exact hhigh hlow'

/-- The text that is looked for begins with an ASCII character. -/
def BeginsLow (ws : List Nat) : Prop := ∃ w ∈ ws.head?, w < 0x80

/-- Comparing at the last byte of a character finds something only if that is its first byte too. -/
theorem compare_last (hc : ∀ r ∈ cs, IsChar r) (hw : ∀ r ∈ ws, IsChar r) (hne : ws ≠ [])
    (hk : k < cs.length) :
    strncmpZero caseCounts ((encode cs ++ [0]).drop ((encode (cs.take (k + 1))).length - 1))
    (encode ws) (encode ws).length = true ↔
      OccursAt caseCounts cs ws k ∧ BeginsLow ws := by
  obtain ⟨c, q, -, hq, hone, hdrop, hmem, hnext⟩ := split_at hc hk
  obtain ⟨w, ws, rfl⟩ := List.exists_cons_of_ne_nil hne
  obtain ⟨c', q', hbytes, hlead', -, -, hlow'⟩ := (List.forall_mem_cons.mp hw).1.bytes
  have hwhat : encode (w :: ws) = c' :: (q' ++ encode ws) := by
    rw [encode_cons, hbytes, List.cons_append]
  have hbegins : BeginsLow (w :: ws) ↔ c' < 0x80 := by
    rw [← hlow']
    simp [BeginsLow]
  rw [hbegins]
  rcases List.eq_nil_or_concat q with rfl | ⟨q, d, rfl⟩
  · have hpos : (encode (cs.take (k + 1))).length - 1 = (encode (cs.take k)).length := by
      rw [hnext]
      rfl
    rw [hpos, drop_encode, compare_iff hw (Nat.le_of_lt hk), iff_self_and]
    intro hocc
    exact (hocc.head hdrop hwhat).mp (hone.mpr rfl)
  · have hd : isCont d = true := hq d (by simp)
    have hsuffix : (encode cs ++ [0]).drop ((encode (cs.take (k + 1))).length - 1) = d ::
        (encode (cs.drop (k + 1)) ++ [0]) := by
      have hsplit : encode cs ++ [0] = (encode (cs.take k) ++ c :: q) ++ d ::
          (encode (cs.drop (k + 1)) ++ [0]) := by
        rw [hmem]
        simp
      have hpos : (encode (cs.take (k + 1))).length - 1 =
          (encode (cs.take k) ++ c :: q).length := by
        rw [hnext, List.length_append, List.length_cons, List.concat_eq_append, List.length_append]
        rfl
      rw [hsplit, hpos, List.drop_left]
    -- a continuation byte is never equal to the first byte of a character
    have hhigh : ∀ x : UInt8, isCont x = true → 0x80 ≤ x := by
      intro x hx
      by_contra hlt
      have hall : ∀ n < 128, isCont (UInt8.ofNat n) = false := by decide
      have hfalse := hall x.toNat (UInt8.lt_iff_toNat_lt.mp (UInt8.not_le.mp hlt))
      rw [UInt8.ofNat_toNat, hx] at hfalse
      cases hfalse
    rw [hsuffix, hwhat, List.length_cons, strncmpZero_cons]
    have hdiff : folded caseCounts d ≠ folded caseCounts c' := by
      rw [folded_high (hhigh d hd)]
      intro h
      rcases UInt8.lt_or_le c' 0x80 with hlow | hle
      · have hfold : folded caseCounts c' < 0x80 := folded_low hlow
        rw [← h] at hfold
        exact absurd (hhigh d hd) (UInt8.not_le.mpr hfold)
      · rw [folded_high hle] at h
        rw [h, hlead'] at hd
        cases hd
    rw [if_neg hdiff]
    refine iff_of_false Bool.false_ne_true ?_
    rintro ⟨hocc, hlow⟩
    have hcq := hone.mp ((hocc.head hdrop hwhat).mpr hlow)
    simp at hcq

/-- The backward search from the last byte of a character on, by induction on the character. -/
theorem strrindexN_spec (hc : ∀ r ∈ cs, IsChar r) (hw : ∀ r ∈ ws, IsChar r) (hne : ws ≠ [])
    (hk : k < cs.length) (hn : k < n) :
    ∃ j, strrindexN caseCounts (encode ws)
    (encode cs ++ [0]) n ((encode (cs.take (k + 1))).length - 1) k = some j ∧
      IsLast (fun i => i ≤ k ∧ OccursAt caseCounts cs ws i ∧ BeginsLow ws) j := by
  -- by induction on the place where the scan stands, which goes back one character at a time
  induction k generalizing n with
  | zero =>
    obtain ⟨n, rfl⟩ := Nat.exists_eq_succ_of_ne_zero (Nat.ne_of_gt hn)
    have hcompare : _ ↔ OccursAt caseCounts cs ws 0 ∧ BeginsLow ws := compare_last hc hw hne hk
    obtain ⟨c, q, hlead, hq, -, -, hmem, hnext⟩ := split_at hc hk
    have halign : alignBack (encode cs ++ [0]) ((encode (cs.take (0 + 1))).length - 1) =
        some 0 := by
      rw [hnext, hmem]
      exact alignBack_eq hlead hq (Nat.le_refl _)
    rw [strrindexN, halign]
    split
    · next hfound =>
      exact ⟨_, rfl, .inr ⟨0, rfl, ⟨Nat.le_refl 0, hcompare.mp hfound⟩,
        fun j hj h => absurd hj (Nat.not_lt.mpr h.1)⟩⟩
    · next hmiss =>
      refine ⟨0, rfl, .inl ⟨rfl, fun i h => hmiss (hcompare.mpr ?_)⟩⟩
      rw [← Nat.le_zero.mp h.1]
      exact h.2
  | succ k ih =>
    obtain ⟨n, rfl⟩ := Nat.exists_eq_succ_of_ne_zero (Nat.ne_of_gt (Nat.zero_lt_of_lt hn))
    have hcompare : _ ↔ OccursAt caseCounts cs ws (k + 1) ∧ BeginsLow ws :=
      compare_last hc hw hne hk
    obtain ⟨c, q, hlead, hq, -, -, hmem, hnext⟩ := split_at hc hk
    obtain ⟨-, q', -, -, -, -, -, hnext'⟩ := split_at hc (Nat.lt_of_succ_lt hk)
    obtain ⟨s, hs⟩ : ∃ s, (encode (cs.take (k + 1))).length = s + 1 := ⟨_, hnext'⟩
    have halign : alignBack (encode cs ++ [0]) ((encode (cs.take (k + 1 + 1))).length - 1) =
        some (s + 1) := by
      rw [hnext, hmem, ← hs]
      exact alignBack_eq hlead hq (Nat.le_refl _)
    rw [strrindexN, halign]
    split
    · next hfound =>
      exact ⟨_, rfl, .inr ⟨k + 1, rfl, ⟨Nat.le_refl _, hcompare.mp hfound⟩,
        fun j hj h => absurd hj (Nat.not_lt.mpr h.1)⟩⟩
    · next hmiss =>
      have hpos : s = (encode (cs.take (k + 1))).length - 1 := by rw [hs, Nat.add_sub_cancel]
      have hind : ((k + 1 : Nat) : Int) - 1 = k := by omega
      dsimp only
      rw [hpos, hind]
      obtain ⟨j, hj, hlast⟩ := ih (Nat.lt_of_succ_lt hk) (Nat.lt_of_succ_lt_succ hn)
      have hsame : ∀ i, (i ≤ k ∧ OccursAt caseCounts cs ws i ∧ BeginsLow ws) ↔
          i ≤ k + 1 ∧ OccursAt caseCounts cs ws i ∧ BeginsLow ws := by
        refine fun i => ⟨fun h => ⟨Nat.le_succ_of_le h.1, h.2⟩,
          fun h => ⟨Nat.le_of_lt_succ (Nat.lt_of_le_of_ne h.1 ?_), h.2⟩⟩
        rintro rfl
        exact hmiss (hcompare.mpr h.2)
      exact ⟨j, hj, by simpa only [hsame] using hlast⟩

theorem alignBack_start (hc : ∀ r ∈ cs, IsChar r) (hk : k ≤ cs.length) :
    alignBack (encode cs ++ [0]) (encode (cs.take k)).length =
      some (encode (cs.take k)).length := by
  rcases Nat.lt_or_eq_of_le hk with hlt | rfl
  · obtain ⟨c, q, hlead, hq, -, -, hmem, -⟩ := split_at hc hlt
    rw [hmem]
    exact alignBack_eq hlead hq (Nat.zero_le _)
  · rw [List.take_length]
    refine alignBack_stop ?_
    rw [List.getD_eq_getElem?_getD, List.getElem?_append_right (Nat.le_refl _), Nat.sub_self]
    rfl

/-- The backward search finds the last occurrence among those that it comes to compare at. -/
theorem strrindex_spec (source what : Text) (caseCounts : Bool) :
    ∃ j, strrindex source.str what.str caseCounts = some j ∧
      IsLast (fun k => OccursAt caseCounts source.chars what.chars k ∧
        (LastRoom source.chars what.chars k ∨ BeginsLow what.chars)) j := by
  obtain ⟨cs, hc, hbytes⟩ := source
  obtain ⟨ws, hw, -⟩ := what
  simp only [Text.str] at *
  rw [strrindex]
  split
  · next hshort =>
    refine ⟨0, rfl, .inl ⟨rfl, fun k hk => ?_⟩⟩
    have hle := Nat.le_trans hk.1.length_le (length_encode_drop_le cs (Nat.zero_le k))
    exact absurd hle (Nat.not_le.mpr hshort)
  · next hfits =>
    -- the search begins at the last place with room, counted back from the end
    obtain ⟨k, hroom, hstart⟩ := exists_lastRoom hc (Nat.not_lt.mp hfits)
    have hchars : strlenUtf (encode cs ++ [0]) = some cs.length := strlenUtf_encode hc []
    have hleft : strlenUtf ((encode cs ++ [0]).drop (encode (cs.take k)).length) =
        some (cs.length - k) := by
      rw [drop_encode, strlenUtf_encode (IsChar.of_drop hc k), List.length_drop]
    have hind : (cs.length : Int) - (cs.length - k : Nat) = k := by
      have hk := hroom.1
      omega
    have hcompare : strncmpZero caseCounts ((encode cs ++ [0]).drop (encode (cs.take k)).length)
        (encode ws) (encode ws).length = true ↔
        OccursAt caseCounts cs ws k := by
      rw [drop_encode]
      exact compare_iff hw hroom.1 []
    have halign := alignBack_start hc hroom.1
    rw [hstart, hchars]
    simp only [Option.bind_eq_bind, Option.bind_some, hleft, hind, strrindexN]
    split
    · next hfound =>
      exact ⟨_, rfl, .inr ⟨k, rfl, ⟨hcompare.mp hfound, .inl hroom⟩,
        fun j hj h => absurd (hroom.le h.1) (Nat.not_le.mpr hj)⟩⟩
    · next hmiss =>
      have hocc : ¬ OccursAt caseCounts cs ws k := fun h => hmiss (hcompare.mpr h)
      -- from there on only texts that begin with a low byte are compared at all
      have hcompared : ∀ i, OccursAt caseCounts cs ws i ∧ (LastRoom cs ws i ∨ BeginsLow ws) ↔
          i < k ∧ OccursAt caseCounts cs ws i ∧ BeginsLow ws := by
        intro i
        constructor
        · rintro ⟨hi, hor⟩
          have hlt : i < k := by
            refine Nat.lt_of_le_of_ne (hroom.le hi) ?_
            rintro rfl
            exact hocc hi
          refine ⟨hlt, hi, hor.resolve_left fun hlast => ?_⟩
          exact absurd (hlast.2.2 k hlt hroom.1) (Nat.not_lt.mpr hroom.2.1)
        · rintro ⟨-, hi, hlow⟩
          exact ⟨hi, .inr hlow⟩
      simp only [hcompared, halign]
      cases k with
      | zero => exact ⟨0, rfl, .inl ⟨rfl, fun i h => absurd h.1 (Nat.not_lt_zero i)⟩⟩
      | succ k =>
        have hne : ws ≠ [] := by
          rintro rfl
          exact hocc ⟨hroom.1, List.nil_prefix⟩
        obtain ⟨-, q, -, -, -, -, -, hnext⟩ := split_at hc hroom.1
        obtain ⟨s, hs⟩ : ∃ s, (encode (cs.take (k + 1))).length = s + 1 := ⟨_, hnext⟩
        have henough : k < (encode (cs.take (k + 1))).length := by
          have hle := length_le_encode (IsChar.of_take hc (k + 1))
          rw [List.length_take, Nat.min_eq_left hroom.1] at hle
          exact hle
        have hpred : ((k + 1 : Nat) : Int) - 1 = k := by omega
        obtain ⟨j, hj, hlast⟩ := @strrindexN_spec caseCounts cs ws k _ hc hw hne hroom.1 henough
        rw [hs, Nat.add_sub_cancel] at hj
        rw [hs]
        dsimp only
        rw [hpred]
        exact ⟨j, hj, by simpa only [Nat.lt_succ_iff] using hlast⟩

theorem IsLast.unique {P : Nat → Prop} {i j : Int} (hi : IsLast P i) (hj : IsLast P j) : i = j := by
  rcases hi with ⟨rfl, hi⟩ | ⟨k, rfl, hk, hi⟩ <;> rcases hj with ⟨rfl, hj⟩ | ⟨m, rfl, hm, hj⟩
  · rfl
  · exact absurd hm (hi m)
  · exact absurd hk (hj k)
  · rcases Nat.lt_trichotomy k m with h | rfl | h
    · exact absurd hm (hi m h)
    · rfl
    · exact absurd hk (hj k h)

theorem IsFirst.compare_last {P : Nat → Prop} {i : Nat} {j : Int} (hi : IsFirst P i)
    (hj : IsLast P j) :
    (j = 0 ↔ i = 0) ∧ (i ≠ 0 → (i : Int) ≤ j) := by
  rcases hi with ⟨rfl, hi⟩ | ⟨k, rfl, hk, hi⟩ <;> rcases hj with ⟨rfl, hj⟩ | ⟨m, rfl, hm, hj⟩
  · exact ⟨iff_of_true rfl rfl, fun h => absurd rfl h⟩
  · exact absurd hm (hi m)
  · exact absurd hk (hj k)
  · have hle : k ≤ m := by
      by_contra hlt
      exact hi m (Nat.lt_of_not_le hlt) hm
    omega

/-- Both searches are right unless the other text begins with a character of several bytes, is
found, but not at the last character that leaves room for it. -/
theorem strindex_strrindex_iff (source what : Text) (caseCounts : Bool) :
    (∃ i j, strindex source.str what.str caseCounts = some i ∧
      strrindex source.str what.str caseCounts = some j ∧
      IsFirst (OccursAt caseCounts source.chars what.chars) i ∧
      IsLast (OccursAt caseCounts source.chars what.chars) j ∧
      (j = 0 ↔ i = 0) ∧ (i ≠ 0 → (i : Int) ≤ j)) ↔
    BeginsLow what.chars ∨ (∀ k, ¬ OccursAt caseCounts source.chars what.chars k) ∨
      ∃ k, LastRoom source.chars what.chars k ∧ OccursAt caseCounts source.chars what.chars k := by
  obtain ⟨i, hi, hfirst⟩ := strindex_spec source what caseCounts
  obtain ⟨j, hj, hlast⟩ := strrindex_spec source what caseCounts
  constructor
  · rintro ⟨_, j', -, hj', -, hright, -⟩
    obtain rfl := Option.some_inj.mp (hj.symm.trans hj')
    rcases hright with ⟨-, hnone⟩ | ⟨k, rfl, hk, -⟩
    · exact .inr (.inl hnone)
    · rcases hlast with ⟨h0, -⟩ | ⟨k', hk', ⟨-, hroom | hlow⟩, -⟩
      · omega
      · obtain rfl : k = k' := by omega
        exact .inr (.inr ⟨k, hroom, hk⟩)
      · exact .inl hlow
  · intro h
    have hright : IsLast (OccursAt caseCounts source.chars what.chars) j := by
      rcases h with hlow | hnone | ⟨k, hroom, hk⟩
      · simpa only [hlow, or_true, and_true] using hlast
      · have hzero : j = 0 := hlast.unique (.inl ⟨rfl, fun k hk => hnone k hk.1⟩)
        exact .inl ⟨hzero, hnone⟩
      · have hafter : ∀ m, k < m → ¬ OccursAt caseCounts source.chars what.chars m :=
          fun m hm hocc =>
          absurd (hroom.le hocc) (Nat.not_le.mpr hm)
        have hval : j = k + 1 :=
          hlast.unique (.inr ⟨k, rfl, ⟨hk, .inl hroom⟩, fun m hm hocc => hafter m hm hocc.1⟩)
        exact .inr ⟨k, hval, hk, hafter⟩
    exact ⟨i, j, hi, hj, hfirst, hright, hfirst.compare_last hright⟩

/-- `"éab"` and `"é"`: the backward search passes the only occurrence. -/
theorem strrindex_missed :
    strindex [0xc3, 0xa9, 0x61, 0x62] [0xc3, 0xa9] true = some 1 ∧
      strrindex [0xc3, 0xa9, 0x61, 0x62] [0xc3, 0xa9] true = some 0 :=
  ⟨by decide, by decide⟩

end Net
end NuMoo
