import NuMoo.Lib.Match
import NuMoo.Waif.Values

/-!
# What an update keeps

The lists are compared by the addresses of the names. Each property of the new list is looked
for in the old one behind the property that was found last; the values of the
properties that are passed over are freed, and the others are moved.

Results:
1. `merge_transfer`: the loop with what it frees.
2. `merge_eq`: a value is freed if and only if its property has no match, and moved otherwise.
3. `updateWaifPropdefs_reconciles`: the values, the map and the length of the array after an update.
-/

namespace NuMoo

open Packed Match

namespace Server

/-- The addresses of the names. -/
def names (l : List WaifPropdef) : List Nat := l.map fun d => d.name.addr

/-- Free the values of `n` properties from index `i` on; the rest of the array comes with them. -/
def freeVals (m : PropMap) : Nat → Nat → List Var → Option (List Var × List Var)
  | 0, _, ov => some ([], ov)
  | n + 1, i, ov =>
    if stored m i then
      match ov with
      | [] => none
      | v :: ov => (freeVals m n (i + 1) ov).map fun r => (v :: r.1, r.2)
    else freeVals m n (i + 1) ov

/-- The loops of `update_waif_propdefs` over the old properties, of which the first has index `i`,
and the new ones: the values of the new properties, the values that are freed and those that are
left. -/
def merge (m : PropMap) (old : List WaifPropdef) (i : Nat) :
    List WaifPropdef → List Var → Option (List Var × List Var × List Var)
  | [], ov => (freeVals m old.length i ov).map fun r => ([], r)
  | b :: bs, ov =>
    match old.findIdx? fun a => a.name.addr == b.name.addr with
    | some k =>
      (freeVals m k i ov).bind fun f =>
        if stored m (i + k) then
          match f.2 with
          | [] => none
          | v :: ov => (merge m (old.drop (k + 1)) (i + k + 1) bs ov).map fun r =>
            (v :: r.1, f.1 ++ r.2.1, r.2.2)
        else (merge m (old.drop (k + 1)) (i + k + 1) bs f.2).map fun r =>
          (.clear :: r.1, f.1 ++ r.2.1, r.2.2)
    | none => (merge m old i bs ov).map fun r => (.clear :: r.1, r.2)

/-- The value of the property with an index. -/
def valueOf (w : Waif) (i : Nat) : Option Var :=
  Packed.read (propMapped w.map) N_MAPPABLE_PROPS .clear w.vals i

/-- The map and the values of a waif are those of a list: each bit is that of a property, and there
is a value for each bit and for each property past the map. -/
structure Consistent (w : Waif) (l : List WaifPropdef) : Prop where
  map : MapOk w.map
  bits : ∀ i < N_MAPPABLE_PROPS, propMapped w.map i = true → i < l.length
  vals : w.vals.length = room w.map l.length

/-- The names that the lists have in common stand in one order. -/
def SameOrder (old new : List WaifPropdef) : Prop :=
  (names old).filter (· ∈ names new) = (names new).filter (· ∈ names old)

/-- Each stored value of `w` is moved to the property that matches its own, and freed if there is
none. -/
def MovedOrFreed (w : Waif) (old new : List WaifPropdef) : Prop :=
  ∃ (matched : List (Option Nat)) (value : Nat → Var),
    (∀ n < old.length, valueOf w n = some (value n)) ∧
    matched.length = new.length ∧ (matched.filterMap id).Pairwise (· < ·) ∧
    (∀ j n : Nat, matched[j]? = some (some n) → ∃ a b : WaifPropdef, old[n]? = some a ∧
      new[j]? = some b ∧ a.name.addr = b.name.addr) ∧
    merge w.map old 0 new w.vals = some (matched.map fun o => o.elim .clear value,
      ((List.range old.length).filter fun n => stored w.map n && some n ∉ matched).map value, [])

/-- `w'` is `w` brought from one list to another. -/
structure Reconciled (s : Server) (w w' : Waif) (old new : List WaifPropdef) : Prop where
  moved : MovedOrFreed w old new
  kept : SameOrder old new → ∀ j n a b, new[j]? = some b → old[n]? = some a →
    a.name.addr = b.name.addr →
    valueOf w' j = valueOf w n
  fresh : ∀ j b, new[j]? = some b → b.name.addr ∉ names old → valueOf w' j = some .clear
  sound : ∀ j b, new[j]? = some b → valueOf w' j = some .clear ∨
    ∃ (n : Nat) (a : WaifPropdef), old[n]? = some a ∧ a.name.addr = b.name.addr ∧
    valueOf w' j = valueOf w n
  bits : ∀ j < N_MAPPABLE_PROPS, propMapped w'.map j = true ↔ j < new.length ∧
    valueOf w' j ≠ some .clear
  count : s.countWaifPropvals w' = some w'.vals.length
  consistent : Consistent w' new

variable {s s' : Server} {w w' : Waif} {m : PropMap} {old new bs : List WaifPropdef}
    {b : WaifPropdef} {i k n : Nat}
  {ov : List Var} {value : Nat → Var}

/-! ## The loops -/

theorem freeVals_skip (m : PropMap) (n i : Nat) (ov : List Var) :
    skipVals m n i ov = (freeVals m n i ov).map Prod.snd := by
  induction n generalizing i ov with
  | zero => rfl
  | succ n ih =>
    rw [skipVals.eq_def, freeVals.eq_def]
    dsimp only
    split
    · cases ov with
      | nil => rfl
      | cons v ov =>
        dsimp only
        rw [ih, Option.map_map]
        rfl
    · exact ih _ _

/-- The values are those of the loop that does not note what it frees. -/
theorem merge_transfer (m : PropMap) (old : List WaifPropdef) (i : Nat) (new : List WaifPropdef)
    (ov : List Var) :
    transfer m old i new ov = (merge m old i new ov).map Prod.fst := by
  induction new generalizing old i ov with
  | nil =>
    rw [transfer, merge, freeVals_skip, Option.map_map, Option.map_map]
    rfl
  | cons b bs ih =>
    rw [transfer, merge]
    cases old.findIdx? fun a => a.name.addr == b.name.addr with
    | none =>
      dsimp only
      rw [ih, Option.map_map, Option.map_map]
      rfl
    | some k =>
      dsimp only
      rw [freeVals_skip]
      cases freeVals m k i ov with
      | none => rfl
      | some f =>
        obtain ⟨freed, rest⟩ := f
        simp only [Option.map_some, Option.bind_eq_bind, Option.bind_some]
        cases stored m (i + k) with
        | true =>
          cases rest with
          | nil => rfl
          | cons v rest =>
            simp only [if_true, ih, Option.map_map]
            rfl
        | false =>
          simp only [Bool.false_eq_true, if_false, ih, Option.map_map]
          rfl

/-- The values of the properties with the indices `i`, …, `i + n - 1` that are stored. -/
def storedVals (m : PropMap) (value : Nat → Var) (i n : Nat) : List Var :=
  ((List.range' i n).filter (stored m)).map value

theorem storedVals_split (h : k ≤ n) :
    storedVals m value i n = storedVals m value i k ++ storedVals m value (i + k) (n - k) := by
  rw [storedVals, storedVals, storedVals, ← List.map_append, ← List.filter_append,
    List.range'_append_1, Nat.add_sub_cancel' h]

theorem storedVals_succ : storedVals m value i (n + 1) =
    if stored m i then value i :: storedVals m value (i + 1) n
      else storedVals m value (i + 1) n := by
  rw [storedVals, List.range'_succ, List.filter_cons]
  split <;> rfl

theorem freeVals_eq (m : PropMap) (value : Nat → Var) (n i : Nat) (rest : List Var) :
    freeVals m n i (storedVals m value i n ++ rest) = some (storedVals m value i n, rest) := by
  induction n generalizing i with
  | zero => rfl
  | succ n ih =>
    rw [freeVals.eq_def, storedVals_succ]
    dsimp only
    split
    · rw [List.cons_append]
      dsimp only
      rw [ih (i + 1)]
      rfl
    · exact ih (i + 1)

theorem names_cons (b : WaifPropdef) (bs : List WaifPropdef) :
    names (b :: bs) = b.name.addr :: names bs := rfl

theorem names_drop (l : List WaifPropdef) (n : Nat) : names (l.drop n) = (names l).drop n :=
  List.map_drop

theorem matching_names (h : old.findIdx? (fun a => a.name.addr == b.name.addr) = some k) :
    matching (names old) i (names (b :: bs)) = some (i + k) :: matching (names (old.drop (k + 1)))
    (i + k + 1) (names bs) := by
  have hk : (names old).findIdx? (· == b.name.addr) = some k := by
    rw [names, List.findIdx?_map]; exact h
  rw [names_cons, matching_some hk, names_drop]

theorem matching_names_none (h : old.findIdx? (fun a => a.name.addr == b.name.addr) = none) :
    matching (names old) i (names (b :: bs)) = none :: matching (names old) i (names bs) := by
  have hk : (names old).findIdx? (· == b.name.addr) = none := by
    rw [names, List.findIdx?_map]; exact h
  rw [names_cons, matching_none hk]

/-- The loops match the lists in order: what has a match is moved, the rest is freed and nothing is
left. -/
theorem merge_eq (m : PropMap) (value : Nat → Var) (hclear : ∀ n, stored m n = false →
    value n = .clear)
    (old : List WaifPropdef) (i : Nat) (new : List WaifPropdef) :
    merge m old i new (storedVals m value i old.length) =
      some ((matching (names old) i (names new)).map fun o => o.elim .clear value,
        ((List.range' i old.length).filter fun n => stored m n && some n ∉
          matching (names old) i (names new)).map value, []) := by
  induction new generalizing old i with
  | nil =>
    have hall := freeVals_eq m value old.length i []
    rw [List.append_nil] at hall
    rw [merge, hall]
    simp [names, matching, storedVals]
  | cons b bs ih =>
    rw [merge]
    cases hk : old.findIdx? fun a => a.name.addr == b.name.addr with
    | none =>
      dsimp only
      rw [ih, matching_names_none hk]
      simp
    | some k =>
      obtain ⟨hlt, -⟩ := List.findIdx?_eq_some_iff_getElem.mp hk
      have hrest : old.length - k = (old.drop (k + 1)).length + 1 := by rw [List.length_drop]; omega
      have hrange : List.range' i old.length =
          List.range' i k ++ (i + k) :: List.range' (i + k + 1) (old.drop (k + 1)).length := by
        rw [← List.range'_succ, List.range'_append_1, ← hrest, Nat.add_sub_cancel' hlt.le]
      have hlater : ∀ n, some n ∈ matching (names (old.drop (k + 1))) (i + k + 1) (names bs) →
          i + k + 1 ≤ n :=
        fun n hn => le_of_mem_matching hn
      -- what is skipped in the old list is freed, then the match, then the rest
      have hfreed : ((List.range' i old.length).filter fun n => stored m n && some n ∉
        matching (names old) i (names (b :: bs))).map value =
          storedVals m value i k ++
            ((List.range' (i + k + 1) (old.drop (k + 1)).length).filter fun n =>
            stored m n && some n ∉ matching (names (old.drop (k + 1))) (i + k + 1) (names bs)).map
              value := by
        rw [matching_names hk, hrange, List.filter_append, List.filter_cons_of_neg (by simp),
          List.map_append]
        congr 2
        · refine List.filter_congr fun n hn => ?_
          have hn' := (List.mem_range'_1.mp hn).2
          have hnot : some n ∉ some (i + k) :: matching (names (old.drop (k + 1))) (i + k + 1)
              (names bs) := by
            intro hmem
            rcases List.mem_cons.mp hmem with h | h
            · have := Option.some.inj h
              omega
            · have := hlater n h
              omega
          simp [hnot]
        · refine List.filter_congr fun n hn => ?_
          have hn' := (List.mem_range'_1.mp hn).1
          have hne : n ≠ i + k := by omega
          simp [hne]
      dsimp only
      rw [storedVals_split hlt.le, freeVals_eq, hrest, storedVals_succ, hfreed, matching_names hk,
        Option.bind_some]
      dsimp only
      cases hst : stored m (i + k) with
      | true =>
        rw [if_pos rfl, if_pos rfl]
        dsimp only
        rw [ih]
        rfl
      | false =>
        rw [if_neg Bool.false_ne_true, if_neg Bool.false_ne_true, ih, List.map_cons,
          Option.elim_some, hclear _ hst]
        rfl

/-! ## The values of a waif -/

theorem rank_eq_of_false {p : Nat → Bool} (h : ∀ j, i ≤ j → j < n → p j = false) (hi : i ≤ n) :
    rank p n = rank p i := by
  induction n with
  | zero => rw [Nat.le_zero.mp hi]
  | succ n ih =>
    rcases Nat.lt_or_ge i (n + 1) with hlt | hge
    · have hin : i ≤ n := Nat.le_of_lt_succ hlt
      rw [rank_succ, h n hin (Nat.lt_succ_self n),
        ih (fun j hj hjn => h j hj (Nat.lt_succ_of_lt hjn)) hin]
      rfl
    · rw [Nat.le_antisymm hi hge]

/-- A value is where the ones stored before it end. -/
theorem slot_stored (m : PropMap) (n : Nat) :
    Packed.slot (propMapped m) N_MAPPABLE_PROPS n = if stored m n then some (rank (stored m) n)
      else none := by
  rw [Packed.slot, rank_stored]
  split
  · next hn =>
    rw [Nat.min_eq_left hn.le, Nat.sub_eq_zero_of_le hn.le, Nat.add_zero, stored,
      decide_eq_false (Nat.not_le.mpr hn),
      Bool.false_or]
  · next hn =>
    have hge := Nat.le_of_not_lt hn
    rw [Nat.min_eq_right hge, stored, decide_eq_true hge, Bool.true_or, if_pos rfl]

section Values

variable (h : Consistent w old)
include h

theorem Consistent.rank_eq : rank (stored w.map) old.length = w.vals.length := by
  rw [rank_stored, h.vals, room, Packed.size]
  rcases Nat.le_total old.length N_MAPPABLE_PROPS with hle | hge
  · rw [Nat.min_eq_left hle, rank_eq_of_false (fun j hj hjn => ?_) hle]
    by_contra hbit
    exact absurd (h.bits j hjn (Bool.not_eq_false _ ▸ hbit)) (Nat.not_lt.mpr hj)
  · rw [Nat.min_eq_right hge]

theorem Consistent.valueOf_eq (hn : n < old.length) :
    valueOf w n = some ((valueOf w n).getD .clear) := by
  rw [valueOf, Packed.read, slot_stored]
  split
  · next hnone => rfl
  · next k hsome =>
    split at hsome
    · next hst =>
      cases hsome
      have hlt : rank (stored w.map) n < w.vals.length := h.rank_eq ▸ rank_lt hst hn
      rw [List.getElem?_eq_getElem hlt, Option.getD_some]
    · cases hsome

/-- The array has the stored values in order. -/
theorem Consistent.vals_eq :
    w.vals = storedVals w.map (fun n => (valueOf w n).getD .clear) 0 old.length := by
  have hall := @map_filter_rank _ (stored w.map) w.vals .clear old.length h.rank_eq.le
  rw [h.rank_eq, List.take_length] at hall
  rw [storedVals, ← List.range_eq_range']
  refine hall.symm.trans (List.map_congr_left fun n hn => ?_)
  have hst := (List.mem_filter.mp hn).2
  rw [valueOf, Packed.read, slot_stored, if_pos hst, List.getD_eq_getElem?_getD]

end Values

theorem valueOf_of_not_stored (h : stored w.map n = false) : valueOf w n = some .clear := by
  rw [valueOf, Packed.read, slot_stored, h]
  rfl

/-- The values of the new properties: those of their matches, the others clear. -/
def transferred (w : Waif) (old new : List WaifPropdef) : List Var :=
  (matching (names old) 0 (names new)).map fun o => o.elim .clear fun n => (valueOf w n).getD .clear

theorem transferred_length (w : Waif) (old new : List WaifPropdef) :
    (transferred w old new).length = new.length := by
  rw [transferred, List.length_map, matching_length, names, List.length_map]

theorem Consistent.merge_eq (h : Consistent w old) (new : List WaifPropdef) :
    merge w.map old 0 new w.vals = some (transferred w old new,
      ((List.range old.length).filter fun n => stored w.map n && some n ∉
        matching (names old) 0 (names new)).map
        fun n => (valueOf w n).getD .clear, []) := by
  have hrun := Server.merge_eq w.map (fun n => (valueOf w n).getD .clear)
    (fun n hn => by rw [valueOf_of_not_stored hn]; rfl) old 0 new
  rwa [← h.vals_eq, ← List.range_eq_range'] at hrun

/-- An update packs the values that are transferred. -/
theorem Consistent.resync_eq (h : Consistent w old) {new : List WaifPropdef}
    {r : PropMap × List Var}
    (hres : resync w.map (some old) w.propvals new = some r) :
    r.2 = pack .clear N_MAPPABLE_PROPS (transferred w old new) ∧
      ∀ j < N_MAPPABLE_PROPS, propMapped r.1 j = packed .clear (transferred w old new) j := by
  have hlen := transferred_length w old new
  rw [resync.eq_def] at hres
  cases hpv : w.propvals with
  | none =>
    rw [hpv] at hres
    cases hres
    -- Without an array no value is stored, so that all that are transferred are clear.
    have hvals : w.vals = [] := vals_of_null hpv
    have hnot : ∀ n < old.length, stored w.map n = false := by
      intro n hn
      by_contra hst
      have hlt := rank_lt (Bool.not_eq_false _ ▸ hst) hn
      rw [h.rank_eq, hvals] at hlt
      exact Nat.not_lt_zero _ hlt
    have hclear : transferred w old new = List.replicate new.length .clear := by
      refine List.eq_replicate_iff.mpr ⟨hlen, fun v hv => ?_⟩
      obtain ⟨o, ho, rfl⟩ := List.mem_map.mp hv
      cases o with
      | none => rfl
      | some n =>
        obtain ⟨j, hj⟩ := List.mem_iff_getElem?.mp ho
        obtain ⟨-, b, hb, -⟩ := matching_sound hj
        obtain ⟨hn, -⟩ := List.getElem?_eq_some_iff.mp hb
        rw [Nat.sub_zero, names, List.length_map] at hn
        rw [Option.elim_some, valueOf_of_not_stored (hnot n hn)]
        rfl
    have hbits : ∀ j < N_MAPPABLE_PROPS, propMapped w.map j = false := by
      intro j hj
      by_contra hbit
      have hbit' : propMapped w.map j = true := Bool.not_eq_false _ ▸ hbit
      have hst := hnot j (h.bits j hj hbit')
      rw [stored, hbit', Bool.or_true] at hst
      cases hst
    have hrank : rank (propMapped w.map) N_MAPPABLE_PROPS = 0 := by
      rw [rank_eq_of_false (fun j _ hj => hbits j hj) (Nat.zero_le _), rank_zero]
    refine ⟨?_, fun j hj => ?_⟩
    · rw [hclear, pack, room, Packed.size, hrank, List.take_replicate, List.drop_replicate,
        List.filter_replicate]
      simp
    · rw [hbits j hj, hclear, packed, List.getD_eq_getElem?_getD, List.getElem?_replicate]
      split <;> rfl
  | some ov =>
    have hov : w.vals = ov := by rw [Waif.vals, hpv]; rfl
    rw [hpv] at hres
    simp only [Option.bind_eq_bind, Option.bind_some, merge_transfer, ← hov, h.merge_eq,
      Option.map_some,
      Option.some.injEq] at hres
    subst hres
    exact ⟨rfl, fun j hj => packMap_bits _ hj⟩

/-! ## Updating -/

/-- What is packed and where its bits are determine all that is read. -/
theorem reconciled_of_packed (h : Consistent w old) (hnd : (names new).Nodup) (hm : MapOk w'.map)
    (hlen : w'.vals.length = room w'.map new.length) {P : Nat} (hP : w'.propdefs = some P)
    (hdefs : s.defs P = some new)
    (hvals : w'.vals = pack .clear N_MAPPABLE_PROPS (transferred w old new))
    (hbits : ∀ j < N_MAPPABLE_PROPS, propMapped w'.map j =
      packed .clear (transferred w old new) j) :
    Reconciled s w w' old new := by
  have hlength := transferred_length w old new
  have hvalue : ∀ j < new.length, valueOf w' j = (transferred w old new)[j]? := by
    intro j hj
    have hj' : j < (transferred w old new).length := by rwa [hlength]
    rw [valueOf, hvals, read_congr hbits, read_pack hj', List.getElem?_eq_getElem hj']
  -- a matched place has the value of the old one, and any other place is clear
  have hsome : ∀ {j n : Nat}, (matching (names old) 0 (names new))[j]? = some (some n) →
      (∃ a b, old[n]? = some a ∧ new[j]? = some b ∧ a.name.addr = b.name.addr) ∧
      valueOf w' j = valueOf w n := by
    intro j n hmatch
    obtain ⟨-, c, hold, hnew⟩ := matching_sound hmatch
    rw [Nat.sub_zero, names, List.getElem?_map] at hold
    rw [names, List.getElem?_map] at hnew
    obtain ⟨a, ha, rfl⟩ := Option.map_eq_some_iff.mp hold
    obtain ⟨b, hb, heq⟩ := Option.map_eq_some_iff.mp hnew
    obtain ⟨hn, -⟩ := List.getElem?_eq_some_iff.mp ha
    obtain ⟨hj, -⟩ := List.getElem?_eq_some_iff.mp hb
    refine ⟨⟨a, b, ha, hb, heq.symm⟩, ?_⟩
    rw [hvalue j hj, h.valueOf_eq hn, transferred, List.getElem?_map, hmatch]
    rfl
  have hnone : ∀ {j : Nat}, (matching (names old) 0 (names new))[j]? = some none →
      valueOf w' j = some .clear := by
    intro j hmatch
    obtain ⟨hj, -⟩ := List.getElem?_eq_some_iff.mp hmatch
    rw [hvalue j (by rwa [matching_length, names, List.length_map] at hj), transferred,
      List.getElem?_map, hmatch]
    rfl
  have hcases : ∀ {j : Nat} {b : WaifPropdef}, new[j]? = some b →
      (matching (names old) 0 (names new))[j]? = some none ∨
      ∃ n, (matching (names old) 0 (names new))[j]? = some (some n) := by
    intro j b hb
    obtain ⟨hj, -⟩ := List.getElem?_eq_some_iff.mp hb
    have hj' : j < (matching (names old) 0 (names new)).length := by
      rwa [matching_length, names, List.length_map]
    rw [List.getElem?_eq_getElem hj']
    cases (matching (names old) 0 (names new))[j] with
    | none => exact .inl rfl
    | some n => exact .inr ⟨n, rfl⟩
  refine ⟨⟨matching (names old) 0 (names new), fun n => (valueOf w n).getD .clear,
    fun n hn => h.valueOf_eq hn, ?_,
    matching_increasing _ _ _, fun j n hmatch => (hsome hmatch).1, h.merge_eq new⟩,
    fun horder j n a b hb ha heq => ?_,
    fun j b hb hnot => ?_, fun j b hb => ?_, fun j hj => ?_, ?_, hm, fun j hj hbit => ?_, hlen⟩
  · rw [matching_length, names, List.length_map]
  · have hname : (names new)[j]? = some b.name.addr := by
      rw [names, List.getElem?_map, hb, Option.map_some]
    have hname' : (names old)[n]? = some b.name.addr := by
      rw [names, List.getElem?_map, ha, Option.map_some, heq]
    -- names in the same order are all matched
    obtain ⟨n', hmatch⟩ := @matching_complete _ _ (names old) (names new) b.name.addr 0 j hnd horder
      hname (List.mem_of_getElem? hname')
    obtain ⟨⟨a', b', ha', hb', heq'⟩, hval⟩ := hsome hmatch
    rw [hb] at hb'
    cases hb'
    have hplace : n' = n := by
      refine place_unique (horder ▸ hnd.filter _) ?_ ?_ hname'
      · exact decide_eq_true (List.mem_of_getElem? hname)
      · rw [names, List.getElem?_map, ha', Option.map_some, heq']
    rw [hval, hplace]
  · rcases hcases hb with hmatch | ⟨n, hmatch⟩
    · exact hnone hmatch
    · obtain ⟨⟨a, b', ha, hb', heq⟩, -⟩ := hsome hmatch
      rw [hb] at hb'
      cases hb'
      refine absurd ?_ hnot
      rw [← heq]
      exact List.mem_map_of_mem (List.mem_of_getElem? ha)
  · rcases hcases hb with hmatch | ⟨n, hmatch⟩
    · exact .inl (hnone hmatch)
    · obtain ⟨⟨a, b', ha, hb', heq⟩, hval⟩ := hsome hmatch
      rw [hb] at hb'
      cases hb'
      exact .inr ⟨n, a, ha, heq, hval⟩
  · rw [hbits j hj, packed, List.getD_eq_getElem?_getD]
    rcases Nat.lt_or_ge j new.length with hlt | hge
    · have hj' : j < (transferred w old new).length := by rwa [hlength]
      rw [hvalue j hlt, List.getElem?_eq_getElem hj', Option.getD_some, decide_eq_true_iff]
      simp [hlt]
    · rw [List.getElem?_eq_none (by omega)]
      simp [Nat.not_lt.mpr hge]
  · simp only [countWaifPropvals, hP, hdefs, Option.map_some, mapCount_eq hm, hlen, room,
      Packed.size, Nat.add_comm]
  · rw [hbits j hj, packed, List.getD_eq_getElem?_getD] at hbit
    by_contra hge
    rw [List.getElem?_eq_none (by omega)] at hbit
    simp at hbit

/-- Updating a waif whose class has another list moves or frees each of its values and keeps those
that it should. -/
theorem updateWaifPropdefs_reconciles {a : Nat} {o : Object} {P : Nat} (hw : s.waifs a = some w)
    (ho : s.db.find w.waifclass = some o) (hsync : w.propdefs ≠ s.waifPropdefs w.waifclass)
    (hP : s.classPropdefs w.waifclass = some (P, s')) (hnew : s'.defs P = some new)
    (hold : s'.propdefsOf w = some old)
    (h : Consistent w old) (hnd : (names new).Nodup) :
    ∃ w', s.updateWaifPropdefs a = some (s'.putWaif a w') ∧ w'.waifclass = w.waifclass ∧
      w'.owner = w.owner ∧
      w'.propdefs = some P ∧ Reconciled s' w w' old new := by
  obtain ⟨w', hrun, hclass, howner, hpd, hm, hlen, -, hres⟩ :=
    updatedWaif_lists ho hsync hP hnew h.map fun ov hpv => by
    refine ⟨old, hold, ?_⟩
    rw [← h.vals, Waif.vals, hpv]
    rfl
  rw [hold] at hres
  obtain ⟨hvals, hbits⟩ := h.resync_eq hres
  refine ⟨w', ?_, hclass, howner, hpd, reconciled_of_packed h hnd hm hlen hpd hnew hvals hbits⟩
  rw [updateWaifPropdefs, hw, Option.bind_eq_bind, Option.bind_some, hrun]
  rfl

/-- A class that has got the property `:c` for the property `:a`, and a waif with a value for
`:b`. -/
def reclassed : Server where
  db := (Db.empty.dbCreateObject NOTHING).2
  nameAddr := id
  waifPropdefs := fun _ => some 1
  defs := fun P => if P = 0 then some [⟨⟨1, [58, 97]⟩, strHash [58, 97]⟩,
    ⟨⟨2, [58, 98]⟩, strHash [58, 98]⟩]
    else some [⟨⟨2, [58, 98]⟩, strHash [58, 98]⟩, ⟨⟨3, [58, 99]⟩, strHash [58, 99]⟩]
  nextDefs := 2
  waifs := fun _ => some ⟨0, NOTHING, some 0, some [.int 7], mapProp (fun _ => 0) 1⟩
  nextWaif := 1
  text := fun _ => []
  waifBits := fun _ => 0

theorem updateWaifPropdefs_reclassed :
    ∃ w', reclassed.updateWaifPropdefs 0 = some (reclassed.putWaif 0 w') ∧
    w'.waifclass = 0 ∧ w'.owner = NOTHING ∧ w'.propdefs = some 1 ∧
      Reconciled reclassed ⟨0, NOTHING, some 0, some [.int 7], mapProp (fun _ => 0) 1⟩ w'
        [⟨⟨1, [58, 97]⟩, strHash [58, 97]⟩, ⟨⟨2, [58, 98]⟩, strHash [58, 98]⟩]
        [⟨⟨2, [58, 98]⟩, strHash [58, 98]⟩, ⟨⟨3, [58, 99]⟩, strHash [58, 99]⟩] := by
  have hcons : Consistent ⟨0, NOTHING, some 0, some [.int 7], mapProp (fun _ => 0) 1⟩
      [⟨⟨1, [58, 97]⟩, strHash [58, 97]⟩, ⟨⟨2, [58, 98]⟩, strHash [58, 98]⟩] := by
    refine ⟨MapOk.zero.mapProp 1, fun i hi hbit => ?_, ?_⟩
    · rw [propMapped_mapProp .zero (by decide) hi, propMapped_eq .zero hi] at hbit
      obtain rfl : i = 1 := by simpa using hbit
      decide
    · rw [room, Packed.size, ← mapCount_eq (MapOk.zero.mapProp 1)]
      decide +kernel
  have hsync : some 0 ≠ reclassed.waifPropdefs 0 := by decide
  have hnd :
      (names [⟨⟨2, [58, 98]⟩, strHash [58, 98]⟩, ⟨⟨3, [58, 99]⟩, strHash [58, 99]⟩]).Nodup := by
        decide
  exact updateWaifPropdefs_reconciles rfl rfl hsync rfl rfl rfl hcons hnd

/-- A class whose property `:a` was deleted and added again, so that its name has another address,
and a waif with a value for it. -/
def readded : Server where
  db := (Db.empty.dbCreateObject NOTHING).2
  nameAddr := id
  waifPropdefs := fun _ => some 1
  defs := fun P => some [⟨⟨P, [58, 97]⟩, strHash [58, 97]⟩]
  nextDefs := 2
  waifs := fun _ => some ⟨0, NOTHING, some 0, some [.int 7], mapProp (fun _ => 0) 0⟩
  nextWaif := 1
  text := fun _ => []
  waifBits := fun _ => 0

/-- The lists have the same text in the same order, but the value is lost. -/
theorem readded_clear : ∃ w w' old new, readded.waifs 0 = some w ∧
    readded.updateWaifPropdefs 0 = some (readded.putWaif 0 w') ∧
    readded.defs 0 = some old ∧ readded.defs 1 = some new ∧ w.propdefs = some 0 ∧
      w'.propdefs = some 1 ∧ Consistent w old ∧
    old.map (fun d => d.name.text) = new.map (fun d => d.name.text) ∧ valueOf w 0 = some (.int 7) ∧
      valueOf w' 0 = some .clear := by
  have hcons : Consistent ⟨0, NOTHING, some 0, some [.int 7], mapProp (fun _ => 0) 0⟩
      [⟨⟨0, [58, 97]⟩, strHash [58, 97]⟩] := by
    refine ⟨MapOk.zero.mapProp 0, fun i hi hbit => ?_, ?_⟩
    · rw [propMapped_mapProp .zero (by decide) hi, propMapped_eq .zero hi] at hbit
      obtain rfl : i = 0 := by simpa using hbit
      decide
    · rw [room, Packed.size, ← mapCount_eq (MapOk.zero.mapProp 0)]
      decide +kernel
  exact ⟨_, _, _, _, rfl, rfl, rfl, rfl, rfl, rfl, hcons, rfl, by decide +kernel, by decide +kernel⟩

end Server

end NuMoo
