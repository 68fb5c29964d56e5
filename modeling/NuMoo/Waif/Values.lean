import NuMoo.Waif.Classes

/-!
# The values of a waif

The array of a waif has one value for each bit of its map and for each property past the map. A
waif that is brought up to date keeps some of its values, and the other properties are clear.

Results:
1. `transfer_spec`: the loop over the old and the new list stays inside the old values.
2. `updatedWaif_lists`: a waif is brought from any list to any other.
3. `updatedWaif_spec`: updating succeeds and keeps the invariant of the waif; the list of the waif
   is that of its class, unless both pointers are null.
-/

namespace NuMoo

open Packed

namespace Server

variable {s s' : Server} {w : Waif}

/-- How many values a waif with `len` properties has. -/
abbrev room (m : PropMap) (len : Nat) : Nat := size (propMapped m) N_MAPPABLE_PROPS len

/-- The values of a waif agree with its map and its list. -/
structure WaifOk (s : Server) (w : Waif) : Prop where
  map : MapOk w.map
  null : w.propdefs = none → w.propvals = none
  vals : ∀ P, w.propdefs = some P → ∃ l, s.defs P = some l ∧ w.vals.length = room w.map l.length

theorem WaifOk.of_lengths (h : WaifOk s w) (hl : SameLengths s s') : WaifOk s' w := by
  refine ⟨h.map, h.null, fun P hP => ?_⟩
  obtain ⟨l, hdefs, hlen⟩ := h.vals P hP
  obtain ⟨l', hdefs', hlen'⟩ := hl.some P l hdefs
  exact ⟨l', hdefs', hlen' ▸ hlen⟩

theorem vals_of_null (h : w.propvals = none) : w.vals = [] := by rw [Waif.vals, h]; rfl

/-- A count that ends inside the array. -/
theorem WaifOk.count (h : WaifOk s w) : s.countWaifPropvals w = some w.vals.length := by
  rw [countWaifPropvals]
  cases hP : w.propdefs with
  | none => simp only [vals_of_null (h.null hP), List.length_nil]
  | some P =>
    obtain ⟨l, hdefs, hlen⟩ := h.vals P hP
    simp only [hdefs, Option.map_some, mapCount_eq h.map, hlen, room, size, Nat.add_comm]

theorem allocWaifPropvals_eq (hm : MapOk w.map) {P : Nat} {l : List WaifPropdef}
    (hP : w.propdefs = some P)
    (hl : s.defs P = some l) : s.allocWaifPropvals w =
      some (if room w.map l.length = 0 then none
        else some (List.replicate (room w.map l.length) .clear)) := by
  have hcnt : s.countWaifPropvals w = some (room w.map l.length) := by
    simp only [countWaifPropvals, hP, hl, Option.map_some, mapCount_eq hm, room, size, Nat.add_comm]
  rw [allocWaifPropvals, hcnt]
  rfl

/-! ## Passing over values -/

section Transfer

variable {m : PropMap} {i n : Nat} {ov : List Var}

/-- How many values are stored below an index. -/
theorem rank_stored (m : PropMap) (i : Nat) :
    rank (stored m) i = rank (propMapped m) (min i N_MAPPABLE_PROPS) + (i - N_MAPPABLE_PROPS) := by
  induction i with
  | zero => simp
  | succ i ih =>
    rw [rank_succ, ih, stored]
    by_cases hi : i < N_MAPPABLE_PROPS
    · rw [Nat.min_eq_left (Nat.le_of_lt hi), Nat.min_eq_left hi, rank_succ]
      simp [Nat.not_le.mpr hi]
      omega
    · rw [Nat.min_eq_right (Nat.le_of_not_lt hi), Nat.min_eq_right (by omega)]
      simp [Nat.le_of_not_lt hi]
      omega

theorem rank_stored_le (m : PropMap) (len : Nat) : rank (stored m) len ≤ room m len := by
  have hmono : rank (propMapped m) (min len N_MAPPABLE_PROPS) ≤
      rank (propMapped m) N_MAPPABLE_PROPS :=
    rank_mono (Nat.min_le_right _ _)
  rw [rank_stored, room, size]
  omega

theorem skipVals_eq (h : rank (stored m) (i + n) - rank (stored m) i ≤ ov.length) :
    skipVals m n i ov = some (ov.drop (rank (stored m) (i + n) - rank (stored m) i)) := by
  induction n generalizing i ov with
  | zero => simp [skipVals]
  | succ n ih =>
    have hshift : i + 1 + n = i + (n + 1) := by omega
    have hmono : rank (stored m) (i + 1) ≤ rank (stored m) (i + (n + 1)) := rank_mono (by omega)
    have hsucc := rank_succ (stored m) i
    rw [skipVals.eq_def]
    dsimp only
    by_cases hi : stored m i = true
    · rw [if_pos hi] at hsucc ⊢
      cases ov with
      | nil => simp only [List.length_nil] at h; omega
      | cons v ov =>
        rw [List.length_cons] at h
        have hd : rank (stored m) (i + (n + 1)) - rank (stored m) i =
            (rank (stored m) (i + 1 + n) - rank (stored m) (i + 1)) + 1 := by rw [hshift]; omega
        simp only
        rw [ih (by rw [hshift]; omega), hd, List.drop_succ_cons]
    · rw [if_neg hi] at hsucc ⊢
      rw [ih (by rw [hshift]; omega), hshift, hsucc]
      rfl

/-- The loop over the two lists stays inside the old values and invents none. -/
theorem transfer_spec {new old : List WaifPropdef}
    (h : rank (stored m) (i + old.length) - rank (stored m) i ≤ ov.length) :
    ∃ xfer, transfer m old i new ov = some xfer ∧ xfer.length = new.length ∧ ∀ v ∈ xfer, v ∈ ov ∨
      v = .clear := by
  induction new generalizing old i ov with
  | nil => exact ⟨[], by rw [transfer, skipVals_eq h]; rfl, rfl, by simp⟩
  | cons b bs ih =>
    rw [transfer]
    cases hk : old.findIdx? fun a => a.name.addr == b.name.addr with
    | none =>
      obtain ⟨xfer, hx, hlen, hmem⟩ := ih h
      refine ⟨.clear :: xfer, by simp only [hx, Option.map_some], by simp [hlen], fun v hv => ?_⟩
      rcases List.mem_cons.mp hv with rfl | hv
      · exact .inr rfl
      · exact hmem v hv
    | some k =>
      obtain ⟨hklt, -⟩ := List.findIdx?_eq_some_iff_getElem.mp hk
      -- the values of the entries that are skipped are still in front of the one that is wanted
      have hmono : rank (stored m) (i + k + 1) ≤ rank (stored m) (i + old.length) :=
        rank_mono (by omega)
      have hmono' : rank (stored m) i ≤ rank (stored m) (i + k) := rank_mono (by omega)
      have hsucc := rank_succ (stored m) (i + k)
      have hrest : i + k + 1 + (old.drop (k + 1)).length = i + old.length := by
        rw [List.length_drop]; omega
      have hle : rank (stored m) (i + k) ≤ rank (stored m) (i + k + 1) := rank_mono (Nat.le_succ _)
      simp only [skipVals_eq (show rank (stored m) (i + k) - rank (stored m) i ≤
        ov.length by omega), Option.bind_eq_bind,
        Option.bind_some]
      have hov' : (ov.drop (rank (stored m) (i + k) - rank (stored m) i)).length = ov.length -
          (rank (stored m) (i + k) - rank (stored m) i) :=
        List.length_drop
      have hsub : ∀ v ∈ ov.drop (rank (stored m) (i + k) - rank (stored m) i), v ∈ ov :=
        fun v hv => List.mem_of_mem_drop hv
      generalize ov.drop (rank (stored m) (i + k) - rank (stored m) i) = ov' at hov' hsub ⊢
      by_cases hst : stored m (i + k) = true
      · rw [if_pos hst] at hsucc
        rw [hst]
        cases ov' with
        | nil => simp only [List.length_nil] at hov'; omega
        | cons u us =>
          rw [List.length_cons] at hov'
          obtain ⟨xfer, hx, hlen, hmem⟩ :=
            @ih (i + k + 1) us (old.drop (k + 1)) (by rw [hrest]; omega)
          refine ⟨u :: xfer, by simp only [hx, Option.map_some], by simp [hlen], fun v hv => ?_⟩
          rcases List.mem_cons.mp hv with rfl | hv
          · exact .inl (hsub v List.mem_cons_self)
          · exact (hmem v hv).imp_left fun hv => hsub v (List.mem_cons_of_mem _ hv)
      · rw [if_neg hst] at hsucc
        obtain ⟨xfer, hx, hlen, hmem⟩ :=
          @ih (i + k + 1) ov' (old.drop (k + 1)) (by rw [hrest]; omega)
        refine ⟨.clear :: xfer, by simp only [Bool.not_eq_true _ ▸ hst, hx, Option.map_some],
          by simp [hlen], fun v hv => ?_⟩
        rcases List.mem_cons.mp hv with rfl | hv
        · exact .inr rfl
        · exact (hmem v hv).imp_left (hsub v)

end Transfer

/-! ## Packing the values -/

theorem packMap_spec (xfer : List Var) {n : Nat} (hn : n ≤ N_MAPPABLE_PROPS) :
    MapOk (packMap xfer n) ∧
    ∀ j < N_MAPPABLE_PROPS, propMapped (packMap xfer n) j =
      (decide (j < n) && packed .clear xfer j) := by
  induction n with
  | zero =>
    refine ⟨.zero, fun j hj => ?_⟩
    rw [packMap, propMapped_eq .zero hj]
    simp
  | succ n ih =>
    obtain ⟨hm, hbits⟩ := ih (by omega)
    rw [packMap]
    split
    · next hx =>
      refine ⟨hm.mapProp n, fun j hj => ?_⟩
      rw [propMapped_mapProp hm hn hj, hbits j hj]
      rcases Nat.lt_trichotomy j n with h | rfl | h
      · simp [h, Nat.ne_of_lt h, Nat.lt_succ_of_lt h]
      · simp only [packed, hx, decide_true, ne_eq, not_false_eq_true, Nat.lt_succ_self,
          Bool.true_or, Bool.and_self]
      · simp [Nat.ne_of_gt h, Nat.not_lt.mpr (Nat.le_of_lt h), show ¬ j < n + 1 by omega]
    · next hx =>
      refine ⟨hm, fun j hj => ?_⟩
      rw [hbits j hj]
      rcases Nat.lt_trichotomy j n with h | rfl | h
      · simp [h, Nat.lt_succ_of_lt h]
      · simp only [packed, hx, decide_false, Bool.and_false]
      · simp [Nat.not_lt.mpr (Nat.le_of_lt h), show ¬ j < n + 1 by omega]

/-- The map that an update makes has the bits of the values that are packed. -/
theorem packMap_bits (xfer : List Var) {j : Nat} (hj : j < N_MAPPABLE_PROPS) :
    propMapped (packMap xfer (min xfer.length N_MAPPABLE_PROPS)) j = packed .clear xfer j := by
  rw [(packMap_spec xfer (Nat.min_le_right _ _)).2 j hj]
  by_cases hlt : j < xfer.length
  · simp [hlt, hj]
  · simp [packed, hlt]

theorem packed_room (xfer : List Var) : (pack .clear N_MAPPABLE_PROPS xfer).length =
    room (packMap xfer (min xfer.length N_MAPPABLE_PROPS)) xfer.length := by
  rw [pack_length, room, size, size, rank_congr fun j hj => packMap_bits xfer hj]

/-! ## Lists that are generated on demand -/

/-- The servers agree, but for lists that were generated. -/
structure Generated (s s' : Server) : Prop where
  db : s'.db = s.db
  nameAddr : s'.nameAddr = s.nameAddr
  waifs : s'.waifs = s.waifs
  nextWaif : s'.nextWaif = s.nextWaif
  text : s'.text = s.text
  waifBits : s'.waifBits = s.waifBits
  nextDefs : s.nextDefs ≤ s'.nextDefs
  defs : ∀ P, P < s.nextDefs → s'.defs P = s.defs P
  ptr : ∀ x P, s.waifPropdefs x = some P → s'.waifPropdefs x = some P
  new : ∀ x P, s'.waifPropdefs x = some P → s.waifPropdefs x = some P ∨
    s.waifPropdefs x = none ∧ s.nextDefs ≤ P

theorem Generated.refl (s : Server) : Generated s s :=
  ⟨rfl, rfl, rfl, rfl, rfl, rfl, Nat.le_refl _, fun _ _ => rfl, fun _ _ h => h, fun _ _ h => .inl h⟩

theorem ClassesOk.defs_lt (h : s.ClassesOk) {P : Nat} {l : List WaifPropdef}
    (hl : s.defs P = some l) : P < s.nextDefs := by
  by_contra hge
  rw [h.fresh P (Nat.le_of_not_lt hge)] at hl
  cases hl

theorem Generated.defs_eq (hg : Generated s s') (h : s.ClassesOk) {P : Nat} {l : List WaifPropdef}
    (hl : s.defs P = some l) : s'.defs P = some l := by rw [hg.defs P (h.defs_lt hl), hl]

theorem WaifOk.of_generated (hw : WaifOk s w) (h : s.ClassesOk) (hg : Generated s s') :
    WaifOk s' w := by
  refine ⟨hw.map, hw.null, fun P hP => ?_⟩
  obtain ⟨l, hdefs, hlen⟩ := hw.vals P hP
  exact ⟨l, hg.defs_eq h hdefs, hlen⟩

theorem genWaifPropdefs_spec (h : s.ClassesOk) {x : Objid} {o : Object} (ho : s.db.find x = some o)
    (hnone : s.waifPropdefs x = none) :
    ∃ s', s.genWaifPropdefs x = some (s.nextDefs, s') ∧ s'.ClassesOk ∧
      Generated s s' ∧ s'.waifPropdefs x = some s.nextDefs := by
  obtain ⟨l, hl⟩ := Db.exists_chain h.inv.kin ho
  obtain ⟨os, hos, hall⟩ := Db.lineage_eq hl (Db.chain_length_lt hl)
  let s' : Server := { s with
    defs := Function.update s.defs s.nextDefs (some (os.flatMap s.entriesOf))
    waifPropdefs := Function.update s.waifPropdefs x (some s.nextDefs)
    nextDefs := s.nextDefs + 1 }
  have hself : s'.waifPropdefs x = some s.nextDefs := Function.update_self _ _ _
  have hne : ∀ y, y ≠ x → s'.waifPropdefs y = s.waifPropdefs y :=
    fun y hy => Function.update_of_ne hy _ _
  -- the list is at a fresh address, so no other class has it
  have hdefs : ∀ P, P ≠ s.nextDefs → s'.defs P = s.defs P :=
    fun P hP => Function.update_of_ne hP _ _
  refine ⟨s', by rw [genWaifPropdefs, hos]; rfl,
    ⟨h.inv, h.names, fun y P hy => ?_, fun y z P hy hz => ?_, fun P hP => ?_⟩,
    ⟨rfl, rfl, rfl, rfl, rfl, rfl, Nat.le_succ _, fun P hP => hdefs P (Nat.ne_of_lt hP),
      fun y P hy => ?_, fun y P hy => ?_⟩,
    hself⟩
  · by_cases hyx : y = x
    · subst hyx
      rw [hself] at hy
      cases hy
      refine ⟨⟨o, ho⟩, fun l' hl' => ?_⟩
      obtain rfl := hl'.unique hl
      rw [show s'.defs s.nextDefs = _ from Function.update_self _ _ _, flatMap_entriesOf hall]
      rfl
    · rw [hne y hyx] at hy
      rw [hdefs P (Nat.ne_of_lt (h.lt hy))]
      exact h.cached y P hy
  · by_cases hyx : y = x <;> by_cases hzx : z = x
    · rw [hyx, hzx]
    · rw [hyx, hself] at hy
      cases hy
      rw [hne z hzx] at hz
      exact absurd (h.lt hz) (Nat.lt_irrefl _)
    · rw [hzx, hself] at hz
      cases hz
      rw [hne y hyx] at hy
      exact absurd (h.lt hy) (Nat.lt_irrefl _)
    · rw [hne y hyx] at hy
      rw [hne z hzx] at hz
      exact h.inj y z P hy hz
  · have hlt : s.nextDefs + 1 ≤ P := hP
    rw [hdefs P (by omega)]
    exact h.fresh P (by omega)
  · rw [hne y, hy]
    rintro rfl
    rw [hnone] at hy
    cases hy
  · by_cases hyx : y = x
    · subst hyx
      rw [hself] at hy
      cases hy
      exact .inr ⟨hnone, Nat.le_refl _⟩
    · exact .inl (hne y hyx ▸ hy)

/-- The list of a class, generated if there is none. -/
theorem classPropdefs_spec (h : s.ClassesOk) {x : Objid} {o : Object} (ho : s.db.find x = some o) :
    ∃ P s', s.classPropdefs x = some (P, s') ∧ s'.ClassesOk ∧ Generated s s' ∧
      s'.waifPropdefs x = some P := by
  rw [classPropdefs]
  cases hx : s.waifPropdefs x with
  | some P => exact ⟨P, s, rfl, h, .refl s, hx⟩
  | none =>
    obtain ⟨s', hs', hc, hg, hP⟩ := genWaifPropdefs_spec h ho hx
    exact ⟨_, s', hs', hc, hg, hP⟩

/-! ## Updating -/

/-- Both pointers are null although the class is valid. -/
def Stranded (s : Server) (w : Waif) : Prop :=
  s.db.valid w.waifclass = true ∧ w.propdefs = none ∧ s.waifPropdefs w.waifclass = none

/-- The waif has the list of its class. -/
def Synced (s : Server) (w : Waif) : Prop :=
  ∃ P, w.propdefs = some P ∧ s.waifPropdefs w.waifclass = some P

/-- The map and the values of a waif that is brought from an old list to a new one. -/
def resync (m : PropMap) (old : Option (List WaifPropdef)) (pv : Option (List Var))
    (new : List WaifPropdef) :
    Option (PropMap × List Var) :=
  match pv with
  | none => some (m, List.replicate (room m new.length) .clear)
  | some ov => do
    let xfer ← transfer m (← old) 0 new ov
    some (packMap xfer (min xfer.length N_MAPPABLE_PROPS), pack .clear N_MAPPABLE_PROPS xfer)

theorem Generated.defsOn (hg : Generated s s') (c : List Objid) : s'.defsOn c = s.defsOn c :=
  defsOn_congr (by rw [hg.db]) fun p _ => by rw [hg.nameAddr]

/-- What an update does to a waif. -/
structure Updated (s s' : Server) (w w' : Waif) : Prop where
  classes : s'.ClassesOk
  generated : Generated s s'
  ok : WaifOk s' w'
  waifclass : w'.waifclass = w.waifclass
  owner : w'.owner = w.owner
  vals : ∀ v ∈ w'.vals, v ∈ w.vals ∨ v = .clear
  gone : s.db.valid w.waifclass = false → w'.propdefs = none
  synced : s.db.valid w.waifclass = true → ¬ Stranded s w → Synced s' w'
  same : s.db.valid w.waifclass = true → w.propdefs = s.waifPropdefs w.waifclass → w' = w ∧ s' = s
  content : s.db.valid w.waifclass = true → w.propdefs ≠ s.waifPropdefs w.waifclass → ∀ c,
    Linked.Chain s.db.parentOf NOTHING w.waifclass c →
      resync w.map (s.propdefsOf w) w.propvals (s.defsOn c) = some (w'.map, w'.vals)

theorem Updated.stranded {w' : Waif} (h : Updated s s' w w') (hst : Stranded s w) :
    w' = w ∧ s' = s :=
  h.same hst.1 (hst.2.1.trans hst.2.2.symm)

/-- Bringing a waif to the list of its class, whatever that is. -/
theorem updatedWaif_lists {o : Object} (ho : s.db.find w.waifclass = some o)
    (hsync : w.propdefs ≠ s.waifPropdefs w.waifclass)
    {P : Nat} {new : List WaifPropdef} (hP : s.classPropdefs w.waifclass = some (P, s'))
    (hnew : s'.defs P = some new)
    (hm : MapOk w.map)
    (hold : ∀ ov, w.propvals = some ov → ∃ old, s'.propdefsOf w = some old ∧
      ov.length = room w.map old.length) :
    ∃ w', updatedWaif w s = some (w', s') ∧ w'.waifclass = w.waifclass ∧ w'.owner = w.owner ∧
      w'.propdefs = some P ∧
      MapOk w'.map ∧ w'.vals.length = room w'.map new.length ∧
      (∀ v ∈ w'.vals, v ∈ w.vals ∨ v = .clear) ∧
      resync w.map (s'.propdefsOf w) w.propvals new = some (w'.map, w'.vals) := by
  -- what is left of the function once the class has a list: values to carry over, or none
  have hrun : updatedWaif w s = (match w.propvals with
      | none => do
        return ({ w with propdefs := some P,
                         propvals := ← s'.allocWaifPropvals { w with propdefs := some P } }, s')
      | some ov => do
        let xfer ← transfer w.map (← s'.propdefsOf w) 0 new ov
        let w :=
          { w with propdefs := some P, map := packMap xfer (min xfer.length N_MAPPABLE_PROPS) }
        match ← s'.allocWaifPropvals w with
        | none => if pack .clear N_MAPPABLE_PROPS xfer = [] then
            some ({ w with propvals := none }, s') else none
        | some fresh =>
          if (pack .clear N_MAPPABLE_PROPS xfer).length ≤ fresh.length then
            some ({ w with propvals := some (pack .clear N_MAPPABLE_PROPS xfer ++
              fresh.drop (pack .clear N_MAPPABLE_PROPS xfer).length) }, s')
          else none) := by
    simp only [updatedWaif, ho, hsync, if_false, Option.bind_eq_bind, hP, Option.bind_some, hnew]
    rfl
  rcases Option.eq_none_or_eq_some w.propvals with hpv | ⟨ov, hpv⟩
  · have hnull :
        updatedWaif w s = (s'.allocWaifPropvals { w with propdefs := some P }).bind fun propvals =>
        some ({ w with propdefs := some P, propvals }, s') := by
      rw [hrun]
      split
      · rfl
      · next h => rw [hpv] at h; cases h
    rw [hnull, allocWaifPropvals_eq (w := { w with propdefs := some P }) hm rfl hnew]
    have hvals : (Waif.vals { w with
        propdefs := some P
        propvals := if room w.map new.length = 0 then none
          else some (List.replicate (room w.map new.length) .clear) }) =
        List.replicate (room w.map new.length) .clear := by
      rw [Waif.vals]
      split
      · next h0 => rw [h0]; rfl
      · rfl
    refine ⟨_, rfl, rfl, rfl, rfl, hm, by rw [hvals, List.length_replicate], fun v hv => ?_, ?_⟩
    · rw [hvals] at hv
      exact .inr (List.eq_of_mem_replicate hv)
    · rw [hvals, resync.eq_def, hpv]
  · obtain ⟨old, hold, hlen⟩ := hold ov hpv
    have hov : w.vals = ov := by rw [Waif.vals, hpv]; rfl
    obtain ⟨xfer, hx, hxlen, hxmem⟩ := @transfer_spec w.map 0 ov new old (by
      have hle := rank_stored_le w.map old.length
      rw [Nat.zero_add]
      omega)
    let w₁ : Waif :=
      { w with propdefs := some P, map := packMap xfer (min xfer.length N_MAPPABLE_PROPS) }
    have hm₁ : MapOk w₁.map := (packMap_spec xfer (Nat.min_le_right _ _)).1
    have hroom : room w₁.map new.length = (pack .clear N_MAPPABLE_PROPS xfer).length := by
      rw [← hxlen]
      exact (packed_room xfer).symm
    have halloc := allocWaifPropvals_eq (w := w₁) hm₁ rfl hnew
    rw [hroom] at halloc
    -- whatever holds the packed values, they are those that were carried over
    have hdone : ∀ pv : Option (List Var), pv.getD [] = pack .clear N_MAPPABLE_PROPS xfer →
        (Waif.vals { w₁ with propvals := pv }).length = room w₁.map new.length ∧
        (∀ v ∈ Waif.vals { w₁ with propvals := pv }, v ∈ w.vals ∨ v = .clear) ∧
        resync w.map (s'.propdefsOf w) w.propvals new =
          some (w₁.map, Waif.vals { w₁ with propvals := pv }) := fun pv hpv' => by
      refine ⟨by rw [hroom, Waif.vals, hpv'], fun v hv => ?_, ?_⟩
      · rw [Waif.vals, hpv'] at hv
        rw [hov]
        rcases List.mem_append.mp hv with hv | hv
        · exact hxmem v (List.mem_of_mem_take (List.mem_of_mem_filter hv))
        · exact hxmem v (List.mem_of_mem_drop hv)
      · rw [Waif.vals, hpv', resync.eq_def, hpv, hold]
        simp only [Option.bind_eq_bind, Option.bind_some, hx]
        rfl
    have hfull : updatedWaif w s = (s'.allocWaifPropvals w₁).bind fun fresh => match fresh with
        | none => if pack .clear N_MAPPABLE_PROPS xfer = [] then
            some ({ w₁ with propvals := none }, s') else none
        | some fresh =>
          if (pack .clear N_MAPPABLE_PROPS xfer).length ≤ fresh.length then
            some ({ w₁ with propvals := some (pack .clear N_MAPPABLE_PROPS xfer ++
              fresh.drop (pack .clear N_MAPPABLE_PROPS xfer).length) }, s')
          else none := by
      rw [hrun]
      split
      · next h => rw [hpv] at h; cases h
      · next h =>
        rw [hpv] at h
        cases h
        simp only [hold, hx, Option.bind_eq_bind, Option.bind_some]
        rfl
    rw [hfull, halloc, Option.bind_some]
    by_cases hempty : pack .clear N_MAPPABLE_PROPS xfer = []
    · rw [if_pos (by rw [hempty]; rfl)]
      exact ⟨_, if_pos hempty, rfl, rfl, rfl, hm₁, hdone none hempty.symm⟩
    · rw [if_neg (by simpa using hempty)]
      refine ⟨_, if_pos (by simp), rfl, rfl, rfl, hm₁, hdone (some _) ?_⟩
      simp

/-- Updating a waif succeeds. -/
theorem updatedWaif_spec (h : s.ClassesOk) (hw : WaifOk s w) :
    ∃ w' s', updatedWaif w s = some (w', s') ∧ Updated s s' w w' := by
  cases ho : s.db.find w.waifclass with
  | none =>
    have hinv : s.db.valid w.waifclass = false := by simp [Db.valid, ho]
    refine ⟨{ w with propdefs := none, propvals := none }, s, ?_, h, .refl s,
      ⟨hw.map, fun _ => rfl, fun P hP => by cases hP⟩,
      rfl, rfl, by simp [Waif.vals], fun _ => rfl, fun hv => ?_, fun hv => ?_, fun hv => ?_⟩
    · simp only [updatedWaif, ho, hw.count, Option.bind_some, Nat.le_refl, if_true]
    all_goals
      rw [hinv] at hv
      cases hv
  | some o =>
    have hval : s.db.valid w.waifclass = true := by simp [Db.valid, ho]
    have hnot : s.db.valid w.waifclass = false → ∀ {p : Prop}, p :=
      fun hv => by rw [hval] at hv; cases hv
    -- the pointers are the same: the waif is left as it is, even if there is no list
    by_cases hsync : w.propdefs = s.waifPropdefs w.waifclass
    · refine ⟨w, s, by simp [updatedWaif, ho, hsync], h, .refl s, hw, rfl, rfl, fun v hv => .inl hv,
        fun hv => hnot hv, fun _ hst => ?_, fun _ _ => ⟨rfl, rfl⟩, fun _ h => absurd hsync h⟩
      cases hP : w.propdefs with
      | none => exact absurd ⟨hval, hP, hsync ▸ hP⟩ hst
      | some P => exact ⟨P, hP, hsync ▸ hP⟩
    obtain ⟨P, s', hs', hc, hg, hP⟩ := classPropdefs_spec h ho
    obtain ⟨⟨o', ho'⟩, hdefs⟩ := hc.cached _ P hP
    obtain ⟨c, hch⟩ := Db.exists_chain hc.inv.kin ho'
    have hnew := hdefs c hch
    have hchain : ∀ c', Linked.Chain s.db.parentOf NOTHING w.waifclass c' →
        s.defsOn c' = s'.defsOn c := fun c' hc' => by
      rw [hg.db] at hch
      rw [hc'.unique hch, hg.defsOn]
    -- the list it was consistent with is still there, next to the new one
    have hdefsOf : ∀ ov, w.propvals = some ov → s'.propdefsOf w = s.propdefsOf w ∧
        ∃ old, s'.propdefsOf w = some old ∧ ov.length = room w.map old.length := by
      intro ov hpv
      obtain ⟨Q, hQ⟩ : ∃ Q, w.propdefs = some Q := by
        refine Option.ne_none_iff_exists'.mp fun hn => ?_
        rw [hw.null hn] at hpv
        cases hpv
      obtain ⟨old, hold, hlen⟩ := hw.vals Q hQ
      rw [Waif.vals, hpv] at hlen
      have hdefs : s.propdefsOf w = some old := by rw [propdefsOf, hQ, Option.bind_some, hold]
      have hdefs' : s'.propdefsOf w = some old := by
        rw [propdefsOf, hQ, Option.bind_some, hg.defs_eq h hold]
      exact ⟨hdefs'.trans hdefs.symm, old, hdefs', hlen⟩
    obtain ⟨w', hrun, hclass, howner, hpd, hm, hlen, hmem, hres⟩ :=
      updatedWaif_lists ho hsync hs' hnew hw.map
      fun ov hpv => (hdefsOf ov hpv).2
    refine ⟨w', s', hrun, hc, hg, ⟨hm, fun hn => ?_, fun R hR => ?_⟩, hclass, howner, hmem,
      fun hv => hnot hv,
      fun _ _ => ⟨P, hpd, hclass ▸ hP⟩, fun _ h => absurd h hsync, fun _ _ c' hc' => ?_⟩
    · rw [hpd] at hn
      cases hn
    · rw [hpd] at hR
      cases hR
      exact ⟨_, hnew, hlen⟩
    · rw [hchain c' hc', ← hres, resync.eq_def, resync.eq_def]
      cases hpv : w.propvals with
      | none => rfl
      | some ov => rw [(hdefsOf ov hpv).1]

end Server

end NuMoo
