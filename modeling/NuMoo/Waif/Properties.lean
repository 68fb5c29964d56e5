import NuMoo.Db.Safety
import NuMoo.Waif.References

/-!
# The properties of a waif

A name is looked up in the list of the waif, which gives an index, and then in the class, which
gives the permissions and the value of a clear property. On a waif that is in step with its class
the two searches agree.

Results:
1. `findPropvalOffset_eq`: the offset is the slot of the index.
2. `indexOf_defsOn`: the list of a class has a name exactly if `db_find_property` finds it.
3. `getProp_spec`, `putProp_spec`: what the two functions do.
-/

namespace NuMoo

open Linked Packed Relation

namespace Server

variable {s s' : Server} {w : Waif} {P : Nat} {l : List WaifPropdef}

/-! ## Searching the list -/

/-- The index of the first entry for a name. -/
def indexOf (l : List WaifPropdef) (name : Str) : Option Nat :=
  l.findIdx? fun d => d.hash == strHash name && mystrcasecmp d.name.text name == 0

theorem indexOf_lt {name : Str} {i : Nat} (h : indexOf l name = some i) : i < l.length :=
  (List.findIdx?_eq_some_iff_getElem.mp h).1

/-- The offset of a property is the slot of its index. -/
theorem findPropvalOffset_eq (hm : MapOk w.map) (hP : w.propdefs = some P)
    (hl : s.defs P = some l) (name : Str) :
    s.findPropvalOffset w name =
      some ((indexOf l name).map fun i => (i, slot (propMapped w.map) N_MAPPABLE_PROPS i)) := by
  simp only [findPropvalOffset, propdefsOf, hP, hl, Option.bind_eq_bind, Option.bind_some]
  rw [indexOf]
  cases l.findIdx? fun d => d.hash == strHash name && mystrcasecmp d.name.text name == 0 with
  | none => rfl
  | some i =>
    simp only [Option.map_some, slot]
    by_cases hi : i < N_MAPPABLE_PROPS
    · rw [if_neg (Nat.not_le.mpr hi), if_pos hi]
      cases hb : propMapped w.map i with
      | false => rfl
      | true => simp only [Bool.not_true, Bool.false_eq_true, if_false, word_lt hi, dif_pos,
          rank_eq hm hi, if_true]; rfl
    · rw [if_pos (Nat.le_of_not_lt hi), if_neg hi, mapCount_eq hm, Nat.add_comm]
      rfl

/-! ## Searching the class -/

theorem prefixedName_key (name : Str) :
    nameKey (prefixedName name) = WAIF_PROP_PREFIX :: nameKey name := by
  rw [prefixedName, nameKey_cons]
  rfl

/-- A name that matches one with the prefix has the prefix. -/
theorem prefixed_of_key {name name' : Str} (h : nameKey name = nameKey (prefixedName name')) :
    prefixed name = true := by
  cases name with
  | nil => cases (prefixedName_key name').symm.trans h.symm
  | cons c name =>
    rw [prefixedName_key, nameKey_cons] at h
    split at h
    · cases h
    · obtain ⟨hc, -⟩ := List.cons.inj h
      rw [prefixed, List.headD_cons, beq_iff_eq]
      rw [cmap] at hc
      split at hc
      · next hu =>
        have hn : (c + 32).toNat = 58 := by rw [hc]; rfl
        have h65 : 65 ≤ c.toNat := UInt8.le_iff_toNat_le.mp hu.1
        have h90 : c.toNat ≤ 90 := UInt8.le_iff_toNat_le.mp hu.2
        rw [UInt8.toNat_add] at hn
        simp only [UInt8.reduceToNat] at hn
        omega
      · exact hc

theorem not_builtIn (name : Str) :
    (ptable.find? fun e => strHash e.1 == strHash (prefixedName name) &&
    mystrcasecmp (prefixedName name) e.1 == 0) = none := by
  have hkeys : ∀ e ∈ ptable, (nameKey e.1).head? ≠ some WAIF_PROP_PREFIX := by decide
  rw [List.find?_eq_none]
  intro e he hm
  rw [Bool.and_eq_true, beq_iff_eq, beq_iff_eq, mystrcasecmp_eq_zero] at hm
  refine hkeys e he ?_
  rw [← hm.2, prefixedName_key]
  rfl

/-- No built-in property has the prefix. -/
theorem dbFindProperty_ne_builtIn (name : Str) (x : Objid) (prop : BiProp) :
    s.db.dbFindProperty x (prefixedName name) ≠ some (some (.builtIn prop x)) := by
  intro hf
  rw [Db.dbFindProperty] at hf
  simp only [not_builtIn name] at hf
  obtain ⟨os, -, hf⟩ := Option.map_eq_some_iff.mp hf
  rcases Db.searchProps_eq (strHash (prefixedName name))
    (prefixedName name) x os 0 with ⟨hs, -⟩ | ⟨d, j, q, hs, -⟩ <;>
  · rw [hs] at hf
    cases hf

/-- The list of a class has a name exactly if the class has the property. -/
theorem indexOf_defsOn (h : s.ClassesOk) {x : Objid} {o : Object} (ho : s.db.find x = some o)
    {c : List Objid}
    (hc : Chain s.db.parentOf NOTHING x c) (name : Str) :
    (indexOf (s.defsOn c) (prefixedName name) = none ∧
      s.db.dbFindProperty x (prefixedName name) = some none) ∨
      ∃ i definer n pv v, indexOf (s.defsOn c) (prefixedName name) = some i ∧
        s.db.dbFindProperty x (prefixedName name) = some (some (.slot definer x n)) ∧
        s.db.slot (.slot definer x n) = some pv ∧
        s.db.dbFindPropertyValue x (prefixedName name) = some (some (.slot definer x n, v)) := by
  have hmatch : ∀ p ∈ s.db.inherited c, ((s.entryOf p).hash == strHash (prefixedName name) &&
      mystrcasecmp (s.entryOf p).name.text (prefixedName name) == 0) = true ↔
      nameKey p.name = nameKey (prefixedName name) := by
    intro p hp
    obtain ⟨y, -, hpy⟩ := Db.mem_inherited.mp hp
    exact Db.Propdef.matches_iff (h.inv.layout.hash y p hpy)
  cases hi : indexOf (s.defsOn c) (prefixedName name) with
  | none =>
    refine .inl ⟨rfl, ?_⟩
    rcases h.inv.layout.findProperty_eq hc (prefixedName name) with
      ⟨prop, hf⟩ | ⟨hf, -⟩ | ⟨definer, n, q, -, -, -, hq, hkey, -, -, -, -⟩
    · exact absurd hf (dbFindProperty_ne_builtIn name x prop)
    · exact hf
    · have hqin := List.mem_of_getElem? hq
      have hmem : s.entryOf q ∈ s.defsOn c :=
        List.mem_map_of_mem (List.mem_filter.mpr ⟨hqin, prefixed_of_key hkey⟩)
      have hnot := List.findIdx?_eq_none_iff.mp hi _ hmem
      rw [(hmatch q hqin).mpr hkey] at hnot
      cases hnot
  | some i =>
    right
    obtain ⟨hlt, hd, -⟩ := List.findIdx?_eq_some_iff_getElem.mp hi
    obtain ⟨p, hp, hpe⟩ := List.mem_map.mp (List.getElem_mem hlt)
    have hpin : p ∈ s.db.inherited c := List.mem_of_mem_filter hp
    rw [← hpe] at hd
    have hname := (hmatch p hpin).mp hd
    rcases h.inv.layout.findProperty_eq hc (prefixedName name) with
      ⟨prop, hf⟩ | ⟨-, hnone⟩ | ⟨definer, n, q, y, oy, hf, hq, -, -, -, -, -⟩
    · exact absurd hf (dbFindProperty_ne_builtIn name x prop)
    · exact absurd hname (hnone p hpin)
    · obtain ⟨-, hn, -⟩ := h.inv.slot_bounds ho hf
      obtain ⟨l₁, z, l₂, pv, -, -, -, -, hr⟩ :=
        h.inv.layout.resolveClear_eq hc hq (Db.chain_length_lt hc)
      refine ⟨i, definer, n, o.propval[n], pv.var, rfl, hf, ?_, ?_⟩
      · rw [Db.slot, ho, Option.bind_some, List.getElem?_eq_getElem hn]
      · simp [Db.dbFindPropertyValue, hf, hr]

/-! ## Reading -/

/-- Is the name one that every waif answers by itself? -/
def reserved (name : Str) : Prop :=
  mystrcasecmp name OWNER = 0 ∨ mystrcasecmp name CLASS = 0 ∨ mystrcasecmp name WIZARD = 0

instance (name : Str) : Decidable (reserved name) := inferInstanceAs (Decidable (_ ∨ _ ∨ _))

/-- The waif's own value of a property, clear or not; `none` if there is no such property. -/
def ownValue (s : Server) (w : Waif) (name : Str) : Option Var := do
  let l ← s.propdefsOf w
  let i ← indexOf l (prefixedName name)
  Packed.read (propMapped w.map) N_MAPPABLE_PROPS .clear w.vals i

/-- A property that a waif has, with the slot and the value that its class gives it. -/
structure HasProperty (s : Server) (w : Waif) (name : Str) (i : Nat) (own : Var) (h : PropHandle)
    (pv : Pval) (v : Var) :
    Prop where
  index : ∃ P l, w.propdefs = some P ∧ s.defs P = some l ∧ indexOf l (prefixedName name) = some i
  own : s.ownValue w name = some own
  found : s.db.dbFindProperty w.waifclass (prefixedName name) = some (some h)
  isSlot : ∃ definer n, h = .slot definer w.waifclass n
  slot : s.db.slot h = some pv
  value : s.db.dbFindPropertyValue w.waifclass (prefixedName name) = some (some (h, v))

/-- A waif in step with its class has a property or does not. -/
theorem hasProperty_or (h : s.ClassesOk) (hw : WaifOk s w) (hsync : Synced s w) (name : Str) :
    (s.ownValue w name = none ∧ s.findPropvalOffset w (prefixedName name) = some none ∧
      s.db.dbFindProperty w.waifclass (prefixedName name) = some none) ∨
      ∃ i own hd pv v, HasProperty s w name i own hd pv v := by
  obtain ⟨P, hP, hclass⟩ := hsync
  obtain ⟨⟨o, ho⟩, hdefs⟩ := h.cached _ P hclass
  obtain ⟨c, hc⟩ := Db.exists_chain h.inv.kin ho
  have hl := hdefs c hc
  rcases indexOf_defsOn h ho hc name with ⟨hnone, hf⟩ | ⟨i, definer, n, pv, v, hi, hf, hslot, hv⟩
  · exact .inl ⟨by simp [ownValue, propdefsOf, hP, hl, hnone],
      by rw [findPropvalOffset_eq hw.map hP hl, hnone]; rfl, hf⟩
  · right
    obtain ⟨l', hl', hlen⟩ := hw.vals P hP
    rw [hl] at hl'
    cases hl'
    obtain ⟨own, hown⟩ : ∃ own, Packed.read (propMapped w.map) N_MAPPABLE_PROPS .clear w.vals i =
        some own := by
      rw [Packed.read]
      cases hs : Packed.slot (propMapped w.map) N_MAPPABLE_PROPS i with
      | none => exact ⟨.clear, rfl⟩
      | some k => exact ⟨_, List.getElem?_eq_getElem (hlen ▸ slot_lt hs (indexOf_lt hi))⟩
    exact ⟨i, own, _, pv, v, ⟨P, _, hP, hl, hi⟩, by simp [ownValue, propdefsOf, hP, hl, hi, hown],
      hf, ⟨definer, n, rfl⟩,
      hslot, hv⟩

/-- The answer of `waif_get_prop` about a property. -/
def answer (s : Server) (w : Waif) (progr : Objid) (own : Var) (pv : Pval) (v : Var) :
    ErrCode × Var :=
  if s.waifPropertyAllows w pv progr PF_READ then (.E_NONE, if own = .clear then v else own)
  else (.E_PERM, .none)

theorem getProp_spec {name : Str} (progr : Objid) (hname : ¬ reserved name)
    (hv : s.db.valid w.waifclass = true) (hw : WaifOk s w)
    {i : Nat} {own : Var} {h : PropHandle} {pv : Pval} {v : Var}
    (hp : HasProperty s w name i own h pv v) :
    s.getProp w name progr = some (s.answer w progr own pv v) := by
  obtain ⟨P, l, hP, hl, hi⟩ := hp.index
  obtain ⟨definer, n, rfl⟩ := hp.isSlot
  simp only [reserved, not_or] at hname
  have hown : valueAt w (Packed.slot (propMapped w.map) N_MAPPABLE_PROPS i) = some own := by
    have hown := hp.own
    simp only [ownValue, propdefsOf, hP, hl, hi, Option.bind_eq_bind, Option.bind_some] at hown
    exact hown
  have hclass : s.classProperty w (prefixedName name) own =
      some (.slot definer w.waifclass n, if own = .clear then v else own) := by
    rw [classProperty, hp.found, hp.value]
    split <;> rfl
  simp only [getProp, hname.1, hname.2.1, hname.2.2, hv, if_false, Bool.not_true,
    Bool.false_eq_true,
    findPropvalOffset_eq hw.map hP hl, hi, Option.map_some, Option.bind_eq_bind, Option.bind_some,
    hown, hclass, hp.slot,
    answer]
  split <;> rfl

/-! ## Storing -/

theorem propMapped_insert {m : PropMap} (hm : MapOk m) {i : Nat} (hi : i < N_MAPPABLE_PROPS) :
    propMapped (mapProp m i) = Packed.insert (propMapped m) i := by
  funext j
  by_cases hj : j < N_MAPPABLE_PROPS
  · rw [propMapped_mapProp hm hi hj, Packed.insert]
    by_cases hji : j = i
    · subst hji
      simp
    · simp [hji]
  · have hword : ¬ j / 32 < WAIF_MAPSZ := fun h => hj (by rw [N_MAPPABLE_PROPS]; omega)
    rw [propMapped, dif_neg hword, Packed.insert, Function.update_of_ne (by omega),
      propMapped, dif_neg hword]

/-- A new slot holds a clear value and moves the values behind it. -/
theorem allocPropvalOffset_spec (hw : WaifOk s w) (hP : w.propdefs = some P)
    (hl : s.defs P = some l) {i : Nat}
    (hi : i < N_MAPPABLE_PROPS) (hfree : propMapped w.map i = false) : s.allocPropvalOffset w i =
      some ({ w with
        map := mapProp w.map i
        propvals := some (w.vals.insertIdx (rank (propMapped w.map) i) .clear) },
        rank (propMapped w.map) i) := by
  obtain ⟨l', hl', hlen⟩ := hw.vals P hP
  rw [hl] at hl'
  cases hl'
  have hsize : room (mapProp w.map i) l.length = w.vals.length + 1 := by
    rw [room, propMapped_insert hw.map hi, size_insert hfree hi, hlen]
  have hcnt : s.countWaifPropvals { w with map := mapProp w.map i } = some (w.vals.length + 1) := by
    simp only [countWaifPropvals, hP, hl, Option.map_some, mapCount_eq (hw.map.mapProp i), ← hsize,
      room, size, Nat.add_comm]
  have hrank : rank (propMapped w.map) i ≤ w.vals.length := by
    have hle : rank (propMapped w.map) i ≤ rank (propMapped w.map) N_MAPPABLE_PROPS :=
      rank_mono (Nat.le_of_lt hi)
    rw [hlen, room, size]
    omega
  have hlength : (w.vals.insertIdx (rank (propMapped w.map) i) Var.clear).length =
      w.vals.length + 1 :=
    List.length_insertIdx_of_le_length hrank _
  simp only [allocPropvalOffset, hfree, Bool.false_eq_true, if_false, hcnt, Option.bind_eq_bind,
    Option.bind_some,
    propMapped_insert hw.map hi, expand_eq hfree hi hlen, hlength, Nat.le_refl, if_true,
    rank_insert_le (Nat.le_refl i)]
  rw [List.take_of_length_le (Nat.le_of_eq hlength)]

/-- The waif with a value stored for the property at an index. -/
structure Stored (s : Server) (w w' : Waif) (i : Nat) (val : Var) : Prop where
  ok : WaifOk s w'
  waifclass : w'.waifclass = w.waifclass
  owner : w'.owner = w.owner
  propdefs : w'.propdefs = w.propdefs
  read : ∀ j, Packed.read (propMapped w'.map) N_MAPPABLE_PROPS .clear w'.vals j =
    if j = i then some val else Packed.read (propMapped w.map) N_MAPPABLE_PROPS .clear w.vals j
  vals : ∀ v ∈ w'.vals, v ∈ w.vals ∨ v = val ∨ v = .clear

theorem store_spec (hw : WaifOk s w) (hP : w.propdefs = some P) (hl : s.defs P = some l) {i : Nat}
    (hi : i < l.length)
    (val : Var) :
    ∃ w₁ k, s.destOffset w i (slot (propMapped w.map) N_MAPPABLE_PROPS i) = some (w₁, k) ∧
      k < w₁.vals.length ∧ Stored s w { w₁ with propvals := some (w₁.vals.set k val) } i val := by
  obtain ⟨l', hl', hlen⟩ := hw.vals P hP
  rw [hl] at hl'
  cases hl'
  cases hs : slot (propMapped w.map) N_MAPPABLE_PROPS i with
  -- the property has a place already, which is overwritten
  | some k =>
    have hk : k < w.vals.length := hlen ▸ slot_lt hs hi
    refine ⟨w, k, rfl, hk, ⟨hw.map, fun h => ?_, fun Q hQ => ?_⟩, rfl, rfl, rfl,
      read_set hs hk, fun v hv => ?_⟩
    · rw [show w.propdefs = none from h] at hP
      cases hP
    · rw [show w.propdefs = some Q from hQ] at hP
      cases hP
      exact ⟨l, hl, by simpa [Waif.vals] using hlen⟩
    · rcases List.mem_or_eq_of_mem_set hv with hv | rfl
      · exact .inl hv
      · exact .inr (.inl rfl)
  | none =>
    obtain ⟨hiN, hfree⟩ : i < N_MAPPABLE_PROPS ∧ propMapped w.map i = false := by
      rw [slot] at hs
      split at hs
      · next hiN =>
        split at hs
        · cases hs
        · next hb => exact ⟨hiN, by simpa using hb⟩
      · cases hs
    have hrank : rank (propMapped w.map) i ≤ w.vals.length := by
      have hle : rank (propMapped w.map) i ≤ rank (propMapped w.map) N_MAPPABLE_PROPS :=
        rank_mono (Nat.le_of_lt hiN)
      rw [hlen, room, size]
      omega
    -- its bit is clear: the values are moved up to make room for one at the rank of the bit
    let w₁ : Waif := { w with
      map := mapProp w.map i
      propvals := some (w.vals.insertIdx (rank (propMapped w.map) i) .clear) }
    have hvals₁ : w₁.vals = w.vals.insertIdx (rank (propMapped w.map) i) .clear := rfl
    have hlen₁ : w₁.vals.length = w.vals.length + 1 := List.length_insertIdx_of_le_length hrank _
    have hmap₁ : propMapped w₁.map = Packed.insert (propMapped w.map) i :=
      propMapped_insert hw.map hiN
    have hslot₁ : slot (propMapped w₁.map) N_MAPPABLE_PROPS i =
        some (rank (propMapped w.map) i) := by
      rw [hmap₁, slot_insert hfree hiN, if_pos rfl]
    have hk : rank (propMapped w.map) i < w₁.vals.length := by omega
    refine ⟨w₁, _, allocPropvalOffset_spec hw hP hl hiN hfree, hk,
      ⟨hw.map.mapProp i, fun h => ?_, fun Q hQ => ?_⟩, rfl,
      rfl, rfl, fun j => ?_, fun v hv => ?_⟩
    · rw [show w.propdefs = none from h] at hP
      cases hP
    · rw [show w.propdefs = some Q from hQ] at hP
      cases hP
      refine ⟨l, hl, ?_⟩
      show (w₁.vals.set _ val).length = room w₁.map l.length
      rw [List.length_set, hlen₁, room, hmap₁, size_insert hfree hiN, hlen]
    · refine (read_set hslot₁ hk j).trans ?_
      rw [hmap₁, hvals₁, read_insert hfree hiN hrank]
      by_cases hj : j = i
      · rw [if_pos hj, if_pos hj]
      · rw [if_neg hj, if_neg hj, if_neg hj]
    · rcases List.mem_or_eq_of_mem_set hv with hv | rfl
      · rcases List.eq_or_mem_of_mem_insertIdx hv with rfl | hv
        · exact .inr (.inr rfl)
        · exact .inl hv
      · exact .inr (.inl rfl)

/-- What `waif_put_prop` does to a property that the waif has. -/
theorem putProp_spec {a : Nat} {name : Str} {val : Var} (progr : Objid) (hname : ¬ reserved name)
    (hv : s.db.valid w.waifclass = true)
    (hw : WaifOk s w) {i : Nat} {own : Var} {h : PropHandle} {pv : Pval} {v : Var}
    (hp : HasProperty s w name i own h pv v)
    {b : Bool} (href : s.refersTo val a = some b) :
    ∃ w', Stored s w w' i val ∧ s.putProp a w name val progr =
      some (if s.waifPropertyAllows w pv progr PF_WRITE then
        if b then (.E_RECMOVE, s) else (.E_NONE, s.putWaif a w')
      else (.E_PERM, s)) := by
  obtain ⟨P, l, hP, hl, hi⟩ := hp.index
  obtain ⟨definer, n, rfl⟩ := hp.isSlot
  simp only [reserved, not_or] at hname
  obtain ⟨w₁, k, hdest, hk, hst⟩ := store_spec hw hP hl (indexOf_lt hi) val
  refine ⟨_, hst, ?_⟩
  simp only [putProp, hname.1, hname.2.1, hname.2.2, or_self, hv, if_false, Bool.not_true,
    Bool.false_eq_true,
    findPropvalOffset_eq hw.map hP hl, hi, Option.map_some, Option.bind_eq_bind, Option.bind_some,
    hp.found, hp.slot, href,
    hdest]
  cases hallow : s.waifPropertyAllows w pv progr PF_WRITE with
  | false => rfl
  | true =>
    cases b with
    | true => rfl
    | false =>
      simp only [Bool.not_true, Bool.false_eq_true, if_false, hk, if_true]
      rfl

end Server

end NuMoo
