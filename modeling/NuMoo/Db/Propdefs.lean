import NuMoo.Db.Safety
import NuMoo.Lib.Table

/-!
# What is found after a property comes or goes

A name is looked up along the definitions of the ancestors, and the slot stands at the
same place in the array of the object. A definition that comes in between with
a slot for it, or goes with its slots, moves all the others by one, and every other
name is still found with its slot.

Results:
1. `propertyFound_eq`: a lookup searches the definitions side by side with the slots.
2. `Widened.found`, `Widened.found_new`: a definition more.
3. `Narrowed.widened`: a definition less is one more the other way round.
4. `Tabled.add`, `Tabled.delete`: the tables in memory go with the lists of definitions.
5. `propdefs_frame`: `db_add_propdef` and `db_delete_propdef`.
-/

namespace NuMoo

open Linked

/-- What a lookup comes to: a built-in property, or the object that defines the property and the
slot. -/
inductive FoundProperty where
  | builtIn (prop : BiProp)
  | slot (definer : Objid) (pval : Pval)
deriving DecidableEq

namespace Db

/-- The property that `db_find_property` finds under a name, with what its handle points to. -/
def propertyFound (oid : Objid) (name : Str) (db : Db) : Option (Option FoundProperty) := do
  match ← db.dbFindProperty oid name with
  | none => some none
  | some (.builtIn prop _) => some (some (.builtIn prop))
  | some (.slot definer oid n) =>
    (db.slot (.slot definer oid n)).map fun pv => some (.slot definer pv)

/-- The definitions on a chain with the objects that they stand in. -/
def definitions (db : Db) (l : List Objid) : List (Objid × Propdef) :=
  l.flatMap fun y => (db.propdefsOf y).map (y, ·)

/-- The search for a name among definitions and their slots. -/
def findSlot (name : Str) (defs : List (Objid × Propdef)) (slots : List Pval) :
    Option FoundProperty :=
  ((defs.zip slots).find? fun e => e.1.2.matches (strHash name) name).map fun e => .slot e.1.1 e.2

variable {db db' : Db} {oid x : Objid} {o ox : Object} {l m : List Objid} {name : Str}
    {p : Propdef} {i : Nat}
  {Slot : Objid → Object → Pval → Prop}

/-! ## Lookups -/

theorem definitions_cons (y : Objid) (l : List Objid) :
    db.definitions (y :: l) = (db.propdefsOf y).map (y, ·) ++ db.definitions l := List.flatMap_cons

theorem definitions_append (l m : List Objid) :
    db.definitions (l ++ m) = db.definitions l ++ db.definitions m :=
  List.flatMap_append

theorem definitions_congr (h : ∀ y ∈ l, db'.propdefsOf y = db.propdefsOf y) :
    db'.definitions l = db.definitions l :=
  List.flatMap_congr fun y hy => by rw [h y hy]

theorem definitions_map_snd (l : List Objid) :
    (db.definitions l).map Prod.snd = db.inherited l := by
  rw [definitions, inherited, List.map_flatMap]
  simp only [List.map_map, Function.comp_def, List.map_id']

theorem definitions_length (l : List Objid) :
    (db.definitions l).length = (db.inherited l).length := by
  rw [← definitions_map_snd, List.length_map]

theorem mem_definitions {e : Objid × Propdef} :
    e ∈ db.definitions l ↔ e.1 ∈ l ∧ e.2 ∈ db.propdefsOf e.1 := by
  obtain ⟨y, p⟩ := e
  simp [definitions, List.mem_flatMap]

/-- The search through the objects of a chain is one through its definitions. -/
theorem searchProps_definitions (hids : ∀ x o, db.find x = some o → o.id = x) {hash : UInt32}
    {os : List Object} {k : Nat}
    (h : List.Forall₂ (fun x o => db.find x = some o) l os) :
    searchProps hash name oid os k =
      (((db.definitions l).zipIdx k).find? fun e => e.1.2.matches hash name).map fun e =>
        .slot e.1.1 oid e.2 := by
  induction h generalizing k with
  | nil => rfl
  | @cons y o l os ho _ ih =>
    have hfirst : ∀ (ps : List Propdef) k,
        ((ps.map (y, ·)).zipIdx k).find? (fun e => e.1.2.matches hash name) =
          (ps.findIdx? fun p => p.matches hash name).bind fun i => ps[i]?.map fun p =>
            ((y, p), k + i) := by
      intro ps
      induction ps with
      | nil => exact fun _ => rfl
      | cons p ps ih =>
        intro k
        rw [List.map_cons, List.zipIdx_cons, List.find?_cons, List.findIdx?_cons, ih]
        cases p.matches hash name with
        | true => rfl
        | false =>
          simp only [Bool.false_eq_true, if_false, Option.bind_map, Function.comp_def,
            List.getElem?_cons_succ,
            Nat.add_assoc, Nat.add_comm 1]
    rw [searchProps, definitions_cons, propdefsOf_eq ho, List.zipIdx_append, List.find?_append,
      hfirst, hids y o ho,
      List.length_map]
    cases hi : o.propdefs.findIdx? fun p => p.matches hash name with
    | none => exact ih
    | some i =>
      obtain ⟨hlt, -, -⟩ := List.findIdx?_eq_some_iff_getElem.mp hi
      simp [List.getElem?_eq_getElem hlt]

/-- Searching entries with their places is searching them with what stands there in another list. -/
theorem find?_zipIdx {α β γ : Type} (u : List α) (a pre : List β) (h : u.length = a.length)
    (P : α → Bool) (f : α → β → γ) :
    ((u.zipIdx pre.length).find? fun e => P e.1).map (fun e => ((pre ++ a)[e.2]?).map (f e.1)) =
      ((u.zip a).find? fun e => P e.1).map fun e => some (f e.1 e.2) := by
  induction u generalizing a pre with
  | nil => rfl
  | cons x u ih =>
    cases a with
    | nil => cases h
    | cons b a =>
      rw [List.zipIdx_cons, List.zip_cons_cons, List.find?_cons, List.find?_cons]
      cases hx : P x with
      | true => simp
      | false =>
        have hnext := ih a (pre ++ [b]) (Nat.succ.inj h)
        rw [List.length_append, List.append_assoc] at hnext
        exact hnext

/-- A name that is not built in is searched for in the definitions side by side with the slots. -/
theorem propertyFound_eq (hids : ∀ x o, db.find x = some o → o.id = x) (ho : db.find x = some o)
    (hc : Chain db.parentOf NOTHING x l) (hlen : o.propval.length = (db.inherited l).length)
    (name : Str) :
    db.propertyFound x name =
      some (match builtInNamed name with
        | some e => some (.builtIn e.2)
        | none => findSlot name (db.definitions l) o.propval) := by
  obtain ⟨os, hos, hall⟩ := lineage_eq hc (chain_length_lt hc)
  unfold propertyFound dbFindProperty builtInNamed
  cases hb : ptable.find? fun e => strHash e.1 == strHash name && mystrcasecmp name e.1 == 0 with
  | some e => simp [hb]
  | none =>
    have hzip := find?_zipIdx (db.definitions l) o.propval [] (by rw [definitions_length, hlen])
      (fun e => e.2.matches (strHash name) name) fun e pv => FoundProperty.slot e.1 pv
    rw [List.nil_append, List.length_nil] at hzip
    simp only [hb, hos, Option.map_some, Option.bind_eq_bind, Option.bind_some,
      searchProps_definitions hids hall, findSlot]
    cases hf : ((db.definitions l).zipIdx 0).find? fun e => e.1.2.matches (strHash name) name with
    | none =>
      rw [hf, Option.map_none] at hzip
      rw [Option.map_eq_none_iff.mp hzip.symm]
      rfl
    | some e =>
      rw [hf, Option.map_some] at hzip
      obtain ⟨e', he', hslot⟩ := Option.map_eq_some_iff.mp hzip.symm
      obtain ⟨pv, hpv, heq⟩ := Option.map_eq_some_iff.mp hslot.symm
      rw [he']
      simp only [Option.map_some, slot, ho, Option.bind_some, hpv, heq]

/-! ## A definition and its slots more -/

theorem zip_insert {α β : Type} {u w : List α} {a : List β} (e : α) (b : β)
    (hlen : a.length = u.length + w.length) :
    (u ++ e :: w).zip (a.take u.length ++ b :: a.drop u.length) =
      u.zip (a.take u.length) ++ (e, b) :: w.zip (a.drop u.length) ∧
    (u ++ w).zip a = u.zip (a.take u.length) ++ w.zip (a.drop u.length) := by
  have htake : u.length = (a.take u.length).length := by
    rw [List.length_take, Nat.min_eq_left]
    omega
  refine ⟨?_, ?_⟩
  · rw [List.zip_append htake, List.zip_cons_cons]
  · rw [← List.zip_append htake, List.take_append_drop]

/-- A slot for another name is passed over, -/
theorem findSlot_insert {u w : List (Objid × Propdef)} {a : List Pval}
    {e : Objid × Propdef} (pv : Pval)
    (hlen : a.length = u.length + w.length) (he : e.2.matches (strHash name) name = false) :
    findSlot name (u ++ e :: w) (a.take u.length ++ pv :: a.drop u.length) =
      findSlot name (u ++ w) a := by
  obtain ⟨hnew, hold⟩ := zip_insert e pv hlen
  rw [findSlot, findSlot, hnew, hold, List.find?_append, List.find?_append,
    List.find?_cons_of_neg (by simp [he])]

/-- and the slot of the first definition with the name is found. -/
theorem findSlot_insert_self {u w : List (Objid × Propdef)} {a : List Pval}
    {e : Objid × Propdef} (pv : Pval)
    (hlen : a.length = u.length + w.length) (he : e.2.matches (strHash name) name = true)
    (hu : ∀ d ∈ u, d.2.matches (strHash name) name = false) :
    findSlot name (u ++ e :: w) (a.take u.length ++ pv :: a.drop u.length) =
      some (.slot e.1 pv) := by
  have hnone : (u.zip (a.take u.length)).find? (fun d => d.1.2.matches (strHash name) name) =
      none := by
    rw [List.find?_eq_none]
    intro d hd
    rw [hu d.1 (List.of_mem_zip hd).1]
    exact Bool.false_ne_true
  rw [findSlot, (zip_insert e pv hlen).1, List.find?_append, hnone,
    List.find?_cons_of_pos (by exact he)]
  rfl

/-- The place of the slot in the array of an object of the subtree. -/
theorem slotPlace_eq (m : List Objid) (oid : Objid) (hi : i ≤ o.propdefs.length) :
    (db.inherited m).length + i =
      (db.definitions m ++ (o.propdefs.take i).map (oid, ·)).length := by
  rw [List.length_append, definitions_length, List.length_map, List.length_take, Nat.min_eq_left hi]

section Widened

variable (h : Widened db db' oid i p Slot)
include h

theorem Widened.ids (hids : ∀ x o, db.find x = some o → o.id = x) :
    ∀ x o, db'.find x = some o → o.id = x := by
  intro x o' ho'
  by_cases hb : (db.links kin).Below oid x
  · obtain ⟨m, hm⟩ := hb.path
    obtain ⟨ox, hox⟩ := Option.isSome_iff_exists.mp (links_isSome (F := kin) ▸ hb.isSome.2)
    obtain ⟨pv, -, hox'⟩ := h.below x m ox hm hox
    rw [ho'] at hox'
    cases hox'
    exact hids x ox hox
  · rw [h.out x hb] at ho'
    exact hids x o' ho'

/-- The definitions on the chain of an object of the subtree, before and after. -/
theorem Widened.definitions_path (ho : db.find oid = some o) (hm : Path (db.links kin) oid x m)
    (hc : Chain db.parentOf NOTHING oid (oid :: l)) :
    db.definitions (m ++ oid :: l) =
      (db.definitions m ++ (o.propdefs.take i).map (oid, ·)) ++
        ((o.propdefs.drop i).map (oid, ·) ++ db.definitions l) ∧
    db'.definitions (m ++ oid :: l) =
      (db.definitions m ++ (o.propdefs.take i).map (oid, ·)) ++
        (oid, p) :: ((o.propdefs.drop i).map (oid, ·) ++ db.definitions l) := by
  have hnd := (chain_of_path hm hc).nodup
  rw [List.nodup_append] at hnd
  have hmid : db'.definitions m = db.definitions m :=
    definitions_congr fun y hy => h.propdefsOf_ne fun he =>
    hnd.2.2 y hy oid List.mem_cons_self he
  have hrest : db'.definitions l = db.definitions l :=
    definitions_congr fun y hy => h.propdefsOf_ne fun he =>
    (List.nodup_cons.mp hnd.2.1).1 (he ▸ hy)
  constructor
  · rw [definitions_append, definitions_cons, propdefsOf_eq ho,
      List.append_assoc, ← List.append_assoc (List.map _ _) _ (db.definitions l),
      ← List.map_append, List.take_append_drop]
  · rw [definitions_append, definitions_cons, hmid, hrest, h.propdefsOf_self ho,
      List.map_append, List.map_cons,
      List.append_assoc, List.append_assoc, List.cons_append]

/-- The arrays fit the definitions again. -/
theorem Widened.length_eq (hk : (db.links kin).WF NOTHING) (ho : db.find oid = some o)
    (hi : i ≤ o.propdefs.length)
    (hlen : ∀ x ox l, db.find x = some ox → Chain db.parentOf NOTHING x l →
      ox.propval.length = (db.inherited l).length) :
    ∀ x ox l, db'.find x = some ox → Chain db'.parentOf NOTHING x l →
    ox.propval.length = (db'.inherited l).length := by
  intro x ox' lx hox' hcx
  rw [h.parentOf] at hcx
  rw [← definitions_length]
  by_cases hb : (db.links kin).Below oid x
  · obtain ⟨m, hm⟩ := hb.path
    obtain ⟨ox, hox⟩ := Option.isSome_iff_exists.mp (links_isSome (F := kin) ▸ hb.isSome.2)
    obtain ⟨l', hl'⟩ := exists_chain hk ho
    obtain ⟨l, rfl, -⟩ := chain_cons ho hl'
    obtain rfl := hcx.unique (chain_of_path hm hl')
    obtain ⟨pv, -, hox''⟩ := h.below x m ox hm hox
    rw [hox'] at hox''
    cases hox''
    obtain ⟨hold, hnew⟩ := h.definitions_path ho hm hl'
    have hlx := hlen x ox _ hox hcx
    rw [← definitions_length, hold, List.length_append] at hlx
    rw [hnew, List.length_append, List.length_append, List.length_cons, List.length_cons,
      List.length_take,
      List.length_drop, slotPlace_eq m oid hi]
    omega
  · rw [h.out x hb] at hox'
    rw [hlen x ox' lx hox' hcx, ← definitions_length,
      definitions_congr fun y hy => h.propdefsOf_ne fun he => hb (he ▸ mem_chain_isBelow hk hcx hy)]

/-- Every other name is found as before. -/
theorem Widened.found (hk : (db.links kin).WF NOTHING) (hids : ∀ x o, db.find x = some o → o.id = x)
    (hlen : ∀ x ox l, db.find x = some ox → Chain db.parentOf NOTHING x l →
      ox.propval.length = (db.inherited l).length)
    (ho : db.find oid = some o) (hi : i ≤ o.propdefs.length) (hox : db.find x = some ox)
    (hname : (db.links kin).Below oid x → p.matches (strHash name) name = false) :
    db'.propertyFound x name = db.propertyFound x name := by
  obtain ⟨lx, hcx⟩ := exists_chain hk hox
  have hcx' : Chain db'.parentOf NOTHING x lx := h.parentOf ▸ hcx
  have hlen' := h.length_eq hk ho hi hlen
  by_cases hb : (db.links kin).Below oid x
  · obtain ⟨m, hm⟩ := hb.path
    obtain ⟨pv, -, hox'⟩ := h.below x m ox hm hox
    rw [propertyFound_eq (h.ids hids) hox' hcx' (hlen' x _ lx hox' hcx') name,
      propertyFound_eq hids hox hcx (hlen x ox lx hox hcx) name]
    obtain ⟨l', hl'⟩ := exists_chain hk ho
    obtain ⟨l, rfl, -⟩ := chain_cons ho hl'
    obtain rfl := hcx.unique (chain_of_path hm hl')
    obtain ⟨hold, hnew⟩ := h.definitions_path ho hm hl'
    have hlx := hlen x ox _ hox hcx
    rw [← definitions_length, hold, List.length_append] at hlx
    rw [hold, hnew, slotPlace_eq m oid hi, findSlot_insert pv hlx (hname hb)]
  · have hox' : db'.find x = some ox := (h.out x hb).trans hox
    rw [propertyFound_eq (h.ids hids) hox' hcx' (hlen' x ox lx hox' hcx') name,
      propertyFound_eq hids hox hcx (hlen x ox lx hox hcx) name,
      definitions_congr fun y hy => h.propdefsOf_ne fun he => hb (he ▸ mem_chain_isBelow hk hcx hy)]

/-- The new name is found in its slot all over the subtree. -/
theorem Widened.found_new (hk : (db.links kin).WF NOTHING)
    (hids : ∀ x o, db.find x = some o → o.id = x)
    (hlen : ∀ x ox l, db.find x = some ox → Chain db.parentOf NOTHING x l →
      ox.propval.length = (db.inherited l).length)
    (ho : db.find oid = some o) (hi : i ≤ o.propdefs.length) (hm : Path (db.links kin) oid x m)
    (hox : db.find x = some ox)
    (hname : p.matches (strHash name) name = true) (hbi : builtInNamed name = none)
    (hother : ∀ y, (db.links kin).Below oid y → ∀ q ∈ db.propdefsOf y,
      q.matches (strHash name) name = false) :
    ∃ pv, Slot x ox pv ∧ db'.propertyFound x name = some (some (.slot oid pv)) := by
  obtain ⟨l', hl'⟩ := exists_chain hk ho
  obtain ⟨l, rfl, -⟩ := chain_cons ho hl'
  obtain ⟨pv, hpv, hox'⟩ := h.below x m ox hm hox
  have hcx := chain_of_path hm hl'
  have hcx' : Chain db'.parentOf NOTHING x (m ++ oid :: l) := h.parentOf ▸ hcx
  obtain ⟨hold, hnew⟩ := h.definitions_path ho hm hl'
  have hlx := hlen x ox _ hox hcx
  rw [← definitions_length, hold, List.length_append] at hlx
  have hroot : ((db.links kin) oid).isSome := by rw [links_eq ho]; rfl
  refine ⟨pv, hpv, ?_⟩
  rw [propertyFound_eq (h.ids hids) hox' hcx' (h.length_eq hk ho hi hlen x _ _ hox' hcx') name, hbi,
    hnew, slotPlace_eq m oid hi]
  refine congrArg some (findSlot_insert_self pv hlx hname fun d hd => ?_)
  rcases List.mem_append.mp hd with hd | hd
  · obtain ⟨hy, hq⟩ := mem_definitions.mp hd
    exact hother d.1 (hm.mem_isBelow hroot hy) d.2 hq
  · obtain ⟨q, hq, rfl⟩ := List.mem_map.mp hd
    exact hother oid (.refl (links_eq ho)) q
      (by rw [propdefsOf_eq ho]; exact List.mem_of_mem_take hq)

end Widened

/-! ## A definition and its slots less -/

theorem eraseIdx_insert {α : Type} {a : List α} {n : Nat} (hn : n < a.length) :
    (a.eraseIdx n).take n ++ a[n] :: (a.eraseIdx n).drop n = a := by
  have htake : n = (a.take n).length := by rw [List.length_take, Nat.min_eq_left hn.le]
  rw [List.eraseIdx_eq_take_drop_succ, List.take_left' htake.symm, List.drop_left' htake.symm]
  exact (split_at hn).symm

theorem insert_eraseIdx {α : Type} {a : List α} {n : Nat} (x : α) (hn : n ≤ a.length) :
    (a.take n ++ x :: a.drop n).eraseIdx n = a := by
  have htake : (a.take n).length = n := by rw [List.length_take, Nat.min_eq_left hn]
  rw [List.eraseIdx_append_of_length_le (by rw [htake]), htake, Nat.sub_self,
    List.eraseIdx_cons_zero, List.take_append_drop]

/-- No path in the subtree passes its root. -/
theorem inherited_path (hm : Path (db.links kin) oid x m)
    (hc : Chain db.parentOf NOTHING oid (oid :: l))
    (hne : ∀ y, y ≠ oid → db'.propdefsOf y = db.propdefsOf y) :
    db'.inherited m = db.inherited m := by
  refine inherited_congr fun y hy => hne y ?_
  rintro rfl
  have hnd := (chain_of_path hm hc).nodup
  rw [List.nodup_append] at hnd
  exact hnd.2.2 y hy y List.mem_cons_self rfl

theorem Narrowed.widened (h : Narrowed db db' oid i) (hk : (db.links kin).WF NOTHING)
    (hlen : ∀ x ox l, db.find x = some ox → Chain db.parentOf NOTHING x l →
      ox.propval.length = (db.inherited l).length)
    (ho : db.find oid = some o) (hi : i < o.propdefs.length) :
    Widened db' db oid i o.propdefs[i] fun x _ pv => ∃ m ox, Path (db.links kin) oid x m ∧
      db.find x = some ox ∧
      ox.propval[(db.inherited m).length + i]? = some pv := by
  obtain ⟨l', hl'⟩ := exists_chain hk ho
  obtain ⟨l, rfl, -⟩ := chain_cons ho hl'
  refine ⟨h.links.symm, fun x hx => (h.out x (h.links ▸ hx)).symm, fun x m o' hm ho' => ?_⟩
  rw [h.links] at hm
  have hb : (db.links kin).Below oid x := hm.isBelow (by rw [links_eq ho]; rfl)
  obtain ⟨ox, hox⟩ := Option.isSome_iff_exists.mp (links_isSome (F := kin) ▸ hb.isSome.2)
  have hox' := h.below x m ox hm hox
  rw [ho'] at hox'
  cases hox'
  have hn : (db.inherited m).length + i < ox.propval.length := by
    rw [hlen x ox _ hox (chain_of_path hm hl'), inherited_append, inherited_cons, propdefsOf_eq ho,
      List.length_append,
      List.length_append]
    omega
  refine ⟨ox.propval[(db.inherited m).length + i],
    ⟨m, ox, hm, hox, List.getElem?_eq_getElem hn⟩, ?_⟩
  rw [inherited_path hm hl' fun y hy => h.propdefsOf_ne hy, eraseIdx_insert hn, hox]
  congr 1
  split
  · next hx =>
    subst hx
    rw [ho] at hox
    cases hox
    rw [eraseIdx_insert hi]
  · rfl

/-! ## The tables of the definitions -/

/-- `db_add_propdef` and `db_delete_propdef` keep the definitions of each object in a table, the
`propdefs` of the object. -/
def Tabled (db : Db) (tables : Objid → Memory.Table Propdef) : Prop :=
  ∀ x o, db.find x = some o → (tables x).Holds o.propdefs

/-- What `db_delete_propdef` does to the table, if it finds the definition there. -/
def deleteFromTable (pname : Str) (t : Memory.Table Propdef) :
    Option (Option (Memory.Table Propdef)) :=
  (t.search fun p => p.matches (strHash pname) pname).bind fun
    | none => some none
    | some i => (t.delete i).map some

theorem Tabled.update {tables : Objid → Memory.Table Propdef} (h : db.Tabled tables)
    {t : Memory.Table Propdef}
    (hself : ∀ o', db'.find oid = some o' → t.Holds o'.propdefs)
    (hne : ∀ y, y ≠ oid → db'.propdefsOf y = db.propdefsOf y)
    (hsome : ∀ y, (db'.find y).isSome = (db.find y).isSome) :
    db'.Tabled (Function.update tables oid t) := by
  intro x o' ho'
  by_cases hx : x = oid
  · subst hx
    rw [Function.update_self]
    exact hself o' ho'
  · rw [Function.update_of_ne hx]
    obtain ⟨o, ho⟩ := Option.isSome_iff_exists.mp ((hsome x).symm.trans (by rw [ho']; rfl))
    have hdefs := hne x hx
    rw [propdefsOf_eq ho', propdefsOf_eq ho] at hdefs
    rw [hdefs]
    exact h x o ho

/-- A definition more goes to the end of the table, -/
theorem Tabled.add {tables : Objid → Memory.Table Propdef} (h : db.Tabled tables)
    (ho : db.find oid = some o)
    (hw : Widened db db' oid o.propdefs.length p Slot)
    (hsome : ∀ y, (db'.find y).isSome = (db.find y).isSome) :
    ∃ t, (tables oid).push p = some t ∧ db'.Tabled (Function.update tables oid t) := by
  obtain ⟨t, ht, hholds⟩ := Memory.Table.push_holds (h oid o ho) p
  refine ⟨t, ht, h.update (fun o' ho' => ?_) (fun y hy => hw.propdefsOf_ne hy) hsome⟩
  have hself := hw.propdefsOf_self ho
  rw [propdefsOf_eq ho', List.take_length, List.drop_length] at hself
  rwa [hself]

/-- and one that goes is taken out of it. -/
theorem Tabled.delete {tables : Objid → Memory.Table Propdef} (h : db.Tabled tables)
    (ho : db.find oid = some o) {pname : Str}
    (hidx : o.propdefs.findIdx? (fun p => p.matches (strHash pname) pname) = some i)
    (hn : Narrowed db db' oid i)
    (hsome : ∀ y, (db'.find y).isSome = (db.find y).isSome) :
    ∃ t, deleteFromTable pname (tables oid) = some (some t) ∧
      db'.Tabled (Function.update tables oid t) := by
  have hlt := (List.findIdx?_eq_some_iff_getElem.mp hidx).1
  obtain ⟨t, ht, hholds⟩ := Memory.Table.delete_holds (h oid o ho) hlt
  refine ⟨t, ?_, h.update (fun o' ho' => ?_) (fun y hy => hn.propdefsOf_ne hy) hsome⟩
  · rw [deleteFromTable, Memory.Table.search_eq (h oid o ho), hidx]
    exact congrArg (Option.map some) ht
  · have hself := hn.propdefsOf_self ho
    rw [propdefsOf_eq ho'] at hself
    rwa [hself]

theorem Tabled.absent {tables : Objid → Memory.Table Propdef} (h : db.Tabled tables)
    (ho : db.find oid = some o) {pname : Str}
    (hidx : o.propdefs.findIdx? (fun p => p.matches (strHash pname) pname) = none) :
    deleteFromTable pname (tables oid) = some none := by
  rw [deleteFromTable, Memory.Table.search_eq (h oid o ho), hidx]
  rfl

/-! ## `db_add_propdef` and `db_delete_propdef` -/

/-- Deleting the last definition of a widened database gives the objects that were there. -/
theorem Widened.narrowed_find {db'' : Db} (h : Widened db db' oid i p Slot)
    (h' : Narrowed db' db'' oid i)
    (hk : (db.links kin).WF NOTHING) (hlen : ∀ x ox l, db.find x = some ox →
      Chain db.parentOf NOTHING x l →
      ox.propval.length = (db.inherited l).length) (ho : db.find oid = some o)
      (hi : i ≤ o.propdefs.length) :
    db''.find = db.find := by
  funext x
  by_cases hb : (db.links kin).Below oid x
  swap
  · rw [h'.out x (h.links ▸ hb), h.out x hb]
  obtain ⟨l', hl'⟩ := exists_chain hk ho
  obtain ⟨l, rfl, -⟩ := chain_cons ho hl'
  obtain ⟨m, hm⟩ := hb.path
  obtain ⟨ox, hox⟩ := Option.isSome_iff_exists.mp (links_isSome (F := kin) ▸ hb.isSome.2)
  obtain ⟨pv, -, hox'⟩ := h.below x m ox hm hox
  have hn : (db.inherited m).length + i ≤ ox.propval.length := by
    rw [hlen x ox _ hox (chain_of_path hm hl'), inherited_append, inherited_cons, propdefsOf_eq ho,
      List.length_append,
      List.length_append]
    omega
  rw [h'.below x m _ (h.links ▸ hm) hox', inherited_path hm hl' fun y hy => h.propdefsOf_ne hy,
    insert_eraseIdx pv hn, hox]
  congr 1
  split
  · next hx =>
    subst hx
    rw [ho] at hox
    cases hox
    rw [insert_eraseIdx p hi]
  · rfl

/-- All lookups in two databases give the same. -/
def SameLookups (db db' : Db) : Prop :=
  ∀ x name, db'.propertyFound x name = db.propertyFound x name ∧
    db'.dbFindPropertyValue x name = db.dbFindPropertyValue x name

/-- Adding `pname` to `oid` makes slots for it and does nothing else. -/
structure AddsOnly (db db' : Db) (oid : Objid) (pname : Str) (value : Var) (owner : Objid)
    (flags : UInt16) : Prop where
  others : ∀ x name, db.valid x = true → ((db.links kin).Below oid x →
    nameKey name ≠ nameKey pname) →
    db'.propertyFound x name = db.propertyFound x name
  added : ∀ x ox, (db.links kin).Below oid x → db.find x = some ox →
    db'.propertyFound x pname = some (some (.slot oid
    { var := if x = oid then value else .clear,
      owner := if flags &&& PF_CHOWN ≠ 0 then ox.owner else owner,
      perms := flags, pid := db.nextPid }))
  outside : ∀ x, ¬ (db.links kin).Below oid x → db'.find x = db.find x
  rest : SameButProps db db'
  tables : ∀ tables, db.Tabled tables →
    ∃ t, (tables oid).push { name := pname, hash := strHash pname, pid := db.nextPid } = some t ∧
      db'.Tabled (Function.update tables oid t)
  undone : ∃ db'', db'.dbDeletePropdef oid pname = some (true, db'') ∧ db''.find = db.find ∧
    SameLookups db db''

/-- Deleting `pname` from `oid` removes its slots and does nothing else. -/
structure DeletesOnly (db db' : Db) (oid : Objid) (pname : Str) : Prop where
  others : ∀ x name, db.valid x = true → ((db.links kin).Below oid x →
    nameKey name ≠ nameKey pname) →
    db'.propertyFound x name = db.propertyFound x name
  removed : ∀ x ox l, (db.links kin).Below oid x → db.find x = some ox →
    Chain db.parentOf NOTHING x l →
    ∃ n p, (db.inherited l)[n]? = some p ∧ nameKey p.name = nameKey pname ∧
      (db'.find x).map Object.propval = some (ox.propval.eraseIdx n)
  gone : ∀ x, (db.links kin).Below oid x → builtInNamed pname = none →
    db'.propertyFound x pname = some none
  outside : ∀ x, ¬ (db.links kin).Below oid x → db'.find x = db.find x
  rest : SameButProps db db'
  tables : ∀ tables, db.Tabled tables →
    ∃ t, deleteFromTable pname (tables oid) = some (some t) ∧
    db'.Tabled (Function.update tables oid t)

theorem lineage_congr (h : db'.find = db.find) (n : Nat) (x : Objid) :
    db'.lineage n x = db.lineage n x := by
  induction n generalizing x with
  | zero => rfl
  | succ n ih => simp only [lineage, h, ih]

theorem resolveClear_congr (h : db'.find = db.find) (fuel : Nat) (x : Objid) (n : Nat) :
    db'.resolveClear fuel x n = db.resolveClear fuel x n := by
  induction fuel generalizing x n with
  | zero => rfl
  | succ fuel ih => simp only [resolveClear, h, ih]

/-- Lookups read nothing but the objects. -/
theorem sameLookups_of_find (h : db'.find = db.find) (hn : db'.numObjects = db.numObjects) :
    SameLookups db db' := by
  have hbound : db'.bound = db.bound := by rw [bound, hn, bound]
  have hlinks : ∀ F, db'.links F = db.links F := fun F => funext fun x => by rw [links, h, links]
  have hfind : ∀ x name, db'.dbFindProperty x name = db.dbFindProperty x name := by
    intro x name
    simp only [dbFindProperty, hbound, lineage_congr h]
  refine fun x name => ⟨?_, ?_⟩
  · simp only [propertyFound, hfind, slot, h]
  · simp only [dbFindPropertyValue, hfind, getBiValue, dbObjectHasFlag, h, hbound, hlinks,
      resolveClear_congr h]

theorem not_matches {p : Propdef} {name pname : Str} (hp : nameKey p.name = nameKey pname)
    (h : nameKey name ≠ nameKey pname) : p.matches (strHash name) name = false := by
  rw [Propdef.matches, Bool.and_eq_false_iff]
  right
  rw [beq_eq_false_iff_ne, Ne, mystrcasecmp_eq_zero, hp]
  exact fun he => h he.symm

theorem addsOnly (hi : db.Inv) (ho : db.find oid = some o) {pname : Str} {value : Var}
    {owner : Objid} {flags : UInt16}
    (hsame : SameButProps db db') (hunused : db.Unused oid pname)
    (hw : Widened db db' oid o.propdefs.length
      { name := pname, hash := strHash pname, pid := db.nextPid }
      fun x ox pv =>
        pv = addedSlot oid { var := value, owner, perms := flags, pid := db.nextPid } x ox) :
    AddsOnly db db' oid pname value owner flags := by
  have hlen := fun x ox l => @hi.layout.length_eq _ x ox l
  have hself : Propdef.matches { name := pname, hash := strHash pname, pid := db.nextPid }
    (strHash pname) pname = true :=
    (Propdef.matches_iff rfl).mpr rfl
  have hother : ∀ y, (db.links NuMoo.kin).Below oid y →
      ∀ q ∈ db.propdefsOf y, q.matches (strHash pname) pname = false := by
    intro y hy q hq
    rw [← Bool.not_eq_true, Propdef.matches_iff (hi.layout.hash y q hq)]
    exact hunused.below y hy q hq
  refine ⟨fun x name hx hname => ?_, fun x ox hx hox => ?_, hw.out, hsame,
    fun tables htables => htables.add ho hw hsame.valid, ?_⟩
  · obtain ⟨ox, hox⟩ := valid_iff.mp hx
    exact hw.found hi.kin hi.ids hlen ho (Nat.le_refl _) hox fun hb => not_matches rfl (hname hb)
  · obtain ⟨m, hm⟩ := hx.path
    obtain ⟨pv, rfl, hfound⟩ :=
      hw.found_new hi.kin hi.ids hlen ho (Nat.le_refl _) hm hox hself hunused.builtIn hother
    rw [hfound, addedSlot, ownedBy]
    congr 3
    by_cases hx : x = oid <;> by_cases hf : flags &&& PF_CHOWN = 0 <;> simp [hx, hf]
  · have hk' : (db'.links NuMoo.kin).WF NOTHING := hw.links ▸ hi.kin
    obtain ⟨pv, -, ho'⟩ := hw.below oid [] o .root ho
    have hidx :
        (o.propdefs ++
          [({ name := pname, hash := strHash pname, pid := db.nextPid } : Propdef)]).findIdx?
        (fun p => p.matches (strHash pname) pname) = some o.propdefs.length := by
      have hnone : o.propdefs.findIdx? (fun p => p.matches (strHash pname) pname) = none := by
        rw [List.findIdx?_eq_none_iff]
        exact fun q hq => hother oid (.refl (links_eq ho)) q (by rwa [propdefsOf_eq ho])
      rw [List.findIdx?_append, hnone, List.findIdx?_singleton, hself]
      simp
    rw [if_pos rfl, List.take_length, List.drop_length] at ho'
    rcases deletePropdef_cases hk' (hw.length_eq hi.kin ho (Nat.le_refl _) hlen) ho' pname with ⟨-,
      h⟩ | ⟨i, db'', h, hsame', hi', hn⟩
    · rw [hidx] at h
      cases h
    · rw [hidx] at hi'
      cases hi'
      have hfind := hw.narrowed_find hn hi.kin hlen ho (Nat.le_refl _)
      exact ⟨db'', h, hfind, sameLookups_of_find hfind (hsame'.numObjects.trans hsame.numObjects)⟩

theorem deletesOnly (hi : db.Inv) (ho : db.find oid = some o) {pname : Str}
    (hsame : SameButProps db db')
    (hidx : o.propdefs.findIdx? (fun p => p.matches (strHash pname) pname) = some i)
    (hn : Narrowed db db' oid i) :
    DeletesOnly db db' oid pname := by
  obtain ⟨hlt, hmatch, -⟩ := List.findIdx?_eq_some_iff_getElem.mp hidx
  obtain ⟨l', hl'⟩ := exists_chain hi.kin ho
  obtain ⟨l, rfl, -⟩ := chain_cons ho hl'
  have hlen := fun x ox l => @hi.layout.length_eq _ x ox l
  have hlayout : db'.Layout := hi.layout.removeDef hi.kin ho hl' hlt hn hsame.nextPid
  have hlen' := fun x ox l => @hlayout.length_eq _ x ox l
  have hids' := find_id_congr (hsame.map_eq Object.id fun _ => rfl) hi.ids
  have hk' : (db'.links NuMoo.kin).WF NOTHING := hn.links ▸ hi.kin
  -- seen backwards, the definition is added to what is left
  have hw := hn.widened hi.kin hlen ho hlt
  have hname : nameKey o.propdefs[i].name = nameKey pname := by
    refine (Propdef.matches_iff (hi.layout.hash oid _ ?_)).mp hmatch
    rw [propdefsOf_eq ho]
    exact List.getElem_mem hlt
  have ho' := hn.below oid [] o .root ho
  rw [if_pos rfl] at ho'
  have hle : i ≤ (o.propdefs.eraseIdx i).length := by
    rw [List.length_eraseIdx_of_lt hlt]
    omega
  refine ⟨fun x name hx hne => ?_, fun x ox lx hb hox hcx => ?_, fun x hb hbi => ?_, hn.out, hsame,
    fun tables htables => htables.delete ho hidx hn hsame.valid⟩
  · obtain ⟨ox', hox'⟩ := valid_iff.mp ((hsame.valid x).trans hx)
    exact (hw.found hk' hids' hlen' ho' hle hox' fun hb =>
      not_matches hname (hne (hn.links ▸ hb))).symm
  · obtain ⟨m, hm⟩ := hb.path
    obtain rfl := hcx.unique (chain_of_path hm hl')
    refine ⟨(db.inherited m).length + i, o.propdefs[i], ?_, hname,
      by rw [hn.below x m ox hm hox]; rfl⟩
    rw [inherited_append, inherited_cons, propdefsOf_eq ho,
      List.getElem?_append_right (Nat.le_add_right _ _),
      Nat.add_sub_cancel_left, List.getElem?_append_left hlt, List.getElem?_eq_getElem hlt]
  · obtain ⟨m, hm⟩ := hb.path
    obtain ⟨ox, hox⟩ := Option.isSome_iff_exists.mp (links_isSome (F := NuMoo.kin) ▸ hb.isSome.2)
    have hcx := chain_of_path hm hl'
    have hox' := hn.below x m ox hm hox
    have hcx' : Chain db'.parentOf NOTHING x (m ++ oid :: l) := hn.parentOf ▸ hcx
    have hm' : Path (db'.links NuMoo.kin) oid x m := hn.links ▸ hm
    obtain ⟨hold, hnew⟩ := hw.definitions_path ho' hm' (hn.parentOf ▸ hl')
    have hnames := hi.layout.names x _ hcx
    rw [← definitions_map_snd, List.map_map, hnew, List.map_append, List.map_cons,
      List.nodup_middle, List.nodup_cons,
      ← List.map_append] at hnames
    have hnone : ∀ d ∈ (db'.definitions m ++ (List.take i (o.propdefs.eraseIdx i)).map (oid, ·)) ++
        ((List.drop i (o.propdefs.eraseIdx i)).map (oid, ·) ++ db'.definitions l),
        d.2.matches (strHash pname) pname = false := by
      refine fun d hd => not_matches rfl fun he => hnames.1 ?_
      exact List.mem_map.mpr ⟨d, hd, he.symm.trans hname.symm⟩
    rw [propertyFound_eq hids' hox' hcx' (hlen' x _ _ hox' hcx') pname, hbi, hold]
    refine congrArg some (Option.map_eq_none_iff.mpr (List.find?_eq_none.mpr fun e he => ?_))
    rw [hnone e.1 (List.of_mem_zip he).1]
    exact Bool.false_ne_true

/-- Neither function fails. A property is added if its name is not in use above or below the object,
and deleted if the object defines it; and else nothing is done. -/
theorem propdefs_frame (hi : db.Inv) (ho : db.find oid = some o) (pname : Str) :
    (∀ value owner flags, ∃ b db', db.dbAddPropdef oid pname value owner flags = some (b, db') ∧
      (b = true ↔ db.Unused oid pname) ∧ if b then AddsOnly db db' oid pname value owner flags
        else db' = db) ∧
    ∃ b db', db.dbDeletePropdef oid pname = some (b, db') ∧
      (b = true ↔ ∃ p ∈ o.propdefs, nameKey p.name = nameKey pname) ∧
      if b then DeletesOnly db db' oid pname
      else db' = db ∧ ∀ tables, db.Tabled tables →
      deleteFromTable pname (tables oid) = some none := by
  have hlen := fun x ox l => @hi.layout.length_eq _ x ox l
  have hmatch : ∀ p ∈ o.propdefs, p.matches (strHash pname) pname = true ↔
      nameKey p.name = nameKey pname := fun p hp =>
    Propdef.matches_iff (hi.layout.hash oid p (by rwa [propdefsOf_eq ho]))
  constructor
  · intro value owner flags
    rcases addPropdef_cases hi.kin hi.layout ho pname value owner flags with ⟨h, hused⟩ | ⟨db', h,
      hsame, -, hunused, hw⟩
    · exact ⟨false, db, h, iff_of_false Bool.false_ne_true hused, rfl⟩
    · exact ⟨true, db', h, iff_of_true rfl hunused, addsOnly hi ho hsame hunused hw⟩
  · rcases deletePropdef_cases hi.kin hlen ho pname with ⟨h, hidx⟩ | ⟨i, db', h, hsame, hidx, hn⟩
    · refine ⟨false, db, h, iff_of_false Bool.false_ne_true ?_, rfl,
        fun tables htables => htables.absent ho hidx⟩
      rintro ⟨p, hp, hname⟩
      rw [List.findIdx?_eq_none_iff] at hidx
      exact Bool.false_ne_true ((hidx p hp).symm.trans ((hmatch p hp).mpr hname))
    · obtain ⟨hlt, htest, -⟩ := List.findIdx?_eq_some_iff_getElem.mp hidx
      have hmem := List.getElem_mem hlt
      exact ⟨true, db', h, iff_of_true rfl ⟨_, hmem, (hmatch _ hmem).mp htest⟩,
        deletesOnly hi ho hsame hidx hn⟩

/-- The name of another property. -/
def bar : Str := [98, 97, 114]

/-- A property more, and one less, on an object with a child; what is not defined is not deleted. -/
theorem propdefs_frame_family :
    (∃ db', family.dbAddPropdef 0 bar (.int 7) 0 PF_READ = some (true, db') ∧
      AddsOnly family db' 0 bar (.int 7) 0 PF_READ ∧
      db'.propertyFound 1 bar = some (some (.slot 0 ⟨.clear, 0, PF_READ, 1⟩)) ∧
      db'.propertyFound 1 foo = some (some (.slot 0 ⟨.clear, 0, PF_READ, 0⟩))) ∧
    (∃ db', family.dbDeletePropdef 0 foo = some (true, db') ∧ DeletesOnly family db' 0 foo ∧
      db'.propertyFound 1 foo = some none) ∧
    family.dbDeletePropdef 0 bar = some (false, family) := by
  obtain ⟨o, ho⟩ : ∃ o, family.find 0 = some o := ⟨_, rfl⟩
  have hbar := propdefs_frame reachable_family.inv ho bar
  obtain ⟨b, db₁, hadd, -, hadds⟩ := hbar.1 (.int 7) 0 PF_READ
  obtain ⟨c, db₂, hdelete, -, hdeletes⟩ := (propdefs_frame reachable_family.inv ho foo).2
  obtain ⟨d, db₃, habsent, -, hnothing⟩ := hbar.2
  have hfound : (family.dbAddPropdef 0 bar (.int 7) 0 PF_READ).map (fun r =>
      (r.1, r.2.propertyFound 1 bar, r.2.propertyFound 1 foo)) = some (true,
        some (some (.slot 0 ⟨.clear, 0, PF_READ, 1⟩)),
        some (some (.slot 0 ⟨.clear, 0, PF_READ, 0⟩))) := rfl
  have hgone : (family.dbDeletePropdef 0 foo).map (fun r => (r.1, r.2.propertyFound 1 foo)) =
      some (true, some none) := rfl
  have hkept : (family.dbDeletePropdef 0 bar).map Prod.fst = some false := rfl
  rw [hadd, Option.map_some, Option.some.injEq, Prod.mk.injEq, Prod.mk.injEq] at hfound
  rw [hdelete, Option.map_some, Option.some.injEq, Prod.mk.injEq] at hgone
  rw [habsent, Option.map_some, Option.some.injEq] at hkept
  obtain ⟨rfl, hnew, hold⟩ := hfound
  obtain ⟨rfl, hgone⟩ := hgone
  obtain rfl : d = false := hkept
  rw [if_pos rfl] at hadds hdeletes
  rw [if_neg Bool.false_ne_true] at hnothing
  exact ⟨⟨db₁, hadd, hadds, hnew, hold⟩, ⟨db₂, hdelete, hdeletes, hgone⟩,
    by rw [habsent, hnothing.1]⟩

end Db

end NuMoo
