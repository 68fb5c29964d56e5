import NuMoo.Db.Runs

/-!
# Changes to property definitions

What the operations on properties do to the definitions of each object, read off their results.

Results:
1. `dbAddPropdef_defs`, `dbDeletePropdef_defs`, `dbRenamePropdef_defs`: one object's definitions
   change.
2. `Renumbered.inherited`: renumbering keeps the definitions along every chain.
-/

namespace NuMoo

open Linked

namespace Db

variable {db db' : Db} {oid : Objid} {o : Object}

theorem insertProp_frame {pos : Nat} {pval : Pval} (h : db.insertProp oid pos pval = some db') :
    SameButSlots db db' := by
  simp only [insertProp, Option.bind_eq_bind, Option.bind_eq_some_iff,
    Option.ite_none_right_eq_some,
    Option.some.injEq] at h
  obtain ⟨n, -, o, ho, before, -, after, -, -, rfl⟩ := h
  exact .put ho rfl

theorem removeProp_frame {pos : Nat} (h : db.removeProp oid pos = some db') :
    SameButSlots db db' := by
  simp only [removeProp, Option.bind_eq_bind, Option.bind_eq_some_iff] at h
  obtain ⟨o, ho, n, -, pv, -, h⟩ := h
  split at h
  · simp only [Option.bind_eq_some_iff, Option.ite_none_right_eq_some, Option.some.injEq] at h
    obtain ⟨before, -, after, -, -, rfl⟩ := h
    exact .put ho rfl
  · cases h
    exact .put ho rfl

theorem insertPropRecursively_frame {pos : Nat} {pv : Pval}
    (h : db.insertPropRecursively oid pos pv = some db') :
    SameButSlots db db' :=
  visit_frame (R := SameButSlots) .refl (fun h h' => h.trans h')
    (fun _ _ _ _ h => insertProp_frame h) h

theorem removePropRecursively_frame {pos : Nat} (h : db.removePropRecursively oid pos = some db') :
    SameButSlots db db' :=
  visit_frame (R := SameButSlots) .refl (fun h h' => h.trans h')
    (fun _ _ _ _ h => removeProp_frame h) h

/-- The definitions of one object are replaced. -/
structure DefsReplaced (db db' : Db) (oid : Objid) (defs : List Propdef) : Prop where
  links : db'.links kin = db.links kin
  self : db'.propdefsOf oid = defs
  other : ∀ x, x ≠ oid → db'.propdefsOf x = db.propdefsOf x

theorem DefsReplaced.put (ho : db.find oid = some o) (defs : List Propdef) {n : Nat} :
    DefsReplaced db { db.put oid { o with propdefs := defs } with nextPid := n } oid defs := by
  have hfind : ∀ x, ({ db.put oid { o with propdefs := defs } with nextPid := n } : Db).find x =
      if x = oid then some { o with propdefs := defs } else db.find x := fun x => find_put ho
  refine ⟨?_, ?_, fun x hx => ?_⟩
  · funext x
    rw [Db.links, hfind]
    split
    · next hx => rw [hx, Db.links, ho]; rfl
    · rfl
  · rw [propdefsOf_eq ((hfind oid).trans (if_pos rfl))]
  · rw [propdefsOf, hfind, if_neg hx, propdefsOf]

theorem DefsReplaced.trans {db'' : Db} {defs : List Propdef} (h : DefsReplaced db db' oid defs)
    (h' : SameButSlots db' db'') : DefsReplaced db db'' oid defs :=
  ⟨h'.kin_of_slots.trans h.links, by rw [h'.propdefsOf fun _ => rfl, h.self],
    fun x hx => by rw [h'.propdefsOf fun _ => rfl, h.other x hx]⟩

theorem dbAddPropdef_defs (ho : db.find oid = some o) {pname : Str} {value : Var} {owner : Objid}
    {flags : UInt16}
    {b : Bool} (h : db.dbAddPropdef oid pname value owner flags = some (b, db')) :
    b = false ∧ db' = db ∨
      b = true ∧ DefsReplaced db db' oid (o.propdefs ++ [⟨pname, strHash pname, db.nextPid⟩]) := by
  simp only [dbAddPropdef, Option.bind_eq_bind, Option.bind_eq_some_iff] at h
  obtain ⟨found, -, h⟩ := h
  split at h
  · cases h
    exact .inl ⟨rfl, rfl⟩
  obtain ⟨below, -, h⟩ := Option.bind_eq_some_iff.mp h
  split at h
  · cases h
    exact .inl ⟨rfl, rfl⟩
  simp only [ho, Option.bind_some, Option.bind_eq_some_iff] at h
  obtain ⟨db₁, h₁, h⟩ := h
  cases h
  exact .inr ⟨rfl, (DefsReplaced.put ho _).trans (insertPropRecursively_frame h₁)⟩

theorem dbDeletePropdef_defs (ho : db.find oid = some o) {pname : Str} {b : Bool}
    (h : db.dbDeletePropdef oid pname = some (b, db')) :
    b = false ∧ db' = db ∨ b = true ∧ ∃ i, DefsReplaced db db' oid (o.propdefs.eraseIdx i) := by
  simp only [dbDeletePropdef, ho, Option.bind_eq_bind, Option.bind_some] at h
  split at h
  · cases h
    exact .inl ⟨rfl, rfl⟩
  · next i _ =>
    obtain ⟨db₁, h₁, h⟩ := Option.bind_eq_some_iff.mp h
    cases h
    exact .inr ⟨rfl, i, (DefsReplaced.put ho (o.propdefs.eraseIdx i)).trans
      (removePropRecursively_frame h₁)⟩

theorem dbRenamePropdef_defs (ho : db.find oid = some o) {old newbie : Str} {b : Bool}
    (h : db.dbRenamePropdef oid old newbie = some (b, db')) :
    b = false ∧ db' = db ∨ b = true ∧
      ∃ i, (o.propdefs.findIdx? fun p => p.matches (strHash old) old) = some i ∧
      DefsReplaced db db' oid (o.propdefs.modify i fun p =>
        { p with name := newbie, hash := strHash newbie }) := by
  simp only [dbRenamePropdef, ho, Option.bind_eq_bind, Option.bind_some] at h
  split at h
  · cases h
    exact .inl ⟨rfl, rfl⟩
  · next i hi =>
    have hput := DefsReplaced.put (n := db.nextPid) ho (o.propdefs.modify i fun p =>
      { p with name := newbie, hash := strHash newbie })
    split at h
    · obtain ⟨found, -, h⟩ := Option.bind_eq_some_iff.mp h
      split at h
      · cases h
        exact .inl ⟨rfl, rfl⟩
      obtain ⟨below, -, h⟩ := Option.bind_eq_some_iff.mp h
      split at h <;> cases h
      · exact .inl ⟨rfl, rfl⟩
      · exact .inr ⟨rfl, i, hi, hput⟩
    · cases h
      exact .inr ⟨rfl, i, hi, hput⟩

/-- Renumbering keeps the definitions along every chain. -/
theorem Renumbered.inherited {e : Objid ≃ Objid} (h : Renumbered db db' e)
    (he : e NOTHING = NOTHING) :
    (∀ x, db'.propdefsOf (e x) = db.propdefsOf x) ∧
      ∀ x l, Chain db.parentOf NOTHING x l → Chain db'.parentOf NOTHING (e x) (l.map e) ∧
        db'.inherited (l.map e) = db.inherited l := by
  have hdefs : ∀ x, db'.propdefsOf (e x) = db.propdefsOf x := fun x => by
    have := congrArg (Option.map Object.propdefs) (h.body x)
    simp only [Option.map_map, Function.comp_def, Db.body] at this
    rw [propdefsOf, propdefsOf]
    exact congrArg (·.getD []) this
  refine ⟨hdefs, fun x l hl => ⟨hl.map e (fun y => ?_) fun y _ => ?_, ?_⟩⟩
  · rw [← e.apply_eq_iff_eq (x := y), he]
  · rw [parentOf, h.kin, Links.up_rename, parentOf]
  · rw [Db.inherited, List.flatMap_map, Db.inherited]
    exact List.flatMap_congr fun y _ => hdefs y

end Db

end NuMoo
