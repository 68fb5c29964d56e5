import NuMoo.Db.Renumber

/-!
# What a verb lookup reads

A lookup reads the numbers, parents and verbs of the objects on one ancestor
chain. An operation either empties the verb cache or leaves this alone on every
chain that starts at an object with verbs, so that the entries stay right.

Results:
1. `Undisturbed.refl`, `Undisturbed.trans`: the relation between the databases before and after.
2. `Undisturbed.same`, `Undisturbed.flushed` and one lemma for each operation that keeps the cache.
-/

namespace NuMoo

open Linked

namespace Db

/-- What a lookup reads of a verb. -/
def verbView (v : Verbdef) : Nat × MooStr × Bool := (v.addr, v.name, v.perms &&& VF_EXEC != 0)

/-- What a lookup reads of an object. -/
def lookupView (o : Object) : Objid × Objid × List (Nat × MooStr × Bool) :=
  (o.id, o.parent, o.verbdefs.map verbView)

/-- No entry is in the cache. -/
def Flushed (db : Db) : Prop := ∀ table, db.vcTable = some table → ∀ b, table b = []

/-- The entries that were right in `db` are right in `db'`. -/
def Undisturbed (db db' : Db) : Prop :=
  db'.Flushed ∨ db'.vcTable = db.vcTable ∧ ∀ x o l, db.find x = some o → o.verbdefs ≠ [] →
    Chain db.parentOf NOTHING x l → ∀ y ∈ l, (db'.find y).map lookupView =
      (db.find y).map lookupView

variable {db db' db'' : Db} {oid : Objid} {o : Object}

theorem flushed_affected (db : Db) : db.affectedCallableVerbLookup.Flushed := by
  intro table h b
  unfold affectedCallableVerbLookup at h
  split at h
  · next hn => rw [hn] at h; cases h
  · obtain rfl := Option.some.inj h
    rfl

theorem parentOf_of_view {y : Objid}
    (h : (db'.find y).map lookupView = (db.find y).map lookupView) :
    db'.parentOf y = db.parentOf y := by
  have := congrArg (Option.map fun r => r.2.1) h
  simpa [parentOf, Links.up, links, Option.map_map, Function.comp_def, lookupView, kin] using this

/-- A chain on which nothing is disturbed. -/
theorem chain_of_view {x : Objid} {l : List Objid} (hc : Chain db.parentOf NOTHING x l)
    (h : ∀ y ∈ l, (db'.find y).map lookupView = (db.find y).map lookupView) :
    Chain db'.parentOf NOTHING x l :=
  hc.congr fun y hy => parentOf_of_view (h y hy)

theorem exists_find_of_map {β : Type} {g : Object → β} {y : Objid}
    (h : (db'.find y).map g = (db.find y).map g)
    (ho : db.find y = some o) : ∃ o', db'.find y = some o' ∧ g o' = g o := by
  rw [ho, Option.map_some, Option.map_eq_some_iff] at h
  exact h

theorem verbdefs_of_view {o o' : Object} (h : lookupView o' = lookupView o) (hv : o.verbdefs ≠ []) :
    o'.verbdefs ≠ [] := by
  have := congrArg (fun r => r.2.2.length) h
  simp only [lookupView, List.length_map] at this
  intro he
  rw [he] at this
  exact hv (List.length_eq_zero_iff.mp this.symm)

theorem Undisturbed.refl (db : Db) : db.Undisturbed db := .inr ⟨rfl, fun _ _ _ _ _ _ _ _ => rfl⟩

theorem Undisturbed.trans (h : db.Undisturbed db') (h' : db'.Undisturbed db'') :
    db.Undisturbed db'' := by
  rcases h' with h' | ⟨htable', h'⟩
  · exact .inl h'
  rcases h with h | ⟨htable, h⟩
  · exact .inl fun table ht => h table (htable' ▸ ht)
  refine .inr ⟨htable'.trans htable, fun x o l ho hv hc y hy => ?_⟩
  have hview := h x o l ho hv hc
  obtain ⟨m, rfl, -⟩ := chain_cons ho hc
  obtain ⟨o', ho', hview'⟩ := exists_find_of_map (hview x List.mem_cons_self) ho
  have hnext := h' x o' _ ho' (verbdefs_of_view hview' hv) (chain_of_view hc hview) y hy
  exact hnext.trans (hview y hy)

theorem Undisturbed.flushed (h : db'.Flushed) : db.Undisturbed db' := .inl h

/-- An update of fields that no lookup reads. -/
theorem Undisturbed.same (htable : db'.vcTable = db.vcTable)
    (h : ∀ x, (db'.find x).map lookupView = (db.find x).map lookupView) : db.Undisturbed db' :=
  .inr ⟨htable, fun _ _ _ _ _ _ y _ => h y⟩

theorem SameUpTo.undisturbed {e : Object → Object} (h : SameUpTo e db db')
    (he : ∀ o, lookupView (e o) = lookupView o) :
    db.Undisturbed db' := .same h.vcTable (h.map_eq lookupView he)

theorem Undisturbed.put (ho : db.find oid = some o) {o' : Object}
    (h : lookupView o' = lookupView o) :
    db.Undisturbed (db.put oid o') := by
  refine .same rfl fun x => ?_
  by_cases hx : x = oid
  · subst hx
    rw [find_put_self ho, ho, Option.map_some, Option.map_some, h]
  · rw [find_put_of_ne ho hx]

theorem Undisturbed.createObject (db : Db) (junk : Objid) :
    db.Undisturbed (db.dbCreateObject junk).2 := by
  refine .inr ⟨rfl, fun x o l ho _ hc y hy => ?_⟩
  rw [find_create, if_neg]
  rintro rfl
  have := hc.next_isSome_of_mem hy
  simp [parentOf, Links.up, links, find_numObjects] at this

/-- A change of parent without a flush concerns an object that is on no other chain. -/
theorem Undisturbed.changeParent (hk : (db.links kin).WF NOTHING) (ho : db.find oid = some o)
    {parent : Objid}
    {la lb lc : List Objid} (h : ParentChanged db db' oid parent o la lb lc) :
    db.Undisturbed db' := by
  by_cases hleaf : o.child = NOTHING ∧ o.verbdefs = []
  swap
  · refine .flushed fun table ht => ?_
    rw [h.same.vcTable, flushedFor, if_neg hleaf] at ht
    exact flushed_affected db table ht
  have hsame := h.same
  rw [flushedFor, if_pos hleaf] at hsame
  refine .inr ⟨hsame.vcTable, fun x ox l hox hv hc y hy => ?_⟩
  have hne : y ≠ oid := by
    rintro rfl
    have hbelow : (db.links kin).Below y x := mem_chain_isBelow hk hc hy
    rcases hbelow.cases_child with rfl | ⟨c, hcy, -⟩
    · rw [ho] at hox
      cases hox
      exact hv hleaf.2
    · exact (hk.head_eq_nil_iff (links_eq ho)).mp hleaf.1 c hcy
  obtain ⟨oy, hoy, hoy'⟩ : ∃ oy, db.find y = some oy ∧ db.parentOf y = some oy.parent := by
    have hs := hc.next_isSome_of_mem hy
    rw [parentOf, Links.up, Option.isSome_map, links_isSome] at hs
    obtain ⟨oy, hoy⟩ := Option.isSome_iff_exists.mp hs
    exact ⟨oy, hoy, parentOf_eq hoy⟩
  obtain ⟨oy', hy', hkeep⟩ :=
    exists_find_of_map (hsame.map_eq (fun o => (o.id, o.verbdefs)) (fun _ => rfl) y) hoy
  have hparent : oy'.parent = oy.parent := by
    have := parentOf_eq hy'
    rw [h.slots.parentOf ho, if_neg hne, hoy'] at this
    exact (Option.some.inj this).symm
  obtain ⟨hid, hverbs⟩ := Prod.ext_iff.mp hkeep
  simp only at hid hverbs
  rw [hy', hoy, Option.map_some, Option.map_some, lookupView, lookupView, hparent, hid, hverbs]

theorem Inv.changeParent_undisturbed (hi : db.Inv) (ho : db.find oid = some o) {parent : Objid}
    (hp : parent = NOTHING ∨ ∃ op, db.find parent = some op)
    (hacyc : ¬ (db.links NuMoo.kin).Below oid parent) {b : Bool}
    (h : db.dbChangeParent oid parent = some (b, db')) : db.Undisturbed db' := by
  rcases changeParent_spec hi.kin hi.layout ho hp hacyc with ⟨h', -⟩ | ⟨db₁, la, lb, lc, h', hc⟩
  · rw [h'] at h
    cases h
    exact .refl db
  · rw [h'] at h
    cases h
    exact .changeParent hi.kin ho hc

theorem Renumbered.undisturbed {e : Objid ≃ Objid} (h : Renumbered db db' e) : db.Undisturbed db' :=
  .flushed fun table ht => flushed_affected db table (h.vcTable ▸ ht)

theorem destroyObject_undisturbed (h : db.dbDestroyObject oid = some db') : db.Undisturbed db' := by
  refine .flushed fun table ht => flushed_affected db table ?_
  obtain ⟨o, -, h⟩ := Option.bind_eq_some_iff.mp h
  simp only [Option.ite_none_left_eq_some, Option.ite_none_right_eq_some, Option.some.injEq] at h
  obtain ⟨-, -, rfl⟩ := h
  rw [← ht]
  split <;> rfl

end Db

end NuMoo
