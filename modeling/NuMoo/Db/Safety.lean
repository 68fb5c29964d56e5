import NuMoo.Db.Runs

/-!
# What every reachable state satisfies

The invariant, read for the two hierarchies and for the property slots.

Results:
1. `Reachable.hierarchies`: both hierarchies are forests whose lists agree with the up links.
2. `Reachable.propertyLayout`: the slots agree with the definitions, and every
   search for a property returns what the layout says.
3. `RunFrom.recycle`: recycling never panics, whatever happens while its verbs run.
-/

namespace NuMoo

open Linked

namespace Db

/-! ## The hierarchies -/

/-- A hierarchy of the valid objects, and its lists. -/
structure Hierarchy (db : Db) (F : LinkFields) : Prop where
  list : ∀ x o, db.find x = some o → ∃ l, Chain (db.links F).next NOTHING (F.get o).head l ∧
    l.Nodup ∧
    ∀ y, y ∈ l ↔ ∃ oy, db.find y = some oy ∧ (F.get oy).up = x
  up : ∀ x o, db.find x = some o → (F.get o).up = NOTHING ∨ db.valid (F.get o).up = true
  acyclic : ∀ x o, db.find x = some o → ∃ l, Chain (db.links F).up NOTHING x l ∧ l.Nodup

theorem Hierarchy.of_wf {db : Db} {F : LinkFields} (h : (db.links F).WF NOTHING) :
    db.Hierarchy F where
  list x o ho := by
    obtain ⟨l, hl, hmem⟩ := h.kids x _ (links_eq ho)
    refine ⟨l, hl, hl.nodup, fun y => (hmem y).trans ⟨fun hy => ?_, fun ⟨oy, hoy, hu⟩ => ?_⟩⟩
    · obtain ⟨c, hc, hu⟩ := Links.exists_of_up_eq hy
      obtain ⟨oy, hoy, rfl⟩ := exists_of_links hc
      exact ⟨oy, hoy, hu⟩
    · exact hu ▸ Links.up_eq (links_eq hoy)
  up x o ho := by
    by_cases hn : (F.get o).up = NOTHING
    · exact .inl hn
    · obtain ⟨c, hc⟩ := h.up_isSome (links_eq ho) hn
      obtain ⟨p, hp, -⟩ := exists_of_links hc
      exact .inr (valid_iff.mpr ⟨p, hp⟩)
  acyclic x o ho := by
    obtain ⟨l, hl⟩ := h.chain x _ (links_eq ho)
    exact ⟨l, hl, hl.nodup⟩

/-- A table without any up-link or list is a hierarchy, whatever its objects have for a sibling. -/
theorem Hierarchy.of_roots {db : Db} {F : LinkFields}
    (h : ∀ x o, db.find x = some o → (F.get o).up = NOTHING ∧ (F.get o).head = NOTHING) :
    db.Hierarchy F where
  list x o ho := by
    refine ⟨[], (h x o ho).2 ▸ .done, List.nodup_nil, fun y => iff_of_false List.not_mem_nil ?_⟩
    rintro ⟨oy, hoy, hup⟩
    rw [← hup, (h y oy hoy).1, find_nothing] at ho
    cases ho
  up x o ho := .inl (h x o ho).1
  acyclic x o ho := by
    have hx : x ≠ NOTHING := by
      rintro rfl
      rw [find_nothing] at ho
      cases ho
    have hup : (db.links F).up x = some NOTHING := by rw [Links.up_eq (links_eq ho), (h x o ho).1]
    exact ⟨[x], .step hx hup .done, List.nodup_singleton x⟩

/-! ## The property slots -/

/-- The slots of `o`, whose ancestor chain is `l`. -/
structure PropertyLayout (db : Db) (oid : Objid) (o : Object) (l : List Objid) : Prop where
  chain : Chain db.parentOf NOTHING oid l
  count : db.dbprivCountProperties oid = some o.propval.length
  aligned : o.propval.map Pval.pid = (db.inherited l).map Propdef.pid
  distinct : ((db.inherited l).map Propdef.pid).Nodup
  names : ((db.inherited l).map fun p => nameKey p.name).Nodup
  defined : ∀ p ∈ o.propdefs, ∃ pv, db.slotFor oid p.pid = some pv ∧ pv.var ≠ .clear

/-- The value of `p` on the chain `l` is that of the nearest slot that is not clear. -/
def NearestValue (db : Db) (l : List Objid) (p : Propdef) (v : Var) : Prop :=
  ∃ l₁ z l₂ pv, l = l₁ ++ z :: l₂ ∧ (∀ w ∈ l₁, ∃ pw, db.slotFor w p.pid = some pw ∧
    pw.var = .clear) ∧
    db.slotFor z p.pid = some pv ∧ pv.var ≠ .clear ∧ v = pv.var

/-- What `db_find_property` may return for an object whose ancestor chain is `l`. -/
def Found (db : Db) (oid : Objid) (l : List Objid) (name : Str) : Option (PropHandle × Var) → Prop
  | none => ∀ p ∈ db.inherited l, nameKey p.name ≠ nameKey name
  | some (.builtIn prop y, v) => y = oid ∧ db.getBiValue prop oid = some v
  | some (.slot definer y n, v) =>
    y = oid ∧ ∃ p, (db.inherited l)[n]? = some p ∧ nameKey p.name = nameKey name ∧
      p ∈ db.propdefsOf definer ∧ db.NearestValue l p v

variable {db : Db} {oid : Objid} {o : Object}

theorem Inv.slotLayout (hi : db.Inv) (ho : db.find oid = some o) {l : List Objid}
    (hc : Chain db.parentOf NOTHING oid l) : db.PropertyLayout oid o l where
  chain := hc
  count := by rw [countProperties_eq hc, hi.layout.length_eq ho hc]
  aligned := hi.layout.aligned oid o l ho hc
  distinct := hi.layout.pidNodup hc.nodup
  names := hi.layout.names oid l hc
  defined p hp := by
    obtain ⟨m, rfl, -⟩ := chain_cons ho hc
    obtain ⟨n, hn⟩ := List.mem_iff_getElem?.mp hp
    have hlt := (List.getElem?_eq_some_iff.mp hn).1
    have hinh : (db.inherited (oid :: m))[n]? = some p := by
      rw [inherited_cons, propdefsOf_eq ho, List.getElem?_append_left hlt, hn]
    obtain ⟨pv, hpv, -, hslot⟩ := hi.layout.slot_spec ho hc hinh
    exact ⟨pv, hslot, hi.layout.defined oid o n pv ho hlt hpv⟩

/-- Every built-in property of a valid object has a value. -/
theorem Inv.getBiValue (hi : db.Inv) (ho : db.find oid = some o) (prop : BiProp) :
    ∃ v, db.getBiValue prop oid = some v := by
  cases prop with
  | BP_CONTENTS =>
    obtain ⟨l, hl, -⟩ := hi.place.kids oid _ (links_eq ho)
    have hl : Chain (db.links NuMoo.place).next NOTHING o.contents l := hl
    have hlen : l.length < db.bound := links_bound db NuMoo.place l hl.nodup fun y hy => by
      have := hl.next_isSome_of_mem hy
      simpa [Links.next, Option.isSome_map] using this
    have hfold : ∀ (k : List Objid) (acc : List Var),
        k.foldlM (fun acc c => some (acc ++ [Var.obj c])) acc = some (acc ++ k.map Var.obj) := by
      intro k
      induction k with
      | nil => simp
      | cons c k ih => simp [ih]
    refine ⟨.list (l.map Var.obj), ?_⟩
    simp only [Db.getBiValue, ho, Option.bind_eq_bind, Option.bind_some]
    have hwalk : forChain (fun _ => (db.links NuMoo.place).next) NOTHING
        (fun c acc => some (acc ++ [Var.obj c]))
        db.bound o.contents [] = some (l.map Var.obj) := by
      let walk : List Var → Objid → Option Objid := fun _ => (db.links NuMoo.place).next
      have hwalk : Chain (walk []) NOTHING o.contents l := hl
      exact (forChain_eq hwalk (fun _ _ _ _ _ => rfl) hlen).trans (by rw [hfold, List.nil_append])
    rw [hwalk, Option.map_some]
  | BP_NAME | BP_OWNER | BP_LOCATION => exact ⟨_, by rw [Db.getBiValue, ho]; rfl⟩
  | BP_PROGRAMMER | BP_WIZARD | BP_R | BP_W | BP_F =>
    exact ⟨_, by simp only [Db.getBiValue, dbObjectHasFlag, ho]; rfl⟩

/-- Every search for a property ends and finds what the layout says. -/
theorem Inv.findPropertyValue (hi : db.Inv) (ho : db.find oid = some o) {l : List Objid}
    (hc : Chain db.parentOf NOTHING oid l) (name : Str) :
    ∃ r, db.dbFindPropertyValue oid name = some r ∧ db.Found oid l name r := by
  rcases hi.layout.findProperty_eq hc name with
    ⟨prop, hf⟩ | ⟨hf, hnone⟩ | ⟨definer, n, p, y, oy, hf, hp, hname, -, hoy, hid, hpy⟩
  · obtain ⟨v, hv⟩ := hi.getBiValue ho prop
    exact ⟨some (.builtIn prop oid, v), by simp [dbFindPropertyValue, hf, hv], rfl, hv⟩
  · exact ⟨none, by simp [dbFindPropertyValue, hf], hnone⟩
  · obtain ⟨l₁, z, l₂, pv, hl, hclear, hz, hne, hr⟩ :=
      hi.layout.resolveClear_eq hc hp (chain_length_lt hc)
    refine ⟨some (.slot definer oid n, pv.var), by simp [dbFindPropertyValue, hf, hr], rfl,
      p, hp, hname, ?_,
      l₁, z, l₂, pv, hl, hclear, hz, hne, rfl⟩
    obtain rfl : y = definer := (hi.ids y oy hoy).symm.trans hid
    rw [propdefsOf_eq hoy]
    exact hpy

end Db

/-! ## Reachable states -/

variable {s : DbState}

/-- Both hierarchies are sound in every reachable state, and no allowed operation fails there. -/
theorem Reachable.hierarchies (h : Reachable s) :
    s.db.Hierarchy kin ∧ s.db.Hierarchy place ∧ ∀ a : Act, a.Allowed s →
    ∃ s', a.run s = some s' := by
  refine ⟨.of_wf h.inv.kin, .of_wf h.inv.place, fun a ha => ?_⟩
  obtain ⟨s', hs', -⟩ := a.run_spec h.inv ha
  exact ⟨s', hs'⟩

/-- The property layout holds in every reachable state, and no allowed operation fails there. -/
theorem Reachable.propertyLayout (h : Reachable s) :
    (∀ oid o, s.db.find oid = some o → ∃ l, s.db.PropertyLayout oid o l ∧
      ∀ name, ∃ r, s.db.dbFindPropertyValue oid name = some r ∧ s.db.Found oid l name r) ∧
    ∀ a : Act, a.Allowed s → ∃ s', a.run s = some s' := by
  refine ⟨fun oid o ho => ?_, fun a ha => ?_⟩
  · obtain ⟨l, hc⟩ := Db.exists_chain h.inv.kin ho
    exact ⟨l, h.inv.slotLayout ho hc, fun name => h.inv.findPropertyValue ho hc name⟩
  · obtain ⟨s', hs', -⟩ := a.run_spec h.inv ha
    exact ⟨s', hs'⟩

/-! ## Recycling -/

/-- The states that allowed operations in any order lead to from `s₀`. -/
inductive RunFrom (s₀ : DbState) : DbState → Prop
  | start : RunFrom s₀ s₀
  | step {s s' : DbState} (a : Act) : RunFrom s₀ s → a.Allowed s → a.run s = some s' → RunFrom s₀ s'

theorem RunFrom.inv {s₀ : DbState} (hi : s₀.db.Inv) (h : RunFrom s₀ s) : s.db.Inv := by
  induction h with
  | start => exact hi
  | step a _ ha hrun ih =>
    obtain ⟨s'', hs'', hi', -⟩ := a.run_spec ih ha
    rw [hrun] at hs''
    cases hs''
    exact hi'

/-- Wherever a run has led, a call or a resumption of `bf_recycle` ends without a panic; every
`db_change_parent` succeeds on the way to `db_destroy_object`, which gets a barren orphan and keeps
the invariant. -/
theorem RunFrom.recycle {s₀ : DbState} (hi : s₀.db.Inv) (h : RunFrom s₀ s) (oid progr : Objid)
    (call : CallVerb) :
    (∃ p db', s.db.bfRecycle1 oid progr call = some (p, db') ∧ db'.Inv) ∧
      ∃ r db', s.db.bfRecycleToDestroy oid progr call = some (r, db') ∧ db'.Inv ∧
        match r with
        | .inl p => s.db.bfRecycle2 oid progr call = some (p, db')
        | .inr results => (∀ b ∈ results, b = true) ∧ db'.BarrenOrphan oid ∧
            ∃ db'', db'.dbDestroyObject oid = some db'' ∧ db''.Inv ∧
            s.db.bfRecycle2 oid progr call = some (.noVar, db'') := by
  have hi := h.inv hi
  obtain ⟨p, db₁, h₁, hi₁, -⟩ := Db.bfRecycle1_spec hi oid progr call
  obtain ⟨r, db', hr, hi', -, hbarren⟩ := Db.bfRecycleToDestroy_spec hi oid progr call
  refine ⟨⟨p, db₁, h₁, hi₁⟩, r, db', hr, hi', ?_⟩
  cases r with
  | inl p =>
    simp only [Db.bfRecycle2_eq, hr, Option.bind_eq_bind, Option.bind_some, Option.pure_def]
  | inr results =>
    obtain ⟨hall, o, ho, hloc, hcont, hpar, hch⟩ := hbarren results rfl
    obtain ⟨db'', hd, hi'', -⟩ := hi'.destroyObject ho hloc hcont hpar hch
    refine ⟨hall, ⟨o, ho, hloc, hcont, hpar, hch⟩, db'', hd, hi'', ?_⟩
    simp only [Db.bfRecycle2_eq, hr, hd, Option.bind_eq_bind, Option.bind_some, Option.pure_def]

/-! ## A reachable state -/

/-- The name of a property. -/
def foo : Str := [102, 111, 111]

/-- Two objects, of which the first defines a property. -/
def pair : Db where
  objects := [
    some { id := 0, owner := 0, location := NOTHING, contents := NOTHING, next := NOTHING,
           parent := NOTHING,
           child := NOTHING, sibling := NOTHING, name := [], flags := 0, verbdefs := [],
           propdefs := [⟨foo, strHash foo, 0⟩], propval := [⟨.int 5, 0, PF_READ, 0⟩] },
    some { id := 1, owner := 0, location := NOTHING, contents := NOTHING, next := NOTHING,
           parent := NOTHING,
           child := NOTHING, sibling := NOTHING, name := [], flags := 0, verbdefs := [], propdefs :=
             [], propval := [] }]
  allUsers := []
  vcTable := none
  nextPid := 1

/-- The second object is a child of the first, and its slot is clear. -/
def child : Object where
  id := 1
  owner := 0
  location := NOTHING
  contents := NOTHING
  next := NOTHING
  parent := 0
  child := NOTHING
  sibling := NOTHING
  name := []
  flags := 0
  verbdefs := []
  propdefs := []
  propval := [⟨.clear, 0, PF_READ, 0⟩]

def family : Db where
  objects := [
    some { id := 0, owner := 0, location := NOTHING, contents := NOTHING, next := NOTHING,
           parent := NOTHING,
           child := 1, sibling := NOTHING, name := [], flags := 0, verbdefs := [],
           propdefs := [⟨foo, strHash foo, 0⟩], propval := [⟨.int 5, 0, PF_READ, 0⟩] },
    some child]
  allUsers := []
  vcTable := none
  nextPid := 1

theorem reachable_pair : Reachable ⟨pair, []⟩ := by
  have h₁ := Reachable.step (.createObject 0) .empty trivial rfl
  have h₂ := Reachable.step (.createObject 0) h₁ trivial rfl
  refine .step (.addPropdef 0 foo (.int 5) 0 PF_READ) h₂ ⟨⟨_, rfl⟩, by simp⟩ ?_
  rfl

theorem reachable_family : Reachable ⟨family, []⟩ := by
  refine .step (.chparent 1 0 0) reachable_pair trivial ?_
  rfl

theorem hierarchies_family : family.Hierarchy kin ∧ family.Hierarchy place ∧
    ∃ s', (Act.recycle 0 0 fun _ _ => .E_VERBNF).run ⟨family, []⟩ = some s' := by
  have h := Reachable.hierarchies reachable_family
  exact ⟨h.1, h.2.1, h.2.2 _ trivial⟩

/-- The parent of two objects is recycled while nothing answers the verbs. -/
theorem recycle_family :
    ∃ p db', family.bfRecycle1 0 0 (fun _ _ => .E_VERBNF) = some (p, db') ∧ db'.Inv :=
  (RunFrom.recycle reachable_family.inv .start 0 0 fun _ _ => .E_VERBNF).1

/-- One object, after a free number, and a list of users that still has it though it is no user. -/
def listed : Db where
  objects := [
    none,
    some { id := 1, owner := 1, location := NOTHING, contents := NOTHING, next := NOTHING,
           parent := NOTHING,
           child := NOTHING, sibling := NOTHING, name := [], flags := 0, verbdefs := [], propdefs :=
             [], propval := [] }]
  allUsers := [1]
  vcTable := none
  nextPid := 0

theorem inv_listed : listed.Inv := by
  have h₁ := Reachable.step (.createObject 0) .empty trivial rfl
  have h₂ := Reachable.step (.createObject 1) h₁ trivial rfl
  have h₃ : Reachable ⟨{ listed with allUsers := [] }, []⟩ :=
    .step (.destroyObject 0) h₂ ⟨_, rfl, rfl, rfl, rfl, rfl⟩ rfl
  exact h₃.inv.of_find rfl (Nat.le_refl _)

/-- Two objects, after a free number. The second one is in no list, and its sibling and its next are
the first one. -/
def stale : Db where
  objects := [
    none,
    some { id := 1, owner := 1, location := NOTHING, contents := NOTHING, next := NOTHING,
           parent := NOTHING,
           child := NOTHING, sibling := NOTHING, name := [], flags := 0, verbdefs := [], propdefs :=
             [], propval := [] },
    some { id := 2, owner := 1, location := NOTHING, contents := NOTHING, next := 1,
           parent := NOTHING,
           child := NOTHING, sibling := 1, name := [], flags := 0, verbdefs := [], propdefs :=
             [], propval := [] }]
  allUsers := []
  vcTable := none
  nextPid := 0

theorem stale_find {x : Objid} {o : Object} (ho : stale.find x = some o) :
    o.location = NOTHING ∧ o.contents = NOTHING ∧ o.parent = NOTHING ∧ o.child = NOTHING ∧
      o.propdefs = [] ∧ o.propval = [] := by
  obtain ⟨h0, hlt⟩ := Db.find_bounds ho
  obtain ⟨n, rfl⟩ := Int.eq_ofNat_of_zero_le h0
  have hn : n < 3 := hlt
  obtain rfl | rfl | rfl : n = 0 ∨ n = 1 ∨ n = 2 := by omega
  · cases ho
  · cases ho
    exact ⟨rfl, rfl, rfl, rfl, rfl, rfl⟩
  · cases ho
    exact ⟨rfl, rfl, rfl, rfl, rfl, rfl⟩

/-- The table has both hierarchies and the layout, but not the rest of the invariant. -/
theorem stale_hierarchies : stale.Hierarchy kin ∧ stale.Hierarchy place ∧ stale.Layout := by
  have hdefs : ∀ x, stale.propdefsOf x = [] := by
    intro x
    cases ho : stale.find x with
    | none => rw [Db.propdefsOf, ho]; rfl
    | some o => rw [Db.propdefsOf_eq ho, (stale_find ho).2.2.2.2.1]
  have hinherited : ∀ l, stale.inherited l = [] :=
    fun l => List.flatMap_eq_nil_iff.mpr fun x _ => hdefs x
  refine ⟨.of_roots fun x o ho => ⟨(stale_find ho).2.2.1, (stale_find ho).2.2.2.1⟩,
    .of_roots fun x o ho => ⟨(stale_find ho).1, (stale_find ho).2.1⟩, ?_⟩
  constructor
  · intro x p hp
    rw [hdefs] at hp
    cases hp
  · intro x o l ho _
    rw [hinherited, (stale_find ho).2.2.2.2.2]
    rfl
  · intro x l _
    rw [hinherited]
    exact List.nodup_nil
  · intro x o n pv ho hn
    rw [(stale_find ho).2.2.2.2.1] at hn
    cases hn
  · intro x y i j p q hp
    rw [hdefs] at hp
    cases hp
  · intro x p hp
    rw [hdefs] at hp
    cases hp

/-- The object loses its number, and the list of users keeps it; or another object keeps it as the
sibling that it does not use. -/
theorem renumber_listed :
    (∃ db', listed.dbRenumberObject 1 = some (0, db') ∧ listed.Inv ∧ db'.allUsers = [1] ∧
      db'.valid 1 = false) ∧
    (stale.Hierarchy kin ∧ stale.Hierarchy place ∧ stale.Layout) ∧
    ∃ db', stale.dbRenumberObject 1 = some (0, db') ∧ db'.valid 1 = false ∧
      (db'.find 2).map (fun o => (o.owner, o.sibling, o.next)) = some (0, 1, 1) :=
  ⟨⟨_, rfl, inv_listed, rfl, rfl⟩, stale_hierarchies, _, rfl, rfl, rfl⟩

theorem renumber_isomorphism_listed :
    ∃ newbie db', listed.dbRenumberObject 1 = some (newbie, db') ∧ db'.Inv := by
  obtain ⟨o, ho⟩ : ∃ o, listed.find 1 = some o := ⟨_, rfl⟩
  obtain ⟨newbie, db', h, hi, -⟩ := Db.renumber_isomorphism inv_listed ho
  exact ⟨newbie, db', h, hi⟩

/-- The child finds the value of its parent. -/
theorem propertyLayout_family :
    family.dbFindPropertyValue 1 foo = some (some (.slot 0 1 0, .int 5)) ∧
    ∃ l, family.PropertyLayout 1 child l ∧ family.Found 1 l foo (some (.slot 0 1 0, .int 5)) := by
  have hvalue : family.dbFindPropertyValue 1 foo = some (some (.slot 0 1 0, .int 5)) := rfl
  obtain ⟨l, hl, hfound⟩ := (Reachable.propertyLayout reachable_family).1 1 child rfl
  obtain ⟨r, hr, hf⟩ := hfound foo
  rw [hvalue] at hr
  exact ⟨hvalue, l, hl, Option.some.inj hr ▸ hf⟩

end NuMoo
