import NuMoo.Db.Builtins
import NuMoo.Db.Reparent

/-!
# The invariant of the database

Both hierarchies are forests, objects know their numbers and the property layout
holds. Every operation on the table keeps the invariant and succeeds on what its
callers have checked.

Results:
1. `Inv.congr`: what the invariant depends on.
2. `Inv.createObject`, `Inv.destroyObject`, `Inv.changeParent`, `Inv.changeLocation`.
-/

namespace NuMoo

open Linked

namespace Db

/-- The invariant of every reachable database. -/
structure Inv (db : Db) : Prop where
  kin : (db.links kin).WF NOTHING
  place : (db.links place).WF NOTHING
  ids : ∀ x o, db.find x = some o → o.id = x
  layout : db.Layout

/-- What the invariant depends on. -/
def core (o : Object) : Objid × Cell Objid × Cell Objid × List Propdef × List (Nat × Var) :=
  (o.id, NuMoo.kin.get o, NuMoo.place.get o, o.propdefs, o.propval.map fun pv => (pv.pid, pv.var))

variable {db db' : Db} {oid : Objid} {o : Object}

theorem find_id_congr (h : ∀ x, (db'.find x).map Object.id = (db.find x).map Object.id)
    (hid : ∀ x o, db.find x = some o → o.id = x) : ∀ x o, db'.find x = some o → o.id = x := by
  intro x o' ho'
  have := (h x).symm
  rw [ho', Option.map_some, Option.map_eq_some_iff] at this
  obtain ⟨o, ho, he⟩ := this
  exact he ▸ hid x o ho

theorem Inv.congr (hi : db.Inv) (h : ∀ x, (db'.find x).map core = (db.find x).map core)
    (hn : db.nextPid ≤ db'.nextPid) : db'.Inv := by
  have hmap : ∀ {β : Type} (g : Objid × Cell Objid × Cell Objid × List Propdef ×
    List (Nat × Var) → β) x,
      (db'.find x).map (fun o => g (core o)) = (db.find x).map fun o => g (core o) := by
    intro β g x
    have := congrArg (Option.map g) (h x)
    simpa [Option.map_map, Function.comp_def] using this
  have hk : db'.links NuMoo.kin = db.links NuMoo.kin := funext (hmap fun r => r.2.1)
  have hp : db'.links NuMoo.place = db.links NuMoo.place := funext (hmap fun r => r.2.2.1)
  exact ⟨hk ▸ hi.kin, hp ▸ hi.place, find_id_congr (hmap fun r => r.1) hi.ids,
    hi.layout.congr (hmap fun r => (r.2.1.up, r.2.2.2.1, r.2.2.2.2)) hn⟩

/-- An operation on properties keeps the rest of the invariant. -/
theorem Inv.of_props (hi : db.Inv) (hs : SameButProps db db') (hl : db'.Layout) : db'.Inv :=
  ⟨(hs.links NuMoo.kin fun _ => rfl) ▸ hi.kin, (hs.links NuMoo.place fun _ => rfl) ▸ hi.place,
    find_id_congr (hs.map_eq Object.id fun _ => rfl) hi.ids, hl⟩

/-- Updating fields outside the core of an object. -/
theorem Inv.put (hi : db.Inv) (ho : db.find oid = some o) {o' : Object} (he : core o' = core o) :
    (db.put oid o').Inv := by
  refine hi.congr (fun x => ?_) (Nat.le_refl _)
  by_cases hx : x = oid
  · subst hx
    rw [find_put_self ho, ho, Option.map_some, Option.map_some, he]
  · rw [find_put_of_ne ho hx]

theorem Inv.modify (hi : db.Inv) (ho : db.find oid = some o) {f : Object → Object}
    (hf : ∀ o, core (f o) = core o) :
    ∃ db', db.modify oid f = some db' ∧ db'.Inv :=
  ⟨_, by rw [Db.modify, ho, Option.map_some], hi.put ho (hf o)⟩

/-- A database with the same objects. -/
theorem Inv.of_find (hi : db.Inv) (h : db'.find = db.find) (hn : db.nextPid ≤ db'.nextPid) :
    db'.Inv :=
  hi.congr (fun x => by rw [h]) hn

theorem Inv.affected (hi : db.Inv) : db.affectedCallableVerbLookup.Inv :=
  hi.of_find (find_affected db) (by simp)

/-! ## The empty database -/

theorem find_empty (x : Objid) : Db.empty.find x = none := by simp [find, Db.empty]

theorem inv_empty : Db.empty.Inv := by
  have hL : ∀ F x c, Db.empty.links F x ≠ some c := fun F x c => by simp [links, find_empty]
  have hwf : ∀ F, (Db.empty.links F).WF NOTHING := fun F =>
    ⟨links_nothing, fun p c h => absurd h (hL F p c), fun x c h => absurd h (hL F x c),
      fun x c h => absurd h (hL F x c)⟩
  have hd : ∀ x, Db.empty.propdefsOf x = [] := fun x => by simp [propdefsOf, find_empty]
  refine ⟨hwf _, hwf _, ?_, ⟨?_, ?_, ?_, ?_, ?_, ?_⟩⟩
  · intro x o h
    rw [find_empty] at h
    cases h
  · intro x p h
    rw [hd] at h
    cases h
  · intro x o l h
    rw [find_empty] at h
    cases h
  · intro x l _
    rw [inherited, List.flatMap_eq_nil_iff.mpr fun y _ => hd y]
    exact List.nodup_nil
  · intro x o n pv h
    rw [find_empty] at h
    cases h
  · intro x y i j p q h
    rw [hd] at h
    cases h
  · intro x p h
    rw [hd] at h
    cases h

/-! ## Creation and destruction -/

theorem exists_find_of_links {F : LinkFields} {x : Objid} (h : (db.links F x).isSome) :
    ∃ o, db.find x = some o := by
  rw [links_isSome] at h
  exact Option.isSome_iff_exists.mp h

/-- Nobody's parent is a number that is not in use. -/
theorem parentOf_ne_of_find_none (hk : (db.links NuMoo.kin).WF NOTHING) (hx : db.find oid = none)
    (hn : oid ≠ NOTHING) (y : Objid) : db.parentOf y ≠ some oid := by
  intro h
  obtain ⟨c, hc, hu⟩ := Links.exists_of_up_eq h
  obtain ⟨cp, hcp⟩ := hk.up_isSome hc (hu ▸ hn)
  obtain ⟨op, hop, -⟩ := exists_of_links hcp
  rw [hu, hx] at hop
  cases hop

/-- An object that is nobody's parent can come without properties, or go. -/
theorem Layout.isolated (hl : db.Layout) (oid : Objid) (hk : (db.links NuMoo.kin).WF NOTHING)
    (hne : ∀ x, x ≠ oid → db'.find x = db.find x) (hiso : ∀ y, db.parentOf y ≠ some oid)
    (hnew : ∀ o, db'.find oid = some o → o.parent = NOTHING ∧ o.propdefs = [] ∧ o.propval = [])
    (hn : db.nextPid ≤ db'.nextPid) : db'.Layout := by
  have hdne : ∀ x, x ≠ oid → db'.propdefsOf x = db.propdefsOf x := fun x hx => by
    rw [propdefsOf, hne x hx, propdefsOf]
  have hdself : db'.propdefsOf oid = [] := by
    cases h : db'.find oid with
    | none => simp [propdefsOf, h]
    | some o => rw [propdefsOf_eq h, (hnew o h).2.1]
  have hdsub : ∀ (x : Objid) (k : Nat) (p : Propdef), (db'.propdefsOf x)[k]? = some p →
      (db.propdefsOf x)[k]? = some p := by
    intro x k p h
    by_cases hx : x = oid
    · rw [hx, hdself] at h
      cases h
    · rwa [hdne x hx] at h
  have hmem : ∀ x, ∀ p ∈ db'.propdefsOf x, p ∈ db.propdefsOf x := by
    intro x p h
    obtain ⟨k, hk⟩ := List.mem_iff_getElem?.mp h
    exact List.mem_of_getElem? (hdsub x k p hk)
  have hpne : ∀ x, x ≠ oid → db'.parentOf x = db.parentOf x := fun x hx => by
    simp [parentOf, Links.up, links, hne x hx]
  -- The chains of the other objects avoid the one that comes or goes.
  have hchain : ∀ x l, x ≠ oid → Chain db'.parentOf NOTHING x l →
      Chain db.parentOf NOTHING x l ∧ db'.inherited l = db.inherited l := by
    intro x l hx hc
    by_cases hxn : x = NOTHING
    · subst hxn
      rw [Chain.nil_iff.mp hc]
      exact ⟨.done, rfl⟩
    · obtain ⟨b, m, rfl, hb, -⟩ := (Chain.cons_iff hxn).mp hc
      rw [hpne x hx] at hb
      obtain ⟨ox, hox, -⟩ := exists_of_parentOf hb
      obtain ⟨l', hl'⟩ := exists_chain hk hox
      have hnot : oid ∉ l' := by
        intro hm
        obtain ⟨y, -, hy⟩ := hl'.exists_pred hm hx.symm
        exact hiso y hy
      have hc' : Chain db'.parentOf NOTHING x l' :=
        hl'.congr fun y hy => hpne y fun he => hnot (he ▸ hy)
      obtain rfl := hc.unique hc'
      exact ⟨hl', inherited_congr fun y hy => hdne y fun he => hnot (he ▸ hy)⟩
  have hself : ∀ l, Chain db'.parentOf NOTHING oid l → db'.inherited l = [] := by
    intro l hc
    by_cases hon : oid = NOTHING
    · rw [hon] at hc
      rw [Chain.nil_iff.mp hc]
      rfl
    · obtain ⟨b, m, rfl, hb, hm⟩ := (Chain.cons_iff hon).mp hc
      obtain ⟨o, ho, rfl⟩ := exists_of_parentOf hb
      rw [(hnew o ho).1] at hm
      rw [Chain.nil_iff.mp hm, inherited_cons, hdself]
      rfl
  refine ⟨fun x p h => hl.hash x p (hmem x p h), fun x o l ho hc => ?_, fun x l hc => ?_,
    fun x o n pv ho hnlt hpv => ?_,
    fun x y i j p q hp hq => hl.pidInj x y i j p q (hdsub x i p hp) (hdsub y j q hq),
    fun x p h => (hl.pidLt x p (hmem x p h)).trans_le hn⟩
  · by_cases hx : x = oid
    · subst hx
      rw [hself l hc, (hnew o ho).2.2]
      rfl
    · obtain ⟨hc', hinh⟩ := hchain x l hx hc
      rw [hinh, hl.aligned x o l (hne x hx ▸ ho) hc']
  · by_cases hx : x = oid
    · subst hx
      rw [hself l hc]
      exact List.nodup_nil
    · obtain ⟨hc', hinh⟩ := hchain x l hx hc
      rw [hinh]
      exact hl.names x l hc'
  · by_cases hx : x = oid
    · subst hx
      rw [(hnew o ho).2.1] at hnlt
      cases hnlt
    · exact hl.defined x o n pv (hne x hx ▸ ho) hnlt hpv

theorem find_create (junk x : Objid) :
    (db.dbCreateObject junk).2.find x = if x = db.numObjects then some
      { id := db.numObjects, owner := junk, location := NOTHING, contents := NOTHING,
        next := NOTHING, parent := NOTHING, child := NOTHING, sibling := NOTHING, name := [],
        flags := 0, verbdefs := [], propdefs := [], propval := [] } else db.find x := by
  unfold dbCreateObject find
  by_cases hx0 : 0 ≤ x
  · by_cases hx : x = db.numObjects
    · subst hx
      simp [numObjects]
    · have hne : x.toNat ≠ db.objects.length := fun he => hx (by
        rw [← Int.toNat_of_nonneg hx0, he]
        rfl)
      rw [if_neg hx, if_pos hx0, if_pos hx0]
      rcases Nat.lt_or_ge x.toNat db.objects.length with h | h
      · rw [List.getElem?_append_left h]
      · rw [List.getElem?_append_right h, List.getElem?_eq_none h,
          List.getElem?_eq_none (by simp; omega)]
  · have hx : x ≠ db.numObjects := by
      rintro rfl
      exact hx0 (Int.natCast_nonneg _)
    simp [hx0, hx]

theorem find_numObjects : db.find db.numObjects = none := by
  cases h : db.find db.numObjects with
  | none => rfl
  | some o =>
    have := (find_bounds h).2
    simp at this

theorem numObjects_ne_nothing : (db.numObjects : Objid) ≠ NOTHING := by
  have : (0 : Int) ≤ db.numObjects := Int.natCast_nonneg _
  intro h
  rw [h] at this
  exact absurd this (by decide)

theorem Inv.createObject (hi : db.Inv) (junk : Objid) : (db.dbCreateObject junk).2.Inv := by
  have hlinks : ∀ F : LinkFields,
      (∀ id owner, F.get ⟨id, owner, NOTHING, NOTHING, NOTHING, NOTHING, NOTHING, NOTHING, [],
      0, [], [], []⟩ = ⟨NOTHING, NOTHING, NOTHING⟩) → (db.links F).WF NOTHING →
      ((db.dbCreateObject junk).2.links F).WF NOTHING := by
    intro F hF hwf
    have : (db.dbCreateObject junk).2.links F =
        Function.update (db.links F) (db.numObjects : Objid)
          (some ⟨NOTHING, NOTHING, NOTHING⟩) := by
      funext x
      rw [links, find_create]
      by_cases hx : x = db.numObjects
      · subst hx
        simp [hF]
      · simp [hx, links]
    rw [this]
    exact hwf.insert (by simp [links, find_numObjects]) numObjects_ne_nothing
  refine ⟨hlinks _ (fun _ _ => rfl) hi.kin, hlinks _ (fun _ _ => rfl) hi.place, fun x o h => ?_, ?_⟩
  · rw [find_create] at h
    split at h
    · next hx =>
      cases h
      exact hx.symm
    · exact hi.ids x o h
  · refine hi.layout.isolated db.numObjects hi.kin (fun x hx => ?_)
      (parentOf_ne_of_find_none hi.kin find_numObjects numObjects_ne_nothing)
        (fun o h => ?_) (Nat.le_refl _)
    · rw [find_create, if_neg hx]
    · rw [find_create, if_pos rfl] at h
      cases h
      exact ⟨rfl, rfl, rfl⟩

theorem Inv.destroyObject (hi : db.Inv) (ho : db.find oid = some o) (hloc : o.location = NOTHING)
    (hcont : o.contents = NOTHING) (hpar : o.parent = NOTHING) (hch : o.child = NOTHING) :
    ∃ db', db.dbDestroyObject oid = some db' ∧ db'.Inv ∧ db'.find oid = none := by
  obtain ⟨h0, hlt⟩ := find_bounds ho
  obtain ⟨l, hc⟩ := exists_chain hi.kin ho
  obtain ⟨m, rfl, hm⟩ := chain_cons ho hc
  rw [hpar] at hm
  obtain rfl := Chain.nil_iff.mp hm
  have hlen : o.propdefs.length ≤ o.propval.length := by
    rw [hi.layout.length_eq ho hc]
    simp [inherited, propdefsOf_eq ho]
  -- The database in which the entry is cleared, whatever the list of users.
  have key : ∀ db₁ : Db, db₁.find = db.find → db₁.numObjects = db.numObjects →
      db₁.nextPid = db.nextPid →
      (db₁.clearEntry oid).Inv ∧ (db₁.clearEntry oid).find oid = none := by
    intro db₁ hf hn hp
    have hfind : ∀ x, (db₁.clearEntry oid).find x = if x = oid then none else db.find x := by
      intro x
      rw [clearEntry, find_set h0 (hn ▸ hlt), hf]
    have hlinks : ∀ F : LinkFields, (F.get o).up = NOTHING → (F.get o).head = NOTHING →
        (db.links F).WF NOTHING →
        ((db₁.clearEntry oid).links F).WF NOTHING := by
      intro F hu hh hwf
      have : (db₁.clearEntry oid).links F = Function.update (db.links F) oid none := by
        funext x
        rw [links, hfind]
        by_cases hx : x = oid
        · subst hx
          simp
        · simp [hx, links]
      rw [this]
      exact hwf.delete (links_eq ho) hu hh
    refine ⟨⟨hlinks _ hpar hch hi.kin, hlinks _ hloc hcont hi.place, fun x o h => ?_, ?_⟩,
      by rw [hfind, if_pos rfl]⟩
    · rw [hfind] at h
      split at h
      · cases h
      · exact hi.ids x o h
    · refine hi.layout.isolated oid hi.kin (fun x hx => by rw [hfind, if_neg hx]) (fun y hy => ?_)
        (fun o h => ?_) hp.ge
      · obtain ⟨k, hk, hmem⟩ := hi.kin.kids oid _ (links_eq ho)
        rw [show (NuMoo.kin.get o).head = NOTHING from hch, Chain.nil_iff] at hk
        have := (hmem y).mpr hy
        rw [hk] at this
        cases this
      · rw [hfind, if_pos rfl] at h
        cases h
  by_cases hu : db.affectedCallableVerbLookup.isUser oid
  · obtain ⟨hinv, hnone⟩ := key { db.affectedCallableVerbLookup with
      allUsers := setremove db.affectedCallableVerbLookup.allUsers oid } (find_affected db)
        (numObjects_affected db)
      (nextPid_affected db)
    exact ⟨_, by simp [dbDestroyObject, ho, hloc, hcont, hpar, hch, hlen, hu], hinv, hnone⟩
  · obtain ⟨hinv, hnone⟩ :=
      key db.affectedCallableVerbLookup (find_affected db) (numObjects_affected db)
      (nextPid_affected db)
    exact ⟨_, by simp [dbDestroyObject, ho, hloc, hcont, hpar, hch, hlen, hu], hinv, hnone⟩

/-! ## Moves -/

/-- A change of parent that is refused changes nothing; the other hierarchy stays in any case. -/
theorem Inv.changeParent (hi : db.Inv) (ho : db.find oid = some o) {parent : Objid}
    (hp : parent = NOTHING ∨ ∃ op, db.find parent = some op)
    (hacyc : ¬ (db.links NuMoo.kin).Below oid parent) :
    ∃ b db', db.dbChangeParent oid parent = some (b, db') ∧ db'.Inv ∧
      db'.links NuMoo.place = db.links NuMoo.place ∧
      (b = true → Links.Reparented (db.links NuMoo.kin) (db'.links NuMoo.kin) oid parent) ∧
      (b = false → db' = db ∧ ∃ lnew, Chain db.parentOf NOTHING parent lnew ∧
        ¬ db.NoClash oid lnew) := by
  rcases changeParent_spec hi.kin hi.layout ho hp hacyc with ⟨h, hclash⟩ | ⟨db', la, lb, lc, h, hc⟩
  · exact ⟨false, db, h, hi, rfl, fun h => (Bool.false_ne_true h).elim, fun _ => ⟨rfl, hclash⟩⟩
  · have hplace : db'.links NuMoo.place = db.links NuMoo.place := by
      rw [hc.same.links NuMoo.place fun _ => rfl]
      funext x
      rw [links, links, find_flushedFor]
    refine ⟨true, db', h, ⟨hc.wf, hplace ▸ hi.place, ?_, hc.layout⟩, hplace,
      fun _ => hc.slots.links,
      fun h => (Bool.noConfusion h)⟩
    exact find_id_congr (fun x => by rw [hc.same.map_eq Object.id fun _ => rfl, find_flushedFor])
      hi.ids

/-- The ancestors of an object never clash with its subtree. -/
theorem Layout.noClash (hl : db.Layout) {la lnew : List Objid}
    (hc : Chain db.parentOf NOTHING oid (oid :: (la ++ lnew))) : db.NoClash oid lnew := by
  intro p hp y hy q hq he
  obtain ⟨m, hm⟩ := hy.path
  have hnd := hl.names y _ (chain_of_path hm hc)
  have hsplit : db.inherited (m ++ oid :: (la ++ lnew)) = db.inherited (m ++ oid :: la) ++
      db.inherited lnew := by
    rw [← inherited_append, List.append_assoc, List.cons_append]
  have hq' : q ∈ db.inherited (m ++ oid :: la) := by
    rw [mem_inherited]
    refine ⟨y, ?_, hq⟩
    cases hm with
    | root => simp
    | child _ _ => simp
  rw [hsplit, List.map_append, List.nodup_append] at hnd
  exact hnd.2.2 _ (List.mem_map_of_mem hq') _ (List.mem_map_of_mem hp) he

theorem valid_of_modify {db₁ : Db} {x : Objid} {f : Object → Object}
    (h : db.modify x f = some db₁) (y : Objid) :
    db₁.valid y = db.valid y := by
  obtain ⟨o, ho, rfl⟩ := Option.map_eq_some_iff.mp h
  by_cases hy : y = x
  · rw [valid, valid, hy, find_put_self ho, ho]
    rfl
  · rw [valid, valid, find_put_of_ne ho hy]

theorem valid_of_llRemove {db₁ : Db} {F : LinkFields} {w x : Objid}
    (h : db.llRemove F w x = some db₁) (y : Objid) :
    db₁.valid y = db.valid y := by
  simp only [llRemove, Option.bind_eq_bind, Option.bind_eq_some_iff] at h
  obtain ⟨ow, -, ox, -, h⟩ := h
  split at h
  · obtain ⟨db₂, h₂, h₁⟩ := Option.bind_eq_some_iff.mp h
    rw [valid_of_modify h₁, valid_of_modify h₂]
  · obtain ⟨r, -, h⟩ := Option.bind_eq_some_iff.mp h
    cases r with
    | none => exact valid_of_modify h y
    | some lid =>
      obtain ⟨db₂, h₂, h₁⟩ := Option.bind_eq_some_iff.mp h
      rw [valid_of_modify h₁, valid_of_modify h₂]

/-- The tests of validity in `db_change_location` are tests for `NOTHING`. -/
theorem dbChangeLocation_eq (hp : (db.links NuMoo.place).WF NOTHING) (ho : db.find oid = some o)
    {location : Objid}
    (hl : location = NOTHING ∨ ∃ ol, db.find location = some ol) :
    db.dbChangeLocation oid location = db.moveLinks NuMoo.place oid o.location location := by
  have hold : db.valid o.location = true ↔ o.location ≠ NOTHING := by
    rw [valid_iff]
    constructor
    · rintro ⟨op, hop⟩ hn
      rw [hn, find_nothing] at hop
      cases hop
    · intro hn
      obtain ⟨c, hc⟩ := hp.up_isSome (links_eq ho) hn
      obtain ⟨op, hop, -⟩ := exists_of_links hc
      exact ⟨op, hop⟩
  have hnew : ∀ db₁ : Db, (∀ x, db₁.valid x = db.valid x) →
      (db₁.valid location = true ↔ location ≠ NOTHING) := by
    intro db₁ hv
    rw [hv, valid_iff]
    constructor
    · rintro ⟨op, hop⟩ hn
      rw [hn, find_nothing] at hop
      cases hop
    · exact fun hn => hl.resolve_left hn
  have hfirst : (if db.valid o.location = true then db.llRemove NuMoo.place o.location oid
    else some db) =
      if o.location ≠ NOTHING then db.llRemove NuMoo.place o.location oid else some db :=
        if_congr hold rfl rfl
  simp only [dbChangeLocation, moveLinks, ho, Option.bind_eq_bind, Option.bind_some, hfirst]
  cases h : (if o.location ≠ NOTHING then db.llRemove NuMoo.place o.location oid else some db) with
  | none => rfl
  | some db₁ =>
    simp only [Option.bind_some]
    have hv : ∀ x, db₁.valid x = db.valid x := by
      split at h
      · exact valid_of_llRemove h
      · cases h
        exact fun _ => rfl
    rw [if_congr (hnew db₁ hv) rfl rfl]

theorem Inv.changeLocation (hi : db.Inv) (ho : db.find oid = some o) {location : Objid}
    (hl : location = NOTHING ∨ ∃ ol, db.find location = some ol)
    (hacyc : ¬ (db.links NuMoo.place).Below oid location) :
    ∃ db', db.dbChangeLocation oid location = some db' ∧ db'.Inv ∧
      Links.Reparented (db.links NuMoo.place) (db'.links NuMoo.place) oid location ∧
      SameBut NuMoo.place db db' := by
  obtain ⟨db', h, hwf, hr, hs⟩ := moveLinks_spec hi.place ho hl hacyc
  refine ⟨db', (dbChangeLocation_eq hi.place ho hl).trans h, ⟨?_, hwf, ?_, ?_⟩, hr, hs⟩
  · rw [hs.links NuMoo.kin fun _ => rfl]
    exact hi.kin
  · exact find_id_congr (hs.map_eq Object.id fun _ => rfl) hi.ids
  · exact hi.layout.congr (hs.map_eq shape fun _ => rfl) hs.nextPid

end Db

end NuMoo
