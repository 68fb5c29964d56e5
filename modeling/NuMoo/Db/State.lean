import Mathlib.Data.List.Perm.Subperm
import NuMoo.Base
import NuMoo.Lib.Visit

/-!
# The object table

Objects, their property slots and verbs, the table `objects` and the two
intrusive hierarchies that run through it: `parent`/`child`/`sibling` and
`location`/`contents`/`next`. The names follow `db_private.h` and
`db_objects.c`.

A function returns `none` where the source would crash: it reads outside an
array or through a null pointer, calls `panic`, or follows links for longer than
there are objects.

Results:
1. `find_put`, `numObjects_put`: the table as a partial map.
2. `length_lt_of_nodup`: distinct valid objects are fewer than the loop bounds.
3. `lineage_eq`: the ancestor loop visits the objects of the parent chain.
-/

namespace NuMoo

/-- A `const char *`: the text with the address that identifies the copy of it. -/
structure MooStr where
  addr : Nat
  text : Str
deriving DecidableEq, Repr

/-- A property definition. `pid` is a ghost: a number given to the property when it
is added, which no function reads. -/
structure Propdef where
  name : Str
  hash : UInt32
  pid : Nat
deriving DecidableEq, Repr

/-- A property slot. The ghost `pid` is copied with the slot and names the property
the slot was made for. -/
structure Pval where
  var : Var
  owner : Objid
  perms : UInt16
  pid : Nat
deriving DecidableEq, Repr

def PF_READ : UInt16 := 1
def PF_WRITE : UInt16 := 2
def PF_CHOWN : UInt16 := 4

/-- A verb, identified by its address. -/
structure Verbdef where
  addr : Nat
  name : MooStr
  program : Option Nat
  owner : Objid
  perms : UInt16
  prep : UInt16
deriving DecidableEq, Repr

def VF_EXEC : UInt16 := 4

/-- `Object`. The capacity of `propdefs` and the cached `waif_propdefs` are left out. -/
structure Object where
  id : Objid
  owner : Objid
  location : Objid
  contents : Objid
  next : Objid
  parent : Objid
  child : Objid
  sibling : Objid
  name : Str
  flags : UInt32
  verbdefs : List Verbdef
  propdefs : List Propdef
  propval : List Pval
deriving DecidableEq, Repr

/-- The target of a verb handle: the defining object and the address of the verb. -/
structure Handle where
  definer : Objid
  verbdef : Nat
deriving DecidableEq, Repr

/-- `vc_entry`; a null `h.verbdef` is the absent handle. -/
structure VcEntry where
  hash : UInt32
  oidKey : Objid
  verbname : Str
  h : Option Handle
deriving DecidableEq, Repr

/-- The database: `objects` up to `num_objects`, `all_users`, the verb cache
(absent until the first lookup makes it) and the next ghost property number. -/
structure Db where
  objects : List (Option Object)
  allUsers : List Objid
  vcTable : Option (Nat → List VcEntry)
  nextPid : Nat

namespace Db

/-- The database that has no objects. -/
def empty : Db := ⟨[], [], none, 0⟩

def numObjects (db : Db) : Nat := db.objects.length

/-- More turns than any loop over distinct objects takes. -/
def bound (db : Db) : Nat := db.numObjects + 1

/-- `dbpriv_find_object`, and `objects[oid]` where the source reads the table directly. -/
def find (db : Db) (oid : Objid) : Option Object :=
  if 0 ≤ oid then (db.objects[oid.toNat]?).join else none

/-- `valid` -/
def valid (db : Db) (oid : Objid) : Bool := (db.find oid).isSome

/-- Store through `objects[oid]`. -/
def put (db : Db) (oid : Objid) (o : Object) : Db :=
  { db with objects := db.objects.set oid.toNat (some o) }

/-- Update the object at `oid` in place. -/
def modify (db : Db) (oid : Objid) (f : Object → Object) : Option Db :=
  (db.find oid).map fun o => db.put oid (f o)

variable {db : Db} {oid x : Objid} {o o' : Object}

theorem find_nothing : db.find NOTHING = none := by simp [find, NOTHING]

theorem valid_iff : db.valid oid = true ↔ ∃ o, db.find oid = some o := by
  simp [valid, Option.isSome_iff_exists]

theorem toNat_inj {a b : Objid} (ha : 0 ≤ a) (hb : 0 ≤ b) (h : a.toNat = b.toNat) : a = b := by
  rw [← Int.toNat_of_nonneg ha, ← Int.toNat_of_nonneg hb, h]

theorem find_bounds (h : db.find oid = some o) : 0 ≤ oid ∧ oid.toNat < db.numObjects := by
  unfold find at h
  split at h
  · next h0 =>
    refine ⟨h0, ?_⟩
    by_contra hlt
    rw [List.getElem?_eq_none (by simpa [numObjects] using hlt)] at h
    simp at h
  · cases h

@[simp] theorem numObjects_put : (db.put oid o).numObjects = db.numObjects := by
  simp [numObjects, put]

@[simp] theorem bound_put : (db.put oid o).bound = db.bound := by simp [bound]

/-- Storing into an entry of the table, null or not. -/
theorem find_set {e : Option Object} (h0 : 0 ≤ oid) (hlt : oid.toNat < db.numObjects) :
    ({ db with objects := db.objects.set oid.toNat e }).find x = if x = oid then e
      else db.find x := by
  unfold find
  by_cases hx0 : 0 ≤ x
  · by_cases hx : x = oid
    · subst hx
      rw [if_pos hx0, if_pos rfl]
      simp [show x.toNat < db.objects.length from hlt]
    · have hne : oid.toNat ≠ x.toNat := fun he => hx (toNat_inj h0 hx0 he).symm
      simp [hx0, hx, hne]
  · have hx : x ≠ oid := by rintro rfl; exact hx0 h0
    simp [hx0, hx]

theorem find_put (h : db.find oid = some o) :
    (db.put oid o').find x = if x = oid then some o' else db.find x :=
  find_set (find_bounds h).1 (find_bounds h).2

theorem find_put_self (h : db.find oid = some o) : (db.put oid o').find oid = some o' := by
  rw [find_put h, if_pos rfl]

theorem find_put_of_ne (h : db.find oid = some o) (hx : x ≠ oid) :
    (db.put oid o').find x = db.find x := by
  rw [find_put h, if_neg hx]

/-- Distinct valid objects are no more than the table has entries. -/
theorem length_lt_of_nodup (l : List Objid) (hnd : l.Nodup) (hl : ∀ y ∈ l, (db.find y).isSome) :
    l.length < db.bound := by
  have hb : ∀ y ∈ l, 0 ≤ y ∧ y.toNat < db.numObjects := by
    intro y hy
    obtain ⟨o, ho⟩ := Option.isSome_iff_exists.mp (hl y hy)
    exact find_bounds ho
  have hmap : (l.map Int.toNat).Nodup := by
    exact hnd.map_on fun a ha b hb' hab => toNat_inj (hb a ha).1 (hb b hb').1 hab
  have hsub : l.map Int.toNat ⊆ List.range db.numObjects := by
    intro n hn
    obtain ⟨y, hy, rfl⟩ := List.mem_map.mp hn
    exact List.mem_range.mpr (hb y hy).2
  have hle := (List.subperm_of_subset hmap hsub).length_le
  rw [List.length_map, List.length_range] at hle
  exact Nat.lt_succ_of_le hle

end Db

/-! ## The two hierarchies -/

/-- The three link fields of an object that belong to one hierarchy. -/
structure LinkFields where
  get : Object → Linked.Cell Objid
  set : Linked.Cell Objid → Object → Object
  get_set : ∀ c o, get (set c o) = c
  set_set : ∀ c c' o, set c (set c' o) = set c o
  set_get : ∀ o, set (get o) o = o

/-- `parent`, `child` and `sibling` -/
def kin : LinkFields where
  get o := ⟨o.parent, o.child, o.sibling⟩
  set c o := { o with parent := c.up, child := c.head, sibling := c.next }
  get_set _ _ := rfl
  set_set _ _ _ := rfl
  set_get _ := rfl

/-- `location`, `contents` and `next` -/
def place : LinkFields where
  get o := ⟨o.location, o.contents, o.next⟩
  set c o := { o with location := c.up, contents := c.head, next := c.next }
  get_set _ _ := rfl
  set_set _ _ _ := rfl
  set_get _ := rfl

namespace Db

/-- The links of all valid objects in one hierarchy. -/
def links (db : Db) (F : LinkFields) : Linked.Links Objid := fun oid => (db.find oid).map F.get

/-- The parent of a valid object. -/
def parentOf (db : Db) : Objid → Option Objid := (db.links kin).up

/-- The properties that a valid object defines. -/
def propdefsOf (db : Db) (oid : Objid) : List Propdef := ((db.find oid).map Object.propdefs).getD []

/-- The objects that `for (o = dbpriv_find_object(oid); o; o = dbpriv_find_object(o->parent))`
visits. -/
def lineage (db : Db) : Nat → Objid → Option (List Object)
  | 0, _ => none
  | n + 1, oid =>
    match db.find oid with
    | none => some []
    | some o => (db.lineage n o.parent).map (o :: ·)

variable {db db' : Db} {F : LinkFields} {oid : Objid} {o : Object}

theorem links_eq (h : db.find oid = some o) : db.links F oid = some (F.get o) := by simp [links, h]

theorem links_isSome : (db.links F oid).isSome = (db.find oid).isSome := by simp [links]

theorem exists_of_links {c : Linked.Cell Objid} (h : db.links F oid = some c) :
    ∃ o, db.find oid = some o ∧ F.get o = c := by simpa [links] using h

theorem links_nothing : db.links F NOTHING = none := by simp [links, find_nothing]

theorem parentOf_eq (h : db.find oid = some o) : db.parentOf oid = some o.parent :=
  Linked.Links.up_eq (links_eq h)

theorem exists_of_parentOf {p : Objid} (h : db.parentOf oid = some p) :
    ∃ o, db.find oid = some o ∧ o.parent = p := by
  obtain ⟨c, hc, rfl⟩ := Linked.Links.exists_of_up_eq h
  obtain ⟨o, ho, rfl⟩ := exists_of_links hc
  exact ⟨o, ho, rfl⟩

theorem propdefsOf_eq (h : db.find oid = some o) : db.propdefsOf oid = o.propdefs := by
  simp [propdefsOf, h]

theorem links_put (h : db.find oid = some o) {o' : Object} :
    (db.put oid o').links F = Function.update (db.links F) oid (some (F.get o')) := by
  funext x
  by_cases hx : x = oid
  · subst hx
    simp [links, find_put_self h]
  · simp [links, find_put_of_ne h hx, hx]

/-- The bound covers every list of distinct elements of a hierarchy. -/
theorem links_bound (db : Db) (F : LinkFields) (l : List Objid) (hnd : l.Nodup)
    (hl : ∀ y ∈ l, (db.links F y).isSome) : l.length < db.bound :=
  length_lt_of_nodup l hnd fun y hy => by rw [← links_isSome (F := F)]; exact hl y hy

/-- The ancestor loop visits the objects of the parent chain. -/
theorem lineage_eq {l : List Objid} (h : Linked.Chain db.parentOf NOTHING oid l) {n : Nat}
    (hn : l.length < n) :
    ∃ os, db.lineage n oid = some os ∧ List.Forall₂ (fun x o => db.find x = some o) l os := by
  induction h generalizing n with
  | done =>
    obtain ⟨n, rfl⟩ := Nat.exists_eq_add_of_lt hn
    exact ⟨[], by simp [lineage, find_nothing], .nil⟩
  | @step a b l hne hb h ih =>
    cases n with
    | zero => simp at hn
    | succ n =>
      obtain ⟨o, ho, rfl⟩ := exists_of_parentOf hb
      obtain ⟨os, hos, hall⟩ := ih (by simpa using hn)
      exact ⟨o :: os, by simp [lineage, ho, hos], .cons ho hall⟩

/-- An ancestor chain is short enough for the loops that walk it. -/
theorem chain_length_lt {l : List Objid} (h : Linked.Chain db.parentOf NOTHING oid l) :
    l.length < db.bound :=
  links_bound db kin l h.nodup fun y hy => by
    have := h.next_isSome_of_mem hy
    simpa [parentOf, Linked.Links.up, Option.isSome_map] using this

/-! ## Databases that differ in some fields only -/

/-- The databases agree on everything that `e` keeps of an object. -/
structure SameUpTo (e : Object → Object) (db db' : Db) : Prop where
  find : ∀ x, (db'.find x).map e = (db.find x).map e
  numObjects : db'.numObjects = db.numObjects
  allUsers : db'.allUsers = db.allUsers
  vcTable : db'.vcTable = db.vcTable
  nextPid : db.nextPid ≤ db'.nextPid

namespace SameUpTo

variable {e : Object → Object} {db db' db'' : Db} {x : Objid}

theorem refl (db : Db) : SameUpTo e db db := ⟨fun _ => rfl, rfl, rfl, rfl, Nat.le_refl _⟩

theorem trans (h : SameUpTo e db db') (h' : SameUpTo e db' db'') : SameUpTo e db db'' :=
  ⟨fun x => (h'.find x).trans (h.find x), h'.numObjects.trans h.numObjects,
    h'.allUsers.trans h.allUsers,
    h'.vcTable.trans h.vcTable, h.nextPid.trans h'.nextPid⟩

theorem bound (h : SameUpTo e db db') : db'.bound = db.bound := by
  rw [Db.bound, Db.bound, h.numObjects]

/-- What `e` keeps is the same in both. -/
theorem map_eq {β : Type} (h : SameUpTo e db db') (g : Object → β)
    (hg : ∀ o, g (e o) = g o) (x : Objid) :
    (db'.find x).map g = (db.find x).map g := by
  have := congrArg (Option.map g) (h.find x)
  simpa [Option.map_map, Function.comp_def, hg] using this

theorem isSome (h : SameUpTo e db db') (x : Objid) : (db'.find x).isSome = (db.find x).isSome := by
  have := congrArg Option.isSome (h.find x)
  simpa using this

theorem valid (h : SameUpTo e db db') (x : Objid) : db'.valid x = db.valid x := h.isSome x

theorem exists_find (h : SameUpTo e db db') {o : Object} (hx : db.find x = some o) :
    ∃ o', db'.find x = some o' ∧ e o' = e o := by
  have := h.find x
  rwa [hx, Option.map_some, Option.map_eq_some_iff] at this

theorem exists_find' (h : SameUpTo e db db') {o' : Object} (hx : db'.find x = some o') :
    ∃ o, db.find x = some o ∧ e o' = e o := by
  have := (h.find x).symm
  rw [hx, Option.map_some, Option.map_eq_some_iff] at this
  obtain ⟨o, ho, he⟩ := this
  exact ⟨o, ho, he.symm⟩

theorem put {o o' : Object} (hx : db.find x = some o) (he : e o' = e o) :
    SameUpTo e db (db.put x o') := by
  refine ⟨fun y => ?_, by simp, rfl, rfl, Nat.le_refl _⟩
  by_cases h : y = x
  · subst h
    rw [find_put_self hx, hx, Option.map_some, Option.map_some, he]
  · rw [find_put_of_ne hx h]

/-- Agreement on more fields is agreement on fewer. -/
theorem mono {e' : Object → Object} (h : SameUpTo e db db') (he : ∀ o, e' (e o) = e' o) :
    SameUpTo e' db db' :=
  ⟨fun x => h.map_eq e' he x, h.numObjects, h.allUsers, h.vcTable, h.nextPid⟩

theorem links (h : SameUpTo e db db') (F : LinkFields) (hF : ∀ o, F.get (e o) = F.get o) :
    db'.links F = db.links F :=
  funext (h.map_eq F.get hF)

theorem propdefsOf (h : SameUpTo e db db') (he : ∀ o, (e o).propdefs = o.propdefs) :
    db'.propdefsOf = db.propdefsOf :=
  funext fun x => by rw [Db.propdefsOf, h.map_eq Object.propdefs he x, Db.propdefsOf]

end SameUpTo

end Db

end NuMoo
