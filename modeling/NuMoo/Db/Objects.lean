import NuMoo.Db.State

/-!
# Operations on the object table

The functions of `db_objects.c` that create, destroy, move and renumber objects,
over the hierarchy that `LinkFields` selects. A function that changes the
database returns the new one.
-/

namespace NuMoo

/-! ## Flags and users -/

/-- `db_object_flag`, the bit number of each flag. -/
inductive ObjectFlag where
  | FLAG_USER | FLAG_PROGRAMMER | FLAG_WIZARD | FLAG_READ | FLAG_WRITE | FLAG_FERTILE
deriving DecidableEq, Repr

/-- `1 << f` -/
def ObjectFlag.mask : ObjectFlag → UInt32
  | FLAG_USER => (1 : UInt32) <<< 0
  | FLAG_PROGRAMMER => (1 : UInt32) <<< 1
  | FLAG_WIZARD => (1 : UInt32) <<< 2
  | FLAG_READ => (1 : UInt32) <<< 4
  | FLAG_WRITE => (1 : UInt32) <<< 5
  | FLAG_FERTILE => (1 : UInt32) <<< 7

/-- `setadd` on a list of object numbers. -/
def setadd (l : List Objid) (v : Objid) : List Objid := if v ∈ l then l else l ++ [v]

/-- `setremove` on a list of object numbers. -/
def setremove (l : List Objid) (v : Objid) : List Objid := l.erase v

namespace Db

/-- `db_object_has_flag` -/
def dbObjectHasFlag (db : Db) (oid : Objid) (f : ObjectFlag) : Option Bool :=
  (db.find oid).map fun o => o.flags &&& f.mask != 0

/-- A flag of an object that may be invalid: `is_wizard`, `is_programmer` and `is_user`. -/
def validWithFlag (db : Db) (oid : Objid) (f : ObjectFlag) : Bool :=
  (db.dbObjectHasFlag oid f).getD false

def isWizard (db : Db) (oid : Objid) : Bool := db.validWithFlag oid .FLAG_WIZARD
def isUser (db : Db) (oid : Objid) : Bool := db.validWithFlag oid .FLAG_USER

/-- `db_object_allows` -/
def dbObjectAllows (db : Db) (oid progr : Objid) (f : ObjectFlag) : Option Bool := do
  let o ← db.find oid
  let has ← db.dbObjectHasFlag oid f
  some (progr == o.owner || db.isWizard progr || has)

/-- `controls` of objects.c -/
def controls (db : Db) (who what : Objid) : Option Bool :=
  (db.find what).map fun o => db.isWizard who || who == o.owner

/-- `db_set_object_owner` -/
def dbSetObjectOwner (oid owner : Objid) (db : Db) : Option Db :=
  db.modify oid fun o => { o with owner }

/-- `db_set_object_name` -/
def dbSetObjectName (oid : Objid) (name : Str) (db : Db) : Option Db :=
  db.modify oid fun o => { o with name }

/-- `db_set_object_flag` -/
def dbSetObjectFlag (oid : Objid) (f : ObjectFlag) (db : Db) : Option Db := do
  let db ← db.modify oid fun o => { o with flags := o.flags ||| f.mask }
  some (if f = .FLAG_USER then { db with allUsers := setadd db.allUsers oid } else db)

/-- `db_clear_object_flag` -/
def dbClearObjectFlag (oid : Objid) (f : ObjectFlag) (db : Db) : Option Db := do
  let db ← db.modify oid fun o => { o with flags := o.flags &&& ~~~f.mask }
  some (if f = .FLAG_USER then { db with allUsers := setremove db.allUsers oid } else db)

/-- `db_priv_affected_callable_verb_lookup`: empty every bucket of the verb cache. -/
def affectedCallableVerbLookup (db : Db) : Db :=
  match db.vcTable with
  | none => db
  | some _ => { db with vcTable := some fun _ => [] }

/-! ## Creation and destruction -/

/-- `objects[oid] = 0` -/
def clearEntry (db : Db) (oid : Objid) : Db :=
  { db with objects := db.objects.set oid.toNat none }

/-- `db_create_object`; `owner` is what the fresh memory holds, as no owner is set. -/
def dbCreateObject (owner : Objid) (db : Db) : Objid × Db :=
  let oid : Objid := db.numObjects
  let o : Object :=
    { id := oid, owner, location := NOTHING, contents := NOTHING, next := NOTHING,
      parent := NOTHING, child := NOTHING, sibling := NOTHING, name := [], flags := 0,
      verbdefs := [], propdefs := [], propval := [] }
  (oid, { db with objects := db.objects ++ [some o] })

/-- `db_destroy_object` -/
def dbDestroyObject (oid : Objid) (db : Db) : Option Db := do
  let db := db.affectedCallableVerbLookup
  let o ← db.find oid
  if o.location ≠ NOTHING ∨ o.contents ≠ NOTHING ∨ o.parent ≠ NOTHING ∨ o.child ≠ NOTHING then none
  else
    let db := if db.isUser oid then { db with allUsers := setremove db.allUsers oid } else db
    -- The loop frees one slot for each definition.
    if o.propdefs.length ≤ o.propval.length then some (db.clearEntry oid) else none

/-- `db_reset_last_used_objid`: fails at `objects[-1]` when no object is left. -/
def dbResetLastUsedObjid (db : Db) : Option Db :=
  match db.objects.reverse.dropWhile Option.isNone with
  | [] => none
  | o :: os => some { db with objects := (o :: os).reverse }

/-! ## Intrusive lists -/

section Lists

variable (F : LinkFields)

def setUp (oid v : Objid) (db : Db) : Option Db :=
  db.modify oid fun o => F.set { F.get o with up := v } o

def setHead (oid v : Objid) (db : Db) : Option Db :=
  db.modify oid fun o => F.set { F.get o with head := v } o

def setNext (oid v : Objid) (db : Db) : Option Db :=
  db.modify oid fun o => F.set { F.get o with next := v } o

/-- `LL_REMOVE(where, listname, what, nextname)` -/
def llRemove (where_ what : Objid) (db : Db) : Option Db := do
  let w ← db.find where_
  let x ← db.find what
  if (F.get w).head = what then
    let db ← db.setHead F where_ (F.get x).next
    db.setNext F what NOTHING
  else
    match ← Linked.findPrev (db.links F).next NOTHING what db.bound (F.get w).head with
    | some lid =>
      let db ← db.setNext F lid (F.get x).next
      db.setNext F what NOTHING
    | none => db.setNext F what NOTHING

/-- `LL_APPEND(where, listname, what, nextname)` -/
def llAppend (where_ what : Objid) (db : Db) : Option Db := do
  let w ← db.find where_
  if (F.get w).head = NOTHING then
    let db ← db.setHead F where_ what
    db.setNext F what NOTHING
  else
    let lid ← Linked.findLast (db.links F).next NOTHING db.bound (F.get w).head
    let db ← db.setNext F lid what
    db.setNext F what NOTHING

/-- The rewriting of the one link to `old` on the list of `parent`. -/
def renumberOnList (old newbie parent : Objid) (db : Db) : Option Db := do
  let p ← db.find parent
  if (F.get p).head = old then db.setHead F parent newbie
  else
    -- `none` inside is the panic: the object is not on its parent's list.
    match ← Linked.findPrev (db.links F).next NOTHING old db.bound (F.get p).head with
    | some oid => db.setNext F oid newbie
    | none => none

/-- One of the two blocks of `db_renumber_object` that rewrite the links to `old`. -/
def renumberLinks (old newbie : Objid) (db : Db) : Option Db := do
  let o ← db.find newbie
  let db ← (if (F.get o).up ≠ NOTHING then db.renumberOnList F old newbie (F.get o).up else some db)
  let o ← db.find newbie
  Linked.forChain (fun db => (db.links F).next) NOTHING (fun oid db => db.setUp F oid newbie)
    db.bound (F.get o).head db

end Lists

/-- `db_change_location` -/
def dbChangeLocation (oid location : Objid) (db : Db) : Option Db := do
  let o ← db.find oid
  let oldLocation := o.location
  let db ← (if db.valid oldLocation then db.llRemove place oldLocation oid else some db)
  let db ← (if db.valid location then db.llAppend place location oid else some db)
  db.setUp place oid location

/-! ## Renumbering -/

/-- `dbpriv_count_properties` -/
def dbprivCountProperties (oid : Objid) (db : Db) : Option Nat :=
  (db.lineage db.bound oid).map fun os => (os.map fun o => o.propdefs.length).sum

/-- The owner that replaces `owner` when `old` becomes `newbie`, a number that was not in use. -/
def renumberOwner (old newbie owner : Objid) : Objid :=
  if owner = newbie then NOTHING else if owner = old then newbie else owner

/-- The body of the loop of `db_renumber_object` over all objects. -/
def renumberOwners (old newbie oid : Objid) (db : Db) : Option Db :=
  match db.find oid with
  | none => some db
  | some o => do
    let count ← db.dbprivCountProperties oid
    if count ≤ o.propval.length then
      let fix := renumberOwner old newbie
      some (db.put oid { o with
        owner := fix o.owner
        verbdefs := o.verbdefs.map fun v => { v with owner := fix v.owner }
        propval := ((o.propval.take count).map fun p => { p with owner := fix p.owner }) ++
          o.propval.drop count })
    else none

/-- `db_renumber_object` -/
def dbRenumberObject (old : Objid) (db : Db) : Option (Objid × Db) := do
  let db := db.affectedCallableVerbLookup
  match (List.range old.toNat).find? fun (n : Nat) => (db.find n).isNone with
  | none => some (old, db)
  | some n =>
    let newbie : Objid := n
    -- Change the identity of the object.
    let o ← db.find old
    let db := (db.put newbie { o with id := newbie }).clearEntry old
    let db ← db.renumberLinks kin old newbie
    let db ← db.renumberLinks place old newbie
    let db :=
      if db.isUser newbie then { db with allUsers := db.allUsers.replace old newbie } else db
    let db ← (List.range db.numObjects).foldlM (fun db (n : Nat) =>
      db.renumberOwners old newbie n) db
    some (newbie, db)

end Db

end NuMoo
