import NuMoo.Db.Objects

/-!
# Operations on properties

The functions of `db_properties.c`, and `db_change_parent` with the layout
surgery that it starts. The slots of an object stand in the order of the
definitions of its ancestors, its own first.
-/

namespace NuMoo

/-- `enum bi_prop` without `BP_NONE`. -/
inductive BiProp where
  | BP_NAME | BP_OWNER | BP_PROGRAMMER | BP_WIZARD | BP_R | BP_W | BP_F | BP_LOCATION | BP_CONTENTS
deriving DecidableEq, Repr

/-- `ptable` of `db_find_property`; the text of each name is in ASCII. -/
def ptable : List (Str × BiProp) :=
  [([110, 97, 109, 101], .BP_NAME),
   ([111, 119, 110, 101, 114], .BP_OWNER),
   ([112, 114, 111, 103, 114, 97, 109, 109, 101, 114], .BP_PROGRAMMER),
   ([119, 105, 122, 97, 114, 100], .BP_WIZARD),
   ([114], .BP_R),
   ([119], .BP_W),
   ([102], .BP_F),
   ([108, 111, 99, 97, 116, 105, 111, 110], .BP_LOCATION),
   ([99, 111, 110, 116, 101, 110, 116, 115], .BP_CONTENTS)]

/-- A non-null `db_prop_handle`: a built-in property of an object, or the `n`-th slot of
`oid` for a property that `definer` defines. -/
inductive PropHandle where
  | builtIn (prop : BiProp) (oid : Objid)
  | slot (definer oid : Objid) (n : Nat)
deriving DecidableEq, Repr

/-- The test by which every search for a property compares a definition. -/
def Propdef.matches (p : Propdef) (hash : UInt32) (pname : Str) : Bool :=
  p.hash == hash && mystrcasecmp p.name pname == 0

/-- The entries `start`, …, `start + len - 1` of an array, read one by one. -/
def readSlots (a : List Pval) (start len : Nat) : Option (List Pval) :=
  (List.range len).mapM fun i => a[start + i]?

/-- `is_true` -/
def isTrue : Var → Bool
  | .int num => num != 0
  | .float bits => bits != 0 && bits != 0x8000000000000000
  | .str s => s.headD 0 != 0
  | .list l => !l.isEmpty
  | .obj _ | .err _ | .clear | .none | .catch _ | .finally _ | .waif _ => false

namespace Db

/-- `property_defined_at_or_below` -/
def propertyDefinedAtOrBelow (pname : Str) (phash : UInt32) (oid : Objid) (db : Db) : Option Bool :=
  Linked.existsBelow (db.links kin) NOTHING
    (fun oid => (db.find oid).map fun o => o.propdefs.any fun p => p.matches phash pname)
    db.bound db.bound oid

/-! ## Searching -/

/-- The search of `db_find_property` over the objects of the ancestor loop; `n` counts
the slots that are passed. -/
def searchProps (hash : UInt32) (name : Str) (oid : Objid) : List Object → Nat → Option PropHandle
  | [], _ => none
  | o :: os, n =>
    match o.propdefs.findIdx? fun p => p.matches hash name with
    | some i => some (.slot o.id oid (n + i))
    | none => searchProps hash name oid os (n + o.propdefs.length)

/-- `db_find_property` with a null `value`; the inner `none` is the null handle. -/
def dbFindProperty (oid : Objid) (name : Str) (db : Db) : Option (Option PropHandle) :=
  let hash := strHash name
  match ptable.find? fun e => strHash e.1 == hash && mystrcasecmp name e.1 == 0 with
  | some e => some (some (.builtIn e.2 oid))
  | none => (db.lineage db.bound oid).map fun os => searchProps hash name oid os 0

/-- The loop of `db_find_property` that passes over clear slots: `n` is the index of the
slot in `oid`. It fails when a slot is read outside its array. -/
def resolveClear (db : Db) : Nat → Objid → Nat → Option Var
  | 0, _, _ => none
  | fuel + 1, oid, n => do
    let o ← db.find oid
    let prop ← o.propval[n]?
    if prop.var = .clear then
      if o.propdefs.length ≤ n then db.resolveClear fuel o.parent (n - o.propdefs.length) else none
    else some prop.var

/-- `get_bi_value` -/
def getBiValue (prop : BiProp) (oid : Objid) (db : Db) : Option Var := do
  let o ← db.find oid
  let flag (f : ObjectFlag) := (db.dbObjectHasFlag oid f).map fun b => Var.int (if b then 1 else 0)
  match prop with
  | .BP_NAME => some (.str o.name)
  | .BP_OWNER => some (.obj o.owner)
  | .BP_PROGRAMMER => flag .FLAG_PROGRAMMER
  | .BP_WIZARD => flag .FLAG_WIZARD
  | .BP_R => flag .FLAG_READ
  | .BP_W => flag .FLAG_WRITE
  | .BP_F => flag .FLAG_FERTILE
  | .BP_LOCATION => some (.obj o.location)
  | .BP_CONTENTS =>
    (Linked.forChain (fun _ => (db.links place).next) NOTHING (fun c l =>
      some (l ++ [Var.obj c])) db.bound
      o.contents []).map Var.list

/-- `db_find_property` with a place for the value. -/
def dbFindPropertyValue (oid : Objid) (name : Str) (db : Db) :
    Option (Option (PropHandle × Var)) := do
  match ← db.dbFindProperty oid name with
  | none => some none
  | some (.builtIn prop oid) => (db.getBiValue prop oid).map fun v => some (.builtIn prop oid, v)
  | some (.slot definer oid n) =>
    (db.resolveClear db.bound oid n).map fun v => some (.slot definer oid n, v)

/-! ## Adding, renaming and deleting -/

/-- `insert_prop` -/
def insertProp (oid : Objid) (pos : Nat) (pval : Pval) (db : Db) : Option Db := do
  let nprops ← db.dbprivCountProperties oid
  let o ← db.find oid
  let before ← readSlots o.propval 0 pos
  let pval := if pval.perms &&& PF_CHOWN ≠ 0 then { pval with owner := o.owner } else pval
  let after ← readSlots o.propval pos (nprops - (pos + 1))
  -- The new array has room for `nprops` slots.
  if pos < nprops then some (db.put oid { o with propval := before ++ pval :: after }) else none

/-- `insert_prop_recursively`: the slots below `root` are clear. -/
def insertPropRecursively (root : Objid) (rootPos : Nat) (pv : Pval) (db : Db) : Option Db :=
  Linked.visit (fun db => db.links kin) NOTHING (fun oid (b : Nat × Pval) => insertProp oid b.1 b.2)
    (fun db _ c b => (db.find c).map fun o => (o.propdefs.length + b.1, { b.2 with var := .clear }))
    db.bound db.bound root (rootPos, pv) db

/-- `db_add_propdef` -/
def dbAddPropdef (oid : Objid) (pname : Str) (value : Var) (owner : Objid)
    (flags : UInt16) (db : Db) :
    Option (Bool × Db) := do
  let h ← db.dbFindProperty oid pname
  if h.isSome then return (false, db)
  if ← db.propertyDefinedAtOrBelow pname (strHash pname) oid then return (false, db)
  let o ← db.find oid
  let newProp : Propdef := { name := pname, hash := strHash pname, pid := db.nextPid }
  let pval : Pval := { var := value, owner, perms := flags, pid := db.nextPid }
  let propdefs := o.propdefs ++ [newProp]
  let db := { db.put oid { o with propdefs } with nextPid := db.nextPid + 1 }
  let db ← db.insertPropRecursively oid (propdefs.length - 1) pval
  return (true, db)

/-- `db_rename_propdef` -/
def dbRenamePropdef (oid : Objid) (old newbie : Str) (db : Db) : Option (Bool × Db) := do
  let o ← db.find oid
  match o.propdefs.findIdx? fun p => p.matches (strHash old) old with
  | none => return (false, db)
  | some i => do
    if mystrcasecmp old newbie ≠ 0 then
      let h ← db.dbFindProperty oid newbie
      if h.isSome then return (false, db)
      if ← db.propertyDefinedAtOrBelow newbie (strHash newbie) oid then return (false, db)
    return (true, db.put oid { o with
      propdefs := o.propdefs.modify i fun p => { p with name := newbie, hash := strHash newbie } })

/-- `remove_prop` -/
def removeProp (oid : Objid) (pos : Nat) (db : Db) : Option Db := do
  let o ← db.find oid
  let nprops ← db.dbprivCountProperties oid
  let _ ← o.propval[pos]?
  if nprops ≠ 0 then
    let before ← readSlots o.propval 0 pos
    let after ← readSlots o.propval (pos + 1) (nprops - pos)
    -- The new array has room for `nprops` slots.
    if pos ≤ nprops then some (db.put oid { o with propval := before ++ after }) else none
  else some (db.put oid { o with propval := [] })

/-- `remove_prop_recursively` -/
def removePropRecursively (root : Objid) (rootPos : Nat) (db : Db) : Option Db :=
  Linked.visit (fun db => db.links kin) NOTHING (fun oid pos => removeProp oid pos)
    (fun db _ c pos => (db.find c).map fun o => o.propdefs.length + pos) db.bound
      db.bound root rootPos db

/-- `db_delete_propdef` -/
def dbDeletePropdef (oid : Objid) (pname : Str) (db : Db) : Option (Bool × Db) := do
  let o ← db.find oid
  match o.propdefs.findIdx? fun p => p.matches (strHash pname) pname with
  | none => return (false, db)
  | some i =>
    let db := db.put oid { o with propdefs := o.propdefs.eraseIdx i }
    let db ← db.removePropRecursively oid i
    return (true, db)

/-! ## Changing the slot of a handle -/

/-- Store through the pointer of a slot handle. -/
def modifySlot (oid : Objid) (n : Nat) (f : Pval → Pval) (db : Db) : Option Db := do
  let o ← db.find oid
  let _ ← o.propval[n]?
  some (db.put oid { o with propval := o.propval.modify n f })

/-- `db_set_property_value`; for a built-in property the value must suit it. -/
def dbSetPropertyValue (h : PropHandle) (value : Var) (db : Db) : Option Db :=
  let finishFlag (oid : Objid) (f : ObjectFlag) :=
    if isTrue value then db.dbSetObjectFlag oid f else db.dbClearObjectFlag oid f
  match h with
  | .slot _ oid n => db.modifySlot oid n fun p => { p with var := value }
  | .builtIn .BP_NAME oid => match value with
    | .str s => db.dbSetObjectName oid s
    | _ => none
  | .builtIn .BP_OWNER oid => match value with
    | .obj v => db.dbSetObjectOwner oid v
    | _ => none
  | .builtIn .BP_PROGRAMMER oid => finishFlag oid .FLAG_PROGRAMMER
  | .builtIn .BP_WIZARD oid => finishFlag oid .FLAG_WIZARD
  | .builtIn .BP_R oid => finishFlag oid .FLAG_READ
  | .builtIn .BP_W oid => finishFlag oid .FLAG_WRITE
  | .builtIn .BP_F oid => finishFlag oid .FLAG_FERTILE
  | .builtIn .BP_LOCATION _ => none
  | .builtIn .BP_CONTENTS _ => none

/-- `db_set_property_owner` -/
def dbSetPropertyOwner (h : PropHandle) (owner : Objid) (db : Db) : Option Db :=
  match h with
  | .slot _ oid n => db.modifySlot oid n fun p => { p with owner }
  | .builtIn _ _ => none

/-- `db_set_property_flags` -/
def dbSetPropertyFlags (h : PropHandle) (perms : UInt16) (db : Db) : Option Db :=
  match h with
  | .slot _ oid n => db.modifySlot oid n fun p => { p with perms }
  | .builtIn _ _ => none

/-- The slot that a handle refers to. -/
def slot (h : PropHandle) (db : Db) : Option Pval :=
  match h with
  | .slot _ oid n => (db.find oid).bind fun o => o.propval[n]?
  | .builtIn _ _ => none

/-! ## Reparenting -/

/-- `fix_props` at one object: the slots of its own line, `newbie` clear slots from its
parent, and the slots that both parents had in common. -/
def fixPropsAt (old newbie common : Nat) (oid : Objid) (parentLocal : Nat) (db : Db) :
    Option Db := do
  let me ← db.find oid
  let loc := parentLocal + me.propdefs.length
  let _ ← readSlots me.propval loc old
  let ownSlots ← readSlots me.propval 0 loc
  let newSlots ←
    (if newbie = 0 then some []
    else (db.find me.parent).bind fun parent => readSlots parent.propval parentLocal newbie)
  let newSlots := newSlots.map fun pv =>
    { pv with var := .clear, owner := if pv.perms &&& PF_CHOWN ≠ 0 then me.owner else pv.owner }
  let commonSlots ← readSlots me.propval (loc + old) common
  some (db.put oid { me with propval := ownSlots ++ newSlots ++ commonSlots })

/-- `fix_props` -/
def fixProps (oid : Objid) (parentLocal old newbie common : Nat) (db : Db) : Option Db :=
  Linked.visit (fun db => db.links kin) NOTHING (fixPropsAt old newbie common)
    (fun db oid _ parentLocal => (db.find oid).map fun me => parentLocal + me.propdefs.length)
    db.bound db.bound oid parentLocal db

/-- `dbpriv_check_properties_for_chparent` -/
def dbprivCheckPropertiesForChparent (oid newParent : Objid) (db : Db) : Option Bool := do
  let os ← db.lineage db.bound newParent
  let clash ← (os.flatMap Object.propdefs).anyM fun p =>
    db.propertyDefinedAtOrBelow p.name p.hash oid
  some (!clash)

/-- The nested loops that find the nearest common ancestor of `newParent` and
`oldParent`, or `NOTHING`. -/
def commonAncestor (newParent oldParent : Objid) (db : Db) : Option Objid :=
  (Linked.firstChain db.parentOf NOTHING
    (fun o1 => Linked.anyChain db.parentOf NOTHING (fun o2 => some (o1 == o2)) db.bound oldParent)
    db.bound newParent).map fun o => o.getD NOTHING

/-- `dbpriv_fix_properties_after_chparent` -/
def dbprivFixPropertiesAfterChparent (oid oldParent : Objid) (db : Db) : Option Db := do
  let newParent := (← db.find oid).parent
  let common ← db.commonAncestor newParent oldParent
  let commonProps ← (if common ≠ NOTHING then db.dbprivCountProperties common else some 0)
  let oldProps := (← db.dbprivCountProperties oldParent) - commonProps
  let newProps := (← db.dbprivCountProperties newParent) - commonProps
  db.fixProps oid 0 oldProps newProps commonProps

/-- `db_change_parent` -/
def dbChangeParent (oid parent : Objid) (db : Db) : Option (Bool × Db) := do
  if !(← db.dbprivCheckPropertiesForChparent oid parent) then return (false, db)
  let o ← db.find oid
  let db := if o.child = NOTHING ∧ o.verbdefs = [] then db else db.affectedCallableVerbLookup
  let oldParent := o.parent
  let db ← (if oldParent ≠ NOTHING then db.llRemove kin oldParent oid else some db)
  let db ← (if parent ≠ NOTHING then db.llAppend kin parent oid else some db)
  let db ← db.setUp kin oid parent
  let db ← db.dbprivFixPropertiesAfterChparent oid oldParent
  return (true, db)

end Db

end NuMoo
