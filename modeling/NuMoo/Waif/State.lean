import NuMoo.Db.Builtins
import NuMoo.Waif.Bitmap

/-!
# Waifs and their classes

The data of `waif.c`: the waifs, the lists of `:` properties that waifs share with their class
objects, and how a waif is brought up to date with its class. The database keeps the text of a
property's name; the address of the name, by which the lists are compared, is kept beside it, as is
the pointer `waif_propdefs` of each object.

Strings, lists and waifs are named by their addresses. A list that a waif or an object points to is
not freed, so that no address here is used twice.

A function returns `none` where the source would crash.
-/

namespace NuMoo

/-- `WAIF_PROP_PREFIX`, a colon. -/
def WAIF_PROP_PREFIX : UInt8 := 58

/-- An entry of `WaifPropdefs`. -/
structure WaifPropdef where
  name : MooStr
  hash : UInt32
deriving DecidableEq, Repr

/-- `Waif`; the null pointers are `none`. -/
structure Waif where
  waifclass : Objid
  owner : Objid
  propdefs : Option Nat
  propvals : Option (List Var)
  map : PropMap

/-- The database with what `waif.c` adds to it: the address of each property's name by the ghost
number of the property, `waif_propdefs` of each object, the lists of properties and the waifs by
their addresses, and the next addresses. `text` is the string at an address and `waifBits` the bits
of the pointer to a waif. -/
structure Server where
  db : Db
  nameAddr : Nat → Nat
  waifPropdefs : Objid → Option Nat
  defs : Nat → Option (List WaifPropdef)
  nextDefs : Nat
  waifs : Nat → Option Waif
  nextWaif : Nat
  text : Nat → Str
  waifBits : Nat → UInt64

namespace Waif

/-- The values that the array of a waif holds. -/
def vals (w : Waif) : List Var := w.propvals.getD []

end Waif

namespace Server

/-! ## The properties of a class -/

/-- Does the name of a property start with the prefix? -/
def prefixed (name : Str) : Bool := name.headD 0 == WAIF_PROP_PREFIX

/-- The entries for the properties of one object. -/
def entriesOf (s : Server) (o : Object) : List WaifPropdef :=
  (o.propdefs.filter fun p => prefixed p.name).map fun p => ⟨⟨s.nameAddr p.pid, p.name⟩, p.hash⟩

/-- `gen_waif_propdefs`; the address of the new list comes with it. -/
def genWaifPropdefs (oid : Objid) (s : Server) : Option (Nat × Server) := do
  let os ← s.db.lineage s.db.bound oid
  some (s.nextDefs, { s with
    defs := Function.update s.defs s.nextDefs (some (os.flatMap s.entriesOf))
    waifPropdefs := Function.update s.waifPropdefs oid (some s.nextDefs)
    nextDefs := s.nextDefs + 1 })

/-- `waif_propdefs` of a class, generated if it is null. -/
def classPropdefs (oid : Objid) (s : Server) : Option (Nat × Server) :=
  match s.waifPropdefs oid with
  | some P => some (P, s)
  | none => s.genWaifPropdefs oid

/-- `o->waif_propdefs = NULL` -/
def clearPropdefs (oid : Objid) (s : Server) : Server :=
  { s with waifPropdefs := Function.update s.waifPropdefs oid none }

/-- `waif_rename_propdef` -/
def waifRenamePropdef (oid : Objid) (old newbie : MooStr) (s : Server) : Option Server :=
  if prefixed old.text ∧ prefixed newbie.text then do
    let P ← s.waifPropdefs oid
    let l ← s.defs P
    -- `none` is the panic that the old name is missing.
    let i ← l.findIdx? fun d => d.name.addr == old.addr
    some { s with defs := Function.update s.defs P (some (l.set i ⟨newbie, strHash newbie.text⟩)) }
  else some (s.clearPropdefs oid)

/-! ## The values of a waif -/

/-- The list that `propdefs` points to. -/
def propdefsOf (s : Server) (w : Waif) : Option (List WaifPropdef) := w.propdefs.bind s.defs

/-- `count_waif_propvals` -/
def countWaifPropvals (s : Server) (w : Waif) : Option Nat :=
  match w.propdefs with
  | none => some 0
  | some P => (s.defs P).map fun l => (l.length - N_MAPPABLE_PROPS) + countWords w.map WAIF_MAPSZ

/-- `alloc_waif_propvals`, with every value clear. -/
def allocWaifPropvals (s : Server) (w : Waif) : Option (Option (List Var)) :=
  (s.countWaifPropvals w).map fun cnt => if cnt = 0 then none else some (List.replicate cnt .clear)

/-- Is a value stored for the property with this index? -/
def stored (m : PropMap) (i : Nat) : Bool := decide (N_MAPPABLE_PROPS ≤ i) || propMapped m i

/-- Pass over the values of `n` properties from index `i` on. -/
def skipVals (m : PropMap) : Nat → Nat → List Var → Option (List Var)
  | 0, _, ov => some ov
  | n + 1, i, ov =>
    if stored m i then
      match ov with
      | [] => none
      | _ :: ov => skipVals m n (i + 1) ov
    else skipVals m n (i + 1) ov

/-- The loop of `update_waif_propdefs` over the old properties, of which the first has index `i`,
and the new ones: the values `xfer` of the new properties. -/
def transfer (m : PropMap) (old : List WaifPropdef) (i : Nat) :
    List WaifPropdef → List Var → Option (List Var)
  | [], ov => (skipVals m old.length i ov).map fun _ => []
  | b :: bs, ov =>
    match old.findIdx? fun a => a.name.addr == b.name.addr with
    | some k => do
      -- The properties before the one that was found have been deleted.
      match ← skipVals m k i ov, stored m (i + k) with
      | v :: ov, true => (transfer m (old.drop (k + 1)) (i + k + 1) bs ov).map (v :: ·)
      | [], true => none
      | ov, false => (transfer m (old.drop (k + 1)) (i + k + 1) bs ov).map (.clear :: ·)
    | none => (transfer m old i bs ov).map (.clear :: ·)

/-- The map of the values that are not clear, for the first `n` of them. -/
def packMap (xfer : List Var) : Nat → PropMap
  | 0 => fun _ => 0
  | n + 1 => if xfer.getD n .clear ≠ .clear then mapProp (packMap xfer n) n else packMap xfer n

/-- `update_waif_propdefs` on a waif that is not stored back. -/
def updatedWaif (w : Waif) (s : Server) : Option (Waif × Server) :=
  match s.db.find w.waifclass with
  | none =>
    -- The class is gone: the values are dropped, but the map is not cleared.
    (s.countWaifPropvals w).bind fun cnt =>
      if cnt ≤ w.vals.length then some ({ w with propdefs := none, propvals := none }, s) else none
  | some _ => do
    if w.propdefs = s.waifPropdefs w.waifclass then return (w, s)
    let (P, s) ← s.classPropdefs w.waifclass
    let old := s.propdefsOf w
    let new ← s.defs P
    let w := { w with propdefs := some P }
    match w.propvals with
    | none => return ({ w with propvals := ← s.allocWaifPropvals w }, s)
    | some ov =>
      let xfer ← transfer w.map (← old) 0 new ov
      let w := { w with map := packMap xfer (min xfer.length N_MAPPABLE_PROPS) }
      let kept := (xfer.take N_MAPPABLE_PROPS).filter (· ≠ .clear) ++ xfer.drop N_MAPPABLE_PROPS
      -- What is stored must fit the array that was allocated.
      match ← s.allocWaifPropvals w with
      | none => if kept = [] then some ({ w with propvals := none }, s) else none
      | some fresh =>
        if kept.length ≤ fresh.length then
          some ({ w with propvals := some (kept ++ fresh.drop kept.length) }, s)
        else none

/-- Store a waif at its address. -/
def putWaif (a : Nat) (w : Waif) (s : Server) : Server :=
  { s with waifs := Function.update s.waifs a (some w) }

/-- `update_waif_propdefs` -/
def updateWaifPropdefs (a : Nat) (s : Server) : Option Server := do
  let (w, s) ← updatedWaif (← s.waifs a) s
  some (s.putWaif a w)

end Server

end NuMoo
