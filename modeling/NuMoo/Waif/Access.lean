import NuMoo.Waif.State

/-!
# Access to waifs

Creating a waif, reading and storing its properties, and counting its bytes.

`refersTo` and `waifBytes` recurse through the waifs that a value contains; they take fuel for the
nesting of waifs in waifs and fail without it.
-/

namespace NuMoo

/-! ## Recursion over a value -/

mutual

/-- The body of `refers_to` for a waif as the key, whose pointer has the bits `keyBits`; `sub` is
what is done at another waif. A list or a string is never at the address of a waif. -/
def Var.refersTo (key : Nat) (keyBits : UInt64) (sub : Nat → Option Bool) : Var → Option Bool
  | .list l => Var.refersToAny key keyBits sub l
  | .waif a => if a = key then some true else sub a
  | .float bits => some (bits == keyBits)
  | .int _ | .obj _ | .str _ | .err _ | .clear | .none | .catch _ | .finally _ => some false

/-- The loop of `refers_to` over the elements of a list or the values of a waif. -/
def Var.refersToAny (key : Nat) (keyBits : UInt64) (sub : Nat → Option Bool) :
    List Var → Option Bool
  | [] => some false
  | v :: l =>
    (Var.refersTo key keyBits sub v).bind fun b => if b then some true
      else Var.refersToAny key keyBits sub l

end

section Bytes

variable {σ : Type} (sub : Nat → σ → Option (Nat × σ))

mutual

/-- `value_bytes`, where `sub` counts a waif. -/
def Var.valueBytes : Var → σ → Option (Nat × σ)
  | .str s, st => some (16 + s.length + 1, st)
  | .float _, st => some (16 + 8, st)
  | .list l, st => (Var.valuesBytes l st).map fun r => (16 + 16 + r.1, r.2)
  | .waif a, st => (sub a st).map fun r => (16 + r.1, r.2)
  | .int _, st | .obj _, st | .err _, st | .clear, st | .none, st | .catch _, st
    | .finally _, st => some (16, st)

/-- The loop of `value_bytes` over a list. -/
def Var.valuesBytes : List Var → σ → Option (Nat × σ)
  | [], st => some (0, st)
  | v :: l, st =>
    (Var.valueBytes v st).bind fun r => (Var.valuesBytes l r.2).map fun r' => (r.1 + r'.1, r'.2)

end

end Bytes

namespace Server

/-! ## Finding a value -/

/-- `find_propval_offset`: `none` inside is -2; otherwise the index among the properties, and the
offset among the values unless it is -1. -/
def findPropvalOffset (w : Waif) (name : Str) (s : Server) :
    Option (Option (Nat × Option Nat)) := do
  let l ← s.propdefsOf w
  match l.findIdx? fun d => d.hash == strHash name && mystrcasecmp d.name.text name == 0 with
  | none => return none
  | some i =>
    if N_MAPPABLE_PROPS ≤ i then
      return some (i, some (i - N_MAPPABLE_PROPS + countWords w.map WAIF_MAPSZ))
    else if !propMapped w.map i then return some (i, none)
    else if h : i / 32 < WAIF_MAPSZ then
      return some (i, some (countWords w.map (i / 32) + countPartial (w.map ⟨i / 32, h⟩) (i % 32)))
    else none

/-- `alloc_propval_offset`: the waif with a new clear value, and the offset of it. -/
def allocPropvalOffset (w : Waif) (idx : Nat) (s : Server) : Option (Waif × Nat) := do
  -- `none` is the panic that the index is already allocated.
  if propMapped w.map idx then none
  else
    let map := mapProp w.map idx
    let cnt ← s.countWaifPropvals { w with map }
    let newpv ← Packed.expand (propMapped map) idx .clear N_MAPPABLE_PROPS 0 w.vals
    -- Only as many values are copied as the new array has room for.
    if cnt ≤ newpv.length then
      some ({ w with map, propvals := some (newpv.take cnt) }, Packed.rank (propMapped map) idx)
    else none

/-! ## Properties -/

/-- "owner", "class" and "wizard" -/
def OWNER : Str := [111, 119, 110, 101, 114]
def CLASS : Str := [99, 108, 97, 115, 115]
def WIZARD : Str := [119, 105, 122, 97, 114, 100]

/-- The name of a property with the prefix. -/
def prefixedName (name : Str) : Str := WAIF_PROP_PREFIX :: name

/-- `waif_property_allows` -/
def waifPropertyAllows (w : Waif) (pv : Pval) (progr : Objid) (flag : UInt16) (s : Server) : Bool :=
  pv.perms &&& flag != 0 || (if pv.perms &&& PF_CHOWN ≠ 0 then w.owner else pv.owner) == progr ||
    s.db.isWizard progr

/-- The value at an offset, clear if there is none. -/
def valueAt (w : Waif) : Option Nat → Option Var
  | none => some .clear
  | some k => w.vals[k]?

/-- The handle of the property in the class, with the value: the class gives it if the waif's own is
clear. A null handle is a panic. -/
def classProperty (w : Waif) (name : Str) (own : Var) (s : Server) : Option (PropHandle × Var) :=
  if own = .clear then (s.db.dbFindPropertyValue w.waifclass name).join
  else (s.db.dbFindProperty w.waifclass name).join.map fun h => (h, own)

/-- `waif_get_prop` on a waif that has been updated. -/
def getProp (w : Waif) (name : Str) (progr : Objid) (s : Server) : Option (ErrCode × Var) := do
  if mystrcasecmp name OWNER = 0 then return (.E_NONE, .obj w.owner)
  if mystrcasecmp name CLASS = 0 then return (.E_NONE, .obj w.waifclass)
  if mystrcasecmp name WIZARD = 0 then return (.E_NONE, .int 0)
  if !s.db.valid w.waifclass then return (.E_INVIND, .none)
  let name := prefixedName name
  match ← s.findPropvalOffset w name with
  | none => return (.E_PROPNF, .none)
  | some (_, off) =>
    let (h, v) ← s.classProperty w name (← valueAt w off)
    match h with
    | .builtIn _ _ => none
    | .slot _ _ _ =>
      if s.waifPropertyAllows w (← s.db.slot h) progr PF_READ then return (.E_NONE, v)
      else return (.E_PERM, .none)

/-- `waif_get_prop` -/
def waifGetProp (a : Nat) (name : Str) (progr : Objid) (s : Server) :
    Option (ErrCode × Var × Server) := do
  let s ← s.updateWaifPropdefs a
  let (err, v) ← s.getProp (← s.waifs a) name progr
  some (err, v, s)

/-- The loop of `refers_to` over the values of a waif. -/
def refersToVals (key : Nat) (s : Server) : Nat → Nat → Option Bool
  | 0, _ => none
  | fuel + 1, a => do
    let w ← s.waifs a
    let cnt ← s.countWaifPropvals w
    if cnt ≤ w.vals.length then
      Var.refersToAny key (s.waifBits key) (s.refersToVals key fuel) (w.vals.take cnt)
    else none

/-- `refers_to` -/
def refersTo (target : Var) (key : Nat) (s : Server) : Option Bool :=
  target.refersTo key (s.waifBits key) (s.refersToVals key (s.nextWaif + 1))

/-- The waif with a slot for a property, and the offset of the slot. -/
def destOffset (w : Waif) (idx : Nat) (off : Option Nat) (s : Server) : Option (Waif × Nat) :=
  match off with
  | some k => some (w, k)
  | none => s.allocPropvalOffset w idx

/-- `waif_put_prop` on a waif that has been updated. -/
def putProp (a : Nat) (w : Waif) (name : Str) (val : Var) (progr : Objid) (s : Server) :
    Option (ErrCode × Server) := do
  if mystrcasecmp name OWNER = 0 ∨ mystrcasecmp name CLASS = 0 then return (.E_PERM, s)
  if mystrcasecmp name WIZARD = 0 then return (.E_PERM, s)
  if !s.db.valid w.waifclass then return (.E_INVIND, s)
  let name := prefixedName name
  match ← s.findPropvalOffset w name with
  | none => return (.E_PROPNF, s)
  | some (idx, off) =>
    match ← s.db.dbFindProperty w.waifclass name with
    | none => none
    | some (.builtIn _ _) => none
    | some h =>
      if !s.waifPropertyAllows w (← s.db.slot h) progr PF_WRITE then return (.E_PERM, s)
      if ← s.refersTo val a then return (.E_RECMOVE, s)
      let (w, k) ← s.destOffset w idx off
      if k < w.vals.length then
        return (.E_NONE, s.putWaif a { w with propvals := some (w.vals.set k val) }) else none

/-- `waif_put_prop` -/
def waifPutProp (a : Nat) (name : Str) (val : Var) (progr : Objid) (s : Server) :
    Option (ErrCode × Server) := do
  let s ← s.updateWaifPropdefs a
  s.putProp a (← s.waifs a) name val progr

/-- `waif_bytes`: the values are counted from the last to the first. While they are, only other
waifs change. -/
def waifBytes : Nat → Nat → Server → Option (Nat × Server)
  | 0, _, _ => none
  | fuel + 1, a, s => do
    let s ← s.updateWaifPropdefs a
    let w ← s.waifs a
    let cnt ← s.countWaifPropvals w
    if cnt ≤ w.vals.length then
      (Var.valuesBytes (waifBytes fuel) (w.vals.take cnt).reverse s).map fun r => (56 + r.1, r.2)
    else none

/-! ## Creation -/

/-- `new_waif`; `none` is the panic for an invalid class. -/
def newWaif (waifclass owner : Objid) (s : Server) : Option (Nat × Server) := do
  let _ ← s.db.find waifclass
  let (P, s) ← s.classPropdefs waifclass
  let w : Waif := ⟨waifclass, owner, some P, none, fun _ => 0⟩
  let propvals ← s.allocWaifPropvals w
  some (s.nextWaif, { s.putWaif s.nextWaif { w with propvals } with nextWaif := s.nextWaif + 1 })

/-- `bf_new_waif` -/
def bfNewWaif (caller progr : Objid) (s : Server) : Option (Except ErrCode Nat × Server) :=
  if !s.db.valid caller then some (.error .E_INVIND, s)
  else (s.newWaif caller progr).map fun r => (.ok r.1, r.2)

end Server

end NuMoo
