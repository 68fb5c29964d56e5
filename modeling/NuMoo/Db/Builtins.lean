import NuMoo.Db.Properties
import NuMoo.Db.Verbs

/-!
# Built-in functions and the runs of the database

The built-in functions of `objects.c`, `property.c` and `server.c` that change the
hierarchies and the property layout. A function that calls a verb returns a frame
and is resumed when the verb returns, after any other operations.

`Act` lists every operation and `run` performs it on a state: the database and the
frames that wait for a verb. `Act.Allowed` is what the callers of an operation
check.
-/

namespace NuMoo

/-- The verbs that built-in functions call. -/
inductive CalledVerb where
  | accept | exitfunc | enterfunc | recycle | initializer
deriving DecidableEq, Repr

/-- What `call_verb` returns for a receiver and a verb name: `E_NONE` when a call has begun. -/
abbrev CallVerb := Objid → CalledVerb → ErrCode

/-- The values of `next` with which `do_move` is resumed: 2, 3 and 4. -/
inductive MoveNext where
  | fromAccept | fromExitfunc | fromEnterfunc
deriving DecidableEq, Repr

/-- A built-in function that waits for a verb to return, with the data it has saved. -/
inductive Frame where
  | create (oid : Objid)
  | move (what dest progr : Objid) (next : MoveNext)
  | recycle (oid progr : Objid)
deriving DecidableEq, Repr

/-- `package` -/
inductive Package where
  | error (e : ErrCode)
  | value (v : Var)
  | noVar
  | call (frame : Frame)
deriving Repr

namespace Db

/-! ## create -/

/-- `bf_create` up to the call of its verb; `junk` is the owner in fresh memory. -/
def bfCreate (parent : Objid) (owner : Option Objid) (progr junk : Objid)
    (call : CallVerb) (db : Db) :
    Option (Package × Db) := do
  let owner := owner.getD progr
  let refused ←
    (if db.valid parent then (db.dbObjectAllows parent progr .FLAG_FERTILE).map not
    else some (parent != NOTHING))
  if refused || (owner != progr && !db.isWizard progr) then return (.error .E_PERM, db)
  let (oid, db) := db.dbCreateObject junk
  let db ← db.dbSetObjectName oid []
  let db ← db.dbSetObjectOwner oid (if owner = NOTHING then oid else owner)
  let (_, db) ← db.dbChangeParent oid parent
  match call oid .initializer with
  | .E_NONE => return (.call (.create oid), db)
  | .E_MAXREC => return (.error .E_MAXREC, db)
  | _ => return (.value (.obj oid), db)

/-! ## chparent -/

/-- `bf_chparent` -/
def bfChparent (what parent progr : Objid) (db : Db) : Option (Package × Db) := do
  if !db.valid what || (!db.valid parent && parent != NOTHING) then return (.error .E_INVARG, db)
  let mayChange ← db.controls progr what
  let mayUse ← (if db.valid parent then db.dbObjectAllows parent progr .FLAG_FERTILE else some true)
  if !mayChange || !mayUse then return (.error .E_PERM, db)
  if ← Linked.anyChain db.parentOf NOTHING (fun oid => some (oid == what)) db.bound parent then
    return (.error .E_RECMOVE, db)
  let (changed, db) ← db.dbChangeParent what parent
  return (if changed then .noVar else .error .E_INVARG, db)

/-! ## move -/

/-- `do_move` from `case 3`. -/
def doMove3 (what dest progr : Objid) (call : CallVerb) (db : Db) : Option (Package × Db) := do
  if db.valid dest && db.valid what then
    let o ← db.find what
    if o.location = dest then
      match call dest .enterfunc with
      | .E_NONE => return (.call (.move what dest progr .fromEnterfunc), db)
      | .E_MAXREC => return (.error .E_MAXREC, db)
      | _ => return (.noVar, db)
  return (.noVar, db)

/-- `do_move` from `accepts_decided`. -/
def doMove2 (what dest progr : Objid) (accepts : Bool) (call : CallVerb) (db : Db) :
    Option (Package × Db) := do
  if !db.isWizard progr && !accepts then return (.error .E_NACC, db)
  if !db.valid what || (dest != NOTHING && !db.valid dest) then return (.noVar, db)
  let o ← db.find what
  if o.location = dest then return (.noVar, db)
  if ← Linked.anyChain (db.links place).up NOTHING (fun oid => some (oid == what))
    db.bound dest then
    return (.error .E_RECMOVE, db)
  let oldloc := o.location
  let db ← db.dbChangeLocation what dest
  match call oldloc .exitfunc with
  | .E_NONE => return (.call (.move what dest progr .fromExitfunc), db)
  | .E_MAXREC => return (.error .E_MAXREC, db)
  | _ => db.doMove3 what dest progr call

/-- `do_move` from `case 1`. -/
def doMove1 (what dest progr : Objid) (call : CallVerb) (db : Db) : Option (Package × Db) := do
  if !db.valid what || (!db.valid dest && dest != NOTHING) then return (.error .E_INVARG, db)
  if !(← db.controls progr what) then return (.error .E_PERM, db)
  if dest = NOTHING then db.doMove2 what dest progr true call
  else
    match call dest .accept with
    | .E_NONE => return (.call (.move what dest progr .fromAccept), db)
    | .E_VERBNF => db.doMove2 what dest progr false call
    | e => return (.error e, db)

/-! ## recycle -/

/-- `move_to_nothing`: has its call of `exitfunc` begun? -/
def moveToNothing (oid : Objid) (call : CallVerb) (db : Db) : Option (Bool × Db) := do
  let o ← db.find oid
  let db ← db.dbChangeLocation oid NOTHING
  return (call o.location .exitfunc == .E_NONE, db)

/-- The loop of `bf_recycle` over the contents: has a call begun? -/
def recycleContents (oid : Objid) (call : CallVerb) : Nat → Db → Option (Bool × Db)
  | 0, _ => none
  | n + 1, db => do
    let c := (← db.find oid).contents
    if c = NOTHING then return (false, db)
    let (called, db) ← db.moveToNothing c call
    if called then return (true, db)
    recycleContents oid call n db

/-- The loop of `bf_recycle` over the children. -/
def recycleChildren (oid : Objid) : Nat → Db → Option Db
  | 0, _ => none
  | n + 1, db => do
    let o ← db.find oid
    if o.child = NOTHING then return db
    let (_, db) ← db.dbChangeParent o.child o.parent
    recycleChildren oid n db

/-- `bf_recycle` from `moving_contents`. -/
def bfRecycle2 (oid progr : Objid) (call : CallVerb) (db : Db) : Option (Package × Db) := do
  if !db.valid oid then return (.noVar, db)
  let (called, db) ← db.recycleContents oid call db.bound
  if called then return (.call (.recycle oid progr), db)
  let o ← db.find oid
  let (called, db) ← (if o.location ≠ NOTHING then db.moveToNothing oid call else some (false, db))
  if called then return (.call (.recycle oid progr), db)
  let db ← db.recycleChildren oid db.bound
  let (_, db) ← db.dbChangeParent oid NOTHING
  let db ← db.dbDestroyObject oid
  return (.noVar, db)

/-- `bf_recycle` from `case 1`. -/
def bfRecycle1 (oid progr : Objid) (call : CallVerb) (db : Db) : Option (Package × Db) := do
  if !db.valid oid then return (.error .E_INVARG, db)
  if !(← db.controls progr oid) then return (.error .E_PERM, db)
  match call oid .recycle with
  | .E_NONE => return (.call (.recycle oid progr), db)
  | _ => db.bfRecycle2 oid progr call

/-! ## renumber, reset_max_object and clear_property -/

/-- `bf_renumber` -/
def bfRenumber (o progr : Objid) (db : Db) : Option (Package × Db) := do
  if !db.valid o then return (.error .E_INVARG, db)
  if !db.isWizard progr then return (.error .E_PERM, db)
  let (oid, db) ← db.dbRenumberObject o
  return (.value (.obj oid), db)

/-- `bf_reset_max_object` -/
def bfResetMaxObject (progr : Objid) (db : Db) : Option (Package × Db) := do
  if !db.isWizard progr then return (.error .E_PERM, db)
  let db ← db.dbResetLastUsedObjid
  return (.noVar, db)

/-- `bf_clear_prop` -/
def bfClearProp (oid : Objid) (pname : Str) (progr : Objid) (db : Db) : Option (Package × Db) := do
  if !db.valid oid then return (.error .E_INVARG, db)
  match ← db.dbFindProperty oid pname with
  | none => return (.error .E_PROPNF, db)
  | some (.builtIn _ _) => return (.error .E_PERM, db)
  | some (.slot definer oid' n) =>
    let p ← db.slot (.slot definer oid' n)
    if progr ≠ p.owner ∧ !db.isWizard progr then return (.error .E_PERM, db)
    if definer = oid then return (.error .E_INVARG, db)
    let db ← db.dbSetPropertyValue (.slot definer oid' n) .clear
    return (.noVar, db)

end Db

/-! ## Runs -/

/-- The database and the frames that wait for a verb to return. -/
structure DbState where
  db : Db
  pending : List Frame

/-- The operations. A property handle is one that `db_find_property` has just returned
for the named property. -/
inductive Act where
  | create (parent : Objid) (owner : Option Objid) (progr junk : Objid) (call : CallVerb)
  | chparent (what parent progr : Objid)
  | move (what dest progr : Objid) (call : CallVerb)
  | recycle (oid progr : Objid) (call : CallVerb)
  | renumber (o progr : Objid)
  | resetMaxObject (progr : Objid)
  | resume (i : Nat) (result : Var) (call : CallVerb)
  | abandon (i : Nat)
  | createObject (junk : Objid)
  | destroyObject (oid : Objid)
  | changeParent (oid parent : Objid)
  | renumberObject (oid : Objid)
  | addPropdef (oid : Objid) (pname : Str) (value : Var) (owner : Objid) (flags : UInt16)
  | renamePropdef (oid : Objid) (old newbie : Str)
  | deletePropdef (oid : Objid) (pname : Str)
  | setPropertyValue (oid : Objid) (pname : Str) (value : Var)
  | setPropertyOwner (oid : Objid) (pname : Str) (owner : Objid)
  | setPropertyFlags (oid : Objid) (pname : Str) (flags : UInt16)
  | clearProperty (oid : Objid) (pname : Str) (progr : Objid)
  | addVerb (oid : Objid) (addr : Nat) (vnames : MooStr) (owner : Objid)
      (flags dobj prep iobj : UInt16)
  | deleteVerb (h : Handle)
  | setVerbNames (h : Handle) (names : MooStr)
  | setVerbOwner (h : Handle) (owner : Objid)
  | setVerbFlags (h : Handle) (flags : UInt16)
  | setVerbProgram (h : Handle) (program : Option Nat)
  | setVerbArgSpecs (h : Handle) (dobj prep iobj : UInt16)
  | findCallableVerb (oid : Objid) (verb : MooStr)

namespace Act

/-- Keep the frame that a built-in function waits in. -/
def finish (pending : List Frame) (r : Package × Db) : DbState :=
  match r.1 with
  | .call f => ⟨r.2, f :: pending⟩
  | .error _ | .value _ | .noVar => ⟨r.2, pending⟩

/-- Resume a frame with the value that its verb has returned. -/
def resumeFrame (f : Frame) (result : Var) (call : CallVerb) (db : Db) : Option (Package × Db) :=
  match f with
  | .create oid => some (.value (.obj oid), db)
  | .recycle oid progr => db.bfRecycle2 oid progr call
  | .move what dest progr next =>
    match next with
    | .fromAccept => db.doMove2 what dest progr (isTrue result) call
    | .fromExitfunc => db.doMove3 what dest progr call
    | .fromEnterfunc => some (.noVar, db)

/-- Perform an update through the handle of a property. -/
def withProp (oid : Objid) (pname : Str) (db : Db) (f : PropHandle → Option Db) : Option Db := do
  match ← db.dbFindProperty oid pname with
  | none => none
  | some h => f h

/-- Perform an operation. -/
def run (a : Act) (s : DbState) : Option DbState :=
  let db := s.db
  let plain (r : Option Db) : Option DbState := r.map fun db => { s with db }
  let builtin (r : Option (Package × Db)) : Option DbState := r.map (finish s.pending)
  match a with
  | create parent owner progr junk call => builtin (db.bfCreate parent owner progr junk call)
  | chparent what parent progr => builtin (db.bfChparent what parent progr)
  | move what dest progr call => builtin (db.doMove1 what dest progr call)
  | recycle oid progr call => builtin (db.bfRecycle1 oid progr call)
  | renumber o progr => builtin (db.bfRenumber o progr)
  | resetMaxObject progr => builtin (db.bfResetMaxObject progr)
  | resume i result call => do
    let f ← s.pending[i]?
    let r ← resumeFrame f result call db
    some (finish (s.pending.eraseIdx i) r)
  | abandon i => some { s with pending := s.pending.eraseIdx i }
  | createObject junk => some { s with db := (db.dbCreateObject junk).2 }
  | destroyObject oid => plain (db.dbDestroyObject oid)
  | changeParent oid parent => plain ((db.dbChangeParent oid parent).map Prod.snd)
  | renumberObject oid => plain ((db.dbRenumberObject oid).map Prod.snd)
  | addPropdef oid pname value owner flags =>
    plain ((db.dbAddPropdef oid pname value owner flags).map Prod.snd)
  | renamePropdef oid old newbie => plain ((db.dbRenamePropdef oid old newbie).map Prod.snd)
  | deletePropdef oid pname => plain ((db.dbDeletePropdef oid pname).map Prod.snd)
  | setPropertyValue oid pname value =>
    plain (withProp oid pname db fun h => db.dbSetPropertyValue h value)
  | setPropertyOwner oid pname owner =>
    plain (withProp oid pname db fun h => db.dbSetPropertyOwner h owner)
  | setPropertyFlags oid pname flags =>
    plain (withProp oid pname db fun h => db.dbSetPropertyFlags h flags)
  | clearProperty oid pname progr => builtin (db.bfClearProp oid pname progr)
  | addVerb oid addr vnames owner flags dobj prep iobj =>
    plain (db.dbAddVerb oid addr vnames owner flags dobj prep iobj)
  | deleteVerb h => plain (db.dbDeleteVerb h)
  | setVerbNames h names => plain (db.dbSetVerbNames h names)
  | setVerbOwner h owner => plain (db.dbSetVerbOwner h owner)
  | setVerbFlags h flags => plain (db.dbSetVerbFlags h flags)
  | setVerbProgram h program => plain (db.dbSetVerbProgram h program)
  | setVerbArgSpecs h dobj prep iobj => plain (db.dbSetVerbArgSpecs h dobj prep iobj)
  | findCallableVerb oid verb => plain ((db.dbFindCallableVerb oid verb).map Prod.snd)

/-- A handle to a verb that exists. -/
def LiveVerb (db : Db) (h : Handle) : Prop :=
  ∃ o, db.find h.definer = some o ∧ ∃ v ∈ o.verbdefs, v.addr = h.verbdef

/-- The value that is stored suits the property: a value of the language, and for a
built-in property one of its type, which neither location nor contents accepts. -/
def Suits (h : PropHandle) (value : Var) : Prop :=
  match h with
  | .slot _ _ _ => value ≠ .clear
  | .builtIn .BP_NAME _ => ∃ s, value = .str s
  | .builtIn .BP_OWNER _ => ∃ o, value = .obj o
  | .builtIn .BP_LOCATION _ => False
  | .builtIn .BP_CONTENTS _ => False
  | .builtIn _ _ => True

/-- What the callers of an operation have checked. -/
def Allowed (a : Act) (s : DbState) : Prop :=
  let db := s.db
  match a with
  | resume i _ _ => i < s.pending.length
  | destroyObject oid => ∃ o, db.find oid = some o ∧ o.location = NOTHING ∧ o.contents = NOTHING ∧
      o.parent = NOTHING ∧ o.child = NOTHING
  | changeParent oid parent =>
    (∃ o, db.find oid = some o) ∧ (parent = NOTHING ∨ ∃ p, db.find parent = some p) ∧
      ¬ (db.links kin).Below oid parent
  | renumberObject oid => ∃ o, db.find oid = some o
  | addPropdef oid _ value _ _ => (∃ o, db.find oid = some o) ∧ value ≠ .clear
  | renamePropdef oid _ _ => ∃ o, db.find oid = some o
  | deletePropdef oid _ => ∃ o, db.find oid = some o
  | setPropertyValue oid pname value => (∃ o, db.find oid = some o) ∧
      ∃ h, db.dbFindProperty oid pname = some (some h) ∧ Suits h value
  | setPropertyOwner oid pname _ => (∃ o, db.find oid = some o) ∧
      ∃ definer n, db.dbFindProperty oid pname = some (some (.slot definer oid n))
  | setPropertyFlags oid pname _ => (∃ o, db.find oid = some o) ∧
      ∃ definer n, db.dbFindProperty oid pname = some (some (.slot definer oid n))
  | addVerb oid addr _ _ _ _ _ _ =>
    (∃ o, db.find oid = some o) ∧ ∀ definer, ¬ LiveVerb db ⟨definer, addr⟩
  | deleteVerb h => LiveVerb db h
  | setVerbNames h _ => LiveVerb db h
  | setVerbOwner h _ => LiveVerb db h
  | setVerbFlags h _ => LiveVerb db h
  | setVerbProgram h _ => LiveVerb db h
  | setVerbArgSpecs h _ _ _ => LiveVerb db h
  | create .. | chparent .. | move .. | recycle .. | renumber .. | resetMaxObject .. | abandon ..
  | createObject ..
  | clearProperty .. | findCallableVerb .. => True

end Act

/-- States reachable from the empty database by allowed operations in any order. -/
inductive Reachable : DbState → Prop
  | empty : Reachable ⟨.empty, []⟩
  | step {s s' : DbState} (a : Act) : Reachable s → a.Allowed s → a.run s = some s' → Reachable s'

end NuMoo
