import NuMoo.Db.Builtins

/-!
# Properties as programs see them

What `OP_GET_PROP` and `OP_PUT_PROP` do to an object: the search for the property, the
tests that stand before the access, and the access. The server is compiled with
`IGNORE_PROP_PROTECTED`, so that every program reads the built-in properties.
-/

namespace NuMoo
namespace Db

/-- `db_property_allows` -/
def dbPropertyAllows (h : PropHandle) (progr : Objid) (flag : UInt16) (db : Db) : Option Bool :=
  (db.slot h).map fun p => p.perms &&& flag != 0 || progr == p.owner || db.isWizard progr

/-- `OP_GET_PROP` on an object number and a name. -/
def getProperty (obj : Objid) (name : Str) (progr : Objid) (db : Db) :
    Option (Except ErrCode Var) := do
  if !db.valid obj then return .error .E_INVIND
  match ← db.dbFindPropertyValue obj name with
  | none => return .error .E_PROPNF
  | some (.builtIn _ _, prop) => return .ok prop
  | some (.slot definer oid n, prop) =>
    if !(← db.dbPropertyAllows (.slot definer oid n) progr PF_READ) then return .error .E_PERM
    return .ok prop

/-- The tests of `OP_PUT_PROP` on the property that was found. -/
def putPropertyError (h : PropHandle) (obj : Objid) (rhs : Var) (progr : Objid) (db : Db) :
    Option ErrCode := do
  match h with
  | .slot _ _ _ => return if !(← db.dbPropertyAllows h progr PF_WRITE) then .E_PERM else .E_NONE
  | .builtIn prop _ =>
    let o ← db.find obj
    match prop with
    | .BP_NAME =>
      match rhs with
      | .str _ => return if !db.isWizard progr && (db.isUser obj || progr != o.owner) then .E_PERM
        else .E_NONE
      | _ => return .E_TYPE
    | .BP_OWNER =>
      match rhs with
      | .obj _ => return if !db.isWizard progr then .E_PERM else .E_NONE
      | _ => return .E_TYPE
    | .BP_PROGRAMMER | .BP_WIZARD => return if !db.isWizard progr then .E_PERM else .E_NONE
    | .BP_R | .BP_W | .BP_F =>
      return if progr != o.owner && !db.isWizard progr then .E_PERM else .E_NONE
    | .BP_LOCATION | .BP_CONTENTS => return .E_PERM

/-- `OP_PUT_PROP` on an object number and a name. -/
def putProperty (obj : Objid) (name : Str) (rhs : Var) (progr : Objid) (db : Db) :
    Option (Except ErrCode Db) := do
  if !db.valid obj then return .error .E_INVIND
  match ← db.dbFindProperty obj name with
  | none => return .error .E_PROPNF
  | some h =>
    match ← db.putPropertyError h obj rhs progr with
    | .E_NONE => return .ok (← db.dbSetPropertyValue h rhs)
    | e => return .error e

end Db
end NuMoo
