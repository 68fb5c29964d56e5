import NuMoo.Db.Objects

/-!
# Verbs and the verb cache

The functions of `db_verbs.c` that define, change and look up verbs, with the
cache in front of `db_find_callable_verb`, and `verbcasecmp` of `utils.c`.
-/

namespace NuMoo

/-! ## Matching verb names -/

/-- The star state of `verbcasecmp`. -/
inductive Star where
  | none | inner | end
deriving DecidableEq, Repr

def chStar : UInt8 := 42
def chSpace : UInt8 := 32

/-- `!*v || *v == ' '` -/
def atWordEnd (v : Str) : Bool := v.headD 0 == 0 || v.headD 0 == chSpace

/-- `while (*v == '*')` -/
def skipStars : Str → Star → Str × Star
  | [], star => ([], star)
  | c :: v, star =>
    if c = chStar then skipStars v (if atWordEnd v then .end else .inner) else (c :: v, star)

/-- The loop `while (1)`: where it leaves `v`, `w` and `star`. -/
def matchWord (v : Str) : Str → Star → Str × Str × Star
  | [], star => ((skipStars v star).1, [], (skipStars v star).2)
  | c :: w, star =>
    let v' := (skipStars v star).1
    let star := (skipStars v star).2
    if atWordEnd v' || c == 0 || cmap c != cmap (v'.headD 0) then (v', c :: w, star)
    else matchWord v'.tail w star

/-- The loop `while (*v)`, one turn for each name; every turn passes some of `v`. -/
def scanNames (word : Str) : Nat → Str → Bool
  | 0, _ => false
  | n + 1, v =>
    if v.headD 0 = 0 then false
    else
      let r := matchWord v word .none
      if (if r.2.1.headD 0 = 0 then r.2.2 != .none || atWordEnd r.1 else r.2.2 == .end) then true
      else scanNames word n ((r.1.dropWhile fun c => c != 0 && c != chSpace).dropWhile fun c =>
        c == chSpace)

/-- `verbcasecmp` after the test of the two pointers. -/
def verbMatches (verb word : Str) : Bool := scanNames word (verb.length + 1) verb

/-- `verbcasecmp` -/
def verbcasecmp (verb word : MooStr) : Bool :=
  if verb.addr = word.addr then true else verbMatches verb.text word.text

namespace Db

/-! ## Lookup -/

/-- `find_verbdef_by_name` -/
def findVerbdefByName (o : Object) (vname : MooStr) (checkXBit : Bool) : Option Verbdef :=
  o.verbdefs.find? fun v => verbcasecmp v.name vname && (!checkXBit || v.perms &&& VF_EXEC != 0)

/-- The last loop of `db_find_callable_verb`, over the objects of the ancestor loop. -/
def searchVerbs (verb : MooStr) (os : List Object) : Option Handle :=
  os.findSome? fun o => (findVerbdefByName o verb true).map fun v => ⟨o.id, v.addr⟩

/-- `db_find_callable_verb` as it is compiled without `VERB_CACHE`. -/
def findCallableVerbUncached (oid : Objid) (verb : MooStr) (db : Db) : Option (Option Handle) :=
  (db.lineage db.bound oid).map (searchVerbs verb)

/-- `DEFAULT_VC_SIZE` -/
def vcSize : UInt32 := 7507

/-- `str_hash(verb) ^ (~first_parent_with_verbs)` -/
def vcHash (verb : Str) (key : Objid) : UInt32 := strHash verb ^^^ UInt32.ofInt (-key - 1)

/-- `first_parent_with_verbs`, from the objects at which the first loop has stopped. -/
def firstParentWithVerbs : List Object → Objid
  | [] => NOTHING
  | o :: _ => o.id

/-- `db_find_callable_verb` with `VERB_CACHE`. -/
def dbFindCallableVerb (oid : Objid) (verb : MooStr) (db : Db) : Option (Option Handle × Db) := do
  let table := db.vcTable.getD fun _ => []
  let os ← db.lineage db.bound oid
  let os := os.dropWhile fun o => o.verbdefs.isEmpty
  let oidKey := firstParentWithVerbs os
  let hash := vcHash verb.text oidKey
  let bucket := (hash % vcSize).toNat
  match (table bucket).find? fun vc =>
      hash == vc.hash && oidKey == vc.oidKey && mystrcasecmp verb.text vc.verbname == 0 with
  | some vc => some (vc.h, { db with vcTable := some table })
  | none =>
    let h := searchVerbs verb os
    let newVc : VcEntry := { hash, oidKey, verbname := verb.text, h }
    some (h, { db with vcTable := some (Function.update table bucket (newVc :: table bucket)) })

/-! ## Definition and change -/

def DOBJSHIFT : UInt16 := 4
def IOBJSHIFT : UInt16 := 6
def PERMMASK : UInt16 := 0xF

/-- `db_add_verb`; `addr` is where the new verb is allocated. -/
def dbAddVerb (oid : Objid) (addr : Nat) (vnames : MooStr) (owner : Objid)
    (flags dobj prep iobj : UInt16)
    (db : Db) : Option Db :=
  db.affectedCallableVerbLookup.modify oid fun o =>
    { o with verbdefs := o.verbdefs ++
        [{ addr, name := vnames, program := none, owner, prep
           perms := flags ||| (dobj <<< DOBJSHIFT) ||| (iobj <<< IOBJSHIFT) }] }

/-- Store through the `verbdef` pointer of a handle: the verb is on its definer's list. -/
def modifyVerb (h : Handle) (f : Verbdef → Verbdef) (db : Db) : Option Db := do
  let o ← db.find h.definer
  let i ← o.verbdefs.findIdx? fun v => v.addr == h.verbdef
  some (db.put h.definer { o with verbdefs := o.verbdefs.modify i f })

/-- `db_delete_verb` -/
def dbDeleteVerb (h : Handle) (db : Db) : Option Db := do
  let db := db.affectedCallableVerbLookup
  let o ← db.find h.definer
  let i ← o.verbdefs.findIdx? fun v => v.addr == h.verbdef
  some (db.put h.definer { o with verbdefs := o.verbdefs.eraseIdx i })

/-- `db_set_verb_names` -/
def dbSetVerbNames (h : Handle) (names : MooStr) (db : Db) : Option Db :=
  db.affectedCallableVerbLookup.modifyVerb h fun v => { v with name := names }

/-- `db_set_verb_owner` -/
def dbSetVerbOwner (h : Handle) (owner : Objid) (db : Db) : Option Db :=
  db.modifyVerb h fun v => { v with owner }

/-- `db_set_verb_flags` -/
def dbSetVerbFlags (h : Handle) (flags : UInt16) (db : Db) : Option Db :=
  db.affectedCallableVerbLookup.modifyVerb h fun v =>
    { v with perms := (v.perms &&& ~~~PERMMASK) ||| flags }

/-- `db_set_verb_program` -/
def dbSetVerbProgram (h : Handle) (program : Option Nat) (db : Db) : Option Db :=
  db.modifyVerb h fun v => { v with program }

/-- `db_set_verb_arg_specs` -/
def dbSetVerbArgSpecs (h : Handle) (dobj prep iobj : UInt16) (db : Db) : Option Db :=
  db.affectedCallableVerbLookup.modifyVerb h fun v =>
    { v with prep, perms := (v.perms &&& PERMMASK) ||| (dobj <<< DOBJSHIFT) |||
               (iobj <<< IOBJSHIFT) }

end Db

end NuMoo
