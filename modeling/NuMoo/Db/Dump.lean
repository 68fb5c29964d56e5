import NuMoo.Db.Dbio
import NuMoo.Db.Validate

/-!
# Dumping and loading the database

`write_db_file` and `read_db_file` of `db_file.c`, up to the verb programs: a header, the players
and then the objects in the order of their numbers, each field on a line of its own. A reader yields
no table where the source returns 0.

Results:
1. `readObject_spec`: one object, or the hole of a recycled one.
2. `readDbFile_spec`: the whole table.
3. `dump_load`: the loaded table is let through by `validate_hierarchies`.
-/

namespace NuMoo

open Decimal

/-- The number of the first version that there is not yet. -/
def Num_DB_Versions : Nat := Lex.current_version.num + 1

/-- `check_version` -/
def checkVersion (version : Nat) : Bool := version < Num_DB_Versions

/-- `header_format_string`, before the version. -/
def headerFormat : Str := Lex.ascii "** LambdaMOO Database, Format Version"

namespace Db

/-! ## Output -/

/-- `write_verbdef` -/
def writeVerbdef (v : Verbdef) : Str :=
  [dbioWriteString v.name.text,
    dbioWriteObjid v.owner,
    dbioWriteNum v.perms.toInt16.toInt,
    dbioWriteNum v.prep.toInt16.toInt].flatten

/-- `write_propdef` -/
def writePropdef (p : Propdef) : Str := dbioWriteString p.name

section Env

variable (env : DbioEnv)

/-- `write_propval` -/
def writePropval (p : Pval) : Str :=
  [dbioWriteVar env p.var,
    dbioWriteObjid p.owner,
    dbioWriteNum p.perms.toInt16.toInt].flatten

/-- The fields of an object, after its number. -/
def writeFields (o : Object) (propval : List Pval) : Str :=
  [dbioWriteString o.name,
    dbioWriteString [],
    dbioWriteNum o.flags.toInt32.toInt,
    dbioWriteObjid o.owner,
    dbioWriteObjid o.location,
    dbioWriteObjid o.contents,
    dbioWriteObjid o.next,
    dbioWriteObjid o.parent,
    dbioWriteObjid o.child,
    dbioWriteObjid o.sibling,
    dbioWriteNum o.verbdefs.length,
    o.verbdefs.flatMap writeVerbdef,
    dbioWriteNum o.propdefs.length ++ o.propdefs.flatMap writePropdef,
    dbioWriteNum propval.length ++ propval.flatMap (writePropval env)].flatten

/-- `write_object` -/
def writeObject (oid : Objid) (db : Db) : Option Str :=
  match db.find oid with
  | none => some ([Lex.ascii "#", text oid, Lex.ascii " recycled\n"].flatten)
  | some o => do
    let nprops ← db.dbprivCountProperties oid
    let propval ← readSlots o.propval 0 nprops
    return [Lex.ascii "#", text oid, Lex.ascii "\n", writeFields env o propval].flatten

/-- The verbs that have a program. -/
def nprogs (db : Db) : Nat :=
  (db.objects.map fun e => (e.map fun o => o.verbdefs.countP fun v => v.program.isSome).getD 0).sum

/-- The lines of `write_db_file` before the objects. -/
def writeHeader (db : Db) : Str :=
  [headerFormat, Lex.ascii " ", text Lex.current_version.num, Lex.ascii " **\n",
    dbioWriteNum db.numObjects,
    dbioWriteNum db.nprogs,
    dbioWriteNum 0,
    dbioWriteNum db.allUsers.length,
    db.allUsers.flatMap dbioWriteObjid].flatten

/-- `write_db_file`, up to the verb programs. -/
def writeDbFile (db : Db) : Option Str := do
  let objects ← (List.range db.numObjects).mapM fun (n : Nat) => db.writeObject env n
  return db.writeHeader ++ objects.flatten

/-! ## Input -/

/-- `read_verbdef`. What is allocated is named by the place in the file that is read then. -/
def readVerbdef : Reader UInt8 Verbdef := do
  let inp ← get
  let name ← dbioReadString
  let owner ← dbioReadObjid
  let perms ← dbioReadNum
  let prep ← dbioReadNum
  return {
    addr := inp.length, name := ⟨inp.length, name⟩, program := none, owner
    perms := UInt16.ofInt perms, prep := UInt16.ofInt prep }

/-- `dbpriv_new_propdef` -/
def dbprivNewPropdef (name : Str) : Propdef := ⟨name, strHash name, 0⟩

/-- `read_propdef` -/
def readPropdef : Reader UInt8 Propdef := do
  let name ← dbioReadString
  return dbprivNewPropdef name

/-- An array with its length in front. -/
def readArray {α : Type} (element : Reader UInt8 α) : Reader UInt8 (List α) := do
  let n ← dbioReadNum
  if toInt n < 0 then failure else Reader.many element (toInt n).toNat

variable (dbio_input_version : Nat)

/-- `read_propval` -/
def readPropval : Reader UInt8 Pval := do
  let var ← dbioReadVar env dbio_input_version
  let owner ← dbioReadObjid
  let perms ← dbioReadNum
  return { var, owner, perms := UInt16.ofInt perms, pid := 0 }

/-- The fields of an object, after its number. -/
def readFields (id : Objid) : Reader UInt8 Object := do
  let name ← dbioReadString
  let _ ← dbioReadString
  let flags ← dbioReadNum
  let owner ← dbioReadObjid
  let location ← dbioReadObjid
  let contents ← dbioReadObjid
  let next ← dbioReadObjid
  let parent ← dbioReadObjid
  let child ← dbioReadObjid
  let sibling ← dbioReadObjid
  let nverbdefs ← dbioReadNum
  let verbdefs ← Reader.many readVerbdef (toInt nverbdefs).toNat
  let propdefs ← readArray readPropdef
  let propval ← readArray (readPropval env dbio_input_version)
  return {
    id, owner, location, contents, next, parent, child, sibling, name
    flags := UInt32.ofInt flags, verbdefs, propdefs, propval }

/-- `db_last_used_objid` -/
def dbLastUsedObjid (db : Db) : Objid := db.numObjects - 1

/-- `read_object` -/
def readObject (db : Db) : Reader UInt8 (Option Db) := do
  match ← dbioScanf (format (Lex.ascii "#") ++ [.num]) with
  | [oid] =>
    if oid ≠ db.dbLastUsedObjid + 1 then return none
    else
      let (s, _) ← dbioReadLine 20
      if s = Lex.ascii " recycled\n" then return some { db with objects := db.objects ++ [none] }
      else if s ≠ Lex.ascii "\n" then return none
      else
        let o ← readFields env dbio_input_version oid
        return some { db with objects := db.objects ++ [some o] }
  | _ => return none

/-- The loop of `read_db_file` that reads the objects. -/
def readObjects : Nat → Db → Reader UInt8 (Option Db)
  | 0, db => return some db
  | n + 1, db => do
    match ← db.readObject env dbio_input_version with
    | none => return none
    | some db => readObjects n db

/-- `read_db_file`, up to the objects. -/
def readDbFile : Reader UInt8 (Option Db) := do
  let versions ← dbioScanf (format headerFormat ++ [.space, .unsigned] ++
    format (Lex.ascii " **\n"))
  let version := match versions with
    | [v] => v.toNat
    | _ => Lex.DBVersion.DBV_Prehistory.num
  if !checkVersion version then return none
  else
    match ← dbioScanf [.num, .space, .num, .space, .num, .space, .num, .space] with
    | [nobjs, _, _, nusers] =>
      if toInt nusers ≠ nusers ∨ nusers < 0 then failure
      else
        let users ← Reader.many dbioReadObjid nusers.toNat
        readObjects env version nobjs.toNat { empty with allUsers := users }
    | _ => return none

end Env

/-! ## What can be stored -/

end Db

/-- The numbers of a verb are in range, its name has no NUL, and it has no program. -/
structure Verbdef.Storable (v : Verbdef) : Prop where
  name : 0 ∉ v.name.text
  owner : IsNum v.owner
  program : v.program = none

structure Pval.Storable (p : Pval) : Prop where
  var : p.var.Storable
  owner : IsNum p.owner

/-- The numbers of an object are in the ranges of their types, its strings have no NUL, and its
values are stored without the help of others. -/
structure Object.Storable (o : Object) : Prop where
  name : 0 ∉ o.name
  owner : IsNum o.owner
  location : IsNum o.location
  contents : IsNum o.contents
  next : IsNum o.next
  parent : IsNum o.parent
  child : IsNum o.child
  sibling : IsNum o.sibling
  nverbdefs : IsInt o.verbdefs.length
  verbdefs : ∀ v ∈ o.verbdefs, v.Storable
  npropdefs : IsInt o.propdefs.length
  propdefs : ∀ p ∈ o.propdefs, 0 ∉ p.name
  nprops : IsInt o.propval.length
  propval : ∀ p ∈ o.propval, p.Storable

/-- A table of objects that can be stored, and players in range. -/
structure Db.Storable (db : Db) : Prop where
  numObjects : IsNum db.numObjects
  nusers : IsInt db.allUsers.length
  allUsers : ∀ u ∈ db.allUsers, IsNum u
  object : ∀ x o, db.find x = some o → o.Storable

/-! ## What is kept -/

/-- A verb without the addresses. -/
def Verbdef.plain (v : Verbdef) : Verbdef := { v with addr := 0, name := ⟨0, v.name.text⟩ }

/-- A definition without the ghost. -/
def Propdef.plain (p : Propdef) : Propdef := { p with pid := 0 }

/-- A slot without the ghost. -/
def Pval.plain (p : Pval) : Pval := { p with pid := 0 }

/-- An object without addresses and ghosts: all that the source has of it. -/
def Object.plain (o : Object) : Object := {
  o with
  verbdefs := o.verbdefs.map Verbdef.plain
  propdefs := o.propdefs.map Propdef.plain
  propval := o.propval.map Pval.plain }

namespace Db

/-- The tables have the same objects, with all their fields, and the same players. -/
structure SameTable (db db' : Db) : Prop where
  objects : db'.objects.map (Option.map Object.plain) = db.objects.map (Option.map Object.plain)
  allUsers : db'.allUsers = db.allUsers

variable {env : DbioEnv} {dbio_input_version : Nat}

/-! ## Verbs, properties and slots -/

theorem ofInt_toInt16 (p : UInt16) : UInt16.ofInt p.toInt16.toInt = p := by
  have h : p.toInt16.toInt = (p.toNat : Int).bmod (2 ^ 16) := BitVec.toInt_eq_toNat_bmod _
  have hmod : (p.toNat : Int) % (2 ^ 16 : Nat) = p.toNat :=
    Int.emod_eq_of_lt (Int.natCast_nonneg _) (Int.ofNat_lt.mpr p.toNat_lt)
  rw [h]
  show UInt16.ofNat ((p.toNat : Int).bmod (2 ^ 16) % (2 ^ 16 : Nat)).toNat = p
  rw [Int.bmod_emod, hmod, Int.toNat_natCast, UInt16.ofNat_toNat]

theorem ofInt_toInt32 (p : UInt32) : UInt32.ofInt p.toInt32.toInt = p := by
  have h : p.toInt32.toInt = (p.toNat : Int).bmod (2 ^ 32) := BitVec.toInt_eq_toNat_bmod _
  have hmod : (p.toNat : Int) % (2 ^ 32 : Nat) = p.toNat :=
    Int.emod_eq_of_lt (Int.natCast_nonneg _) (Int.ofNat_lt.mpr p.toNat_lt)
  rw [h]
  show UInt32.ofNat ((p.toNat : Int).bmod (2 ^ 32) % (2 ^ 32 : Nat)).toNat = p
  rw [Int.bmod_emod, hmod, Int.toNat_natCast, UInt32.ofNat_toNat]

theorem readShort_spec (p : UInt16) :
    Reads dbioReadNum (dbioWriteNum p.toInt16.toInt) fun n => UInt16.ofInt n = p := by
  have hlo := p.toInt16.le_toInt
  have hhi := p.toInt16.toInt_lt
  refine (dbioReadNum_spec ⟨by omega, by omega⟩).mono ?_
  rintro _ rfl
  exact ofInt_toInt16 p

theorem readFlags_spec (p : UInt32) :
    Reads dbioReadNum (dbioWriteNum p.toInt32.toInt) fun n => UInt32.ofInt n = p := by
  have hlo := p.toInt32.le_toInt
  have hhi := p.toInt32.toInt_lt
  refine (dbioReadNum_spec ⟨by omega, by omega⟩).mono ?_
  rintro _ rfl
  exact ofInt_toInt32 p

theorem readVerbdef_spec {v : Verbdef} (h : v.Storable) :
    Reads readVerbdef (writeVerbdef v) fun v' => v'.plain = v.plain := by
  refine .get_bind fun inp => (dbioReadString_spec h.name).bind ?_
  rintro name hname
  refine (dbioReadNum_spec h.owner).bind ?_
  rintro owner howner
  refine (readShort_spec v.perms).bind fun perms hperms =>
    (readShort_spec v.prep).bind fun prep hprep => .pure ?_
  simp only [Verbdef.plain, hname, howner, hperms, hprep, h.program]

theorem readPropdef_spec {p : Propdef} (h : 0 ∉ p.name) (hash : p.hash = strHash p.name) :
    Reads readPropdef (writePropdef p) fun p' => p'.plain = p.plain := by
  refine (dbioReadString_spec h).map ?_
  rintro name rfl
  rw [dbprivNewPropdef, Propdef.plain, Propdef.plain, hash]

theorem readPropval_spec {p : Pval} (h : p.Storable) :
    Reads (readPropval env dbio_input_version) (writePropval env p) fun p' =>
      p'.plain = p.plain := by
  refine (dbioReadVar_spec h.var).bind fun var hvar =>
    (dbioReadNum_spec h.owner).bind fun owner howner =>
    (readShort_spec p.perms).bind fun perms hperms => .pure ?_
  simp only [Pval.plain, hvar, howner, hperms]

theorem map_eq_of_forall₂ {α β γ : Type} {f : α → γ} {g : β → γ} {l : List α} {l' : List β}
    (h : List.Forall₂ (fun x y => g y = f x) l l') : l'.map g = l.map f := by
  induction h with
  | nil => rfl
  | cons h _ ih => rw [List.map_cons, List.map_cons, h, ih]

theorem many_spec {α γ : Type} {m : Reader UInt8 α} {write : α → Str} {f : α → γ} {l : List α}
    (h : ∀ x ∈ l, Reads m (write x) fun y => f y = f x) :
    Reads (Reader.many m l.length) (l.flatMap write) fun l' => l'.map f = l.map f :=
  (Reads.many h).mono fun _ => map_eq_of_forall₂

theorem readArray_spec {α γ : Type} {m : Reader UInt8 α} {write : α → Str} {f : α → γ} {l : List α}
    (hlen : IsInt l.length)
    (h : ∀ x ∈ l, Reads m (write x) fun y => f y = f x) :
    Reads (readArray m) (dbioWriteNum l.length ++ l.flatMap write) fun l' =>
      l'.map f = l.map f := by
  refine (dbioReadNum_spec hlen.isNum).bind ?_
  rintro _ rfl
  rw [toInt_eq hlen, if_neg (Int.not_lt.mpr (Int.natCast_nonneg _)), Int.toNat_natCast]
  exact many_spec h

/-! ## Objects -/

theorem readFields_spec (dbio_input_version : Nat) {o : Object} (h : o.Storable)
    (hash : ∀ p ∈ o.propdefs, p.hash = strHash p.name) :
    Reads (readFields env dbio_input_version o.id) (writeFields env o o.propval) fun o' =>
      o'.plain = o.plain := by
  refine (dbioReadString_spec h.name).bind fun name hname =>
    (dbioReadString_spec List.not_mem_nil).bind fun _ _ =>
    (readFlags_spec o.flags).bind fun flags hflags =>
      (dbioReadNum_spec h.owner).bind fun owner howner =>
    (dbioReadNum_spec h.location).bind fun location hlocation =>
      (dbioReadNum_spec h.contents).bind fun contents hcontents =>
    (dbioReadNum_spec h.next).bind fun next hnext =>
      (dbioReadNum_spec h.parent).bind fun parent hparent =>
    (dbioReadNum_spec h.child).bind fun child hchild =>
      (dbioReadNum_spec h.sibling).bind fun sibling hsibling =>
    (dbioReadNum_spec h.nverbdefs.isNum).bind ?_
  rintro _ rfl
  rw [toInt_eq h.nverbdefs, Int.toNat_natCast]
  refine (many_spec fun v hv => readVerbdef_spec (h.verbdefs v hv)).bind fun verbdefs hverbdefs =>
    (readArray_spec h.npropdefs fun p hp => readPropdef_spec (h.propdefs p hp) (hash p hp)).bind
      fun propdefs hpropdefs =>
    (readArray_spec h.nprops fun p hp => readPropval_spec (h.propval p hp)).bind
      fun propval hpropval => .pure ?_
  simp only [Object.plain, hname, hflags, howner, hlocation, hcontents, hnext, hparent, hchild,
    hsibling, hverbdefs, hpropdefs,
    hpropval]

/-- What stands in the file for an entry of the table. -/
def entryText (env : DbioEnv) (oid : Objid) : Option Object → Str
  | none => [Lex.ascii "#", text oid, Lex.ascii " recycled\n"].flatten
  | some o => [Lex.ascii "#", text oid, Lex.ascii "\n", writeFields env o o.propval].flatten

variable {db db₀ : Db} {oid : Objid}

theorem writeObject_eq (hi : db.Inv) (oid : Objid) :
    db.writeObject env oid = some (entryText env oid (db.find oid)) := by
  unfold writeObject
  cases ho : db.find oid with
  | none => rfl
  | some o =>
    obtain ⟨l, hc⟩ := Db.exists_chain hi.kin ho
    have hslots : readSlots o.propval 0 o.propval.length = some o.propval := by
      rw [readSlots_eq (Nat.le_of_eq (Nat.zero_add _)), List.drop_zero, List.take_length]
    simp only [(hi.slotLayout ho hc).count, hslots, Option.bind_eq_bind, Option.bind_some]
    rfl

theorem scanNumber_eq {n : Int} (h : IsNum n) {rest : Str} (he : Ends rest) :
    dbioScanf (format (Lex.ascii "#") ++ [.num]) (Lex.ascii "#" ++ (text n ++ rest)) =
      some ([n], rest) := by
  rw [dbioScanf, scanf_format (by decide), scanf_num h he]
  rfl

/-- The entry that was written is appended to the table. -/
theorem readObject_spec (hid : oid = db₀.numObjects) (hn : IsNum oid) {e : Option Object}
    (h : ∀ o, e = some o → o.id = oid ∧ o.Storable ∧ ∀ p ∈ o.propdefs, p.hash = strHash p.name) :
    Reads (readObject env dbio_input_version db₀) (entryText env oid e) fun r =>
      ∃ e', r = some { db₀ with objects := db₀.objects ++ [e'] } ∧
      e'.map Object.plain = e.map Object.plain := by
  intro rest
  have hlast : ¬ oid ≠ db₀.dbLastUsedObjid + 1 :=
    fun hne => hne (by rw [hid, dbLastUsedObjid, Int.sub_add_cancel])
  unfold readObject
  cases e with
  | none =>
    have hnum : dbioScanf (format (Lex.ascii "#") ++ [.num]) (entryText env oid none ++ rest) =
        some ([oid], Lex.ascii " recycled\n" ++ rest) := by
      have hends : Ends (Lex.ascii " recycled\n" ++ rest) := by rintro c ⟨⟩; decide
      rw [← scanNumber_eq hn hends]
      simp [entryText]
    have hline : dbioReadLine 20 (Lex.ascii " recycled\n" ++ rest) =
        some ((Lex.ascii " recycled\n", false), rest) := rfl
    rw [Reader.bind_eq hnum]
    dsimp only
    rw [if_neg hlast, Reader.bind_eq hline]
    exact ⟨_, rfl, none, rfl, rfl⟩
  | some o =>
    obtain ⟨rfl, hs, hash⟩ := h o rfl
    have hnum : dbioScanf (format (Lex.ascii "#") ++ [.num]) (entryText env o.id (some o) ++ rest) =
        some ([o.id], Lex.ascii "\n" ++ (writeFields env o o.propval ++ rest)) := by
      have hends : Ends (Lex.ascii "\n" ++ (writeFields env o o.propval ++ rest)) := by
        rintro c ⟨⟩; decide
      rw [← scanNumber_eq hn hends]
      simp [entryText]
    have hline : dbioReadLine 20 (Lex.ascii "\n" ++ (writeFields env o o.propval ++ rest)) =
        some ((Lex.ascii "\n", false), writeFields env o o.propval ++ rest) := rfl
    obtain ⟨o', ho', hplain⟩ := readFields_spec dbio_input_version hs hash rest
    rw [Reader.bind_eq hnum]
    dsimp only
    rw [if_neg hlast, Reader.bind_eq hline]
    dsimp only
    rw [if_neg (by decide), if_neg (by decide), Reader.bind_eq ho']
    exact ⟨_, rfl, some o', rfl, congrArg some hplain⟩

/-! ## Tables -/

/-- What stands in the file for entries from number `k` on. -/
def entriesText (env : DbioEnv) (k : Nat) : List (Option Object) → Str
  | [] => []
  | e :: es => entryText env k e ++ entriesText env (k + 1) es

theorem entriesText_eq (k : Nat) (es : List (Option Object)) : entriesText env k es =
    ((List.range es.length).map fun (i : Nat) => entryText env ((k + i : Nat) : Int)
      es[i]?.join).flatten := by
  induction es generalizing k with
  | nil => rfl
  | cons e es ih =>
    rw [entriesText, ih, List.length_cons, List.range_succ_eq_map, List.map_cons,
      List.flatten_cons, List.map_map]
    congr 2
    refine List.map_congr_left fun i _ => ?_
    rw [Function.comp_apply, List.getElem?_cons_succ, Nat.succ_eq_add_one,
      Nat.add_right_comm, Nat.add_assoc]

theorem mapM_eq_map {α β : Type} {f : α → Option β} {g : α → β} (h : ∀ x, f x = some (g x))
    (l : List α) :
    l.mapM f = some (l.map g) := by
  rw [funext h]
  exact List.mapM_pure

theorem writeDbFile_eq (env : DbioEnv) (hi : db.Inv) :
    db.writeDbFile env = some (db.writeHeader ++ entriesText env 0 db.objects) := by
  have hobject : ∀ n : Nat, db.writeObject env (n : Objid) = some (entryText env n (db.find n)) :=
    fun n => writeObject_eq hi n
  have hobjects := mapM_eq_map hobject (List.range db.numObjects)
  rw [writeDbFile, hobjects, entriesText_eq]
  simp only [Option.bind_eq_bind, Option.bind_some]
  congr 3
  refine List.map_congr_left fun i _ => ?_
  rw [Nat.zero_add, find, if_pos (Int.natCast_nonneg i), Int.toNat_natCast]

/-- The loop over the objects. -/
theorem readObjects_spec {es : List (Option Object)} (hk : IsNum (db₀.numObjects + es.length : Nat))
    (h : ∀ i o, es[i]? = some (some o) → o.id = ((db₀.numObjects + i : Nat) : Int) ∧ o.Storable ∧
      ∀ p ∈ o.propdefs, p.hash = strHash p.name) :
    Reads (readObjects env dbio_input_version es.length db₀)
    (entriesText env db₀.numObjects es) fun r =>
      ∃ es', r = some { db₀ with objects := db₀.objects ++ es' } ∧
        es'.map (Option.map Object.plain) = es.map (Option.map Object.plain) := by
  induction es generalizing db₀ with
  | nil => exact .pure ⟨[], by rw [List.append_nil], rfl⟩
  | cons e es ih =>
    rw [List.length_cons] at hk
    have hn : IsNum (db₀.numObjects : Int) := by
      have := hk.2
      constructor <;> omega
    refine (readObject_spec rfl hn fun o he => h 0 o (congrArg some he)).bind ?_
    rintro _ ⟨e', rfl, he'⟩
    have hnum : ({ db₀ with objects := db₀.objects ++ [e'] } : Db).numObjects = db₀.numObjects +
      1 := List.length_append
    rw [← hnum]
    refine (ih ?_ fun i o hio => ?_).mono ?_
    · rw [hnum, Nat.add_right_comm]
      exact hk
    · rw [hnum, Nat.add_right_comm]
      exact h (i + 1) o hio
    · rintro _ ⟨es', rfl, hes'⟩
      refine ⟨e' :: es', ?_, ?_⟩
      · rw [List.append_assoc]
        rfl
      · rw [List.map_cons, List.map_cons, he', hes']

/-- What follows the header does not start with a blank. -/
theorem starts_body (users : List Objid) (es : List (Option Object)) {rest : Str}
    (h : Starts rest) :
    Starts (users.flatMap dbioWriteObjid ++ (entriesText env 0 es ++ rest)) := by
  cases users with
  | nil =>
    cases es with
    | nil => exact h
    | cons e es => cases e <;> exact starts_cons (by decide) _
  | cons u users =>
    rw [List.flatMap_cons, dbioWriteObjid, dbioWriteNum, List.append_assoc, List.append_assoc]
    exact starts_text u _

theorem scanHeader_eq {rest : Str} (h : Starts rest) :
    dbioScanf (format headerFormat ++ [.space, .unsigned] ++ format (Lex.ascii " **\n"))
      (headerFormat ++
        (Lex.ascii " " ++ (text Lex.current_version.num ++ (Lex.ascii " **\n" ++ rest)))) =
      some ([(Lex.current_version.num : Int)], rest) := by
  have hends : Ends (Lex.ascii " **\n" ++ rest) := by rintro c ⟨⟩; decide
  have hstars : scanf (format (Lex.ascii " **\n")) (Lex.ascii " **\n" ++ rest) = ([], rest) := by
    show (([] : List Int), rest.dropWhile isSpace) = _
    rw [h]
  rw [dbioScanf, List.append_assoc, scanf_format (by decide)]
  show some (scanf (.space :: .unsigned :: format (Lex.ascii " **\n"))
    (0x20 :: (text Lex.current_version.num ++ (Lex.ascii " **\n" ++ rest)))) = _
  rw [scanf_blank (starts_text _ _), scanf_unsigned (by decide) (by decide) hends, hstars]

/-- The four counts of the header. -/
theorem scanCounts_eq {a b c d : Int} (ha : IsNum a) (hb : IsNum b) (hc : IsNum c) (hd : IsNum d)
    {rest : Str} (h : Starts rest) :
    dbioScanf [.num, .space, .num, .space, .num, .space, .num, .space]
      (dbioWriteNum a ++ (dbioWriteNum b ++ (dbioWriteNum c ++ (dbioWriteNum d ++ rest)))) =
        some ([a, b, c, d], rest) := by
  simp only [dbioWriteNum, List.append_assoc, List.singleton_append]
  rw [dbioScanf, scanf_num ha (ends_newline _), scanf_newline (starts_text _ _),
    scanf_num hb (ends_newline _),
    scanf_newline (starts_text _ _), scanf_num hc (ends_newline _), scanf_newline (starts_text _ _),
    scanf_num hd (ends_newline _), scanf_newline h]
  rfl

theorem nprogs_eq (hs : db.Storable) : db.nprogs = 0 := by
  refine List.sum_eq_zero fun n hn => ?_
  obtain ⟨e, he, rfl⟩ := List.mem_map.mp hn
  cases e with
  | none => rfl
  | some o =>
    obtain ⟨i, hi⟩ := List.mem_iff_getElem?.mp he
    have ho := hs.object i o (find_natCast hi)
    refine List.countP_eq_zero.mpr fun v hv => ?_
    rw [(ho.verbdefs v hv).program]
    exact Bool.false_ne_true

theorem starts_num (n : Int) (rest : Str) : Starts (dbioWriteNum n ++ rest) := by
  rw [dbioWriteNum, List.append_assoc]
  exact starts_text n _

/-- The table is read back, with what follows it left alone. -/
theorem readDbFile_spec (env : DbioEnv) (hi : db.Inv) (hs : db.Storable) {rest : Str}
    (h : Starts rest) :
    ∃ db', readDbFile env (db.writeHeader ++ entriesText env 0 db.objects ++ rest) =
      some (some db', rest) ∧ db.SameTable db' := by
  have hwritten : db.writeHeader ++ entriesText env 0 db.objects ++ rest =
      headerFormat ++ (Lex.ascii " " ++ (text Lex.current_version.num ++
        (Lex.ascii " **\n" ++ (dbioWriteNum db.numObjects ++
        (dbioWriteNum db.nprogs ++ (dbioWriteNum 0 ++ (dbioWriteNum db.allUsers.length ++
          (db.allUsers.flatMap dbioWriteObjid ++
            (entriesText env 0 db.objects ++ rest))))))))) := by
    simp [writeHeader]
  have hzero : IsNum 0 := ⟨by decide, by decide⟩
  have hprogs : IsNum db.nprogs := by
    rw [nprogs_eq hs]
    exact hzero
  have hbody :
      Starts (db.allUsers.flatMap dbioWriteObjid ++ (entriesText env 0 db.objects ++ rest)) :=
    starts_body db.allUsers db.objects h
  have hcounts := scanCounts_eq hs.numObjects hprogs hzero hs.nusers.isNum hbody
  have hreads : Reads (Reader.many dbioReadObjid db.allUsers.length)
      (db.allUsers.flatMap dbioWriteObjid) (· = db.allUsers) :=
    (Reads.many fun u hu => dbioReadNum_spec (hs.allUsers u hu)).mono fun _ => forall₂_eq
  obtain ⟨_, husers, rfl⟩ := hreads (entriesText env 0 db.objects ++ rest)
  let db₀ : Db := { empty with allUsers := db.allUsers }
  have hentries : ∀ i o, db.objects[i]? = some (some o) →
      o.id = ((db₀.numObjects + i : Nat) : Int) ∧ o.Storable ∧
      ∀ p ∈ o.propdefs, p.hash = strHash p.name := by
    intro i o hio
    have ho : db.find i = some o := find_natCast hio
    refine ⟨(hi.ids i o ho).trans (congrArg Int.ofNat (Nat.zero_add i).symm),
      hs.object i o ho, fun p hp => ?_⟩
    exact hi.layout.hash i p (by rwa [propdefsOf_eq ho])
  have hk : IsNum (db₀.numObjects + db.objects.length : Nat) := by
    rw [show db₀.numObjects + db.objects.length = db.numObjects from Nat.zero_add _]
    exact hs.numObjects
  obtain ⟨_, hobjects, es', rfl, hes'⟩ :=
    @readObjects_spec env Lex.current_version.num db₀ db.objects hk hentries rest
  refine ⟨{ db₀ with objects := db₀.objects ++ es' }, ?_, hes', rfl⟩
  have hnusers : ¬ (toInt db.allUsers.length ≠ db.allUsers.length ∨
    (db.allUsers.length : Int) < 0) :=
    not_or.mpr ⟨fun hne => hne (toInt_eq hs.nusers), Int.not_lt.mpr (Int.natCast_nonneg _)⟩
  unfold readDbFile
  rw [hwritten, Reader.bind_eq (scanHeader_eq (starts_num _ _))]
  dsimp only
  rw [if_neg (by decide), Reader.bind_eq hcounts]
  dsimp only
  rw [if_neg hnusers, Int.toNat_natCast, Reader.bind_eq husers, Int.toNat_natCast]
  exact hobjects

theorem SameTable.find {db' : Db} (h : db.SameTable db') (x : Objid) :
    (db'.find x).map Object.plain = (db.find x).map Object.plain := by
  have hentry : ∀ (es : List (Option Object)) (n : Nat),
      ((es.map (Option.map Object.plain))[n]?).join = (es[n]?).join.map Object.plain :=
        fun es n => by
    rw [List.getElem?_map]
    cases es[n]? <;> rfl
  unfold Db.find
  split
  · rw [← hentry, ← hentry, h.objects]
  · rfl

theorem SameTable.links {db' : Db} (h : db.SameTable db') {F : LinkFields}
    (hF : ∀ o, F.get o.plain = F.get o) :
    db'.links F = db.links F := by
  funext x
  have := congrArg (Option.map F.get) (h.find x)
  simpa only [Db.links, Option.map_map, Function.comp_def, hF] using this

/-- A table that was written and read back is the same table, with the same players, and what
follows it in the file is left. `validate_hierarchies` lets it through and clears the two temporary
flags of each object, but changes nothing else. -/
theorem dump_load (env : DbioEnv) (hi : db.Inv) (hs : db.Storable) (tail : Str) :
    ∃ file db' db'', db.writeDbFile env = some file ∧
      readDbFile env (file ++ (Lex.ascii "0 clocks\n" ++ tail)) =
        some (some db', Lex.ascii "0 clocks\n" ++ tail) ∧
      db.SameTable db' ∧ db'.validateHierarchies = some (true, db'') ∧ db''.allUsers = db.allUsers ∧
      db''.numObjects = db.numObjects ∧ ∀ x, db''.find x = (db'.find x).map untemp := by
  have hstart : Starts (Lex.ascii "0 clocks\n" ++ tail) := starts_cons (by decide) _
  obtain ⟨db', hread, hsame⟩ := readDbFile_spec env hi hs hstart
  have hk : (db'.links kin).WF NOTHING := by
    rw [hsame.links fun _ => rfl]
    exact hi.kin
  have hp : (db'.links place).WF NOTHING := by
    rw [hsame.links fun _ => rfl]
    exact hi.place
  obtain ⟨db'', hval, husers, hnum, hfind⟩ := validateHierarchies_of_wf hk hp
  have hlen : db'.numObjects = db.numObjects := by
    have := congrArg List.length hsame.objects
    rwa [List.length_map, List.length_map] at this
  exact ⟨_, db', db'', writeDbFile_eq env hi, hread, hsame, hval, husers.trans hsame.allUsers,
    hnum.trans hlen, hfind⟩

end Db

/-! ## A temporary flag that is set -/

/-- The library where no value is a float or a waif. -/
def DbioEnv.plain : DbioEnv := ⟨fun _ => [], fun _ => 0, fun _ => [], failure⟩

/-- A hole, and an object with a temporary flag. -/
def flagged : Db where
  objects := [
    none,
    some { id := 1, owner := 1, location := NOTHING, contents := NOTHING, next := NOTHING,
           parent := NOTHING,
           child := NOTHING, sibling := NOTHING, name := [], flags :=
             1 <<< FLAG_FIRST_TEMP, verbdefs := [], propdefs := [],
           propval := [] }]
  allUsers := [1]
  vcTable := none
  nextPid := 0

open Db

theorem inv_flagged : flagged.Inv := by
  obtain ⟨o, ho⟩ : ∃ o, listed.find 1 = some o := ⟨_, rfl⟩
  have h : (listed.put 1 { o with flags := 1 <<< FLAG_FIRST_TEMP }).Inv := inv_listed.put ho rfl
  cases ho
  exact h

theorem storable_flagged : flagged.Storable where
  numObjects := ⟨by decide, by decide⟩
  nusers := ⟨by decide, by decide⟩
  allUsers u hu := by
    obtain rfl := List.mem_singleton.mp hu
    exact ⟨by decide, by decide⟩
  object x o ho := by
    rcases lt_two_of_find rfl ho with rfl | rfl
    · cases ho
    · cases ho
      have hnone : IsNum NOTHING := ⟨by decide, by decide⟩
      exact ⟨List.not_mem_nil, ⟨by decide, by decide⟩, hnone, hnone, hnone, hnone, hnone, hnone,
        ⟨by decide, by decide⟩,
        fun _ h => absurd h List.not_mem_nil, ⟨by decide, by decide⟩, fun _ h =>
          absurd h List.not_mem_nil,
        ⟨by decide, by decide⟩, fun _ h => absurd h List.not_mem_nil⟩

theorem storable_stale : stale.Storable where
  numObjects := ⟨by decide, by decide⟩
  nusers := ⟨by decide, by decide⟩
  allUsers u hu := absurd hu List.not_mem_nil
  object x o ho := by
    have hnone : IsNum NOTHING := ⟨by decide, by decide⟩
    obtain ⟨h0, hlt⟩ := find_bounds ho
    obtain ⟨n, rfl⟩ := Int.eq_ofNat_of_zero_le h0
    have hn : n < 3 := hlt
    obtain rfl | rfl | rfl : n = 0 ∨ n = 1 ∨ n = 2 := by omega
    · cases ho
    · cases ho
      exact ⟨List.not_mem_nil, ⟨by decide, by decide⟩, hnone, hnone, hnone, hnone, hnone, hnone,
        ⟨by decide, by decide⟩,
        fun _ h => absurd h List.not_mem_nil, ⟨by decide, by decide⟩, fun _ h =>
          absurd h List.not_mem_nil,
        ⟨by decide, by decide⟩, fun _ h => absurd h List.not_mem_nil⟩
    · cases ho
      exact ⟨List.not_mem_nil, ⟨by decide, by decide⟩, hnone, hnone, ⟨by decide, by decide⟩, hnone,
        hnone, ⟨by decide, by decide⟩,
        ⟨by decide, by decide⟩, fun _ h => absurd h List.not_mem_nil, ⟨by decide, by decide⟩,
        fun _ h => absurd h List.not_mem_nil, ⟨by decide, by decide⟩, fun _ h =>
          absurd h List.not_mem_nil⟩

theorem load_flags : ∃ file db' db'', flagged.writeDbFile .plain = some file ∧
    readDbFile .plain (file ++ Lex.ascii "0 clocks\n") = some (some db', Lex.ascii "0 clocks\n") ∧
    db'.validateHierarchies = some (true, db'') ∧ (db''.find 1).map Object.flags ≠
      (flagged.find 1).map Object.flags := by
  have hstart : Starts (Lex.ascii "0 clocks\n") := starts_cons (by decide) _
  obtain ⟨db', hread, hsame⟩ := readDbFile_spec .plain inv_flagged storable_flagged hstart
  have hlinks : ∀ {F : LinkFields}, (∀ o, F.get o.plain = F.get o) → (flagged.links F).WF NOTHING →
      (db'.links F).WF NOTHING :=
    fun hF h => hsame.links hF ▸ h
  obtain ⟨db'', hval, -, -, hfind⟩ :=
    validateHierarchies_of_wf (hlinks (fun _ => rfl) inv_flagged.kin)
      (hlinks (fun _ => rfl) inv_flagged.place)
  refine ⟨_, db', db'', writeDbFile_eq .plain inv_flagged, hread, hval, ?_⟩
  have hflags : (db'.find 1).map Object.flags = some (1 <<< FLAG_FIRST_TEMP) := by
    have := congrArg (Option.map Object.flags) (hsame.find 1)
    rwa [Option.map_map, Option.map_map] at this
  obtain ⟨o, ho, hf⟩ := Option.map_eq_some_iff.mp hflags
  have hcleared : (untemp o).flags = 0 := by
    show o.flags &&& ~~~(3 <<< FLAG_FIRST_TEMP) = 0
    rw [hf]
    decide
  rw [hfind, ho, Option.map_some, Option.map_some, hcleared]
  decide

/-- What is read back and what `validate_hierarchies` makes of it, for the next of the second
object. -/
theorem load_next : ∃ file db' db'', stale.writeDbFile .plain = some file ∧
    readDbFile .plain (file ++ Lex.ascii "0 clocks\n") = some (some db', Lex.ascii "0 clocks\n") ∧
    db'.validateHierarchies = some (true, db'') ∧ (db''.find 2).map Object.next ≠
      (stale.find 2).map Object.next := by
  have hrun : ((stale.writeDbFile .plain).bind fun file =>
    (readDbFile .plain (file ++ Lex.ascii "0 clocks\n")).map fun r =>
      (r.1.map fun db' => db'.validateHierarchies.map fun v =>
        (v.1, (v.2.find 2).map Object.next), r.2)) =
      some (some (some (true, some NOTHING)), Lex.ascii "0 clocks\n") := by
    decide +kernel
  obtain ⟨file, hwrite, hread⟩ := Option.bind_eq_some_iff.mp hrun
  obtain ⟨⟨loaded, rest⟩, hread, hpair⟩ := Option.map_eq_some_iff.mp hread
  obtain ⟨hloaded, rfl⟩ := Prod.mk.inj hpair
  obtain ⟨db', rfl, hval⟩ := Option.map_eq_some_iff.mp hloaded
  obtain ⟨⟨ok, db''⟩, hval, hpair⟩ := Option.map_eq_some_iff.mp hval
  obtain ⟨rfl, hnext⟩ := Prod.mk.inj hpair
  exact ⟨file, db', db'', hwrite, hread, hval, fun h => absurd (hnext.symm.trans h) (by decide)⟩

/-- A temporary flag is read back, and then cleared; and so is the next of an object that is
nowhere. -/
theorem load_flagged :
    (flagged.Inv ∧ flagged.Storable ∧ ∃ file db' db'', flagged.writeDbFile .plain = some file ∧
      readDbFile .plain (file ++ Lex.ascii "0 clocks\n") = some (some db', Lex.ascii "0 clocks\n") ∧
      db'.validateHierarchies = some (true, db'') ∧ (db''.find 1).map Object.flags ≠
        (flagged.find 1).map Object.flags) ∧
    (stale.Hierarchy kin ∧ stale.Hierarchy place ∧ stale.Layout) ∧ stale.Storable ∧
    ∃ file db' db'', stale.writeDbFile .plain = some file ∧
      readDbFile .plain (file ++ Lex.ascii "0 clocks\n") = some (some db', Lex.ascii "0 clocks\n") ∧
      db'.validateHierarchies = some (true, db'') ∧ (db''.find 2).map Object.next ≠
        (stale.find 2).map Object.next :=
  ⟨⟨inv_flagged, storable_flagged, load_flags⟩, stale_hierarchies, storable_stale, load_next⟩

theorem storable_family : family.Storable where
  numObjects := ⟨by decide, by decide⟩
  nusers := ⟨by decide, by decide⟩
  allUsers _ hu := absurd hu List.not_mem_nil
  object x o ho := by
    have hnone : IsNum NOTHING := ⟨by decide, by decide⟩
    have hzero : IsNum 0 := ⟨by decide, by decide⟩
    rcases lt_two_of_find rfl ho with rfl | rfl
    · cases ho
      refine ⟨List.not_mem_nil, hzero, hnone, hnone, hnone, hnone, ⟨by decide, by decide⟩, hnone,
        ⟨by decide, by decide⟩,
        fun _ h => absurd h List.not_mem_nil, ⟨by decide, by decide⟩, fun p hp =>
          ?_, ⟨by decide, by decide⟩, fun p hp => ?_⟩
      · obtain rfl := List.mem_singleton.mp hp
        decide
      · obtain rfl := List.mem_singleton.mp hp
        exact ⟨.int ⟨by decide, by decide⟩, hzero⟩
    · cases ho
      refine ⟨List.not_mem_nil, hzero, hnone, hnone, hnone, hzero, hnone, hnone,
        ⟨by decide, by decide⟩,
        fun _ h => absurd h List.not_mem_nil, ⟨by decide, by decide⟩, fun _ h =>
          absurd h List.not_mem_nil,
        ⟨by decide, by decide⟩, fun p hp => ?_⟩
      obtain rfl := List.mem_singleton.mp hp
      exact ⟨.clear, hzero⟩

/-- A parent with a property, and a child with the slot for it. -/
theorem dump_load_family : ∃ file db' db'', family.writeDbFile .plain = some file ∧
    readDbFile .plain (file ++ (Lex.ascii "0 clocks\n" ++ [])) =
      some (some db', Lex.ascii "0 clocks\n" ++ []) ∧
    family.SameTable db' ∧ db'.validateHierarchies = some (true, db'') := by
  obtain ⟨file, db', db'', hwrite, hread, hsame, hval, -⟩ :=
    Db.dump_load .plain reachable_family.inv storable_family []
  exact ⟨file, db', db'', hwrite, hread, hsame, hval⟩

end NuMoo
