import NuMoo.Db.Match
import NuMoo.Db.Verbs
import NuMoo.Lib.Slot

/-!
# Verbs by number

The list of verbs of an object in memory, and the functions of `db_verbs.c` and `verbs.c` that add
to it, list it, count their way along it and delete from it. The position of a verb counts from one.

Results:
1. `dbAddVerb_spec`, `dbDeleteVerb_spec`, `bfVerbs_spec`: each function sees the same list.
2. `findIndexedVerb_spec`: the verb that a number finds, which is counted modulo `2 ^ 32`.
3. `numericDescriptors_iff`: which numbers find the verb at their position.
-/

namespace NuMoo

open Linked
open Decimal (isSpace)

/-- The verbs of an object: `o->verbdefs` with the `next` fields, and the other fields of each verb.
A function follows no more links than verbs were ever allocated. -/
structure VerbMem where
  id : Objid
  list : Mem Nat
  verb : Nat → Option Verbdef
  allocated : Nat

/-- A verb descriptor; a string has its address. -/
inductive VerbDesc where
  | num (num : Int)
  | str (str : MooStr)
  | other (v : Var)
deriving Repr

/-- `validate_verb_descriptor` -/
def validateVerbDescriptor : VerbDesc → ErrCode
  | .str _ => .E_NONE
  | .other _ => .E_TYPE
  | .num n => if n ≤ 0 then .E_INVARG else .E_NONE

namespace VerbMem

/-- An object that has been created. -/
def create (id : Objid) : VerbMem := ⟨id, ⟨none, fun _ => none⟩, fun _ => none, 0⟩

/-- A store to `o->verbdefs` or to a `next` field. -/
def store (o : VerbMem) (s : Slot Nat) (p : Option Nat) : VerbMem :=
  { o with list := o.list.store s p }

/-- More turns than any loop over the verbs takes. -/
def bound (o : VerbMem) : Nat := o.allocated + 1

/-- The loop of `db_add_verb`: the last verb, and the number after its own. -/
def lastVerb (o : VerbMem) : Nat → Nat → Int → Option (Nat × Int)
  | 0, _, _ => none
  | n + 1, v, count => do
    match ← o.list.next v with
    | none => return (v, count)
    | some w => o.lastVerb n w (int32 (count + 1))

/-- The verb that `db_add_verb` makes at the address `addr`. -/
def newVerb (addr : Nat) (vnames : MooStr) (owner : Objid) (flags dobj prep iobj : UInt16) :
    Verbdef :=
  { addr, name := vnames, program := none, owner, prep
    perms := flags ||| (dobj <<< Db.DOBJSHIFT) ||| (iobj <<< Db.IOBJSHIFT) }

/-- A verb is allocated and filled in; it is on no list. -/
def alloc (o : VerbMem) (v : Verbdef) : VerbMem where
  id := o.id
  list := { o.list with next := Function.update o.list.next v.addr (some none) }
  verb := Function.update o.verb v.addr (some v)
  allocated := o.allocated + 1

/-- `db_add_verb` -/
def dbAddVerb (o : VerbMem) (addr : Nat) (vnames : MooStr) (owner : Objid)
    (flags dobj prep iobj : UInt16) :
    Option (Int × VerbMem) := do
  let o := o.alloc (newVerb addr vnames owner flags dobj prep iobj)
  match o.list.head with
  | some v =>
    let (last, count) ← o.lastVerb o.bound v 2
    return (count, o.store (.field last) (some addr))
  | none => return (1, o.store .head (some addr))

/-- The loop of `db_count_verbs`. -/
def countFrom (o : VerbMem) : Nat → Option Nat → Int → Option Int
  | 0, _, _ => none
  | _ + 1, none, count => some count
  | n + 1, some v, count => do
    o.countFrom n (← o.list.next v) (int32 (count + 1))

/-- `db_count_verbs` -/
def dbCountVerbs (o : VerbMem) : Option Int := o.countFrom o.bound o.list.head 0

section ForAll

variable {σ : Type} (func : σ → MooStr → Option (σ × Bool))

/-- The loop of `db_for_all_verbs`. -/
def forAllFrom (o : VerbMem) : Nat → Option Nat → σ → Option (σ × Bool)
  | 0, _, _ => none
  | _ + 1, none, data => some (data, false)
  | n + 1, some v, data => do
    let verb ← o.verb v
    let (data, stop) ← func data verb.name
    if stop then return (data, true)
    o.forAllFrom n (← o.list.next v) data

/-- `db_for_all_verbs` -/
def dbForAllVerbs (o : VerbMem) (data : σ) : Option (σ × Bool) :=
  o.forAllFrom func o.bound o.list.head data

end ForAll

/-- `struct verb_data`; an element that has not been stored yet is absent. -/
structure VerbData where
  r : List (Option MooStr)
  i : Int

/-- `add_to_list` -/
def addToList (d : VerbData) (verbName : MooStr) : Option (VerbData × Bool) :=
  let i := int32 (d.i + 1)
  if 1 ≤ i ∧ i ≤ d.r.length then some (⟨d.r.set (i.toNat - 1) (some verbName), i⟩, false) else none

/-- `bf_verbs`, behind its checks. -/
def bfVerbs (o : VerbMem) : Option (List (Option MooStr)) := do
  let count ← o.dbCountVerbs
  if count < 0 then none
  else (o.dbForAllVerbs addToList ⟨List.replicate count.toNat none, 0⟩).map fun (d, _) => d.r

/-- The loop of `db_delete_verb`: the verb in front of `v`. -/
def verbBefore (o : VerbMem) (v : Nat) : Nat → Nat → Option Nat
  | 0, _ => none
  | n + 1, vv => do
    let next ← o.list.next vv
    if next = some v then return vv
    o.verbBefore v n (← next)

/-- Where `db_delete_verb` unlinks `v`: `o->verbdefs`, or the `next` field of the verb in front of
it. -/
def deleteSlot (o : VerbMem) (v : Nat) : Option (Slot Nat) :=
  if o.list.head = some v then some .head
  else o.list.head.bind fun vv => (o.verbBefore v o.bound vv).map Slot.field

/-- `myfree` of a verb -/
def free (o : VerbMem) (v : Nat) : VerbMem :=
  { o with list := { o.list with next := Function.update o.list.next v none },
           verb := Function.update o.verb v none }

/-- `db_delete_verb` -/
def dbDeleteVerb (o : VerbMem) (h : Handle) : Option VerbMem := do
  let v := h.verbdef
  let next ← o.list.next v
  let slot ← o.deleteSlot v
  return (o.store slot next).free v

/-- The loop of `db_find_indexed_verb`. -/
def indexedFrom (o : VerbMem) (index : UInt32) : Nat → Option Nat → UInt32 → Option (Option Handle)
  | 0, _, _ => none
  | _ + 1, none, _ => some none
  | n + 1, some v, i => do
    let i := i + 1
    if i = index then return some ⟨o.id, v⟩
    o.indexedFrom index n (← o.list.next v) i

/-- `db_find_indexed_verb` -/
def dbFindIndexedVerb (o : VerbMem) (index : UInt32) : Option (Option Handle) :=
  o.indexedFrom index o.bound o.list.head 0

/-- The loop of `db_find_defined_verb`. -/
def definedFrom (o : VerbMem) (num : Int) (vname : MooStr) :
    Nat → Option Nat → Int → Option (Option Handle)
  | 0, _, _ => none
  | _ + 1, none, _ => some none
  | n + 1, some v, i => do
    let verb ← o.verb v
    if i = num ∨ verbcasecmp verb.name vname then return some ⟨o.id, v⟩
    o.definedFrom num vname n (← o.list.next v) (int32 (i + 1))

/-- `db_find_defined_verb` -/
def dbFindDefinedVerb (o : VerbMem) (vname : MooStr) (allowNumbers : Bool) :
    Option (Option Handle) :=
  let (num, p) := strtol (cstr vname.text)
  let num := if !allowNumbers || isSpace (vname.text.headD 0) || p ≠ [] then -1 else int32 num
  o.definedFrom num vname o.bound o.list.head 0

/-- `find_described_verb`, for a descriptor that is valid; `flag` is
`support_numeric_verbname_strings`. -/
def findDescribedVerb (o : VerbMem) (flag : Bool) : VerbDesc → Option (Option Handle)
  | .num n => o.dbFindIndexedVerb (UInt32.ofInt n)
  | .str s => o.dbFindDefinedVerb s flag
  | .other _ => none

/-! ## The list -/

/-- The memory holds these verbs in this order. -/
structure Represents (o : VerbMem) (vs : List Verbdef) : Prop where
  holds : o.list.Holds (vs.map Verbdef.addr)
  verb : ∀ v ∈ vs, o.verb v.addr = some v
  nodup : (vs.map Verbdef.addr).Nodup
  allocated : vs.length ≤ o.allocated

/-- What is left of the list at a pointer. -/
structure Rest (o : VerbMem) (p : Option Nat) (vs : List Verbdef) : Prop where
  run : Mem.Run o.list.next p (vs.map Verbdef.addr)
  verb : ∀ v ∈ vs, o.verb v.addr = some v

variable {o : VerbMem} {p : Option Nat} {v : Verbdef} {vs : List Verbdef} {n : Nat}

theorem Represents.rest (h : o.Represents vs) : o.Rest o.list.head vs := ⟨h.holds, h.verb⟩

theorem Represents.lt_bound (h : o.Represents vs) : vs.length < o.bound :=
  Nat.lt_succ_of_le h.allocated

theorem Rest.cases_nil (h : o.Rest p []) : p = none := h.run

theorem Rest.cases_cons (h : o.Rest p (v :: vs)) :
    p = some v.addr ∧ o.verb v.addr = some v ∧ ∃ p', o.list.next v.addr = some p' ∧
      o.Rest p' vs := by
  obtain ⟨rfl, p', hp', hrun⟩ := h.run
  exact ⟨rfl, h.verb v List.mem_cons_self, p', hp', hrun, fun w hw =>
    h.verb w (List.mem_cons_of_mem _ hw)⟩

theorem Represents.create (id : Objid) : (create id).Represents [] :=
  ⟨rfl, by simp, List.nodup_nil, Nat.zero_le _⟩

/-! ## Adding -/

theorem lastVerb_eq (h : o.Rest (some v.addr) (v :: vs)) (hn : vs.length < n) (count : Int) :
    o.lastVerb n v.addr (int32 count) =
      some (((v :: vs).getLast (List.cons_ne_nil v vs)).addr, int32 (count + vs.length)) := by
  induction vs generalizing n v count with
  | nil =>
    obtain ⟨k, rfl⟩ := Nat.exists_eq_add_of_lt hn
    obtain ⟨-, -, p', hp', hrest⟩ := h.cases_cons
    simp [lastVerb, hp', hrest.cases_nil]
  | cons w vs ih =>
    cases n with
    | zero => simp at hn
    | succ n =>
      obtain ⟨-, -, p', hp', hrest⟩ := h.cases_cons
      obtain rfl := hrest.cases_cons.1
      have hcount : int32 (int32 count + 1) = int32 (count + 1) := by
        simp [int32]
      have hturn : o.lastVerb (n + 1) v.addr (int32 count) =
          o.lastVerb n w.addr (int32 (count + 1)) := by
        simp only [lastVerb, hp', Option.bind_eq_bind, Option.bind_some, hcount]
      have hlen : count + 1 + vs.length = count + (w :: vs).length := by
        rw [List.length_cons]
        push_cast
        ring
      rw [hturn, ih hrest (by simpa using hn), List.getLast_cons (List.cons_ne_nil w vs), hlen]

/-- An address that is not in use is that of no verb on the list. -/
theorem Represents.fresh (h : o.Represents vs) {addr : Nat} (ha : o.list.next addr = none) :
    addr ∉ vs.map Verbdef.addr := by
  intro hm
  have := Mem.Run.isSome h.holds hm
  rw [ha] at this
  cases this

/-- A verb that has been allocated is linked in at the end. -/
theorem Represents.link (h : o.Represents vs) (ha : o.list.next v.addr = none) :
    ((o.alloc v).store (endSlot (vs.map Verbdef.addr)) (some v.addr)).Represents (vs ++ [v]) := by
  have hfresh := h.fresh ha
  have hne : ∀ a ∈ vs.map Verbdef.addr, a ≠ v.addr := fun a hm he => hfresh (he ▸ hm)
  have hold : (o.alloc v).list.Holds (vs.map Verbdef.addr ++ []) := by
    rw [List.append_nil]
    exact h.holds.congr fun a hm => Function.update_of_ne (hne a hm) _ _
  have hnew : ((o.alloc v).list.store (endSlot (vs.map Verbdef.addr)) (some v.addr)).next v.addr =
      some none := by
    rw [Mem.store_next_of_ne (Mem.endSlot_ne_field hfresh)]
    exact Function.update_self _ _ _
  refine ⟨?_, ?_, ?_, ?_⟩
  · rw [List.map_append]
    exact Mem.store_endSlot hold h.nodup ⟨rfl, none, hnew, rfl⟩
  · intro w hw
    rcases List.mem_append.mp hw with hw | hw
    · exact (Function.update_of_ne (hne w.addr (List.mem_map_of_mem hw)) _ _).trans (h.verb w hw)
    · rw [List.mem_singleton.mp hw]
      exact Function.update_self _ _ _
  · rw [List.map_append, List.nodup_append]
    exact ⟨h.nodup, List.nodup_singleton _,
      fun a hm b hb => by rw [List.mem_singleton.mp hb]; exact hne a hm⟩
  · rw [List.length_append]
    exact Nat.succ_le_succ h.allocated

/-- `db_add_verb` appends to the list, and returns the new length as an `int`. -/
theorem dbAddVerb_spec (h : o.Represents vs) {addr : Nat} (ha : o.list.next addr = none)
    (vnames : MooStr) (owner : Objid)
    (flags dobj prep iobj : UInt16) :
    ∃ o', o.dbAddVerb addr vnames owner flags dobj prep iobj = some (int32 (vs.length + 1), o') ∧
      o'.id = o.id ∧
      o'.Represents (vs ++ [newVerb addr vnames owner flags dobj prep iobj]) := by
  obtain ⟨newv, hnewv⟩ : ∃ newv, newv = newVerb addr vnames owner flags dobj prep iobj := ⟨_, rfl⟩
  obtain rfl : newv.addr = addr := by rw [hnewv]; rfl
  have hlink := h.link ha
  rw [dbAddVerb, ← hnewv]
  cases vs with
  | nil =>
    have hhead : (o.alloc newv).list.head = none := h.rest.cases_nil
    exact ⟨(o.alloc newv).store .head (some newv.addr), by simp only [hhead]; rfl, rfl, hlink⟩
  | cons v vs =>
    have hrest : (o.alloc newv).Rest (some v.addr) (v :: vs) := by
      have hne : ∀ w ∈ v :: vs, w.addr ≠ newv.addr :=
        fun w hw he => h.fresh ha (he ▸ List.mem_map_of_mem hw)
      refine ⟨?_, fun w hw => (Function.update_of_ne (hne w hw) _ _).trans (h.verb w hw)⟩
      rw [← h.rest.cases_cons.1]
      refine h.holds.congr fun a hm => ?_
      obtain ⟨w, hw, rfl⟩ := List.mem_map.mp hm
      exact Function.update_of_ne (hne w hw) _ _
    have hbound : vs.length < (o.alloc newv).bound :=
      (Nat.lt_of_succ_lt h.lt_bound).trans (Nat.lt_succ_self _)
    have hlast := lastVerb_eq hrest hbound 2
    have hslot : endSlot ((v :: vs).map Verbdef.addr) =
        .field ((v :: vs).getLast (List.cons_ne_nil v vs)).addr := by
      rw [endSlot, List.getLast?_map, List.getLast?_eq_some_getLast (List.cons_ne_nil v vs)]
      rfl
    have hcount : (2 : Int) + vs.length = (v :: vs).length + 1 := by
      rw [List.length_cons]
      push_cast
      ring
    have hhead : (o.alloc newv).list.head = some v.addr := h.rest.cases_cons.1
    rw [hslot] at hlink
    refine ⟨(o.alloc newv).store (.field ((v :: vs).getLast (List.cons_ne_nil v vs)).addr)
      (some newv.addr), ?_, rfl, hlink⟩
    simp only [hhead, Option.bind_eq_bind]
    have htwo : (2 : Int) = int32 2 := by decide
    rw [htwo, hlast, hcount, Option.bind_some, Option.pure_def]

/-! ## Listing -/

theorem countFrom_eq (h : o.Rest p vs) (hn : vs.length < n) (count : Int) :
    o.countFrom n p (int32 count) = some (int32 (count + vs.length)) := by
  induction vs generalizing n p count with
  | nil =>
    obtain ⟨k, rfl⟩ := Nat.exists_eq_add_of_lt hn
    obtain rfl := h.cases_nil
    simp [countFrom]
  | cons v vs ih =>
    cases n with
    | zero => simp at hn
    | succ n =>
      obtain ⟨rfl, -, p', hp', hrest⟩ := h.cases_cons
      have hcount : int32 (int32 count + 1) = int32 (count + 1) := by simp [int32]
      have hlen : count + 1 + vs.length = count + (v :: vs).length := by
        rw [List.length_cons]
        push_cast
        ring
      rw [countFrom, hp', Option.bind_eq_bind, Option.bind_some, hcount,
        ih hrest (by simpa using hn), hlen]

theorem dbCountVerbs_spec (h : o.Represents vs) : o.dbCountVerbs = some (int32 vs.length) := by
  have hcount := countFrom_eq h.rest h.lt_bound 0
  rwa [zero_add] at hcount

/-- One turn of the loop of `db_for_all_verbs`. -/
theorem forAllFrom_cons {σ : Type} {func : σ → MooStr → Option (σ × Bool)} {p' : Option Nat}
    (hv : o.verb v.addr = some v)
    (hp : o.list.next v.addr = some p') (data : σ) :
    o.forAllFrom func (n + 1) (some v.addr) data =
      (func data v.name).bind fun r => if r.2 then some (r.1, true)
        else o.forAllFrom func n p' r.1 := by
  simp only [forAllFrom, hv, hp, Option.bind_eq_bind, Option.bind_some]
  rfl

/-- What `add_to_list` has stored of the names `done`, in a list with room for some more. -/
def stored (done : List Verbdef) (room : Nat) : VerbData :=
  ⟨done.map (fun v => some v.name) ++ List.replicate room none, done.length⟩

theorem addToList_room (done : List Verbdef) (v : Verbdef) (room : Nat)
    (hlen : (done.length : Int) + (room + 1) < 2 ^ 31) :
    addToList (stored done (room + 1)) v.name = some (stored (done ++ [v]) room, false) := by
  have hi : int32 ((stored done (room + 1)).i + 1) = (done.length + 1 : Nat) := by
    refine int32_eq_self ?_ ?_
    · show -2 ^ 31 ≤ (done.length : Int) + 1
      omega
    · show (done.length : Int) + 1 < 2 ^ 31
      omega
  have hset : (stored done (room + 1)).r.set done.length (some v.name) =
      (stored (done ++ [v]) room).r := by
    simp [stored, List.replicate_succ]
  have hr : (stored done (room + 1)).r.length = done.length + (room + 1) := by simp [stored]
  rw [addToList, hi, if_pos (by rw [hr]; omega), Int.toNat_natCast, Nat.add_sub_cancel, hset]
  simp [stored]

theorem addToList_full (done : List Verbdef) (name : MooStr) (hlen : (done.length : Int) < 2 ^ 31) :
    addToList (stored done 0) name = none := by
  have hr : (stored done 0).r.length = done.length := by simp [stored]
  have hbounds := int32_bounds ((stored done 0).i + 1)
  have hmod := int32_emod ((stored done 0).i + 1)
  have hdone : (stored done 0).i = done.length := rfl
  have hout : ¬ (1 ≤ int32 ((stored done 0).i + 1) ∧ int32 ((stored done 0).i + 1) ≤
    (stored done 0).r.length) := by
    rw [hr]
    omega
  simp only [addToList, hout, if_false]

theorem forAllFrom_stored (h : o.Rest p vs) (hn : vs.length < n) (done : List Verbdef) (room : Nat)
    (hlen : (done.length : Int) + room < 2 ^ 31) :
    o.forAllFrom addToList n p (stored done room) =
      if vs.length ≤ room then some (stored (done ++ vs) (room - vs.length), false) else none := by
  induction vs generalizing n p done room with
  | nil =>
    obtain ⟨k, rfl⟩ := Nat.exists_eq_add_of_lt hn
    obtain rfl := h.cases_nil
    simp only [List.length_nil, Nat.zero_le, if_true, List.append_nil, Nat.sub_zero]
    rfl
  | cons v vs ih =>
    cases n with
    | zero => simp at hn
    | succ n =>
      obtain ⟨rfl, hv, p', hp', hrest⟩ := h.cases_cons
      rw [forAllFrom_cons hv hp']
      cases room with
      | zero =>
        rw [addToList_full done v.name (by omega), Option.bind_none, if_neg (by simp)]
      | succ room =>
        rw [addToList_room done v room (by push_cast at hlen; exact hlen), Option.bind_some]
        have hlen' : ((done ++ [v]).length : Int) + room < 2 ^ 31 := by
          rw [List.length_append, List.length_singleton]
          push_cast at hlen ⊢
          omega
        rw [if_neg Bool.false_ne_true, ih hrest (by simpa using hn) _ _ hlen']
        simp [Nat.add_sub_add_right]

/-- `verbs` stores the names in a list of as many elements as `db_count_verbs` has counted. -/
theorem bfVerbs_eq (h : o.Represents vs) {count : Int} (hcount : o.dbCountVerbs = some count)
    (hnonneg : 0 ≤ count)
    (hlt : count < 2 ^ 31) :
    o.bfVerbs = if vs.length ≤ count.toNat then some (stored vs (count.toNat - vs.length)).r
      else none := by
  have hroom : (([] : List Verbdef).length : Int) + count.toNat < 2 ^ 31 := by
    rw [List.length_nil]
    omega
  have hall := forAllFrom_stored h.rest h.lt_bound [] count.toNat hroom
  have hnone : VerbData.mk (List.replicate count.toNat none) 0 = stored [] count.toNat := rfl
  rw [bfVerbs, hcount, Option.bind_eq_bind, Option.bind_some, if_neg (Int.not_lt.mpr hnonneg),
    hnone, dbForAllVerbs, hall]
  split
  · rfl
  · rfl

/-- `verbs` lists the names in order, unless there are more verbs than an `int` counts. -/
theorem bfVerbs_spec (h : o.Represents vs) :
    o.bfVerbs = some (vs.map fun v => some v.name) ↔ (vs.length : Int) < 2 ^ 31 := by
  obtain ⟨count, hc⟩ : ∃ count, count = int32 vs.length := ⟨_, rfl⟩
  have hbounds := int32_bounds vs.length
  have hmod := int32_emod vs.length
  have hcount := dbCountVerbs_spec h
  rw [← hc] at hbounds hmod hcount
  have hsmall : (vs.length : Int) < 2 ^ 31 → count = vs.length := fun hlt => by
    rw [hc, int32_eq_self (by omega) hlt]
  by_cases hneg : count < 0
  · refine iff_of_false (fun hlist => ?_) fun hlt => ?_
    · rw [bfVerbs, hcount, Option.bind_eq_bind, Option.bind_some, if_pos hneg] at hlist
      cases hlist
    · rw [hsmall hlt] at hneg
      omega
  · rw [bfVerbs_eq h hcount (Int.not_lt.mp hneg) hbounds.2]
    split
    · next hle =>
      have hlt : (vs.length : Int) < 2 ^ 31 := by omega
      refine iff_of_true ?_ hlt
      rw [hsmall hlt, Int.toNat_natCast, Nat.sub_self, stored]
      simp
    · next hgt =>
      refine iff_of_false nofun fun hlt => hgt ?_
      rw [hsmall hlt, Int.toNat_natCast]

/-! ## Deleting -/

theorem verbBefore_eq {m r : List Verbdef} {w : Verbdef}
    (h : o.Rest (some w.addr) (w :: m ++ v :: r))
    (hnd : v.addr ∉ (w :: m).map Verbdef.addr) (hn : m.length < n) :
    (o.verbBefore v.addr n w.addr).map Slot.field = some (endSlot ((w :: m).map Verbdef.addr)) := by
  induction m generalizing n w with
  | nil =>
    obtain ⟨k, rfl⟩ := Nat.exists_eq_add_of_lt hn
    obtain ⟨-, -, p', hp', hrest⟩ := h.cases_cons
    obtain rfl := hrest.cases_cons.1
    simp [verbBefore, hp', endSlot]
  | cons x m ih =>
    cases n with
    | zero => simp at hn
    | succ n =>
      obtain ⟨-, -, p', hp', hrest⟩ := h.cases_cons
      obtain rfl := hrest.cases_cons.1
      rw [List.map_cons, List.mem_cons, not_or] at hnd
      have hne : x.addr ≠ v.addr := fun he => hnd.2 (he ▸ List.mem_map_of_mem List.mem_cons_self)
      have hslot : endSlot ((w :: x :: m).map Verbdef.addr) = endSlot ((x :: m).map Verbdef.addr) :=
        endSlot_append (m := [w.addr]) (List.cons_ne_nil _ _)
      simp only [verbBefore, hp', Option.bind_eq_bind, Option.bind_some,
        Option.some.injEq, hne, if_false]
      rw [hslot]
      exact ih hrest hnd.2 (by simpa using hn)

theorem deleteSlot_eq {m r : List Verbdef} (h : o.Represents (m ++ v :: r)) :
    o.deleteSlot v.addr = some (endSlot (m.map Verbdef.addr)) := by
  have hnd := h.nodup
  rw [List.map_append, List.nodup_append] at hnd
  have hv : v.addr ∉ m.map Verbdef.addr := fun hm => hnd.2.2 _ hm _ List.mem_cons_self rfl
  rw [deleteSlot]
  cases m with
  | nil => rw [if_pos h.rest.cases_cons.1]; rfl
  | cons w m =>
    have hhead : o.list.head = some w.addr := h.rest.cases_cons.1
    have hne : w.addr ≠ v.addr := fun he => hv (he ▸ List.mem_cons_self)
    have hlen : m.length < o.bound := by
      have := h.lt_bound
      rw [List.length_append, List.length_cons] at this
      omega
    have hrest := h.rest
    rw [hhead] at hrest
    rw [hhead, if_neg (by simpa using hne), Option.bind_some]
    exact verbBefore_eq hrest hv hlen

/-- `db_delete_verb` takes one verb off the list, wherever it is. -/
theorem dbDeleteVerb_spec {m r : List Verbdef} (h : o.Represents (m ++ v :: r)) {definer : Objid} :
    ∃ o', o.dbDeleteVerb ⟨definer, v.addr⟩ = some o' ∧ o'.id = o.id ∧ o'.Represents (m ++ r) := by
  have hholds := h.holds
  have hnd := h.nodup
  rw [List.map_append, List.map_cons] at hholds hnd
  obtain ⟨next, hnext, -⟩ := Mem.Run.split hholds
  obtain ⟨-, hr, hdisj⟩ := List.nodup_append.mp hnd
  have hslot := deleteSlot_eq h
  refine ⟨(o.store (endSlot (m.map Verbdef.addr)) next).free v.addr, ?_, rfl, ?_, ?_, ?_, ?_⟩
  · simp only [dbDeleteVerb, hnext, hslot, Option.bind_eq_bind, Option.bind_some, Option.pure_def]
  · rw [List.map_append]
    refine (Mem.unlink hholds hnd hnext).congr fun a ha => Function.update_of_ne ?_ _ _
    rintro rfl
    rcases List.mem_append.mp ha with ha | ha
    · exact hdisj _ ha _ List.mem_cons_self rfl
    · exact (List.nodup_cons.mp hr).1 ha
  · intro w hw
    have hne : w.addr ≠ v.addr := fun he => by
      rcases List.mem_append.mp hw with hw | hw
      · exact hdisj _ (List.mem_map_of_mem hw) _ List.mem_cons_self he
      · exact (List.nodup_cons.mp hr).1 (he ▸ List.mem_map_of_mem hw)
    refine (Function.update_of_ne hne _ _).trans (h.verb w ?_)
    exact ((List.sublist_cons_self v r).append_left m).subset hw
  · rw [List.map_append]
    exact hnd.sublist ((List.sublist_cons_self _ _).append_left _)
  · have hlen := h.allocated
    rw [List.length_append, List.length_cons] at hlen
    rw [List.length_append]
    exact (Nat.le_succ _).trans hlen

/-! ## Finding by number -/

/-- The handle of a verb. -/
def handle (o : VerbMem) (v : Verbdef) : Handle := ⟨o.id, v.addr⟩

/-- A search from the number `i` on finds the verb at which the count comes to `index`, modulo `2 ^
32`. -/
theorem indexedFrom_eq (h : o.Rest p vs) (hn : vs.length < n) (index i : UInt32) :
    o.indexedFrom index n p i = some (vs[(index - i - 1).toNat]?.map o.handle) := by
  induction vs generalizing n p i with
  | nil =>
    obtain ⟨k, rfl⟩ := Nat.exists_eq_add_of_lt hn
    obtain rfl := h.cases_nil
    rfl
  | cons v vs ih =>
    cases n with
    | zero => simp at hn
    | succ n =>
      obtain ⟨rfl, -, p', hp', hrest⟩ := h.cases_cons
      simp only [indexedFrom, hp', Option.bind_eq_bind, Option.bind_some]
      split
      · next hi =>
        have hzero : index - i - 1 = 0 := by
          rw [← hi]
          grind
        rw [hzero]
        rfl
      · next hi =>
        have hpos : index - i - 1 ≠ 0 := fun hzero => hi (by grind)
        have hsucc : (index - i - 1).toNat = (index - (i + 1) - 1).toNat + 1 := by
          have hnat : (index - i - 1).toNat ≠ 0 := fun h0 => hpos (UInt32.toNat_inj.mp h0)
          have hstep : index - (i + 1) - 1 = index - i - 1 - 1 := by grind
          have hle : 1 ≤ index - i - 1 :=
            UInt32.le_iff_toNat_le.mpr (Nat.one_le_iff_ne_zero.mpr hnat)
          rw [hstep, UInt32.toNat_sub_of_le _ _ hle]
          exact (Nat.succ_pred hnat).symm
        rw [ih hrest (by simpa using hn), hsucc, List.getElem?_cons_succ]

/-- The position that a number stands for once it has become an `unsigned`. -/
def position (n : Int) : Nat := ((n - 1) % 2 ^ 32).toNat + 1

theorem toNat_ofInt_sub_one (n : Int) : (UInt32.ofInt n - 0 - 1).toNat = position n - 1 := by
  have hsub : UInt32.ofInt n - 0 - 1 = UInt32.ofInt (n - 1) := by
    rw [Int.sub_eq_add_neg, UInt32.ofInt_add, UInt32.ofInt_neg_one]
    grind
  have hlt : ((n - 1) % 2 ^ 32).toNat < 2 ^ 32 := by omega
  rw [hsub, UInt32.ofInt, UInt32.toNat_ofNat_of_lt' hlt, position, Nat.add_sub_cancel]

/-- What a number finds: the verb at its position, modulo `2 ^ 32`. -/
theorem findDescribedVerb_num (h : o.Represents vs) (flag : Bool) (n : Int) :
    o.findDescribedVerb flag (.num n) = some (vs[position n - 1]?.map o.handle) := by
  rw [findDescribedVerb, dbFindIndexedVerb, indexedFrom_eq h.rest h.lt_bound, toNat_ofInt_sub_one]

theorem definedFrom_mem (h : o.Rest p vs) {num i : Int} {vname : MooStr} {found : Handle}
    (hfound : o.definedFrom num vname n p i = some (some found)) :
    ∃ v ∈ vs, o.handle v = found := by
  induction vs generalizing n p i with
  | nil =>
    obtain rfl := h.cases_nil
    cases n with
    | zero => cases hfound
    | succ n => cases hfound
  | cons v vs ih =>
    cases n with
    | zero => cases hfound
    | succ n =>
      obtain ⟨rfl, hv, p', hp', hrest⟩ := h.cases_cons
      simp only [definedFrom, hv, hp', Option.bind_eq_bind, Option.bind_some] at hfound
      split at hfound
      · exact ⟨v, List.mem_cons_self, Option.some.inj (Option.some.inj hfound)⟩
      · obtain ⟨w, hw, heq⟩ := ih hrest hfound
        exact ⟨w, List.mem_cons_of_mem _ hw, heq⟩

/-- A descriptor finds a verb of the list. -/
theorem findDescribedVerb_mem (h : o.Represents vs) {flag : Bool} {desc : VerbDesc} {found : Handle}
    (hfound : o.findDescribedVerb flag desc = some (some found)) :
    ∃ v ∈ vs, o.handle v = found := by
  cases desc with
  | num n =>
    rw [findDescribedVerb_num h, Option.some.injEq, Option.map_eq_some_iff] at hfound
    obtain ⟨v, hv, heq⟩ := hfound
    exact ⟨v, List.mem_of_getElem? hv, heq⟩
  | str s => exact definedFrom_mem h.rest hfound
  | other v => cases hfound

/-- A number finds the verb at its position in the list, or none beyond the end. -/
def Finds (o : VerbMem) (vs : List Verbdef) (n : Int) : Prop :=
  ∀ flag, o.findDescribedVerb flag (.num n) = some (vs[n.toNat - 1]?.map o.handle)

/-- Different positions hold different verbs. -/
theorem Represents.position_inj (h : o.Represents vs) {i j : Nat} {w : Verbdef}
    (hi : vs[i]? = some v) (hj : vs[j]? = some w)
    (hvw : o.handle v = o.handle w) : i = j := by
  have haddr : v.addr = w.addr := congrArg Handle.verbdef hvw
  have hi' : (vs.map Verbdef.addr)[i]? = some v.addr := by rw [List.getElem?_map, hi]; rfl
  have hj' : (vs.map Verbdef.addr)[j]? = some v.addr := by rw [List.getElem?_map, hj, haddr]; rfl
  have hlt : i < (vs.map Verbdef.addr).length := (List.getElem?_eq_some_iff.mp hi').1
  exact (List.getElem?_inj hlt h.nodup).mp (hi'.trans hj'.symm)

/-- A number finds the verb at its position unless it is above `2 ^ 32` and stands for a position in
the list. -/
theorem finds_iff (h : o.Represents vs) {n : Int} (hpos : 0 < n) :
    o.Finds vs n ↔ n ≤ 2 ^ 32 ∨ vs.length < position n := by
  by_cases hle : n ≤ 2 ^ 32
  · refine iff_of_true (fun flag => ?_) (.inl hle)
    have heq : position n = n.toNat := by
      rw [position]
      omega
    rw [findDescribedVerb_num h, heq]
  · have hlt : position n < n.toNat := by
      rw [position]
      omega
    rw [or_iff_right hle]
    constructor
    · intro hfinds
      by_contra hin
      have hin' : position n - 1 < vs.length :=
        Nat.lt_of_lt_of_le (Nat.sub_one_lt (Nat.succ_ne_zero _)) (Nat.not_lt.mp hin)
      have hfound := (findDescribedVerb_num h false n).symm.trans (hfinds false)
      rw [List.getElem?_eq_getElem hin', Option.map_some, Option.some.injEq, eq_comm,
        Option.map_eq_some_iff] at hfound
      obtain ⟨w, hw, hvw⟩ := hfound
      have := h.position_inj hw (List.getElem?_eq_getElem hin') hvw
      omega
    · intro hout flag
      have h₁ : vs[position n - 1]? = none := List.getElem?_eq_none (by omega)
      have h₂ : vs[n.toNat - 1]? = none := List.getElem?_eq_none (by omega)
      rw [findDescribedVerb_num h, h₁, h₂]

/-- The number that `db_add_verb` returns finds the new verb, unless there are more verbs than an
`int` counts. -/
theorem added_iff (h : o.Represents (vs ++ [v])) :
    (0 < int32 (vs.length + 1) ∧ ∀ flag, o.findDescribedVerb flag (.num (int32 (vs.length + 1))) =
      some (some (o.handle v))) ↔
      (vs.length + 1 : Int) < 2 ^ 31 := by
  obtain ⟨count, hc⟩ : ∃ count, count = int32 (vs.length + 1) := ⟨_, rfl⟩
  have hbounds := int32_bounds (vs.length + 1)
  rw [← hc] at hbounds ⊢
  have hlast : (vs ++ [v])[vs.length]? = some v := by simp
  constructor
  · rintro ⟨hpos, hfound⟩
    have hfinds := (finds_iff h hpos).mpr (.inl (by omega))
    have heq := Option.some.inj ((hfinds false).symm.trans (hfound false))
    obtain ⟨w, hw, hvw⟩ := Option.map_eq_some_iff.mp heq
    have := h.position_inj hw hlast hvw
    omega
  · intro hlt
    obtain rfl : count = vs.length + 1 := by rw [hc, int32_eq_self (by omega) hlt]
    refine ⟨by omega, fun flag => ?_⟩
    have hnat : ((vs.length : Int) + 1).toNat - 1 = vs.length := by omega
    rw [(finds_iff h (by omega)).mpr (.inl (by omega)) flag, hnat, hlast, Option.map_some]

end VerbMem

/-! ## Histories -/

/-- Objects that are made by adding verbs and deleting verbs that were found. -/
inductive VerbHistory : VerbMem → Prop
  | create (id : Objid) : VerbHistory (.create id)
  | add {o o' : VerbMem} {addr : Nat} {vnames : MooStr} {owner : Objid}
      {flags dobj prep iobj : UInt16} {count : Int} :
      VerbHistory o → o.list.next addr = none →
      o.dbAddVerb addr vnames owner flags dobj prep iobj = some (count, o') → VerbHistory o'
  | delete {o o' : VerbMem} {flag : Bool} {desc : VerbDesc} {h : Handle} :
      VerbHistory o → o.findDescribedVerb flag desc = some (some h) →
        o.dbDeleteVerb h = some o' → VerbHistory o'

open VerbMem

theorem VerbHistory.represents {o : VerbMem} (h : VerbHistory o) : ∃ vs, o.Represents vs := by
  induction h with
  | create id => exact ⟨[], .create id⟩
  | add _ hfree hadd ih =>
    obtain ⟨vs, hvs⟩ := ih
    obtain ⟨o', ho', -, hrep⟩ := dbAddVerb_spec hvs hfree _ _ _ _ _ _
    obtain ⟨-, rfl⟩ := Prod.mk.inj (Option.some.inj (ho'.symm.trans hadd))
    exact ⟨_, hrep⟩
  | delete _ hfind hdel ih =>
    obtain ⟨vs, hvs⟩ := ih
    obtain ⟨v, hv, rfl⟩ := findDescribedVerb_mem hvs hfind
    obtain ⟨m, r, rfl⟩ := List.append_of_mem hv
    obtain ⟨o', ho', -, hrep⟩ := dbDeleteVerb_spec hvs
    cases ho'.symm.trans hdel
    exact ⟨_, hrep⟩

/-- In every history numbers address the list that `verbs` returns, except a number above `2 ^ 32`
that stands for a position in the list; additions and deletions keep the order of the other
verbs. -/
theorem numericDescriptors_iff {o : VerbMem} (h : VerbHistory o) :
    ∃ vs, o.Represents vs ∧
      (o.bfVerbs = some (vs.map fun v => some v.name) ↔ (vs.length : Int) < 2 ^ 31) ∧
      (∀ n : Int, 0 < n → n < 2 ^ 63 → (o.Finds vs n ↔ n ≤ 2 ^ 32 ∨ vs.length < position n)) ∧
      (∀ addr vnames owner flags dobj prep iobj, o.list.next addr = none →
        ∃ count o', o.dbAddVerb addr vnames owner flags dobj prep iobj = some (count, o') ∧
          o'.Represents (vs ++ [newVerb addr vnames owner flags dobj prep iobj]) ∧
          ((0 < count ∧ ∀ flag, o'.findDescribedVerb flag (.num count) =
              some (some (o'.handle (newVerb addr vnames owner flags dobj prep iobj)))) ↔
              (vs.length + 1 : Int) < 2 ^ 31)) ∧
      ∀ k v, vs[k]? = some v → ∃ o', o.dbDeleteVerb (o.handle v) = some o' ∧
      o'.Represents (vs.eraseIdx k) := by
  obtain ⟨vs, hvs⟩ := h.represents
  refine ⟨vs, hvs, bfVerbs_spec hvs, fun n hpos _ => finds_iff hvs hpos, ?_, ?_⟩
  · intro addr vnames owner flags dobj prep iobj hfree
    obtain ⟨o', ho', -, hrep⟩ := dbAddVerb_spec hvs hfree vnames owner flags dobj prep iobj
    exact ⟨_, o', ho', hrep, added_iff hrep⟩
  · intro k v hv
    obtain ⟨hk, hkv⟩ := List.getElem?_eq_some_iff.mp hv
    have hsplit : vs = vs.take k ++ v :: vs.drop (k + 1) := by
      rw [← hkv, List.getElem_cons_drop, List.take_append_drop]
    rw [hsplit] at hvs
    obtain ⟨o', ho', -, hrep⟩ := dbDeleteVerb_spec hvs
    exact ⟨o', ho', by rwa [List.eraseIdx_eq_take_drop_succ]⟩

/-- The verb `look` of object 7. -/
def look : Verbdef := newVerb 100 ⟨8, [108, 111, 111, 107]⟩ 2 0 0 0 0

/-- Object 7 with that verb only. -/
def looker : VerbMem := ((VerbMem.create 7).alloc look).store .head (some 100)

theorem looker_history : VerbHistory looker :=
  .add (.create 7) rfl rfl

theorem looker_represents : looker.Represents [look] :=
  (Represents.create 7).link (v := look) rfl

/-- The names of two more verbs. -/
def takeName : MooStr := ⟨9, [116, 97, 107, 101]⟩

def dropName : MooStr := ⟨10, [100, 114, 111, 112]⟩

/-- The same object with a verb more, and with two. -/
def taker : VerbMem := ((looker.dbAddVerb 101 takeName 2 0 0 0 0).get rfl).2

def dropper : VerbMem := ((taker.dbAddVerb 102 dropName 2 0 0 0 0).get rfl).2

/-- The verb in the middle is deleted. -/
def looker2 : VerbMem := (dropper.dbDeleteVerb ⟨7, 101⟩).get rfl

theorem looker2_history : VerbHistory looker2 := by
  have htake : looker.dbAddVerb 101 takeName 2 0 0 0 0 = some (2, taker) := rfl
  have hdrop : taker.dbAddVerb 102 dropName 2 0 0 0 0 = some (3, dropper) := rfl
  have hfound : dropper.findDescribedVerb false (.num 2) = some (some ⟨7, 101⟩) := rfl
  exact .delete (.add (.add looker_history rfl htake) rfl hdrop) hfound rfl

theorem looker_numbers : dropper.bfVerbs = some [some look.name, some takeName, some dropName] ∧
    looker2.bfVerbs = some [some look.name, some dropName] ∧
    ∃ vs, looker2.Represents vs ∧
      (looker2.bfVerbs = some (vs.map fun v => some v.name) ↔ (vs.length : Int) < 2 ^ 31) ∧
      (∀ n : Int, 0 < n → n < 2 ^ 63 → (looker2.Finds vs n ↔ n ≤ 2 ^ 32 ∨ vs.length < position n)) ∧
      (∀ addr vnames owner flags dobj prep iobj, looker2.list.next addr = none →
        ∃ count o', looker2.dbAddVerb addr vnames owner flags dobj prep iobj = some (count, o') ∧
          o'.Represents (vs ++ [newVerb addr vnames owner flags dobj prep iobj]) ∧
          ((0 < count ∧ ∀ flag, o'.findDescribedVerb flag (.num count) =
              some (some (o'.handle (newVerb addr vnames owner flags dobj prep iobj)))) ↔
              (vs.length + 1 : Int) < 2 ^ 31)) ∧
      ∀ k v, vs[k]? = some v → ∃ o', looker2.dbDeleteVerb (looker2.handle v) = some o' ∧
      o'.Represents (vs.eraseIdx k) :=
  ⟨by decide +kernel, by decide +kernel, numericDescriptors_iff looker2_history⟩

/-- The number `2 ^ 32 + 1` finds the only verb of an object. -/
theorem numericDescriptors_narrowed :
    ¬ ∀ o, VerbHistory o → ∀ vs, o.Represents vs → ∀ n : Int, 0 < n → n < 2 ^ 63 →
    o.Finds vs n := by
  intro h
  have hfinds :=
    h looker looker_history [look] looker_represents (2 ^ 32 + 1) (by decide) (by decide)
  rcases (finds_iff looker_represents (by decide)).mp hfinds with hle | hlt
  · exact absurd hle (by decide)
  · exact absurd hlt (by decide)

end NuMoo
