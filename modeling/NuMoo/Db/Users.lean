import NuMoo.Db.ListCells
import NuMoo.Db.Runs

/-!
# What leaves the users alone

Most operations of the database change neither the flag of a user nor `all_users`.

Results:
1. `dbChangeParent_users`, `dbChangeLocation_users`: the operations on the hierarchies.
2. `bfCreate_users`, `bfRecycleToDestroy_users`: `create`, and `recycle` up to `db_destroy_object`.
3. `destroyObject_users`, `setFlag_users`, `renumberObject_users`: the operations that do change
   them.
-/

namespace NuMoo

open Linked

namespace Db

variable {db db' db'' : Db} {oid : Objid} {o : Object} {F : LinkFields}

/-- The same objects are users, and the list of them is the same. -/
structure SameUsers (db db' : Db) : Prop where
  allUsers : db'.allUsers = db.allUsers
  isUser : ∀ x, db'.isUser x = db.isUser x

theorem isUser_eq (x : Objid) :
    db.isUser x = (((db.find x).map Object.flags).map fun f => f &&& ObjectFlag.FLAG_USER.mask !=
      0).getD false := by
  rw [isUser, validWithFlag, dbObjectHasFlag, Option.map_map]
  rfl

theorem isUser_congr {x y : Objid}
    (h : (db'.find y).map Object.flags = (db.find x).map Object.flags) :
    db'.isUser y = db.isUser x := by
  rw [isUser_eq, isUser_eq, h]

theorem isUser_of_find_none (h : db.find oid = none) : db.isUser oid = false := by
  rw [isUser_eq, h]
  rfl

theorem exists_of_isUser (h : db.isUser oid = true) : ∃ o, db.find oid = some o := by
  cases ho : db.find oid with
  | some o => exact ⟨o, rfl⟩
  | none =>
    rw [isUser_of_find_none ho] at h
    cases h

namespace SameUsers

theorem refl (db : Db) : SameUsers db db := ⟨rfl, fun _ => rfl⟩

theorem trans (h : SameUsers db db') (h' : SameUsers db' db'') : SameUsers db db'' :=
  ⟨h'.allUsers.trans h.allUsers, fun x => (h'.isUser x).trans (h.isUser x)⟩

theorem of_find (hu : db'.allUsers = db.allUsers) (h : db'.find = db.find) : SameUsers db db' :=
  ⟨hu, fun x => isUser_congr (by rw [h])⟩

theorem put (ho : db.find oid = some o) {o' : Object} (hf : o'.flags = o.flags) :
    SameUsers db (db.put oid o') := by
  refine ⟨rfl, fun x => isUser_congr ?_⟩
  by_cases hx : x = oid
  · subst hx
    rw [find_put_self ho, ho, Option.map_some, Option.map_some, hf]
  · rw [find_put_of_ne ho hx]

theorem modify {f : Object → Object} (h : db.modify oid f = some db')
    (hf : ∀ o, (f o).flags = o.flags) : SameUsers db db' := by
  obtain ⟨o, ho, rfl⟩ := Option.map_eq_some_iff.mp h
  exact .put ho (hf o)

theorem affected (db : Db) : SameUsers db db.affectedCallableVerbLookup :=
  .of_find (by unfold affectedCallableVerbLookup; split <;> rfl) (find_affected db)

end SameUsers

/-! ## The hierarchies -/

/-- The links of `F` are not the flags. -/
def KeepsFlags (F : LinkFields) : Prop := ∀ c o, (F.set c o).flags = o.flags

theorem keepsFlags_kin : KeepsFlags kin := fun _ _ => rfl

theorem keepsFlags_place : KeepsFlags place := fun _ _ => rfl

theorem llRemove_users (hF : KeepsFlags F) {w x : Objid} (h : db.llRemove F w x = some db') :
    SameUsers db db' := by
  obtain ⟨ow, -, h⟩ := Option.bind_eq_some_iff.mp h
  obtain ⟨ox, -, h⟩ := Option.bind_eq_some_iff.mp h
  split at h
  · obtain ⟨db₁, h₁, h⟩ := Option.bind_eq_some_iff.mp h
    exact (SameUsers.modify h₁ fun _ => hF _ _).trans (.modify h fun _ => hF _ _)
  · obtain ⟨prev, -, h⟩ := Option.bind_eq_some_iff.mp h
    cases prev with
    | none => exact .modify h fun _ => hF _ _
    | some lid =>
      obtain ⟨db₁, h₁, h⟩ := Option.bind_eq_some_iff.mp h
      exact (SameUsers.modify h₁ fun _ => hF _ _).trans (.modify h fun _ => hF _ _)

theorem llAppend_users (hF : KeepsFlags F) {w x : Objid} (h : db.llAppend F w x = some db') :
    SameUsers db db' := by
  obtain ⟨ow, -, h⟩ := Option.bind_eq_some_iff.mp h
  split at h
  · obtain ⟨db₁, h₁, h⟩ := Option.bind_eq_some_iff.mp h
    exact (SameUsers.modify h₁ fun _ => hF _ _).trans (.modify h fun _ => hF _ _)
  · obtain ⟨lid, -, h⟩ := Option.bind_eq_some_iff.mp h
    obtain ⟨db₁, h₁, h⟩ := Option.bind_eq_some_iff.mp h
    exact (SameUsers.modify h₁ fun _ => hF _ _).trans (.modify h fun _ => hF _ _)

/-- A step that is taken only in one case. -/
theorem SameUsers.ite {p : Prop} [Decidable p] {r : Option Db}
    (hr : ∀ {db₁}, r = some db₁ → SameUsers db db₁)
    (h : (if p then r else some db) = some db') : SameUsers db db' := by
  split at h
  · exact hr h
  · cases h
    exact .refl db

theorem fixProps_users {parentLocal old newbie common : Nat}
    (h : db.fixProps oid parentLocal old newbie common = some db') :
    SameUsers db db' := by
  refine visit_frame (R := SameUsers) .refl .trans (fun x b s s' hact => ?_) h
  obtain ⟨me, hme, hact⟩ := Option.bind_eq_some_iff.mp hact
  obtain ⟨a, -, hact⟩ := Option.bind_eq_some_iff.mp hact
  obtain ⟨ownSlots, -, hact⟩ := Option.bind_eq_some_iff.mp hact
  obtain ⟨newSlots, -, hact⟩ := Option.bind_eq_some_iff.mp hact
  obtain ⟨commonSlots, -, hact⟩ := Option.bind_eq_some_iff.mp hact
  cases hact
  exact .put hme rfl

theorem fixProperties_users {oldParent : Objid}
    (h : db.dbprivFixPropertiesAfterChparent oid oldParent = some db') :
    SameUsers db db' := by
  obtain ⟨o, -, h⟩ := Option.bind_eq_some_iff.mp h
  obtain ⟨common, -, h⟩ := Option.bind_eq_some_iff.mp h
  obtain ⟨commonProps, -, h⟩ := Option.bind_eq_some_iff.mp h
  obtain ⟨oldProps, -, h⟩ := Option.bind_eq_some_iff.mp h
  obtain ⟨newProps, -, h⟩ := Option.bind_eq_some_iff.mp h
  exact fixProps_users h

theorem dbChangeParent_users {parent : Objid} {b : Bool}
    (h : db.dbChangeParent oid parent = some (b, db')) :
    SameUsers db db' := by
  obtain ⟨ok, -, h⟩ := Option.bind_eq_some_iff.mp h
  split at h
  · cases h
    exact .refl db
  · obtain ⟨o, -, h⟩ := Option.bind_eq_some_iff.mp h
    obtain ⟨db₁, h₁, h⟩ := Option.bind_eq_some_iff.mp h
    obtain ⟨db₂, h₂, h⟩ := Option.bind_eq_some_iff.mp h
    obtain ⟨db₃, h₃, h⟩ := Option.bind_eq_some_iff.mp h
    obtain ⟨db₄, h₄, h⟩ := Option.bind_eq_some_iff.mp h
    cases h
    have hflush : SameUsers db (if o.child = NOTHING ∧ o.verbdefs = [] then db
      else db.affectedCallableVerbLookup) := by
      split
      · exact .refl db
      · exact .affected db
    exact hflush.trans ((SameUsers.ite (llRemove_users keepsFlags_kin) h₁).trans
      ((SameUsers.ite (llAppend_users keepsFlags_kin) h₂).trans
        ((SameUsers.modify h₃ fun _ => rfl).trans (fixProperties_users h₄))))

theorem dbChangeLocation_users {location : Objid}
    (h : db.dbChangeLocation oid location = some db') : SameUsers db db' := by
  obtain ⟨o, -, h⟩ := Option.bind_eq_some_iff.mp h
  obtain ⟨db₁, h₁, h⟩ := Option.bind_eq_some_iff.mp h
  obtain ⟨db₂, h₂, h⟩ := Option.bind_eq_some_iff.mp h
  exact (SameUsers.ite (llRemove_users keepsFlags_place) h₁).trans
    ((SameUsers.ite (llAppend_users keepsFlags_place) h₂).trans (.modify h fun _ => rfl))

/-! ## create and recycle -/

/-- A new object is no user. -/
theorem createObject_users (db : Db) (junk : Objid) : SameUsers db (db.dbCreateObject junk).2 := by
  refine ⟨rfl, fun x => ?_⟩
  by_cases hx : x = db.numObjects
  · subst hx
    rw [isUser_of_find_none find_numObjects, isUser_eq, find_create, if_pos rfl, Option.map_some,
      Option.map_some, Option.getD_some]
    exact (by decide : ((0 : UInt32) &&& ObjectFlag.FLAG_USER.mask != 0) = false)
  · exact isUser_congr (by rw [find_create, if_neg hx])

theorem bfCreate_users {parent progr junk : Objid} {owner : Option Objid}
    {call : CallVerb} {p : Package}
    (h : db.bfCreate parent owner progr junk call = some (p, db')) : SameUsers db db' := by
  obtain ⟨refused, -, h⟩ := Option.bind_eq_some_iff.mp h
  split at h
  · cases h
    exact .refl db
  · obtain ⟨db₁, h₁, h⟩ := Option.bind_eq_some_iff.mp h
    obtain ⟨db₂, h₂, h⟩ := Option.bind_eq_some_iff.mp h
    obtain ⟨⟨b, db₃⟩, h₃, h⟩ := Option.bind_eq_some_iff.mp h
    have hu : SameUsers db db₃ :=
      (createObject_users db junk).trans ((SameUsers.modify h₁ fun _ => rfl).trans
      ((SameUsers.modify h₂ fun _ => rfl).trans (dbChangeParent_users h₃)))
    dsimp only at h
    split at h <;> cases h <;> exact hu

theorem moveToNothing_users {call : CallVerb} {b : Bool}
    (h : db.moveToNothing oid call = some (b, db')) : SameUsers db db' := by
  obtain ⟨o, -, h⟩ := Option.bind_eq_some_iff.mp h
  obtain ⟨db₁, h₁, h⟩ := Option.bind_eq_some_iff.mp h
  cases h
  exact dbChangeLocation_users h₁

theorem recycleContents_users {call : CallVerb} {n : Nat} {b : Bool}
    (h : db.recycleContents oid call n = some (b, db')) :
    SameUsers db db' := by
  induction n generalizing db with
  | zero => cases h
  | succ n ih =>
    obtain ⟨o, -, h⟩ := Option.bind_eq_some_iff.mp h
    dsimp only at h
    split at h
    · cases h
      exact .refl _
    · obtain ⟨⟨called, db₁⟩, h₁, h⟩ := Option.bind_eq_some_iff.mp h
      have hu := moveToNothing_users h₁
      cases called with
      | true =>
        cases h
        exact hu
      | false => exact hu.trans (ih h)

theorem recycleChildren_users {n : Nat} {results : List Bool}
    (h : db.recycleChildrenResults oid n = some (results, db')) :
    SameUsers db db' := by
  induction n generalizing db results with
  | zero => cases h
  | succ n ih =>
    obtain ⟨o, -, h⟩ := Option.bind_eq_some_iff.mp h
    split at h
    · cases h
      exact .refl _
    · obtain ⟨⟨changed, db₁⟩, h₁, h⟩ := Option.bind_eq_some_iff.mp h
      obtain ⟨⟨results', db₂⟩, h₂, h⟩ := Option.bind_eq_some_iff.mp h
      cases h
      exact (dbChangeParent_users h₁).trans (ih h₂)

theorem bfRecycleToDestroy_users {progr : Objid} {call : CallVerb} {r : Package ⊕ List Bool}
    (h : db.bfRecycleToDestroy oid progr call = some (r, db')) : SameUsers db db' := by
  unfold bfRecycleToDestroy at h
  split at h
  · cases h
    exact .refl db
  obtain ⟨⟨called, db₁⟩, h₁, h⟩ := Option.bind_eq_some_iff.mp h
  have hu₁ := recycleContents_users h₁
  cases called with
  | true =>
    cases h
    exact hu₁
  | false =>
    obtain ⟨o, -, h⟩ := Option.bind_eq_some_iff.mp h
    obtain ⟨⟨called, db₂⟩, h₂, h⟩ := Option.bind_eq_some_iff.mp h
    have hu₂ : SameUsers db₁ db₂ := by
      split at h₂
      · exact moveToNothing_users h₂
      · cases h₂
        exact .refl _
    cases called with
    | true =>
      cases h
      exact hu₁.trans hu₂
    | false =>
      obtain ⟨⟨results, db₃⟩, h₃, h⟩ := Option.bind_eq_some_iff.mp h
      obtain ⟨⟨changed, db₄⟩, h₄, h⟩ := Option.bind_eq_some_iff.mp h
      cases h
      exact hu₁.trans (hu₂.trans ((recycleChildren_users h₃).trans (dbChangeParent_users h₄)))

/-! ## What changes the users -/

/-- The list has every user once, and nothing else. -/
structure ExactUsers (db : Db) : Prop where
  nodup : db.allUsers.Nodup
  mem_iff : ∀ x, x ∈ db.allUsers ↔ db.isUser x = true

theorem SameUsers.exact (h : SameUsers db db') (hx : db.ExactUsers) : db'.ExactUsers :=
  ⟨h.allUsers ▸ hx.nodup, fun x => by rw [h.allUsers, h.isUser, hx.mem_iff]⟩

theorem mem_setadd {l : List Objid} {x y : Objid} : y ∈ setadd l x ↔ y ∈ l ∨ y = x := by
  unfold setadd
  split
  · next hx => exact ⟨.inl, fun h => h.elim id fun h => h ▸ hx⟩
  · rw [List.mem_append, List.mem_singleton]

theorem nodup_setadd {l : List Objid} (h : l.Nodup) (x : Objid) : (setadd l x).Nodup := by
  unfold setadd
  split
  · exact h
  · next hx => exact List.nodup_append'.mpr ⟨h, List.nodup_singleton x, by simpa using hx⟩

theorem mem_setremove {l : List Objid} (h : l.Nodup) {x y : Objid} :
    y ∈ setremove l x ↔ y ∈ l ∧ y ≠ x := by
  rw [setremove, h.mem_erase_iff, and_comm]

/-- An object becomes a user, or stops to be one. -/
theorem ExactUsers.update {b : Bool} (hx : db.ExactUsers)
    (hu : db'.allUsers = if b then setadd db.allUsers oid else setremove db.allUsers oid)
    (hf : ∀ x, db'.isUser x = if x = oid then b else db.isUser x) : db'.ExactUsers := by
  cases b with
  | true =>
    rw [if_pos rfl] at hu
    refine ⟨hu ▸ nodup_setadd hx.nodup oid, fun x => ?_⟩
    rw [hu, mem_setadd, hx.mem_iff, hf]
    split
    · next he => simp [he]
    · next he => simp [he]
  | false =>
    rw [if_neg Bool.false_ne_true] at hu
    refine ⟨hu ▸ hx.nodup.erase oid, fun x => ?_⟩
    rw [hu, mem_setremove hx.nodup, hx.mem_iff, hf]
    split
    · next he => simp [he]
    · next he => simp [he]

/-- What `db_destroy_object` does to the users. -/
theorem destroyObject_users (h : db.dbDestroyObject oid = some db') :
    (db'.allUsers = if db.isUser oid then setremove db.allUsers oid else db.allUsers) ∧
      ∀ x, db'.isUser x = if x = oid then false else db.isUser x := by
  have ha := SameUsers.affected db
  obtain ⟨o, ho, h⟩ := Option.bind_eq_some_iff.mp h
  simp only [Option.ite_none_left_eq_some, Option.ite_none_right_eq_some, Option.some.injEq] at h
  obtain ⟨-, -, rfl⟩ := h
  rw [ha.isUser, ha.allUsers]
  obtain ⟨h0, hlt⟩ := find_bounds ho
  have hcleared : ∀ {db₁ : Db}, db₁.objects = db.affectedCallableVerbLookup.objects → ∀ x,
      (db₁.clearEntry oid).isUser x = if x = oid then false else db.isUser x := by
    intro db₁ he x
    have hfind : db₁.find = db.affectedCallableVerbLookup.find := by
      funext y
      rw [find, find, he]
    have hlt₁ : oid.toNat < db₁.numObjects := by rwa [numObjects, he]
    have hx := find_set (e := none) (x := x) h0 hlt₁
    rw [hfind] at hx
    split
    · next he => exact isUser_of_find_none (hx.trans (if_pos he))
    · next hne =>
        exact (isUser_congr (congrArg (Option.map Object.flags) (hx.trans (if_neg hne)))).trans
          (ha.isUser x)
  split
  · exact ⟨rfl, hcleared rfl⟩
  · exact ⟨ha.allUsers, hcleared rfl⟩

theorem ExactUsers.destroy (hx : db.ExactUsers) (h : db.dbDestroyObject oid = some db') :
    db'.ExactUsers := by
  obtain ⟨hu, hf⟩ := destroyObject_users h
  refine ExactUsers.update (b := false) hx ?_ hf
  rw [hu, if_neg Bool.false_ne_true]
  split
  · rfl
  · next hn => exact (List.erase_of_not_mem fun hm => hn ((hx.mem_iff oid).mp hm)).symm

theorem mask_of_set (f m : UInt32) : (f ||| m) &&& m = m := by
  rw [← UInt32.toBitVec_inj, UInt32.toBitVec_and, UInt32.toBitVec_or]
  ext i hi
  simp only [BitVec.getElem_and, BitVec.getElem_or]
  grind

theorem mask_of_clear (f m : UInt32) : (f &&& ~~~m) &&& m = 0 := by
  rw [← UInt32.toBitVec_inj, UInt32.toBitVec_and, UInt32.toBitVec_and, UInt32.toBitVec_not]
  ext i hi
  simp

/-- What `db_set_object_flag` and `db_clear_object_flag` do to the users. -/
theorem setFlag_users {b : Bool} (h : (if b then db.dbSetObjectFlag oid .FLAG_USER
    else db.dbClearObjectFlag oid .FLAG_USER) = some db') :
    (db'.allUsers = if b then setadd db.allUsers oid else setremove db.allUsers oid) ∧
      ∀ x, db'.isUser x = if x = oid then b else db.isUser x := by
  have key : ∀ {f : Object → Object} {db₁ : Db}, db.modify oid f = some db₁ →
      (∀ o, ((f o).flags &&& ObjectFlag.FLAG_USER.mask != 0) = b) → db₁.allUsers = db.allUsers ∧
      ∀ x, db₁.isUser x = if x = oid then b else db.isUser x := by
    intro f db₁ h₁ hf
    obtain ⟨o, ho, rfl⟩ := Option.map_eq_some_iff.mp h₁
    refine ⟨rfl, fun x => ?_⟩
    split
    · next hx =>
      rw [isUser_eq, hx, find_put_self ho, Option.map_some, Option.map_some, Option.getD_some, hf]
    · next hx => exact isUser_congr (by rw [find_put_of_ne ho hx])
  cases b with
  | true =>
    rw [if_pos rfl] at h
    obtain ⟨db₁, h₁, h⟩ := Option.bind_eq_some_iff.mp h
    obtain ⟨hu, hf⟩ := key h₁ fun o => by rw [mask_of_set]; decide
    cases h
    exact ⟨congrArg (setadd · oid) hu, hf⟩
  | false =>
    rw [if_neg Bool.false_ne_true] at h
    obtain ⟨db₁, h₁, h⟩ := Option.bind_eq_some_iff.mp h
    obtain ⟨hu, hf⟩ := key h₁ fun o => by rw [mask_of_clear]; decide
    cases h
    exact ⟨congrArg (setremove · oid) hu, hf⟩

/-- A renumbering replaces the old number among the users. -/
theorem RenumberedTo.users {old newbie : Objid} (h : db.RenumberedTo db' old newbie) (x : Objid) :
    db'.isUser x = if x = old then false else if x = newbie then db.isUser old
      else db.isUser x := by
  have hflags : ∀ r : Option Object, (r.map (renumberObj old newbie)).map Object.flags =
      r.map Object.flags := by
    intro r
    rw [Option.map_map]
    rfl
  by_cases hx : x = old
  · rw [if_pos hx]
    exact isUser_of_find_none ((h.find x).trans (if_pos hx))
  · rw [if_neg hx]
    by_cases hn : x = newbie
    · rw [if_pos hn]
      exact isUser_congr (by rw [h.find, if_neg hx, if_pos hn, hflags])
    · rw [if_neg hn]
      exact isUser_congr (by rw [h.find, if_neg hx, if_neg hn, hflags])

theorem ExactUsers.renumber {old newbie : Objid} (hx : db.ExactUsers)
    (h : db.RenumberedTo db' old newbie)
    (hne : newbie ≠ old) (hfree : db.find newbie = none) : db'.ExactUsers := by
  have hnew : newbie ∉ db.allUsers := fun hm => by
    rw [hx.mem_iff, isUser_of_find_none hfree] at hm
    cases hm
  have hmap : db'.allUsers = db.allUsers.map (renumberRef old newbie) := by
    rw [h.allUsers]
    split
    · exact replace_eq_map hx.nodup old newbie
    · next hu =>
        exact (map_renumberRef_of_not_mem (fun hm => hu ((hx.mem_iff old).mp hm)) newbie).symm
  refine ⟨?_, fun x => ?_⟩
  · rw [hmap]
    refine hx.nodup.map_on fun x hxm y hym he => ?_
    unfold renumberRef at he
    split at he <;> split at he
    · next hx hy => exact hx.trans hy.symm
    · next hy => exact absurd (he ▸ hym) hnew
    · exact absurd (he.symm ▸ hxm) hnew
    · exact he
  · rw [hmap, h.users, List.mem_map]
    split
    · next he =>
      refine ⟨fun ⟨y, hy, hyx⟩ => ?_, fun h => nomatch h⟩
      unfold renumberRef at hyx
      split at hyx
      · exact absurd (hyx.trans he) hne
      · next hy' => exact absurd (hyx.trans he) hy'
    · next he =>
      split
      · next hn =>
        rw [← hx.mem_iff]
        refine ⟨fun ⟨y, hy, hyx⟩ => ?_, fun hm => ⟨old, hm, (if_pos rfl).trans hn.symm⟩⟩
        unfold renumberRef at hyx
        split at hyx
        · next hy' => exact hy' ▸ hy
        · exact absurd (hn ▸ hyx ▸ hy) hnew
      · next hn =>
        rw [← hx.mem_iff]
        refine ⟨fun ⟨y, hy, hyx⟩ => ?_, fun hm => ⟨x, hm, if_neg he⟩⟩
        unfold renumberRef at hyx
        split at hyx
        · exact absurd hyx.symm hn
        · exact hyx ▸ hy

end Db

end NuMoo
