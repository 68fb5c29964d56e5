import NuMoo.Db.Slots

/-!
# Reparenting

`db_change_parent` moves an object in the hierarchy and replaces, in the slots of
its whole subtree, the segment of the ancestors that are dropped by clear slots
for the ancestors that are new.

Results:
1. `fixProps_spec`: the new slot array at the end of every path.
2. `changeParent_spec`: a change of parent that is refused changes nothing, and
   one that is made keeps the forest and the layout.
3. `Reparented.slots`: which slots of the subtree are kept, added and dropped.
-/

namespace NuMoo

open Linked

namespace Db

/-! ## The recursive update -/

section Fix

variable {db : Db} {oid : Objid}

/-- A slot inherited from a new ancestor, as it is stored in `o`. -/
def clearSlot (o : Object) (pv : Pval) : Pval :=
  { pv with var := .clear, owner := if pv.perms &&& PF_CHOWN ≠ 0 then o.owner else pv.owner }

/-- Only the last object on the way down decides about the owner. -/
theorem clearSlot_clearSlot (o o' : Object) (pv : Pval) :
    clearSlot o (clearSlot o' pv) = clearSlot o pv := by
  unfold clearSlot
  split <;> simp_all

/-- The number of definitions from the end of a path up to `oid`. -/
def localCount (db : Db) (oid : Objid) (m : List Objid) : Nat := (db.inherited (m ++ [oid])).length

theorem localCount_cons (x : Objid) (m : List Objid) :
    db.localCount oid (x :: m) = (db.propdefsOf x).length + db.localCount oid m := by
  rw [localCount, List.cons_append, inherited_cons, List.length_append, localCount]

theorem localCount_nil : db.localCount oid [] = (db.propdefsOf oid).length := by
  simp [localCount, inherited]

/-- The parameter `parent_local` at the end of a path. -/
def parentLocal (db : Db) (oid : Objid) : List Objid → Nat
  | [] => 0
  | _ :: m => db.localCount oid m

/-- At every object `local` is `parent_local` and its own definitions. -/
theorem parentLocal_add {x : Objid} {m : List Objid} (hp : Path (db.links kin) oid x m) :
    db.parentLocal oid m + (db.propdefsOf x).length = db.localCount oid m := by
  cases hp with
  | root => rw [parentLocal, localCount_nil, Nat.zero_add]
  | child _ _ => rw [parentLocal, localCount_cons, Nat.add_comm]

/-- What `fix_props` stores at the end of a path; `base` are the slots of the new parent. -/
def fixed (db : Db) (oid : Objid) (old : Nat) (base : List Pval) (m : List Objid) (o : Object) :
    List Pval :=
  o.propval.take (db.localCount oid m) ++ base.map (clearSlot o) ++
    o.propval.drop (db.localCount oid m + old)

theorem fixProps_spec (hk : (db.links kin).WF NOTHING) {o : Object} (ho : db.find oid = some o)
    (old common : Nat) (base : List Pval)
    (hbase : base ≠ [] → ∃ op, db.find o.parent = some op ∧ base = op.propval.take base.length)
    (hlen : ∀ x m ox, Path (db.links kin) oid x m → db.find x = some ox →
      ox.propval.length = db.localCount oid m + old + common) :
    ∃ s', db.fixProps oid 0 old base.length common = some s' ∧ SameButSlots db s' ∧
      (∀ y, ¬ (db.links kin).Below oid y → s'.find y = db.find y) ∧
      ∀ x m ox, Path (db.links kin) oid x m → db.find x = some ox →
        s'.find x = some { ox with propval := db.fixed oid old base m ox } := by
  refine slotVisit_spec (db.fixed oid old base) (db.parentLocal oid) rfl hk ho ?_ ?_
  · intro s x c m hs hp hc
    obtain ⟨-, hx⟩ := (hp.isBelow (by simp [links_isSome, ho])).isSome
    rw [links_isSome] at hx
    obtain ⟨ox, hox⟩ := Option.isSome_iff_exists.mp hx
    obtain ⟨p, hox'⟩ := hs.exists_slots hox
    rw [hox', Option.map_some, ← propdefsOf_eq hox, parentLocal_add hp, parentLocal]
  · intro s x m ox hs hp hox hsx hroot hchild
    have hlen' := hlen
    have hlen := hlen x m ox hp hox
    have hloc : db.parentLocal oid m + ox.propdefs.length = db.localCount oid m := by
      rw [← propdefsOf_eq hox, parentLocal_add hp]
    obtain ⟨slots, hslots, hclear⟩ : ∃ slots, (if base.length = 0 then some []
        else (s.find ox.parent).bind fun parent =>
          readSlots parent.propval (db.parentLocal oid m) base.length) =
        some slots ∧ slots.map (clearSlot ox) = base.map (clearSlot ox) := by
      by_cases hb : base = []
      · exact ⟨[], by simp [hb], by simp [hb]⟩
      have hb' : base.length ≠ 0 := by simpa using hb
      rw [if_neg hb']
      -- the slots of the base come from the new parent at the root, from the parent below
      cases hp with
      | root =>
        rw [ho] at hox
        cases hox
        obtain ⟨op, hop, hbase⟩ := hbase hb
        have hle : base.length ≤ op.propval.length := by
          have := congrArg List.length hbase
          rw [List.length_take] at this
          omega
        refine ⟨base, ?_, rfl⟩
        rw [hroot rfl, hop, Option.bind_some, parentLocal, readSlots_eq (by omega),
          List.drop_zero, ← hbase]
      | @child y _ m hp hc =>
        obtain ⟨oy, hoy, hsy⟩ := hchild m rfl
        have hlen_y :=
          hlen' y m oy hp (by rw [← hoy, Option.some.inj (hc.symm.trans (parentOf_eq hox))])
        have hn : (oy.propval.take (db.localCount oid m)).length = db.localCount oid m := by
          rw [List.length_take, Nat.min_eq_left (by omega)]
        refine ⟨base.map (clearSlot oy), ?_, ?_⟩
        · rw [hsy, Option.bind_some, parentLocal, fixed, readSlots_eq]
          · rw [List.append_assoc, List.drop_left' hn, List.take_left' (List.length_map _)]
          · rw [List.length_append, List.length_append, hn, List.length_map]
            omega
        · rw [List.map_map]
          exact List.map_congr_left fun pv _ => clearSlot_clearSlot ox oy pv
    have h0 : db.localCount oid m + old ≤ ox.propval.length := by omega
    have h1 : 0 + db.localCount oid m ≤ ox.propval.length := by omega
    have h2 : db.localCount oid m + old + common ≤ ox.propval.length := by omega
    simp only [fixPropsAt, hsx, Option.bind_eq_bind, Option.bind_some, hloc, readSlots_eq h0,
      readSlots_eq h1,
      readSlots_eq h2, hslots, List.drop_zero]
    rw [show (slots.map fun pv : Pval =>
      { pv with var := Var.clear, owner := if pv.perms &&& PF_CHOWN ≠ 0 then ox.owner
      else pv.owner }) = base.map (clearSlot ox) from hclear, fixed,
      List.take_of_length_le (i := common) (by rw [List.length_drop]; omega)]

end Fix

/-! ## The check -/

theorem anyM_eq {α : Type} {f : α → Option Bool} {g : α → Bool} {l : List α}
    (h : ∀ a ∈ l, f a = some (g a)) :
    l.anyM f = some (l.any g) := by
  induction l with
  | nil => rfl
  | cons a l ih =>
    rw [List.anyM_cons, h a List.mem_cons_self, ih fun b hb => h b (List.mem_cons_of_mem _ hb),
      List.any_cons]
    cases g a <;> rfl

/-- The names of the new ancestors are free in the subtree of `oid`. -/
def NoClash (db : Db) (oid : Objid) (lnew : List Objid) : Prop :=
  ∀ p ∈ db.inherited lnew, ∀ y, (db.links kin).Below oid y →
    ∀ q ∈ db.propdefsOf y, nameKey q.name ≠ nameKey p.name

/-- `dbpriv_check_properties_for_chparent` decides whether a name clashes. -/
theorem checkProperties_eq {db : Db} (hk : (db.links kin).WF NOTHING) (hl : db.Layout)
    {oid : Objid} {o : Object}
    (ho : db.find oid = some o) {newParent : Objid} {lnew : List Objid}
    (hn : Chain db.parentOf NOTHING newParent lnew) :
    ∃ b, db.dbprivCheckPropertiesForChparent oid newParent = some b ∧
      (b = true ↔ db.NoClash oid lnew) := by
  obtain ⟨os, hos, hall⟩ := lineage_eq hn (chain_length_lt hn)
  have hp : ∀ p ∈ db.inherited lnew, ∃ b, db.propertyDefinedAtOrBelow p.name p.hash oid = some b ∧
      (b = true ↔ ∃ y, (db.links kin).Below oid y ∧ ∃ q ∈ db.propdefsOf y,
        nameKey q.name = nameKey p.name) := by
    intro p hp
    obtain ⟨y, -, hpy⟩ := mem_inherited.mp hp
    rw [hl.hash y p hpy]
    exact propertyDefinedAtOrBelow_eq hk hl.hash ho p.name
  have hany := anyM_eq (f := fun p : Propdef => db.propertyDefinedAtOrBelow p.name p.hash oid)
    (g := fun p => (db.propertyDefinedAtOrBelow p.name p.hash oid).getD false)
      (l := db.inherited lnew)
    fun p hpi => by
      obtain ⟨b, hb, -⟩ := hp p hpi
      rw [hb]
      rfl
  refine ⟨!(db.inherited lnew).any fun p => (db.propertyDefinedAtOrBelow p.name p.hash oid).getD
    false, ?_, ?_⟩
  · simp only [dbprivCheckPropertiesForChparent, hos, Option.bind_eq_bind, Option.bind_some,
      inherited_eq_of_forall₂ hall, hany]
  rw [Bool.not_eq_true', Bool.eq_false_iff, Ne, List.any_eq_true]
  constructor
  · intro h p hpi y hy q hq he
    obtain ⟨b, hb, hiff⟩ := hp p hpi
    exact h ⟨p, hpi, by rw [hb]; exact hiff.mpr ⟨y, hy, q, hq, he⟩⟩
  · rintro h ⟨p, hpi, hpt⟩
    obtain ⟨b, hb, hiff⟩ := hp p hpi
    rw [hb] at hpt
    obtain ⟨y, hy, q, hq, he⟩ := hiff.mp hpt
    exact h p hpi y hy q hq he

/-! ## The new layout -/

/-- What a successful change of parent does to the objects: `old` slots of the dropped
ancestors give way to clear copies of `base`. -/
structure Respliced (db db' : Db) (oid newParent : Objid) (old : Nat)
    (base : List Pval) : Prop where
  links : Links.Reparented (db.links kin) (db'.links kin) oid newParent
  propdefsOf : db'.propdefsOf = db.propdefsOf
  outside : ∀ x, ¬ (db.links kin).Below oid x → (db'.find x).map Object.propval =
    (db.find x).map Object.propval
  inside : ∀ x m o, Path (db.links kin) oid x m → db.find x = some o →
    (db'.find x).map Object.propval = some (db.fixed oid old base m o)
  nextPid : db.nextPid ≤ db'.nextPid

section Resplice

variable {db db' : Db} {oid newParent : Objid} {o : Object} {old : Nat} {base : List Pval}

theorem Respliced.parentOf (h : Respliced db db' oid newParent old base)
    (ho : db.find oid = some o) (x : Objid) :
    db'.parentOf x = if x = oid then some newParent else db.parentOf x := by
  have := congrFun h.links.up x
  rw [Db.parentOf, this]
  by_cases hx : x = oid
  · subst hx
    rw [if_pos rfl, if_pos rfl, links_eq ho, Option.map_some]
  · rw [if_neg hx, if_neg hx, Db.parentOf]

/-- The chain of an object after the change. -/
theorem Respliced.chain (h : Respliced db db' oid newParent old base)
    (hk : (db.links kin).WF NOTHING)
    (ho : db.find oid = some o) {lnew : List Objid} (hn : Chain db.parentOf NOTHING newParent lnew)
    (hoid : oid ∉ lnew) :
    (∀ x l, ¬ (db.links kin).Below oid x → Chain db.parentOf NOTHING x l →
      Chain db'.parentOf NOTHING x l) ∧
      ∀ x m, Path (db.links kin) oid x m → Chain db'.parentOf NOTHING x (m ++ oid :: lnew) := by
  have hne : ∀ x, x ≠ oid → db'.parentOf x = db.parentOf x :=
    fun x hx => by rw [h.parentOf ho, if_neg hx]
  have hout : ∀ x l, oid ∉ l → Chain db.parentOf NOTHING x l → Chain db'.parentOf NOTHING x l :=
    fun x l hl hc => hc.congr fun y hy => hne y fun he => hl (he ▸ hy)
  refine ⟨fun x l hx hc => hout x l (fun hm => hx (mem_chain_isBelow hk hc hm)) hc,
    fun x m hp => ?_⟩
  have hisroot : ((db.links kin) oid).isSome := by simp [links_isSome, ho]
  have hp' : Path (db'.links kin) oid x m := hp.congr (fun c _ hc => hne c hc) hk hisroot
  have hoc : Chain db'.parentOf NOTHING oid (oid :: lnew) := by
    refine .step ?_ (by rw [h.parentOf ho, if_pos rfl]) (hout _ _ hoid hn)
    rintro rfl
    rw [find_nothing] at ho
    cases ho
  exact chain_of_path hp' hoc

/-- The slots of the own line, then those of the new ancestors, then the common ones. -/
theorem localCount_eq (ho : db.find oid = some o) (m : List Objid) :
    db.localCount oid m = (db.inherited m ++ o.propdefs).length := by
  rw [localCount, inherited_append, inherited_cons, propdefsOf_eq ho]
  simp [inherited]

/-- The layout is kept when the segments are those of the two parents. -/
theorem Layout.resplice (hl : db.Layout) (h : Respliced db db' oid newParent old base)
    (hk : (db.links kin).WF NOTHING) (ho : db.find oid = some o) {la lb lc : List Objid}
    (hc : Chain db.parentOf NOTHING oid (oid :: (la ++ lc)))
    (hn : Chain db.parentOf NOTHING newParent (lb ++ lc))
    (hoid : oid ∉ lb ++ lc) (hclash : db.NoClash oid (lb ++ lc))
    (hold : old = (db.inherited la).length)
    (hbase : base.map Pval.pid = (db.inherited lb).map Propdef.pid) : db'.Layout := by
  have hinh : db'.inherited = db.inherited :=
    funext fun l => by rw [inherited, inherited, h.propdefsOf]
  have hroot : ((db.links kin) oid).isSome := by simp [links_isSome, ho]
  obtain ⟨hout, hin⟩ := h.chain hk ho hn hoid
  have hsome : ∀ x, (db'.find x).isSome = (db.find x).isSome := by
    intro x
    rw [← links_isSome (F := kin), h.links.isSome, links_isSome]
  -- Each object of the new database is one of the old database, with its new slots.
  have hcases : ∀ x o', db'.find x = some o' → ∃ ox, db.find x = some ox ∧
      o'.propdefs = ox.propdefs ∧
      ((¬ (db.links kin).Below oid x ∧ o'.propval = ox.propval) ∨
        ∃ m, Path (db.links kin) oid x m ∧ o'.propval = db.fixed oid old base m ox) := by
    intro x o' ho'
    obtain ⟨ox, hox⟩ :=
      Option.isSome_iff_exists.mp ((hsome x) ▸ (by rw [ho']; rfl : (db'.find x).isSome))
    refine ⟨ox, hox, by rw [← propdefsOf_eq ho', h.propdefsOf, propdefsOf_eq hox], ?_⟩
    by_cases hb : (db.links kin).Below oid x
    · obtain ⟨m, hm⟩ := hb.path
      have := h.inside x m ox hm hox
      rw [ho', Option.map_some] at this
      exact .inr ⟨m, hm, Option.some.inj this⟩
    · have := h.outside x hb
      rw [ho', hox, Option.map_some, Option.map_some] at this
      exact .inl ⟨hb, Option.some.inj this⟩
  have hpath : ∀ m l, db.inherited (m ++ oid :: l) = (db.inherited m ++ o.propdefs) ++
      db.inherited l := by
    intro m l
    rw [inherited_append, inherited_cons, propdefsOf_eq ho, List.append_assoc]
  have haligned : ∀ x m ox, Path (db.links kin) oid x m → db.find x = some ox →
      ox.propval.map Pval.pid =
      (db.inherited m ++ o.propdefs).map Propdef.pid ++ ((db.inherited la).map Propdef.pid ++
        (db.inherited lc).map Propdef.pid) := by
    intro x m ox hm hox
    rw [hl.aligned x ox _ hox (chain_of_path hm hc), hpath, inherited_append, List.map_append]
    exact congrArg _ List.map_append
  refine ⟨fun x p hp => hl.hash x p (h.propdefsOf ▸ hp), fun x o' lx ho' hcx => ?_,
    fun x lx hcx => ?_,
    fun x o' n pv ho' hn' hpv => ?_, h.propdefsOf ▸ hl.pidInj, fun x p hp =>
      (hl.pidLt x p (h.propdefsOf ▸ hp)).trans_le h.nextPid⟩
  · rw [hinh]
    obtain ⟨ox, hox, -, ⟨hb, hval⟩ | ⟨m, hm, hval⟩⟩ := hcases x o' ho'
    · obtain ⟨l, hlx⟩ := exists_chain hk hox
      obtain rfl := hcx.unique (hout x l hb hlx)
      rw [hval, hl.aligned x ox _ hox hlx]
    · obtain rfl := hcx.unique (hin x m hm)
      have ha := haligned x m ox hm hox
      have hlen : db.localCount oid m =
          ((db.inherited m ++ o.propdefs).map Propdef.pid).length := by
        rw [List.length_map, localCount_eq ho]
      have hlen' : db.localCount oid m + old = ((db.inherited m ++ o.propdefs).map Propdef.pid ++
          (db.inherited la).map Propdef.pid).length := by
        rw [List.length_append, ← hlen, List.length_map, hold]
      have hclear : (base.map (clearSlot ox)).map Pval.pid = base.map Pval.pid := by
        rw [List.map_map]
        exact List.map_congr_left fun _ _ => rfl
      have ht : (ox.propval.map Pval.pid).take (db.localCount oid m) =
          (db.inherited m ++ o.propdefs).map Propdef.pid := by
        rw [ha, hlen, List.take_left]
      have hd : (ox.propval.map Pval.pid).drop (db.localCount oid m + old) =
          (db.inherited lc).map Propdef.pid := by
        rw [ha, ← List.append_assoc, hlen', List.drop_left]
      rw [hval, fixed, List.map_append, List.map_append, List.map_take, List.map_drop, ht, hd,
        hclear, hbase, hpath,
        inherited_append]
      simp only [List.map_append, List.append_assoc]
  · rw [hinh]
    by_cases hb : (db.links kin).Below oid x
    · obtain ⟨m, hm⟩ := hb.path
      obtain rfl := hcx.unique (hin x m hm)
      have hold := hl.names x _ (chain_of_path hm hc)
      rw [hpath, List.map_append] at hold ⊢
      refine List.nodup_append.mpr ⟨(List.nodup_append.mp hold).1, hl.names _ _ hn, ?_⟩
      intro a ha b hb' hab
      obtain ⟨q, hq, rfl⟩ := List.mem_map.mp ha
      obtain ⟨p, hp, rfl⟩ := List.mem_map.mp hb'
      obtain ⟨y, hy, hqy⟩ : ∃ y, (db.links kin).Below oid y ∧ q ∈ db.propdefsOf y := by
        rcases List.mem_append.mp hq with hq | hq
        · obtain ⟨y, hy, hqy⟩ := mem_inherited.mp hq
          exact ⟨y, hm.mem_isBelow hroot hy, hqy⟩
        · exact ⟨oid, .refl (links_eq ho), by rwa [propdefsOf_eq ho]⟩
      exact hclash p hp y hy q hqy hab
    · obtain ⟨ox, hox⟩ : ∃ ox, db.find x = some ox ∨ x = NOTHING := by
        by_cases hxn : x = NOTHING
        · exact ⟨o, .inr hxn⟩
        · obtain ⟨b, -, -, hb', -⟩ := (Chain.cons_iff hxn).mp hcx
          obtain ⟨o', ho', -⟩ := exists_of_parentOf hb'
          obtain ⟨ox, hox, -⟩ := hcases x o' ho'
          exact ⟨ox, .inl hox⟩
      rcases hox with hox | rfl
      · obtain ⟨l, hlx⟩ := exists_chain hk hox
        obtain rfl := hcx.unique (hout x l hb hlx)
        exact hl.names x _ hlx
      · rw [Chain.nil_iff.mp hcx]
        exact List.nodup_nil
  · obtain ⟨ox, hox, hdefs, ⟨hb, hval⟩ | ⟨m, hm, hval⟩⟩ := hcases x o' ho'
    · exact hl.defined x ox n pv hox (hdefs ▸ hn') (hval ▸ hpv)
    · have hlt : n < db.localCount oid m := by
        rw [← parentLocal_add hm, propdefsOf_eq hox, ← hdefs]
        omega
      have hlen : db.localCount oid m ≤ ox.propval.length := by
        have := congrArg List.length (haligned x m ox hm hox)
        rw [List.length_map, List.length_append, List.length_map, ← localCount_eq ho] at this
        omega
      rw [hval, fixed, List.append_assoc,
        List.getElem?_append_left (by rw [List.length_take]; omega),
        List.getElem?_take_of_lt hlt] at hpv
      exact hl.defined x ox n pv hox (hdefs ▸ hn') hpv

end Resplice

/-! ## db_change_parent -/

@[simp] theorem find_affected (db : Db) : db.affectedCallableVerbLookup.find = db.find := by
  funext x
  unfold affectedCallableVerbLookup
  split <;> rfl

@[simp] theorem numObjects_affected (db : Db) :
    db.affectedCallableVerbLookup.numObjects = db.numObjects := by
  unfold affectedCallableVerbLookup
  split <;> rfl

@[simp] theorem nextPid_affected (db : Db) :
    db.affectedCallableVerbLookup.nextPid = db.nextPid := by
  unfold affectedCallableVerbLookup
  split <;> rfl

@[simp] theorem allUsers_affected (db : Db) :
    db.affectedCallableVerbLookup.allUsers = db.allUsers := by
  unfold affectedCallableVerbLookup
  split <;> rfl

/-- The database after the flush of the verb cache that `db_change_parent` makes unless
the object has neither children nor verbs. -/
def flushedFor (db : Db) (o : Object) : Db :=
  if o.child = NOTHING ∧ o.verbdefs = [] then db else db.affectedCallableVerbLookup

theorem find_flushedFor (db : Db) (o : Object) : (db.flushedFor o).find = db.find := by
  unfold flushedFor
  split <;> simp

/-- The slots of an object; none for an invalid one. -/
def slotsOf (db : Db) (x : Objid) : List Pval := ((db.find x).map Object.propval).getD []

theorem slotsOf_eq {db : Db} {x : Objid} {o : Object} (h : db.find x = some o) :
    db.slotsOf x = o.propval := by
  simp [slotsOf, h]

/-- The databases agree on everything but the links of the inheritance hierarchy and the slots. -/
abbrev SameButKinSlots (db db' : Db) : Prop :=
  SameUpTo (fun o => { kin.set ⟨NOTHING, NOTHING, NOTHING⟩ o with propval := [] }) db db'

/-- A successful change of parent: the ancestors `la` are dropped, `lb` are new and `lc` stay. -/
structure ParentChanged (db db' : Db) (oid parent : Objid) (o : Object)
    (la lb lc : List Objid) : Prop where
  oldChain : Chain db.parentOf NOTHING oid (oid :: (la ++ lc))
  newChain : Chain db.parentOf NOTHING parent (lb ++ lc)
  dropped : ∀ y ∈ la, y ∉ lb ++ lc
  added : ∀ y ∈ lb, y ∉ la ++ lc
  noClash : db.NoClash oid (lb ++ lc)
  wf : (db'.links kin).WF NOTHING
  layout : db'.Layout
  slots : Respliced db db' oid parent (db.inherited la).length
    ((db.slotsOf parent).take (db.inherited lb).length)
  same : SameButKinSlots (db.flushedFor o) db'

section ChangeParent

variable {db : Db} {oid parent : Objid} {o : Object}

/-- The chain of the new parent, which does not pass `oid`. -/
theorem exists_newChain (hk : (db.links kin).WF NOTHING)
    (hp : parent = NOTHING ∨ ∃ op, db.find parent = some op)
    (hacyc : ¬ (db.links kin).Below oid parent) :
    ∃ l, Chain db.parentOf NOTHING parent l ∧ oid ∉ l := by
  rcases hp with rfl | ⟨op, hop⟩
  · exact ⟨[], .done, by simp⟩
  · obtain ⟨l, hl⟩ := exists_chain hk hop
    exact ⟨l, hl, fun hm => hacyc (mem_chain_isBelow hk hl hm)⟩

theorem dbChangeParent_eq {b : Bool} (hb : db.dbprivCheckPropertiesForChparent oid parent = some b)
    (ho : db.find oid = some o) :
    db.dbChangeParent oid parent = if b then
      ((db.flushedFor o).moveLinks kin oid o.parent parent).bind fun db =>
        (db.dbprivFixPropertiesAfterChparent oid o.parent).bind fun db => some (true, db)
    else some (false, db) := by
  cases b with
  | false => simp [dbChangeParent, hb]
  | true =>
    simp only [dbChangeParent, hb, ho, moveLinks, flushedFor, Option.bind_eq_bind,
      Option.bind_some, if_true,
      Bool.not_true, Bool.false_eq_true, if_false, Option.bind_assoc]
    rfl

/-- `dbpriv_fix_properties_after_chparent` finds the nearest common ancestor and the
numbers of properties on either side of it. -/
theorem fixProperties_eq {db : Db} {o : Object} (ho : db.find oid = some o) {oldParent c : Objid}
    {la lb lc : List Objid} (hold : Chain db.parentOf NOTHING oldParent (la ++ lc))
    (hnew : Chain db.parentOf NOTHING o.parent (lb ++ lc)) (hc : Chain db.parentOf NOTHING c lc)
    (hf : ((lb ++ lc).find? (· ∈ la ++ lc)).getD NOTHING = c) :
    db.dbprivFixPropertiesAfterChparent oid oldParent =
      db.fixProps oid 0 (db.inherited la).length (db.inherited lb).length
        (db.inherited lc).length := by
  have hcommon : db.commonAncestor o.parent oldParent = some c := by
    have hany : ∀ o1 ∈ lb ++ lc, anyChain db.parentOf NOTHING (fun o2 =>
      some (o1 == o2)) db.bound oldParent =
        some (decide (o1 ∈ la ++ lc)) := by
      intro o1 _
      rw [anyChain_eq hold (q := fun o2 => o1 == o2) (fun _ _ => rfl) (chain_length_lt hold)]
      rw [Option.some.injEq, Bool.eq_iff_iff, List.any_eq_true, decide_eq_true_iff]
      simp
    rw [commonAncestor, firstChain_eq hnew hany (chain_length_lt hnew), Option.map_some, hf]
  have hcount : (if c ≠ NOTHING then db.dbprivCountProperties c else some 0) =
      some (db.inherited lc).length := by
    by_cases hcn : c = NOTHING
    · subst hcn
      rw [Chain.nil_iff.mp hc]
      rfl
    · rw [if_pos hcn, countProperties_eq hc]
  simp only [dbprivFixPropertiesAfterChparent, ho, Option.bind_eq_bind, Option.bind_some,
    hcommon, hcount,
    countProperties_eq hold, countProperties_eq hnew, inherited_append, List.length_append,
    Nat.add_sub_cancel]

/-- What `db_change_parent` does with the caller's checks made. -/
theorem changeParent_spec (hk : (db.links kin).WF NOTHING) (hl : db.Layout)
    (ho : db.find oid = some o)
    (hp : parent = NOTHING ∨ ∃ op, db.find parent = some op)
    (hacyc : ¬ (db.links kin).Below oid parent) :
    (db.dbChangeParent oid parent = some (false, db) ∧
      ∃ lnew, Chain db.parentOf NOTHING parent lnew ∧ ¬ db.NoClash oid lnew) ∨
    ∃ db' la lb lc, db.dbChangeParent oid parent = some (true, db') ∧
      ParentChanged db db' oid parent o la lb lc := by
  obtain ⟨lnew, hnew, hoid⟩ := exists_newChain hk hp hacyc
  obtain ⟨b, hb, hiff⟩ := checkProperties_eq hk hl ho hnew
  rw [dbChangeParent_eq hb ho]
  cases b with
  | false => exact .inl ⟨rfl, lnew, hnew, fun h => Bool.false_ne_true (hiff.mpr h)⟩
  | true =>
    right
    have hclash := hiff.mp rfl
    obtain ⟨l, hl'⟩ := exists_chain hk ho
    obtain ⟨lold, rfl, hold⟩ := chain_cons ho hl'
    obtain ⟨la, lb, lc, c, rfl, rfl, hc, hla, hlb, hf⟩ := hold.meet hnew
    -- The move, on the database with or without the verb cache.
    have hlinks₀ : (db.flushedFor o).links = db.links := by
      funext F x
      rw [links, links, find_flushedFor]
    have hk₀ : ((db.flushedFor o).links kin).WF NOTHING := hlinks₀ ▸ hk
    have ho₀ : (db.flushedFor o).find oid = some o := by rw [find_flushedFor, ho]
    have hp₀ : parent = NOTHING ∨ ∃ op, (db.flushedFor o).find parent = some op := by
      rwa [find_flushedFor]
    have hacyc₀ : ¬ ((db.flushedFor o).links kin).Below oid parent := by rwa [hlinks₀]
    obtain ⟨db₂, hmove, hwf₂, hr₂, hs₂⟩ := moveLinks_spec hk₀ ho₀ hp₀ hacyc₀
    rw [hlinks₀] at hr₂
    have hmap₂ : ∀ {β : Type} (g : Object → β),
        (∀ o, g (kin.set ⟨NOTHING, NOTHING, NOTHING⟩ o) = g o) →
        ∀ x, (db₂.find x).map g = (db.find x).map g := by
      intro β g hg x
      rw [hs₂.map_eq g hg x, find_flushedFor]
    have hdefs₂ : db₂.propdefsOf = db.propdefsOf := by
      funext x
      rw [propdefsOf, hmap₂ Object.propdefs fun _ => rfl, propdefsOf]
    have hinh₂ : db₂.inherited = db.inherited :=
      funext fun l => by rw [inherited, inherited, hdefs₂]
    have hup₂ : ∀ x, db₂.parentOf x = if x = oid then some parent else db.parentOf x := by
      intro x
      rw [parentOf, hr₂.up]
      by_cases hx : x = oid
      · subst hx
        simp [links_eq ho]
      · simp only [hx, if_false, parentOf]
    obtain ⟨o₂, ho₂, ho₂e⟩ := hs₂.exists_links (by rw [find_flushedFor]; exact ho)
    have hparent₂ : o₂.parent = parent := by
      have := parentOf_eq ho₂
      rw [hup₂, if_pos rfl] at this
      exact (Option.some.inj this).symm
    have hchain₂ : ∀ x l, oid ∉ l → Chain db.parentOf NOTHING x l →
        Chain db₂.parentOf NOTHING x l :=
      fun x l hm h => h.congr fun y hy => by rw [hup₂, if_neg fun he : y = oid => hm (he ▸ hy)]
    have hoidold : oid ∉ la ++ lc := (List.nodup_cons.mp hl'.nodup).1
    have hroot : ((db.links kin) oid).isSome := by simp [links_isSome, ho]
    have hroot₂ : ((db₂.links kin) oid).isSome := by simp [links_isSome, ho₂]
    have hpath₂ : ∀ x m, Path (db₂.links kin) oid x m ↔ Path (db.links kin) oid x m := by
      intro x m
      refine ⟨fun h => h.congr (fun c _ hc => ?_) hwf₂ hroot₂,
        fun h => h.congr (fun c _ hc => ?_) hk hroot⟩
      · exact ((hup₂ c).trans (if_neg hc)).symm
      · exact (hup₂ c).trans (if_neg hc)
    have hbelow₂ : ∀ x, (db₂.links kin).Below oid x ↔ (db.links kin).Below oid x := by
      intro x
      refine ⟨fun h => ?_, fun h => ?_⟩
      · obtain ⟨m, hm⟩ := h.path
        exact ((hpath₂ x m).mp hm).isBelow hroot
      · obtain ⟨m, hm⟩ := h.path
        exact ((hpath₂ x m).mpr hm).isBelow hroot₂
    have hloc₂ : db₂.localCount oid = db.localCount oid :=
      funext fun m => by rw [localCount, localCount, hinh₂]
    have hslots₂ : db₂.slotsOf = db.slotsOf := by
      funext x
      rw [slotsOf, hmap₂ Object.propval fun _ => rfl, slotsOf]
    -- The slots that the new ancestors have in the new parent.
    have hbaselen : ((db.slotsOf parent).take (db.inherited lb).length).length =
        (db.inherited lb).length := by
      rcases hp with rfl | ⟨op, hop⟩
      · have : lb ++ lc = [] := Chain.nil_iff.mp hnew
        simp [(List.append_eq_nil_iff.mp this).1, inherited]
      · rw [slotsOf_eq hop, List.length_take, hl.length_eq hop hnew, inherited_append,
          List.length_append]
        omega
    have hcommon : ((lb ++ lc).find? (· ∈ la ++ lc)).getD NOTHING = c := hf
    have hfix : db₂.dbprivFixPropertiesAfterChparent oid o.parent =
        db₂.fixProps oid 0 (db.inherited la).length (db.inherited lb).length
          (db.inherited lc).length := by
      rw [← hinh₂]
      refine fixProperties_eq ho₂ (hchain₂ _ _ hoidold hold) ?_ (hchain₂ _ _ ?_ hc) hcommon
      · rw [hparent₂]
        exact hchain₂ _ _ hoid hnew
      · exact fun hm => hoid (List.mem_append_right _ hm)
    obtain ⟨db', hd', hs', hout, hin⟩ := fixProps_spec hwf₂ ho₂ (db.inherited la).length
      (db.inherited lc).length ((db.slotsOf parent).take (db.inherited lb).length)
      (fun hne => by
        obtain ⟨op, hop⟩ : ∃ op, db₂.find parent = some op := by
          cases h : db₂.find parent with
          | some op => exact ⟨op, rfl⟩
          | none =>
            rw [← hslots₂, slotsOf, h] at hne
            simp at hne
        refine ⟨op, hparent₂ ▸ hop, ?_⟩
        rw [hbaselen, ← hslots₂, slotsOf_eq hop])
      (fun x m ox hm hox => by
        obtain ⟨ox₀, hox₀, -⟩ := hs₂.exists_find' hox
        rw [find_flushedFor] at hox₀
        have hv : ox.propval = ox₀.propval := by
          have := hmap₂ Object.propval (fun _ => rfl) x
          rw [hox, hox₀] at this
          exact Option.some.inj this
        rw [hloc₂, hv, hl.length_eq hox₀ (chain_of_path ((hpath₂ x m).mp hm) hl'), localCount_eq ho,
          inherited_append, inherited_cons, inherited_append, propdefsOf_eq ho]
        simp only [List.length_append]
        omega)
    rw [hbaselen] at hd'
    refine ⟨db', la, lb, lc, ?_, ?_⟩
    · have hmove' : (db.flushedFor o).moveLinks kin oid o.parent parent = some db₂ := hmove
      rw [if_pos rfl, hmove', Option.bind_some, hfix, hd', Option.bind_some]
    have hlinks' : db'.links kin = db₂.links kin := hs'.kin_of_slots
    have hsame : SameButKinSlots (db.flushedFor o) db' :=
      SameUpTo.trans (hs₂.mono fun _ => rfl) (hs'.mono fun _ => rfl)
    have hresp : Respliced db db' oid parent (db.inherited la).length
        ((db.slotsOf parent).take (db.inherited lb).length) := by
      refine ⟨hlinks' ▸ hr₂, ?_, fun x hx => ?_, fun x m ox hm hox => ?_, ?_⟩
      · rw [hs'.propdefsOf fun _ => rfl, hdefs₂]
      · rw [hout x fun h => hx ((hbelow₂ x).mp h), hmap₂ Object.propval fun _ => rfl]
      · have := hmap₂ Object.propval (fun _ => rfl) x
        obtain ⟨ox₂, hox₂, he⟩ := hs₂.exists_links (x := x) (by rw [find_flushedFor]; exact hox)
        rw [hin x m ox₂ ((hpath₂ x m).mpr hm) hox₂, Option.map_some]
        have hval : ox₂.propval = ox.propval := by rw [he]; rfl
        have hown : ox₂.owner = ox.owner := by rw [he]; rfl
        have hclear : clearSlot ox₂ = clearSlot ox := by
          funext pv
          simp only [clearSlot, hown]
        simp only [fixed, hloc₂, hval, hclear]
      · refine le_trans ?_ hsame.nextPid
        unfold flushedFor
        split <;> simp
    refine ⟨hl', hnew, hla, hlb, hclash, hlinks' ▸ hwf₂, ?_, hresp, hsame⟩
    refine hl.resplice hresp hk ho hl' hnew hoid hclash rfl ?_
    rcases hp with rfl | ⟨op, hop⟩
    · have : lb ++ lc = [] := Chain.nil_iff.mp hnew
      simp [(List.append_eq_nil_iff.mp this).1, inherited]
    · rw [slotsOf_eq hop, List.map_take, hl.aligned _ _ _ hop hnew, inherited_append,
        List.map_append]
      exact List.take_left' (List.length_map _)

end ChangeParent

end Db

end NuMoo
