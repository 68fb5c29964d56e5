import NuMoo.Db.Layout

/-!
# Recursive updates of the slots

The functions that shift slots in a whole subtree change nothing but the slot
arrays. Their effect on an object is given by the path from it to the root of
the subtree, whose definitions precede the slot that is added or removed.

Results:
1. `slotVisit_spec`: a recursive update of the slots, by the path to each object.
2. `addPropdef_cases`, `deletePropdef_cases`: what becomes of each object.
3. `addPropdef_spec`, `renamePropdef_spec`, `deletePropdef_spec`: each keeps the layout.
4. `Layout.modifySlot`: so does storing into one slot.
-/

namespace NuMoo

open Linked

namespace Db

/-- The databases agree on everything but the slot arrays. -/
abbrev SameButSlots (db db' : Db) : Prop := SameUpTo (fun o => { o with propval := [] }) db db'

section Visit

variable {db s : Db} {β : Type} {root : Objid}

theorem SameUpTo.kin_of_slots (h : SameButSlots db s) : s.links kin = db.links kin :=
  SameUpTo.links h kin fun _ => rfl

/-- An object of the second database is that of the first with other slots. -/
theorem SameUpTo.exists_slots (h : SameButSlots db s) {x : Objid} {o : Object}
    (ho : db.find x = some o) :
    ∃ p, s.find x = some { o with propval := p } := by
  obtain ⟨o', ho', he⟩ := h.exists_find ho
  refine ⟨o'.propval, ho'.trans (congrArg some ?_)⟩
  have := congrArg (fun q : Object => { q with propval := o'.propval }) he
  exact this

/-- A recursive update of the slots below `root`. `param` is the parameter at the end of a
path and `upd` the array that the action gives to the object there. -/
theorem slotVisit_spec {act : Objid → β → Db → Option Db} {sub : Db → Objid → Objid → β → Option β}
    (upd : List Objid → Object → List Pval) (param : List Objid → β) {b : β} (hb : param [] = b)
    (hk : (db.links kin).WF NOTHING) {oroot : Object} (hroot : db.find root = some oroot)
    (hsub : ∀ s x c m, SameButSlots db s → Path (db.links kin) root x m → db.parentOf c = some x →
      sub s x c (param m) = some (param (c :: m)))
    (hact : ∀ s x m o, SameButSlots db s → Path (db.links kin) root x m → db.find x = some o →
      s.find x = some o →
      (m = [] → s.find o.parent = db.find o.parent) →
      (∀ m', m = x :: m' → ∃ oy, db.find o.parent = some oy ∧
        s.find o.parent = some { oy with propval := upd m' oy }) →
      act x (param m) s = some (s.put x { o with propval := upd m o })) :
    ∃ s', visit (fun db => db.links kin) NOTHING act sub db.bound db.bound root b db = some s' ∧
      SameButSlots db s' ∧ (∀ y, ¬ (db.links kin).Below root y → s'.find y = db.find y) ∧
      ∀ x m o, Path (db.links kin) root x m → db.find x = some o →
        s'.find x = some { o with propval := upd m o } := by
  subst hb
  have hr : ((db.links kin) root).isSome := by simp [links_isSome, hroot]
  -- an object is visited when its parent has its new slots, and the root when its parent is as
  -- before
  let Ok : Objid → List Objid → Option Object → Prop := fun x m o =>
    (m = [] → o = (db.parentOf x).bind db.find) ∧
    ∀ m', m = x :: m' → ∃ y oy, db.parentOf x = some y ∧ db.find y = some oy ∧
      o = some { oy with propval := upd m' oy }
  let Done : Objid → List Objid → Option Object → Prop := fun x m o =>
    ∃ ox, db.find x = some ox ∧ o = some { ox with propval := upd m ox }
  have hv : Visitor (db.links kin) root (fun db => db.links kin) Db.find act sub param
      (SameButSlots db) Ok Done
      db.find := by
    refine ⟨fun s hs => hs.kin_of_slots, hsub, ?_, ?_⟩
    · intro s x m hs hp hg hok
      obtain ⟨o, ho⟩ : ∃ o, db.find x = some o :=
        Option.isSome_iff_exists.mp
          (by rw [← links_isSome (F := kin)]; exact (hp.isBelow hr).isSome.2)
      have hso : s.find x = some o := hg.trans ho
      have hbind : ((db.links kin).up x).bind s.find = s.find o.parent := by
        rw [show (db.links kin).up x = some o.parent from parentOf_eq ho, Option.bind_some]
      rw [hbind] at hok
      refine ⟨_, hact s x m o hs hp ho hso (fun hm => ?_) (fun m' hm => ?_),
        hs.trans (.put hso rfl), ?_, ?_⟩
      · rw [hok.1 hm, parentOf_eq ho, Option.bind_some]
      · obtain ⟨y, oy, hy, hoy, h⟩ := hok.2 m' hm
        rw [parentOf_eq ho] at hy
        cases hy
        exact ⟨oy, hoy, h⟩
      · exact fun y hy => find_put_of_ne hso hy
      · exact ⟨o, ho, find_put_self hso⟩
    · rintro x c m o hp hc ⟨ox, hox, rfl⟩
      refine ⟨by simp, fun m' hm => ?_⟩
      cases hm
      exact ⟨x, ox, hc, hox, rfl⟩
  obtain ⟨s', h, hs, hframe, hdone⟩ :=
    visit_spec (s := db) hk hr hv (links_bound db kin) (.refl db) .root
    (hk.depthLT (links_bound db kin) root) (fun _ _ => rfl) ⟨fun _ => rfl, by simp⟩
  refine ⟨s', h, hs, hframe, fun x m o hp ho => ?_⟩
  obtain ⟨ox, hox, he⟩ := hdone x m hp
  rw [ho] at hox
  cases hox
  rw [he, List.append_nil]

end Visit

/-! ## Inserting a slot -/

section Insert

variable {db : Db} {root : Objid}

/-- The slot as it is stored in an object: with `PF_CHOWN` the object's owner owns it. -/
def ownedBy (o : Object) (pv : Pval) : Pval :=
  if pv.perms &&& PF_CHOWN ≠ 0 then { pv with owner := o.owner } else pv

@[simp] theorem ownedBy_pid (o : Object) (pv : Pval) : (ownedBy o pv).pid = pv.pid := by
  unfold ownedBy; split <;> rfl

@[simp] theorem ownedBy_var (o : Object) (pv : Pval) : (ownedBy o pv).var = pv.var := by
  unfold ownedBy; split <;> rfl

/-- A path to `root` and the chain of `root` make a chain. -/
theorem chain_of_path {x : Objid} {m l : List Objid} (hp : Path (db.links kin) root x m)
    (hl : Chain db.parentOf NOTHING root l) : Chain db.parentOf NOTHING x (m ++ l) :=
  hp.chain links_nothing hl

/-- Every valid object has an ancestor chain. -/
theorem exists_chain (hk : (db.links kin).WF NOTHING) {x : Objid} {o : Object}
    (ho : db.find x = some o) :
    ∃ l, Chain db.parentOf NOTHING x l := hk.chain x _ (links_eq ho)

/-- What `insert_prop_recursively` stores at the end of a path. -/
def inserted (db : Db) (rootPos : Nat) (pv : Pval) (m : List Objid) (o : Object) : List Pval :=
  let pos := (db.inherited m).length + rootPos
  o.propval.take pos ++ ownedBy o (if m = [] then pv else { pv with var := .clear }) ::
    o.propval.drop pos

theorem insertPropRecursively_spec (hk : (db.links kin).WF NOTHING) {oroot : Object}
    {l : List Objid}
    (hroot : db.find root = some oroot) (hl : Chain db.parentOf NOTHING root l)
    (rootPos : Nat) (pv : Pval)
    (hpos : rootPos < (db.inherited l).length)
    (hlen : ∀ x m o, Path (db.links kin) root x m → db.find x = some o →
      o.propval.length + 1 = (db.inherited (m ++ l)).length) :
    ∃ s', db.insertPropRecursively root rootPos pv = some s' ∧ SameButSlots db s' ∧
      (∀ y, ¬ (db.links kin).Below root y → s'.find y = db.find y) ∧
      ∀ x m o, Path (db.links kin) root x m → db.find x = some o →
        s'.find x = some { o with propval := db.inserted rootPos pv m o } := by
  refine slotVisit_spec (db.inserted rootPos pv) (fun m => ((db.inherited m).length + rootPos,
    if m = [] then pv else { pv with var := .clear })) (by simp [inherited]) hk hroot ?_ ?_
  · intro s x c m hs hp hc
    obtain ⟨oc, hoc, -⟩ := exists_of_parentOf hc
    obtain ⟨p, hoc'⟩ := hs.exists_slots hoc
    simp only [hoc', Option.map_some, inherited_cons, propdefsOf_eq hoc,
      List.length_append, Nat.add_assoc]
    split <;> simp
  · intro s x m o hs hp ho hso _ _
    have hsl : Chain s.parentOf NOTHING x (m ++ l) := by
      rw [parentOf, hs.kin_of_slots]
      exact chain_of_path hp hl
    have hinh : s.inherited (m ++ l) = db.inherited (m ++ l) :=
      inherited_congr fun y _ => by rw [hs.propdefsOf fun _ => rfl]
    have hlen := hlen x m o hp ho
    have hpos' : (db.inherited m).length + rootPos < (db.inherited (m ++ l)).length := by
      rw [inherited_append, List.length_append]
      omega
    have h0 : 0 + ((db.inherited m).length + rootPos) ≤ o.propval.length := by omega
    have h1 : (db.inherited m).length + rootPos +
        ((db.inherited (m ++ l)).length - ((db.inherited m).length + rootPos + 1)) ≤
          o.propval.length := by omega
    simp only [insertProp, countProperties_eq hsl, hinh, hso, Option.bind_eq_bind, Option.bind_some,
      readSlots_eq h0, readSlots_eq h1, if_pos hpos', inserted, ownedBy, List.drop_zero]
    rw [List.take_of_length_le (i := (db.inherited (m ++ l)).length -
      ((db.inherited m).length + rootPos + 1))]
    rw [List.length_drop]
    omega

end Insert

/-! ## Definitions that change at one object -/

section DefsChange

variable {db db' : Db} {oid : Objid}

theorem mem_chain_isBelow (hk : (db.links kin).WF NOTHING) {x y : Objid} {l : List Objid}
    (hc : Chain db.parentOf NOTHING x l) (hy : y ∈ l) : (db.links kin).Below y x :=
  (Links.mem_chain_iff hk.nil_none hc).mp hy

theorem inherited_of_not_below (hk : (db.links kin).WF NOTHING)
    (hd : ∀ x, x ≠ oid → db'.propdefsOf x = db.propdefsOf x)
    {x : Objid} {l : List Objid} (hc : Chain db.parentOf NOTHING x l)
    (hx : ¬ (db.links kin).Below oid x) :
    db'.inherited l = db.inherited l := by
  refine inherited_congr fun y hy => hd y ?_
  rintro rfl
  exact hx (mem_chain_isBelow hk hc hy)

theorem inherited_of_path (hd : ∀ x, x ≠ oid → db'.propdefsOf x = db.propdefsOf x) {x : Objid}
    {m l : List Objid}
    (hp : Path (db.links kin) oid x m) (hl : Chain db.parentOf NOTHING oid (oid :: l)) :
    db'.inherited (m ++ oid :: l) = db.inherited m ++ db'.propdefsOf oid ++ db.inherited l := by
  have hnd := (chain_of_path hp hl).nodup
  rw [List.nodup_append] at hnd
  have hm : db'.inherited m = db.inherited m := inherited_congr fun y hy => hd y fun h =>
    hnd.2.2 y hy oid List.mem_cons_self h
  have hl' : db'.inherited l = db.inherited l := inherited_congr fun y hy => hd y fun h =>
    (List.nodup_cons.mp hnd.2.1).1 (h ▸ hy)
  rw [inherited_append, inherited_cons, hm, hl', List.append_assoc]

end DefsChange

theorem map_insert {α β : Type} {f : α → β} {a : List α} {u w : List β} (x : α)
    (h : a.map f = u ++ w) :
    (a.take u.length ++ x :: a.drop u.length).map f = u ++ f x :: w := by
  rw [List.map_append, List.map_cons, List.map_take, List.map_drop, h,
    List.take_left, List.drop_left]

/-! ## Adding a property -/

section Add

variable {db : Db} {oid : Objid} {o : Object}

/-- The databases agree on everything but the properties. -/
abbrev SameButProps (db db' : Db) : Prop :=
  SameUpTo (fun o => { o with propdefs := [], propval := [] }) db db'

/-- `db'` is `db` with the definition `p` at place `i` of `oid` and a slot for it in each object of
the subtree. -/
structure Widened (db db' : Db) (oid : Objid) (i : Nat) (p : Propdef)
    (Slot : Objid → Object → Pval → Prop) : Prop where
  links : db'.links kin = db.links kin
  out : ∀ x, ¬ (db.links kin).Below oid x → db'.find x = db.find x
  below : ∀ x m o, Path (db.links kin) oid x m → db.find x = some o → ∃ pv, Slot x o pv ∧
    db'.find x = some { o with
      propdefs := if x = oid then o.propdefs.take i ++ p :: o.propdefs.drop i else o.propdefs
      propval := o.propval.take ((db.inherited m).length + i) ++ pv ::
        o.propval.drop ((db.inherited m).length + i) }

namespace Widened

variable {db' : Db} {i : Nat} {p : Propdef} {Slot : Objid → Object → Pval → Prop}

theorem parentOf (h : Widened db db' oid i p Slot) : db'.parentOf = db.parentOf := by
  rw [Db.parentOf, h.links, Db.parentOf]

theorem propdefsOf_self (h : Widened db db' oid i p Slot) (ho : db.find oid = some o) :
    db'.propdefsOf oid = o.propdefs.take i ++ p :: o.propdefs.drop i := by
  obtain ⟨pv, -, ho'⟩ := h.below oid [] o .root ho
  rw [propdefsOf_eq ho', if_pos rfl]

theorem propdefsOf_ne (h : Widened db db' oid i p Slot) {x : Objid} (hx : x ≠ oid) :
    db'.propdefsOf x = db.propdefsOf x := by
  by_cases hb : (db.links kin).Below oid x
  · obtain ⟨m, hm⟩ := hb.path
    obtain ⟨ox, hox⟩ := Option.isSome_iff_exists.mp (links_isSome (F := kin) ▸ hb.isSome.2)
    obtain ⟨pv, -, hox'⟩ := h.below x m ox hm hox
    rw [propdefsOf_eq hox', if_neg hx, propdefsOf_eq hox]
  · rw [propdefsOf, h.out x hb, propdefsOf]

end Widened

/-- No object above or below defines a property of this name. -/
structure Unused (db : Db) (oid : Objid) (name : Str) : Prop where
  builtIn : builtInNamed name = none
  above : ∀ l, Chain db.parentOf NOTHING oid l → ∀ p ∈ db.inherited l, nameKey p.name ≠ nameKey name
  below : ∀ y, (db.links kin).Below oid y → ∀ p ∈ db.propdefsOf y, nameKey p.name ≠ nameKey name

/-- A definition with a new name, and a slot for it in the subtree, keep the layout. -/
theorem Layout.addDef (hk : (db.links kin).WF NOTHING) (hl : db.Layout) (ho : db.find oid = some o)
    {l : List Objid} (hc : Chain db.parentOf NOTHING oid (oid :: l)) {new : Propdef} {db' : Db}
    {Slot : Objid → Object → Pval → Prop} (hhash : new.hash = strHash new.name)
    (hpid : new.pid = db.nextPid)
    (hunused : db.Unused oid new.name) (hw : Widened db db' oid o.propdefs.length new Slot)
    (hslot : ∀ x ox pv, Slot x ox pv → pv.pid = new.pid ∧ (x = oid → pv.var ≠ .clear))
    (hnext : db.nextPid < db'.nextPid) : db'.Layout := by
  have hparent := hw.parentOf
  have hself : db'.propdefsOf oid = o.propdefs ++ [new] := by
    rw [hw.propdefsOf_self ho, List.take_length, List.drop_length]
  have hne : ∀ x, x ≠ oid → db'.propdefsOf x = db.propdefsOf x := fun x hx => hw.propdefsOf_ne hx
  have hdefs : ∀ x, db'.propdefsOf x = if x = oid then o.propdefs ++ [new]
    else db.propdefsOf x := by
    intro x
    split
    · next h => rw [h, hself]
    · next h => exact hne x h
  have hfresh := hunused.above _ hc
  have hbelow := hunused.below
  have hout := hw.out
  have hin : ∀ x m ox, Path (db.links kin) oid x m → db.find x = some ox →
      ∃ ox' pv, db'.find x = some ox' ∧
      ox'.propval = ox.propval.take ((db.inherited m).length + o.propdefs.length) ++ pv ::
        ox.propval.drop ((db.inherited m).length + o.propdefs.length) ∧
      pv.pid = new.pid ∧ (x = oid → pv.var ≠ .clear) := by
    intro x m ox hm hox
    obtain ⟨pv, hpv, hox'⟩ := hw.below x m ox hm hox
    exact ⟨_, pv, hox', rfl, hslot x ox pv hpv⟩
  have hroot : ((db.links kin) oid).isSome := by simp [links_isSome, ho]
  have hcases : ∀ x, ∀ p ∈ db'.propdefsOf x, p ∈ db.propdefsOf x ∨ (x = oid ∧ p = new) := by
    intro x p hp
    by_cases hx : x = oid
    · subst hx
      rw [hself] at hp
      simpa [propdefsOf_eq ho] using hp
    · rw [hne x hx] at hp
      exact .inl hp
  -- The definitions on the chain of an object below `oid`, before and after.
  have hpath : ∀ {x m}, Path (db.links kin) oid x m →
      db.inherited (m ++ oid :: l) = (db.inherited m ++ o.propdefs) ++ db.inherited l ∧
      db'.inherited (m ++ oid :: l) = (db.inherited m ++ o.propdefs) ++ new :: db.inherited l := by
    intro x m hp
    refine ⟨by rw [inherited_append, inherited_cons, propdefsOf_eq ho, List.append_assoc], ?_⟩
    rw [inherited_of_path hne hp hc, hself]
    simp
  refine ⟨fun x p hp => ?_, fun x o' lx ho' hcx => ?_, fun x lx hcx => ?_,
    fun x o' n pv ho' hn hpv => ?_,
    fun x y i j p q hp hq he => ?_, fun x p hp => ?_⟩
  · rcases hcases x p hp with hp | ⟨-, rfl⟩
    · exact hl.hash x p hp
    · exact hhash
  · rw [hparent] at hcx
    by_cases hb : (db.links kin).Below oid x
    · obtain ⟨m, hm⟩ := hb.path
      obtain ⟨ox, hox⟩ := Option.isSome_iff_exists.mp (links_isSome (F := kin) ▸ hb.isSome.2)
      obtain rfl := hcx.unique (chain_of_path hm hc)
      obtain ⟨ox', pv, hox', hval, hpvpid, -⟩ := hin x m ox hm hox
      rw [ho'] at hox'
      cases hox'
      have ha := hl.aligned x ox _ hox hcx
      rw [(hpath hm).1, List.map_append] at ha
      have hins := map_insert pv ha
      rw [List.length_map, List.length_append, hpvpid] at hins
      rw [hval, hins, (hpath hm).2, List.map_append, List.map_append,
        List.map_append, List.map_cons]
    · rw [hout x hb] at ho'
      rw [hl.aligned x o' lx ho' hcx, inherited_of_not_below hk hne hcx hb]
  · rw [hparent] at hcx
    by_cases hb : (db.links kin).Below oid x
    · obtain ⟨m, hm⟩ := hb.path
      obtain rfl := hcx.unique (chain_of_path hm hc)
      have hnd := hl.names x _ hcx
      have hnot : nameKey new.name ∉ (db.inherited (m ++ oid :: l)).map fun p =>
          nameKey p.name := by
        intro hmem
        obtain ⟨p, hp, he⟩ := List.mem_map.mp hmem
        rw [inherited_append, List.mem_append] at hp
        rcases hp with hp | hp
        · obtain ⟨y, hy, hpy⟩ := mem_inherited.mp hp
          exact hbelow y (hm.mem_isBelow hroot hy) p hpy he
        · exact hfresh p hp he
      rw [(hpath hm).1] at hnd hnot
      rw [(hpath hm).2]
      simp only [List.map_append, List.map_cons] at hnd hnot ⊢
      exact (List.nodup_middle.mpr (List.nodup_cons.mpr ⟨hnot, hnd⟩))
    · rw [inherited_of_not_below hk hne hcx hb]
      exact hl.names x lx hcx
  · by_cases hb : (db.links kin).Below oid x
    · obtain ⟨m, hm⟩ := hb.path
      obtain ⟨ox, hox⟩ := Option.isSome_iff_exists.mp (links_isSome (F := kin) ▸ hb.isSome.2)
      obtain ⟨ox', pv', hox', hval, hpvpid, hclear⟩ := hin x m ox hm hox
      rw [ho'] at hox'
      cases hox'
      rw [hval] at hpv
      have hlen : (db.inherited m).length + o.propdefs.length ≤ ox.propval.length := by
        rw [hl.length_eq hox (chain_of_path hm hc), (hpath hm).1, List.length_append,
          List.length_append]
        omega
      have hdx : o'.propdefs = db'.propdefsOf x := (propdefsOf_eq ho').symm
      by_cases hx : x = oid
      · subst hx
        obtain rfl := hm.unique hk (links_eq ho) .root
        rw [hdx, hself, List.length_append] at hn
        rw [ho] at hox
        cases hox
        simp only [inherited, List.flatMap_nil, List.length_nil, Nat.zero_add] at hpv hlen
        by_cases hn' : n < o.propdefs.length
        · rw [List.getElem?_append_left (by rw [List.length_take]; omega),
            List.getElem?_take_of_lt hn'] at hpv
          exact hl.defined x o n pv ho hn' hpv
        · obtain rfl : n = o.propdefs.length := by simp at hn; omega
          rw [List.getElem?_append_right (by simp [hlen])] at hpv
          obtain rfl : pv' = pv := by simpa [hlen] using hpv
          exact hclear rfl
      · rw [hdx, hne x hx, propdefsOf_eq hox] at hn
        have hn' : n < (db.inherited m).length + o.propdefs.length := by
          cases hm with
          | root => exact absurd rfl hx
          | child _ _ =>
            rw [inherited_cons, propdefsOf_eq hox, List.length_append]
            omega
        rw [List.getElem?_append_left (by rw [List.length_take]; omega),
          List.getElem?_take_of_lt hn'] at hpv
        exact hl.defined x ox n pv hox hn hpv
    · rw [hout x hb] at ho'
      exact hl.defined x o' n pv ho' hn hpv
  · -- A new number is larger than all the others.
    have hlt : ∀ x, ∀ p ∈ db.propdefsOf x, p.pid ≠ new.pid := fun x p hp => by
      have := hl.pidLt x p hp
      omega
    rw [hdefs] at hp hq
    have hget : ∀ {k r}, (o.propdefs ++ [new])[k]? = some r →
        (db.propdefsOf oid)[k]? = some r ∨ (k = o.propdefs.length ∧ r = new) := by
      intro k r h
      rw [propdefsOf_eq ho]
      rcases Nat.lt_trichotomy k o.propdefs.length with hk | rfl | hk
      · rw [List.getElem?_append_left hk] at h
        exact .inl h
      · rw [List.getElem?_append_right (Nat.le_refl _)] at h
        exact .inr ⟨rfl, by simpa using h.symm⟩
      · rw [List.getElem?_eq_none (by simp; omega)] at h
        cases h
    have hp' : (db.propdefsOf x)[i]? = some p ∨ (x = oid ∧ i = o.propdefs.length ∧ p = new) := by
      split at hp
      · next h => subst h; exact (hget hp).imp_right fun h => ⟨rfl, h⟩
      · exact .inl hp
    have hq' : (db.propdefsOf y)[j]? = some q ∨ (y = oid ∧ j = o.propdefs.length ∧ q = new) := by
      split at hq
      · next h => subst h; exact (hget hq).imp_right fun h => ⟨rfl, h⟩
      · exact .inl hq
    rcases hp' with hp' | ⟨rfl, rfl, rfl⟩ <;> rcases hq' with hq' | ⟨rfl, rfl, rfl⟩
    · exact hl.pidInj x y i j p q hp' hq' he
    · exact absurd he (hlt x p (List.mem_of_getElem? hp'))
    · exact absurd he.symm (hlt y q (List.mem_of_getElem? hq'))
    · exact ⟨rfl, rfl⟩
  · rcases hcases x p hp with hp | ⟨-, rfl⟩
    · exact (hl.pidLt x p hp).trans hnext
    · rwa [hpid]

/-- The slot that `db_add_propdef` makes in an object. -/
def addedSlot (oid : Objid) (pv : Pval) (x : Objid) (o : Object) : Pval :=
  ownedBy o (if x = oid then pv else { pv with var := .clear })

/-- A name that is in use is refused; otherwise the definition comes last. -/
theorem addPropdef_cases (hk : (db.links kin).WF NOTHING) (hl : db.Layout)
    (ho : db.find oid = some o) (pname : Str)
    (value : Var) (owner : Objid) (flags : UInt16) :
    (db.dbAddPropdef oid pname value owner flags = some (false, db) ∧ ¬ db.Unused oid pname) ∨
      ∃ db', db.dbAddPropdef oid pname value owner flags = some (true, db') ∧ SameButProps db db' ∧
        db.nextPid < db'.nextPid ∧ db.Unused oid pname ∧
        Widened db db' oid o.propdefs.length
          { name := pname, hash := strHash pname, pid := db.nextPid }
          fun x ox pv =>
            pv = addedSlot oid { var := value, owner, perms := flags, pid := db.nextPid } x ox := by
  obtain ⟨l', hl'⟩ := exists_chain hk ho
  obtain ⟨l, rfl, -⟩ := chain_cons ho hl'
  unfold dbAddPropdef
  rcases hl.findProperty_eq hl' pname with ⟨prop, hf⟩ | ⟨hf, hnone⟩ | ⟨definer, n, p, -, -,
    hf, hp, hname, -⟩
  · refine .inl ⟨by simp [hf], fun h => ?_⟩
    have hbi := h.builtIn
    rw [builtInNamed] at hbi
    obtain ⟨os, hos, -⟩ := lineage_eq hl' (chain_length_lt hl')
    simp only [dbFindProperty, hbi, hos, Option.map_some, Option.some.injEq] at hf
    rcases searchProps_eq (strHash pname) pname oid os 0 with ⟨h, -⟩ | ⟨_, _, _, h, -⟩
    · rw [h] at hf
      cases hf
    · rw [h] at hf
      cases hf
  rotate_left
  · exact .inl ⟨by simp [hf], fun h => h.above _ hl' p (List.mem_of_getElem? hp) hname⟩
  obtain ⟨b, hb, hbiff⟩ := propertyDefinedAtOrBelow_eq hk hl.hash ho pname
  cases b with
  | true =>
    obtain ⟨y, hy, p, hp, hname⟩ := hbiff.mp rfl
    exact .inl ⟨by simp [hf, hb], fun h => h.below y hy p hp hname⟩
  | false =>
    -- the name is free above and below: first the definition is stored, then the slots
    right
    have hunused : db.Unused oid pname := by
      refine ⟨?_, fun m hm => hl'.unique hm ▸ hnone, fun y hy p hp he =>
        Bool.false_ne_true (hbiff.mpr ⟨y, hy, p, hp, he⟩)⟩
      cases hn : builtInNamed pname with
      | none => rfl
      | some e =>
        rw [builtInNamed] at hn
        simp [dbFindProperty, hn] at hf
    let new : Propdef := { name := pname, hash := strHash pname, pid := db.nextPid }
    let pv : Pval := { var := value, owner, perms := flags, pid := db.nextPid }
    let db₁ : Db :=
      { db.put oid { o with propdefs := o.propdefs ++ [new] } with nextPid := db.nextPid + 1 }
    have hsame : SameButProps db db₁ := by
      have hput : SameButProps db (db.put oid { o with propdefs := o.propdefs ++ [new] }) :=
        .put ho rfl
      exact ⟨hput.find, hput.numObjects, rfl, rfl, Nat.le_succ _⟩
    have hlinks₁ : db₁.links kin = db.links kin := hsame.links kin fun _ => rfl
    have ho₁ : db₁.find oid = some { o with propdefs := o.propdefs ++ [new] } := find_put_self ho
    have hne₁ : ∀ x, x ≠ oid → db₁.find x = db.find x := fun x hx => find_put_of_ne ho hx
    have hother : ∀ x, x ≠ oid → db₁.propdefsOf x = db.propdefsOf x := fun x hx => by
      rw [propdefsOf, hne₁ x hx, propdefsOf]
    have hk₁ : (db₁.links kin).WF NOTHING := hlinks₁ ▸ hk
    have hc₁ : Chain db₁.parentOf NOTHING oid (oid :: l) := by rw [parentOf, hlinks₁]; exact hl'
    have hfind₁ : ∀ x ox, db.find x = some ox →
        db₁.find x =
          some { ox with propdefs := if x = oid then ox.propdefs ++ [new] else ox.propdefs } := by
      intro x ox hox
      split
      · next h =>
        subst h
        rw [ho] at hox
        cases hox
        exact ho₁
      · next h => exact (hne₁ x h).trans hox
    obtain ⟨db', hins, hslots, hout, hin⟩ :=
      insertPropRecursively_spec hk₁ ho₁ hc₁ o.propdefs.length pv
      (by rw [inherited_cons, propdefsOf_eq ho₁]; simp)
      (by
        intro x m ox₁ hp hox₁
        rw [hlinks₁] at hp
        obtain ⟨ox, hox, -⟩ := hsame.exists_find' hox₁
        have hval := hox₁.symm.trans (hfind₁ x ox hox)
        cases hval
        rw [hl.length_eq hox (chain_of_path hp hl'), inherited_of_path hother hp hl',
          propdefsOf_eq ho₁,
          inherited_append, inherited_cons, propdefsOf_eq ho]
        simp only [List.length_append, List.length_singleton]
        omega)
    rw [hlinks₁] at hout hin
    have hsame' : SameButProps db db' := hsame.trans (hslots.mono fun _ => rfl)
    refine ⟨db', ?_, hsame', Nat.lt_of_lt_of_le (Nat.lt_succ_self _) hslots.nextPid, hunused,
      hsame'.links kin fun _ => rfl, fun x hx => ?_, fun x m ox hp hox => ⟨_, rfl, ?_⟩⟩
    · simp only [hf, hb, ho, Option.bind_eq_bind, Option.bind_some, Option.isSome_none,
        Bool.false_eq_true, if_false,
        List.length_append, List.length_singleton, Nat.add_sub_cancel]
      rw [show insertPropRecursively oid o.propdefs.length _ _ = some db' from hins]
      rfl
    · rw [hout x hx, hne₁ x]
      rintro rfl
      exact hx (.refl (links_eq ho))
    · have hmid : db₁.inherited m = db.inherited m := by
        refine inherited_congr fun y hy => hother y ?_
        rintro rfl
        have hnd := (chain_of_path hp hl').nodup
        rw [List.nodup_append] at hnd
        exact hnd.2.2 y hy y List.mem_cons_self rfl
      rw [hin x m _ hp (hfind₁ x ox hox), inserted, hmid]
      have hroot : m = [] ↔ x = oid := hp.eq_nil_iff hk (links_eq ho)
      simp only [hroot, addedSlot, ownedBy, Option.some_inj, Object.mk.injEq, true_and]
      refine ⟨?_, rfl⟩
      split
      · next h =>
        subst h
        rw [ho] at hox
        cases hox
        rw [List.take_length, List.drop_length]
      · rfl

theorem addPropdef_spec (hk : (db.links kin).WF NOTHING) (hl : db.Layout)
    (ho : db.find oid = some o) (pname : Str)
    {value : Var} (hv : value ≠ .clear) (owner : Objid) (flags : UInt16) :
    ∃ b db', db.dbAddPropdef oid pname value owner flags = some (b, db') ∧ db'.Layout ∧
      SameButProps db db' := by
  obtain ⟨l', hl'⟩ := exists_chain hk ho
  obtain ⟨l, rfl, -⟩ := chain_cons ho hl'
  rcases addPropdef_cases hk hl ho pname value owner flags with ⟨h, -⟩ | ⟨db', h, hsame,
    hnext, hunused, hw⟩
  · exact ⟨false, db, h, hl, .refl db⟩
  · refine ⟨true, db', h, hl.addDef hk ho hl' rfl rfl hunused hw ?_ hnext, hsame⟩
    rintro x ox pv rfl
    refine ⟨?_, fun hx => ?_⟩
    · rw [addedSlot, ownedBy_pid]
      split <;> rfl
    · rwa [addedSlot, ownedBy_var, if_pos hx]

end Add

/-! ## Deleting a property -/

theorem split_at {α : Type} {a : List α} {i : Nat} (hi : i < a.length) :
    a = a.take i ++ a[i] :: a.drop (i + 1) := by
  rw [← List.drop_eq_getElem_cons hi, List.take_append_drop]

section Delete

variable {db : Db} {root oid : Objid} {o : Object}

/-- The definitions on a chain, split at one of them. -/
theorem inherited_split (ho : db.find oid = some o) {i : Nat} (hi : i < o.propdefs.length)
    (m l : List Objid) :
    db.inherited (m ++ oid :: l) =
      (db.inherited m ++ o.propdefs.take i) ++ o.propdefs[i] ::
        (o.propdefs.drop (i + 1) ++ db.inherited l) := by
  rw [inherited_append, inherited_cons, propdefsOf_eq ho, List.append_assoc, ← List.cons_append,
    ← List.append_assoc (o.propdefs.take i), ← split_at hi]

theorem take_append_drop_succ {α : Type} (a : List α) (n : Nat) :
    a.take n ++ a.drop (n + 1) = a.eraseIdx n :=
  (List.eraseIdx_eq_take_drop_succ a n).symm

theorem removePropRecursively_spec (hk : (db.links kin).WF NOTHING) {oroot : Object}
    {l : List Objid}
    (hroot : db.find root = some oroot) (hl : Chain db.parentOf NOTHING root l) (rootPos : Nat)
    (hpos : rootPos ≤ (db.inherited l).length)
    (hlen : ∀ x m o, Path (db.links kin) root x m → db.find x = some o →
      o.propval.length = (db.inherited (m ++ l)).length + 1) :
    ∃ s', db.removePropRecursively root rootPos = some s' ∧ SameButSlots db s' ∧
      (∀ y, ¬ (db.links kin).Below root y → s'.find y = db.find y) ∧
      ∀ x m o, Path (db.links kin) root x m → db.find x = some o →
        s'.find x =
          some { o with propval := o.propval.eraseIdx ((db.inherited m).length + rootPos) } := by
  refine slotVisit_spec (fun m o => o.propval.eraseIdx ((db.inherited m).length + rootPos))
    (fun m => (db.inherited m).length + rootPos) (by simp [inherited]) hk hroot ?_ ?_
  · intro s x c m hs hp hc
    obtain ⟨oc, hoc, -⟩ := exists_of_parentOf hc
    obtain ⟨p, hoc'⟩ := hs.exists_slots hoc
    simp only [hoc', Option.map_some, inherited_cons, propdefsOf_eq hoc,
      List.length_append, Nat.add_assoc]
  · intro s x m o hs hp ho hso _ _
    have hsl : Chain s.parentOf NOTHING x (m ++ l) := by
      rw [parentOf, hs.kin_of_slots]
      exact chain_of_path hp hl
    have hinh : s.inherited (m ++ l) = db.inherited (m ++ l) :=
      inherited_congr fun y _ => by rw [hs.propdefsOf fun _ => rfl]
    have hlen := hlen x m o hp ho
    have hpos' : (db.inherited m).length + rootPos ≤ (db.inherited (m ++ l)).length := by
      rw [inherited_append, List.length_append]
      omega
    have hlt : (db.inherited m).length + rootPos < o.propval.length := by omega
    have hget := List.getElem?_eq_getElem hlt
    have h0 : 0 + ((db.inherited m).length + rootPos) ≤ o.propval.length := by omega
    have h1 : (db.inherited m).length + rootPos + 1 +
        ((db.inherited (m ++ l)).length - ((db.inherited m).length + rootPos)) ≤
          o.propval.length := by omega
    simp only [removeProp, countProperties_eq hsl, hinh, hso, Option.bind_eq_bind,
      Option.bind_some, hget,
      readSlots_eq h0, readSlots_eq h1, if_pos hpos', List.drop_zero]
    split
    · rw [List.take_of_length_le (i := (db.inherited (m ++ l)).length -
        ((db.inherited m).length + rootPos)),
        take_append_drop_succ]
      rw [List.length_drop]
      omega
    · next h =>
      -- The only slot is the one that goes.
      have h0 : (db.inherited (m ++ l)).length = 0 := not_not.mp h
      congr 3
      symm
      rw [← List.length_eq_zero_iff, List.length_eraseIdx]
      split <;> omega

theorem map_eraseIdx {α β : Type} {f : α → β} {a : List α} {u w : List β} {x : β}
    (h : a.map f = u ++ x :: w) :
    (a.eraseIdx u.length).map f = u ++ w := by
  rw [← take_append_drop_succ, List.map_append, List.map_take, List.map_drop, h, List.take_left,
    List.drop_length_add_append]
  rfl

/-- `db'` is `db` without the definition at place `i` of `oid` and without its slots. -/
structure Narrowed (db db' : Db) (oid : Objid) (i : Nat) : Prop where
  links : db'.links kin = db.links kin
  out : ∀ x, ¬ (db.links kin).Below oid x → db'.find x = db.find x
  below : ∀ x m o, Path (db.links kin) oid x m → db.find x = some o →
    db'.find x = some { o with
      propdefs := if x = oid then o.propdefs.eraseIdx i else o.propdefs
      propval := o.propval.eraseIdx ((db.inherited m).length + i) }

namespace Narrowed

variable {db' : Db} {i : Nat}

theorem parentOf (h : Narrowed db db' oid i) : db'.parentOf = db.parentOf := by
  rw [Db.parentOf, h.links, Db.parentOf]

theorem propdefsOf_self (h : Narrowed db db' oid i) (ho : db.find oid = some o) :
    db'.propdefsOf oid = o.propdefs.eraseIdx i := by
  rw [propdefsOf_eq (h.below oid [] o .root ho), if_pos rfl]

theorem propdefsOf_ne (h : Narrowed db db' oid i) {x : Objid} (hx : x ≠ oid) :
    db'.propdefsOf x = db.propdefsOf x := by
  by_cases hb : (db.links kin).Below oid x
  · obtain ⟨m, hm⟩ := hb.path
    obtain ⟨ox, hox⟩ := Option.isSome_iff_exists.mp (links_isSome (F := kin) ▸ hb.isSome.2)
    rw [propdefsOf_eq (h.below x m ox hm hox), if_neg hx, propdefsOf_eq hox]
  · rw [propdefsOf, h.out x hb, propdefsOf]

end Narrowed

/-- A definition that goes with its slots in the subtree keeps the layout. -/
theorem Layout.removeDef (hk : (db.links kin).WF NOTHING) (hl : db.Layout)
    (ho : db.find oid = some o)
    {l : List Objid} (hc : Chain db.parentOf NOTHING oid (oid :: l)) {i : Nat}
    (hi : i < o.propdefs.length) {db' : Db}
    (hw : Narrowed db db' oid i) (hnext : db.nextPid ≤ db'.nextPid) : db'.Layout := by
  have hparent := hw.parentOf
  have hself : db'.propdefsOf oid = o.propdefs.eraseIdx i := hw.propdefsOf_self ho
  have hne : ∀ x, x ≠ oid → db'.propdefsOf x = db.propdefsOf x := fun x hx => hw.propdefsOf_ne hx
  have hout := hw.out
  have hin : ∀ x m ox, Path (db.links kin) oid x m → db.find x = some ox →
      ∃ ox', db'.find x = some ox' ∧
      ox'.propval = ox.propval.eraseIdx ((db.inherited m).length + i) :=
    fun x m ox hm hox => ⟨_, hw.below x m ox hm hox, rfl⟩
  have hget : ∀ x k p, (db'.propdefsOf x)[k]? = some p →
      ∃ k', (db.propdefsOf x)[k']? = some p ∧ (x = oid → k' = if k < i then k else k + 1) ∧
      (x ≠ oid → k' = k) := by
    intro x k p hp
    by_cases hx : x = oid
    · subst hx
      rw [hself, List.getElem?_eraseIdx] at hp
      refine ⟨if k < i then k else k + 1, ?_, fun _ => rfl, fun h => absurd rfl h⟩
      rw [propdefsOf_eq ho]
      split at hp
      · next hk => rwa [if_pos hk]
      · next hk => rwa [if_neg hk]
    · exact ⟨k, by rwa [hne x hx] at hp, fun h => absurd h hx, fun _ => rfl⟩
  have hmem : ∀ x, ∀ p ∈ db'.propdefsOf x, p ∈ db.propdefsOf x := by
    intro x p hp
    obtain ⟨k, hkp⟩ := List.mem_iff_getElem?.mp hp
    obtain ⟨k', hk', -, -⟩ := hget x k p hkp
    exact List.mem_of_getElem? hk'
  -- The definitions on the chain of an object below `oid`, before and after.
  have hpath : ∀ {x m}, Path (db.links kin) oid x m →
      db.inherited (m ++ oid :: l) =
        (db.inherited m ++ o.propdefs.take i) ++ o.propdefs[i] ::
          (o.propdefs.drop (i + 1) ++ db.inherited l) ∧
      db'.inherited (m ++ oid :: l) =
        (db.inherited m ++ o.propdefs.take i) ++ (o.propdefs.drop (i + 1) ++ db.inherited l) := by
    intro x m hp
    refine ⟨inherited_split ho hi m l, ?_⟩
    rw [inherited_of_path hne hp hc, hself, ← take_append_drop_succ]
    simp
  have hpos : ∀ m, (db.inherited m).length + i = (db.inherited m ++ o.propdefs.take i).length := by
    intro m
    rw [List.length_append, List.length_take, Nat.min_eq_left hi.le]
  refine ⟨fun x p hp => hl.hash x p (hmem x p hp), fun x o' lx ho' hcx => ?_, fun x lx hcx => ?_,
    fun x o' n pv ho' hn hpv => ?_, fun x y i₁ j p q hp hq he => ?_, fun x p hp =>
      (hl.pidLt x p (hmem x p hp)).trans_le hnext⟩
  · rw [hparent] at hcx
    by_cases hb : (db.links kin).Below oid x
    · obtain ⟨m, hm⟩ := hb.path
      obtain ⟨ox, hox⟩ := Option.isSome_iff_exists.mp (links_isSome (F := kin) ▸ hb.isSome.2)
      obtain rfl := hcx.unique (chain_of_path hm hc)
      obtain ⟨ox', hox', hval⟩ := hin x m ox hm hox
      rw [ho'] at hox'
      cases hox'
      have ha := hl.aligned x ox _ hox hcx
      rw [(hpath hm).1, List.map_append, List.map_cons] at ha
      have her := map_eraseIdx ha
      rw [List.length_map] at her
      rw [hval, hpos, her, (hpath hm).2, ← List.map_append]
    · rw [hout x hb] at ho'
      rw [hl.aligned x o' lx ho' hcx, inherited_of_not_below hk hne hcx hb]
  · rw [hparent] at hcx
    by_cases hb : (db.links kin).Below oid x
    · obtain ⟨m, hm⟩ := hb.path
      obtain rfl := hcx.unique (chain_of_path hm hc)
      have hnd := hl.names x _ hcx
      rw [(hpath hm).1] at hnd
      rw [(hpath hm).2]
      simp only [List.map_append, List.map_cons] at hnd ⊢
      exact (List.nodup_cons.mp (List.nodup_middle.mp hnd)).2
    · rw [inherited_of_not_below hk hne hcx hb]
      exact hl.names x lx hcx
  · by_cases hb : (db.links kin).Below oid x
    · obtain ⟨m, hm⟩ := hb.path
      obtain ⟨ox, hox⟩ := Option.isSome_iff_exists.mp (links_isSome (F := kin) ▸ hb.isSome.2)
      obtain ⟨ox', hox', hval⟩ := hin x m ox hm hox
      rw [ho'] at hox'
      cases hox'
      rw [hval, List.getElem?_eraseIdx] at hpv
      rw [← propdefsOf_eq ho'] at hn
      by_cases hx : x = oid
      · subst hx
        obtain rfl := hm.unique hk (links_eq ho) .root
        rw [hself, List.length_eraseIdx_of_lt hi] at hn
        rw [ho] at hox
        cases hox
        simp only [inherited, List.flatMap_nil, List.length_nil, Nat.zero_add] at hpv
        split at hpv
        · exact hl.defined x o n pv ho (by omega) hpv
        · exact hl.defined x o (n + 1) pv ho (by omega) hpv
      · rw [hne x hx, propdefsOf_eq hox] at hn
        have hn' : n < (db.inherited m).length + i := by
          cases hm with
          | root => exact absurd rfl hx
          | child _ _ =>
            rw [inherited_cons, propdefsOf_eq hox, List.length_append]
            omega
        rw [if_pos hn'] at hpv
        exact hl.defined x ox n pv hox hn hpv
    · rw [hout x hb] at ho'
      exact hl.defined x o' n pv ho' hn hpv
  · obtain ⟨i', hi', hi₁, hi₂⟩ := hget x i₁ p hp
    obtain ⟨j', hj', hj₁, hj₂⟩ := hget y j q hq
    obtain ⟨rfl, h⟩ := hl.pidInj x y i' j' p q hi' hj' he
    refine ⟨rfl, ?_⟩
    by_cases hx : x = oid
    · have h₁ := hi₁ hx
      have h₂ := hj₁ hx
      split at h₁ <;> split at h₂ <;> omega
    · rw [← hi₂ hx, ← hj₂ hx, h]

/-- The first definition that matches goes; only the lengths of the slot arrays are needed. -/
theorem deletePropdef_cases (hk : (db.links kin).WF NOTHING)
    (hlen : ∀ x ox l, db.find x = some ox → Chain db.parentOf NOTHING x l →
      ox.propval.length = (db.inherited l).length)
    (ho : db.find oid = some o) (pname : Str) :
    (db.dbDeletePropdef oid pname = some (false, db) ∧
      o.propdefs.findIdx? (fun p => p.matches (strHash pname) pname) = none) ∨
      ∃ i db', db.dbDeletePropdef oid pname = some (true, db') ∧ SameButProps db db' ∧
        o.propdefs.findIdx? (fun p => p.matches (strHash pname) pname) = some i ∧
        Narrowed db db' oid i := by
  obtain ⟨l', hl'⟩ := exists_chain hk ho
  obtain ⟨l, rfl, -⟩ := chain_cons ho hl'
  simp only [dbDeletePropdef, ho, Option.bind_eq_bind, Option.bind_some]
  cases hi : o.propdefs.findIdx? fun p => p.matches (strHash pname) pname with
  | none => exact .inl ⟨rfl, rfl⟩
  | some i =>
    -- the definition goes first, then the slots at and below the object
    right
    obtain ⟨hlt, -, -⟩ := List.findIdx?_eq_some_iff_getElem.mp hi
    let db₁ := db.put oid { o with propdefs := o.propdefs.eraseIdx i }
    have hsame : SameButProps db db₁ := .put ho rfl
    have hlinks₁ : db₁.links kin = db.links kin := hsame.links kin fun _ => rfl
    have ho₁ : db₁.find oid = some { o with propdefs := o.propdefs.eraseIdx i } := find_put_self ho
    have hne₁ : ∀ x, x ≠ oid → db₁.find x = db.find x := fun x hx => find_put_of_ne ho hx
    have hother : ∀ x, x ≠ oid → db₁.propdefsOf x = db.propdefsOf x := fun x hx => by
      rw [propdefsOf, hne₁ x hx, propdefsOf]
    have hk₁ : (db₁.links kin).WF NOTHING := hlinks₁ ▸ hk
    have hc₁ : Chain db₁.parentOf NOTHING oid (oid :: l) := by rw [parentOf, hlinks₁]; exact hl'
    have hfind₁ : ∀ x ox, db.find x = some ox →
        db₁.find x =
          some { ox with propdefs := if x = oid then ox.propdefs.eraseIdx i else ox.propdefs } := by
      intro x ox hox
      split
      · next h =>
        subst h
        rw [ho] at hox
        cases hox
        exact ho₁
      · next h => exact (hne₁ x h).trans hox
    obtain ⟨db', hrem, hslots, hout, hin⟩ := removePropRecursively_spec hk₁ ho₁ hc₁ i
      (by
        rw [inherited_cons, propdefsOf_eq ho₁, List.length_append, List.length_eraseIdx_of_lt hlt]
        omega)
      (by
        intro x m ox₁ hp hox₁
        rw [hlinks₁] at hp
        obtain ⟨ox, hox, -⟩ := hsame.exists_find' hox₁
        have hval := hox₁.symm.trans (hfind₁ x ox hox)
        cases hval
        rw [hlen x ox _ hox (chain_of_path hp hl'), inherited_of_path hother hp hl',
          propdefsOf_eq ho₁,
          inherited_append, inherited_cons, propdefsOf_eq ho]
        simp only [List.length_append, List.length_eraseIdx_of_lt hlt]
        omega)
    rw [hlinks₁] at hout hin
    have hsame' : SameButProps db db' := hsame.trans (hslots.mono fun _ => rfl)
    refine ⟨i, db', ?_, hsame', rfl, hsame'.links kin fun _ => rfl, fun x hx => ?_,
      fun x m ox hp hox => ?_⟩
    · show (removePropRecursively oid i db₁).bind _ = _
      rw [hrem]
      rfl
    · rw [hout x hx, hne₁ x]
      rintro rfl
      exact hx (.refl (links_eq ho))
    · have hmid : db₁.inherited m = db.inherited m := by
        refine inherited_congr fun y hy => hother y ?_
        rintro rfl
        have hnd := (chain_of_path hp hl').nodup
        rw [List.nodup_append] at hnd
        exact hnd.2.2 y hy y List.mem_cons_self rfl
      rw [hin x m _ hp (hfind₁ x ox hox), hmid]

theorem deletePropdef_spec (hk : (db.links kin).WF NOTHING) (hl : db.Layout)
    (ho : db.find oid = some o) (pname : Str) :
    ∃ b db', db.dbDeletePropdef oid pname = some (b, db') ∧ db'.Layout ∧ SameButProps db db' := by
  obtain ⟨l', hl'⟩ := exists_chain hk ho
  obtain ⟨l, rfl, -⟩ := chain_cons ho hl'
  rcases deletePropdef_cases hk (fun _ _ _ => hl.length_eq) ho pname with ⟨h, -⟩ | ⟨i, db',
    h, hsame, hi, hw⟩
  · exact ⟨false, db, h, hl, .refl db⟩
  · obtain ⟨hlt, -, -⟩ := List.findIdx?_eq_some_iff_getElem.mp hi
    exact ⟨true, db', h, hl.removeDef hk ho hl' hlt hw hsame.nextPid, hsame⟩

end Delete

/-! ## Renaming a property -/

section Rename

variable {db : Db} {oid : Objid} {o : Object}

/-- A definition whose name changes to one that is free keeps the layout. -/
theorem Layout.renameDef (hk : (db.links kin).WF NOTHING) (hl : db.Layout)
    (ho : db.find oid = some o)
    {l : List Objid} (hc : Chain db.parentOf NOTHING oid (oid :: l)) {i : Nat}
    (hi : i < o.propdefs.length)
    {name : Str}
    (hname : nameKey name = nameKey o.propdefs[i].name ∨
      (∀ p ∈ db.inherited (oid :: l), nameKey p.name ≠ nameKey name) ∧
      ∀ y, (db.links kin).Below oid y → ∀ p ∈ db.propdefsOf y, nameKey p.name ≠ nameKey name) :
    (db.put oid { o with
      propdefs := o.propdefs.modify i fun p => { p with name, hash := strHash name } }).Layout := by
  let new : Propdef := { o.propdefs[i] with name, hash := strHash name }
  let defs := o.propdefs.modify i fun p => { p with name, hash := strHash name }
  let db' := db.put oid { o with propdefs := defs }
  show db'.Layout
  have hsame : SameButProps db db' := .put ho rfl
  have hlinks : db'.links kin = db.links kin := hsame.links kin fun _ => rfl
  have hparent : db'.parentOf = db.parentOf := by rw [parentOf, parentOf, hlinks]
  have ho' : db'.find oid = some { o with propdefs := defs } := find_put_self ho
  have hfne : ∀ x, x ≠ oid → db'.find x = db.find x := fun x hx => find_put_of_ne ho hx
  have hne : ∀ x, x ≠ oid → db'.propdefsOf x = db.propdefsOf x := fun x hx => by
    rw [propdefsOf, hfne x hx, propdefsOf]
  have hroot : ((db.links kin) oid).isSome := by simp [links_isSome, ho]
  have hself : db'.propdefsOf oid = o.propdefs.take i ++ new :: o.propdefs.drop (i + 1) := by
    rw [propdefsOf_eq ho']
    exact List.modify_eq_take_cons_drop hi
  -- the numbers of the definitions are as before, and with them the slots
  have hpids : ∀ x, (db'.propdefsOf x).map Propdef.pid = (db.propdefsOf x).map Propdef.pid := by
    intro x
    by_cases hx : x = oid
    · subst hx
      calc (db'.propdefsOf x).map Propdef.pid
          = (o.propdefs.take i ++ o.propdefs[i] :: o.propdefs.drop (i + 1)).map Propdef.pid := by
            rw [hself, List.map_append, List.map_append, List.map_cons, List.map_cons]
        _ = (db.propdefsOf x).map Propdef.pid := by rw [← split_at hi, propdefsOf_eq ho]
    · rw [hne x hx]
  have hpinh : ∀ l, (db'.inherited l).map Propdef.pid = (db.inherited l).map Propdef.pid := by
    intro l
    rw [inherited, inherited, List.map_flatMap, List.map_flatMap]
    exact List.flatMap_congr fun x _ => hpids x
  have hmem : ∀ x, ∀ p ∈ db'.propdefsOf x, (∃ q ∈ db.propdefsOf x, q.pid = p.pid) := by
    intro x p hp
    have := List.mem_map_of_mem (f := Propdef.pid) hp
    rw [hpids] at this
    exact List.mem_map.mp this
  refine ⟨fun x p hp => ?_, fun x o₁ lx ho₁ hcx => ?_, fun x lx hcx => ?_,
    fun x o₁ n pv ho₁ hn hpv => ?_,
    fun x y j k p q hp hq he => ?_, fun x p hp => ?_⟩
  · by_cases hx : x = oid
    · subst hx
      rw [hself, List.mem_append, List.mem_cons] at hp
      rcases hp with hp | rfl | hp
      · exact hl.hash x p (by rw [propdefsOf_eq ho]; exact List.mem_of_mem_take hp)
      · rfl
      · exact hl.hash x p (by rw [propdefsOf_eq ho]; exact List.mem_of_mem_drop hp)
    · exact hl.hash x p (hne x hx ▸ hp)
  · rw [hparent] at hcx
    rw [hpinh]
    by_cases hx : x = oid
    · subst hx
      rw [ho'] at ho₁
      cases ho₁
      exact hl.aligned x o lx ho hcx
    · exact hl.aligned x o₁ lx (hfne x hx ▸ ho₁) hcx
  · rw [hparent] at hcx
    -- only the objects below see the new name
    by_cases hb : (db.links kin).Below oid x
    · obtain ⟨m, hm⟩ := hb.path
      obtain rfl := hcx.unique (chain_of_path hm hc)
      have hold := inherited_split ho hi m l
      have hnew : db'.inherited (m ++ oid :: l) = (db.inherited m ++ o.propdefs.take i) ++
          new :: (o.propdefs.drop (i + 1) ++ db.inherited l) := by
        rw [inherited_of_path hne hm hc, hself]
        simp
      have hnd := hl.names x _ hcx
      rcases hname with hname | ⟨hfresh, hbelow⟩
      · rw [hold] at hnd
        rw [hnew]
        simpa [new, hname] using hnd
      · have hnot : nameKey name ∉ (db.inherited (m ++ oid :: l)).map fun p => nameKey p.name := by
          intro hmem
          obtain ⟨p, hp, he⟩ := List.mem_map.mp hmem
          rw [inherited_append, List.mem_append] at hp
          rcases hp with hp | hp
          · obtain ⟨y, hy, hpy⟩ := mem_inherited.mp hp
            exact hbelow y (hm.mem_isBelow hroot hy) p hpy he
          · exact hfresh p hp he
        rw [hold] at hnd hnot
        rw [hnew]
        simp only [List.map_append, List.map_cons] at hnd hnot ⊢
        refine List.nodup_middle.mpr (List.nodup_cons.mpr ⟨fun h => hnot ?_, ?_⟩)
        · simp only [List.mem_append, List.mem_cons] at h ⊢
          rcases h with h | h
          · exact .inl h
          · exact .inr (.inr h)
        · exact (List.nodup_cons.mp (List.nodup_middle.mp hnd)).2
    · rw [inherited_of_not_below hk hne hcx hb]
      exact hl.names x lx hcx
  · by_cases hx : x = oid
    · subst hx
      rw [ho'] at ho₁
      cases ho₁
      exact hl.defined x o n pv ho (by simpa [defs] using hn) hpv
    · exact hl.defined x o₁ n pv (hfne x hx ▸ ho₁) hn hpv
  · have hget : ∀ {x : Objid} {k : Nat} {p : Propdef}, (db'.propdefsOf x)[k]? = some p →
        ∃ p₀ : Propdef, (db.propdefsOf x)[k]? = some p₀ ∧ p₀.pid = p.pid := by
      intro x k p h
      have := congrArg (fun m => m[k]?) (hpids x)
      simp only [List.getElem?_map, h, Option.map_some] at this
      exact Option.map_eq_some_iff.mp this.symm
    obtain ⟨p₀, hp₀, hpe⟩ := hget hp
    obtain ⟨q₀, hq₀, hqe⟩ := hget hq
    exact hl.pidInj x y j k p₀ q₀ hp₀ hq₀ (hpe.trans (he.trans hqe.symm))
  · obtain ⟨q, hq, he⟩ := hmem x p hp
    exact he ▸ hl.pidLt x q hq

theorem renamePropdef_spec (hk : (db.links kin).WF NOTHING) (hl : db.Layout)
    (ho : db.find oid = some o)
    (old newbie : Str) :
    ∃ b db', db.dbRenamePropdef oid old newbie = some (b, db') ∧ db'.Layout ∧
      SameButProps db db' := by
  obtain ⟨l', hl'⟩ := exists_chain hk ho
  obtain ⟨l, rfl, -⟩ := chain_cons ho hl'
  simp only [dbRenamePropdef, ho, Option.bind_eq_bind, Option.bind_some]
  cases hi : o.propdefs.findIdx? fun p => p.matches (strHash old) old with
  | none => exact ⟨false, db, rfl, hl, .refl db⟩
  | some i =>
    obtain ⟨hlt, hm, -⟩ := List.findIdx?_eq_some_iff_getElem.mp hi
    have hold : nameKey o.propdefs[i].name = nameKey old :=
      (Propdef.matches_iff
        (hl.hash oid _ (by rw [propdefsOf_eq ho]; exact List.getElem_mem hlt))).mp hm
    have hsame : ∀ name, SameButProps db (db.put oid { o with
        propdefs := o.propdefs.modify i fun p => { p with name := name, hash := strHash name } }) :=
      fun name => .put ho rfl
    by_cases hcase : mystrcasecmp old newbie = 0
    · have hkey : nameKey newbie = nameKey o.propdefs[i].name := by
        rw [hold, mystrcasecmp_eq_zero.mp hcase]
      exact ⟨true, _, by simp [hcase], hl.renameDef hk ho hl' hlt (.inl hkey), hsame newbie⟩
    · rcases hl.findProperty_eq hl' newbie with ⟨prop, hf⟩ | ⟨hf, hnone⟩ | ⟨definer,
        n, -, -, -, hf, -⟩
      · exact ⟨false, db, by simp [hcase, hf], hl, .refl db⟩
      rotate_left
      · exact ⟨false, db, by simp [hcase, hf], hl, .refl db⟩
      obtain ⟨b, hb, hbiff⟩ := propertyDefinedAtOrBelow_eq hk hl.hash ho newbie
      cases b with
      | true => exact ⟨false, db, by simp [hcase, hf, hb], hl, .refl db⟩
      | false =>
        exact ⟨true, _, by simp [hcase, hf, hb],
          hl.renameDef hk ho hl' hlt (.inr ⟨hnone, fun y hy p hp he =>
          Bool.false_ne_true (hbiff.mpr ⟨y, hy, p, hp, he⟩)⟩), hsame newbie⟩

end Rename

/-! ## Storing into a slot -/

/-- A slot may be changed, unless it becomes clear in the object that defines the property. -/
theorem Layout.modifySlot {db : Db} (hl : db.Layout) {oid : Objid} {o : Object}
    (ho : db.find oid = some o) {n : Nat}
    (hn : n < o.propval.length) {f : Pval → Pval} (hpid : ∀ pv, (f pv).pid = pv.pid)
    (hclear : n < o.propdefs.length → ∀ pv, pv.var ≠ .clear → (f pv).var ≠ .clear) :
    ∃ db', db.modifySlot oid n f = some db' ∧ db'.Layout ∧ SameButSlots db db' := by
  let db' := db.put oid { o with propval := o.propval.modify n f }
  have hsame : SameButSlots db db' := .put ho rfl
  have hdefs : db'.propdefsOf = db.propdefsOf := hsame.propdefsOf fun _ => rfl
  have hparent : db'.parentOf = db.parentOf := by rw [parentOf, parentOf, hsame.kin_of_slots]
  have hinh : db'.inherited = db.inherited := funext fun l => by rw [inherited, inherited, hdefs]
  have hpids : (o.propval.modify n f).map Pval.pid = o.propval.map Pval.pid := by
    refine List.ext_getElem? fun k => ?_
    rw [List.getElem?_map, List.getElem?_map, List.getElem?_modify]
    cases o.propval[k]? with
    | none => rfl
    | some pv => by_cases h : n = k <;> simp [h, hpid]
  refine ⟨db', by simp [Db.modifySlot, ho, hn, db'],
    ⟨?_, fun x o' l ho' hc => ?_, ?_, fun x o' k pv ho' hk hpv => ?_, ?_, ?_⟩, hsame⟩
  · rw [hdefs]
    exact hl.hash
  · rw [hparent] at hc
    rw [hinh]
    by_cases hx : x = oid
    · subst hx
      rw [find_put_self ho] at ho'
      cases ho'
      exact hpids.trans (hl.aligned x o l ho hc)
    · rw [find_put_of_ne ho hx] at ho'
      exact hl.aligned x o' l ho' hc
  · rw [hparent, hinh]
    exact hl.names
  · by_cases hx : x = oid
    · subst hx
      rw [find_put_self ho] at ho'
      cases ho'
      simp only [List.getElem?_modify, Option.map_eq_map, Option.map_eq_some_iff] at hpv
      obtain ⟨pv₀, hpv₀, rfl⟩ := hpv
      have hne := hl.defined x o k pv₀ ho hk hpv₀
      by_cases hnk : n = k
      · subst hnk
        simpa using hclear hk pv₀ hne
      · simpa [hnk] using hne
    · rw [find_put_of_ne ho hx] at ho'
      exact hl.defined x o' k pv ho' hk hpv
  · rw [hdefs]
    exact hl.pidInj
  · rw [hdefs]
    exact hl.pidLt

end Db

end NuMoo
