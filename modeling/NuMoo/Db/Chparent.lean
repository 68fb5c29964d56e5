import NuMoo.Db.Safety

/-!
# The slots after a change of parent

A property is identified by its ghost number, so a slot can be followed through
the surgery of `fix_props`.

Results:
1. `ParentChanged.kept`, `ParentChanged.inherits`, `ParentChanged.loses`: the slots of the subtree.
2. `changeParent_slots`: what a change of parent does to every slot of the database.
-/

namespace NuMoo

open Linked

namespace Db

theorem find?_pid_eq_none {a : List Pval} {k : Nat} (h : k ∉ a.map Pval.pid) :
    a.find? (fun q => q.pid == k) = none := by
  refine List.find?_eq_none.mpr fun pv hpv he => h ?_
  exact List.mem_map.mpr ⟨pv, hpv, by simpa using he⟩

theorem mem_pids {db : Db} {l : List Objid} {k : Nat} :
    k ∈ (db.inherited l).map Propdef.pid ↔ ∃ y ∈ l, ∃ p ∈ db.propdefsOf y, p.pid = k := by
  simp only [List.mem_map, mem_inherited]
  constructor
  · rintro ⟨p, ⟨y, hy, hp⟩, rfl⟩
    exact ⟨y, hy, p, hp, rfl⟩
  · rintro ⟨y, hy, p, hp, rfl⟩
    exact ⟨p, ⟨y, hy, hp⟩, rfl⟩

/-- The number of a property stands among the definitions of its definer only. -/
theorem Layout.pid_not_mem {db : Db} (hl : db.Layout) {y : Objid} {p : Propdef}
    (hp : p ∈ db.propdefsOf y)
    {l : List Objid} (hy : y ∉ l) : p.pid ∉ (db.inherited l).map Propdef.pid := by
  rw [mem_pids]
  rintro ⟨z, hz, q, hq, he⟩
  obtain ⟨i, hi⟩ := List.mem_iff_getElem?.mp hp
  obtain ⟨j, hj⟩ := List.mem_iff_getElem?.mp hq
  obtain ⟨rfl, -⟩ := hl.pidInj z y j i q p hj hi he
  exact hy hz

section Follow

variable {db db' : Db} {oid parent d : Objid} {o od : Object} {la lb lc : List Objid}

/-- The slots of an object of the subtree, before and after, in three segments. -/
theorem ParentChanged.segments (h : ParentChanged db db' oid parent o la lb lc) (hl : db.Layout)
    (hp : parent = NOTHING ∨ ∃ op, db.find parent = some op)
    (hd : db.find d = some od) (hbelow : (db.links kin).Below oid d) :
    ∃ m u v w b, Path (db.links kin) oid d m ∧ od.propval = u ++ v ++ w ∧
      db'.slotsOf d = u ++ b.map (clearSlot od) ++ w ∧
      u.map Pval.pid = (db.inherited (m ++ [oid])).map Propdef.pid ∧
      v.map Pval.pid = (db.inherited la).map Propdef.pid ∧ w.map Pval.pid =
        (db.inherited lc).map Propdef.pid ∧
      b.map Pval.pid = (db.inherited lb).map Propdef.pid ∧
      b = (db.slotsOf parent).take b.length := by
  obtain ⟨m, hm⟩ := hbelow.path
  have hchain := chain_of_path hm h.oldChain
  have hpids := hl.aligned d od _ hd hchain
  rw [show m ++ oid :: (la ++ lc) = (m ++ [oid]) ++ la ++ lc by simp, inherited_append,
    inherited_append,
    List.map_append, List.map_append] at hpids
  obtain ⟨uv, w, hval, huv, hw⟩ := List.map_eq_append_iff.mp hpids
  obtain ⟨u, v, rfl, hu, hv⟩ := List.map_eq_append_iff.mp huv
  have hulen : u.length = db.localCount oid m := by
    have := congrArg List.length hu
    simpa [localCount] using this
  have hvlen : v.length = (db.inherited la).length := by
    have := congrArg List.length hv
    simpa using this
  have hbpids : ((db.slotsOf parent).take (db.inherited lb).length).map Pval.pid =
      (db.inherited lb).map Propdef.pid := by
    rcases hp with rfl | ⟨op, hop⟩
    · have : lb ++ lc = [] := Chain.nil_iff.mp h.newChain
      simp [(List.append_eq_nil_iff.mp this).1, inherited]
    · rw [slotsOf_eq hop, List.map_take, hl.aligned _ _ _ hop h.newChain, inherited_append,
        List.map_append]
      exact List.take_left' (List.length_map _)
  have hblen := congrArg List.length hbpids
  rw [List.length_map, List.length_map] at hblen
  refine ⟨m, u, v, w, _, hm, hval, ?_, hu, hv, hw, hbpids, by rw [hblen]⟩
  rw [slotsOf, h.slots.inside d m od hm hd, Option.getD_some, fixed, hval, ← hulen, ← hvlen,
    List.append_assoc u v w,
    List.take_left, ← List.append_assoc u v w, List.drop_left' (List.length_append)]

/-- No object of the subtree is an ancestor that is dropped, new or common. -/
theorem ParentChanged.not_below (h : ParentChanged db db' oid parent o la lb lc)
    (hk : (db.links kin).WF NOTHING)
    (ho : db.find oid = some o) (hacyc : ¬ (db.links kin).Below oid parent) {y : Objid}
    (hy : y ∈ la ++ lc ∨ y ∈ lb ++ lc) : ¬ (db.links kin).Below oid y := by
  intro hb
  rcases hy with hy | hy
  · obtain ⟨m, he, hold⟩ := chain_cons ho h.oldChain
    obtain rfl : la ++ lc = m := (List.cons.inj he).2
    exact hk.not_below_child (parentOf_eq ho) (hb.trans (mem_chain_isBelow hk hold hy))
  · exact hacyc (hb.trans (mem_chain_isBelow hk h.newChain hy))

/-- The objects on a path lie in the subtree. -/
theorem below_of_mem_path (ho : db.find oid = some o) {m : List Objid}
    (hm : Path (db.links kin) oid d m) {y : Objid}
    (hy : y ∈ m ++ [oid]) : (db.links kin).Below oid y := by
  rcases List.mem_append.mp hy with hy | hy
  · exact hm.mem_isBelow (by rw [links_isSome, ho]; rfl) hy
  · rw [List.mem_singleton.mp hy]
    exact .refl (links_eq ho)

theorem slotFor_eq {x : Objid} (k : Nat) :
    db.slotFor x k = (db.slotsOf x).find? fun pv => pv.pid == k := by
  rw [slotFor, slotsOf]
  cases db.find x <;> rfl

/-- The slots of properties that neither the dropped nor the new ancestors define stay as they
are. -/
theorem ParentChanged.kept (h : ParentChanged db db' oid parent o la lb lc)
    (hk : (db.links kin).WF NOTHING)
    (hl : db.Layout) (ho : db.find oid = some o)
    (hp : parent = NOTHING ∨ ∃ op, db.find parent = some op)
    (hacyc : ¬ (db.links kin).Below oid parent) (hbelow : (db.links kin).Below oid d)
    {y : Objid} {p : Propdef}
    (hpy : p ∈ db.propdefsOf y)
    (hy : ((db.links kin).Below oid y ∧ (db.links kin).Below y d) ∨ y ∈ lc) :
    ∃ pv, db.slotFor d p.pid = some pv ∧ db'.slotFor d p.pid = some pv := by
  obtain ⟨od, hd⟩ := Option.isSome_iff_exists.mp (links_isSome ▸ hbelow.isSome.2)
  obtain ⟨m, u, v, w, b, hm, hval, hval', hu, hv, hw, hb, -⟩ := h.segments hl hp hd hbelow
  have hchain := chain_of_path hm h.oldChain
  have hnla : y ∉ la := by
    rcases hy with ⟨hby, -⟩ | hy
    · exact fun hm => h.not_below hk ho hacyc (.inl (List.mem_append_left _ hm)) hby
    · exact fun hm => h.dropped y hm (List.mem_append_right _ hy)
  have hnlb : y ∉ lb := by
    rcases hy with ⟨hby, -⟩ | hy
    · exact fun hm => h.not_below hk ho hacyc (.inr (List.mem_append_left _ hm)) hby
    · exact fun hm => h.added y hm (List.mem_append_right _ hy)
  have hmem : p ∈ db.inherited (m ++ oid :: (la ++ lc)) := by
    refine mem_inherited.mpr ⟨y, ?_, hpy⟩
    rcases hy with ⟨-, hyd⟩ | hy
    · exact (Links.mem_chain_iff hk.nil_none hchain).mpr hyd
    · simp [hy]
  obtain ⟨n, hn⟩ := List.mem_iff_getElem?.mp hmem
  obtain ⟨pv, -, -, hslot⟩ := hl.slot_spec hd hchain hn
  refine ⟨pv, hslot, ?_⟩
  have hvnone := find?_pid_eq_none (hv ▸ hl.pid_not_mem hpy hnla)
  have hbnone : (b.map (clearSlot od)).find? (fun q => q.pid == p.pid) = none := by
    refine find?_pid_eq_none ?_
    rw [List.map_map, show Pval.pid ∘ clearSlot od = Pval.pid from rfl, hb]
    exact hl.pid_not_mem hpy hnlb
  rw [slotFor_eq, slotsOf_eq hd, hval, List.find?_append, List.find?_append, hvnone] at hslot
  rw [slotFor_eq, hval', List.find?_append, List.find?_append, hbnone]
  exact hslot

/-- The properties of the new ancestors come in clear, with the permissions in the new parent. -/
theorem ParentChanged.inherits (h : ParentChanged db db' oid parent o la lb lc)
    (hk : (db.links kin).WF NOTHING)
    (hl : db.Layout) (ho : db.find oid = some o)
    (hp : parent = NOTHING ∨ ∃ op, db.find parent = some op)
    (hacyc : ¬ (db.links kin).Below oid parent) (hd : db.find d = some od)
    (hbelow : (db.links kin).Below oid d)
    {y : Objid} {p : Propdef} (hpy : p ∈ db.propdefsOf y) (hy : y ∈ lb) :
    ∃ pv, db.slotFor parent p.pid = some pv ∧ db'.slotFor d p.pid = some (clearSlot od pv) := by
  obtain ⟨m, u, v, w, b, hm, -, hval', hu, -, -, hb, htake⟩ := h.segments hl hp hd hbelow
  have hunone : u.find? (fun q => q.pid == p.pid) = none := by
    refine find?_pid_eq_none (hu ▸ hl.pid_not_mem hpy fun hmem => ?_)
    exact h.not_below hk ho hacyc (.inr (List.mem_append_left _ hy)) (below_of_mem_path ho hm hmem)
  obtain ⟨pv, hpv⟩ : ∃ pv, b.find? (fun q => q.pid == p.pid) = some pv := by
    have : p.pid ∈ b.map Pval.pid := hb ▸ mem_pids.mpr ⟨y, hy, p, hpy, rfl⟩
    obtain ⟨q, hq, he⟩ := List.mem_map.mp this
    refine Option.isSome_iff_exists.mp (List.find?_isSome.mpr ⟨q, hq, ?_⟩)
    simpa using he
  refine ⟨pv, ?_, ?_⟩
  · rw [slotFor_eq, ← List.take_append_drop b.length (db.slotsOf parent), ← htake,
      List.find?_append, hpv]
    rfl
  · rw [slotFor_eq, hval', List.find?_append, List.find?_append, hunone, List.find?_map]
    rw [show ((fun q : Pval => q.pid == p.pid) ∘ clearSlot od) = fun q =>
      q.pid == p.pid from rfl, hpv]
    rfl

/-- The slots of the dropped ancestors are gone. -/
theorem ParentChanged.loses (h : ParentChanged db db' oid parent o la lb lc)
    (hk : (db.links kin).WF NOTHING)
    (hl : db.Layout) (ho : db.find oid = some o)
    (hp : parent = NOTHING ∨ ∃ op, db.find parent = some op)
    (hacyc : ¬ (db.links kin).Below oid parent) (hbelow : (db.links kin).Below oid d)
    {y : Objid} {p : Propdef}
    (hpy : p ∈ db.propdefsOf y) (hy : y ∈ la) : db'.slotFor d p.pid = none := by
  obtain ⟨od, hd⟩ := Option.isSome_iff_exists.mp (links_isSome ▸ hbelow.isSome.2)
  obtain ⟨m, u, v, w, b, hm, -, hval', hu, -, hw, hb, -⟩ := h.segments hl hp hd hbelow
  have hnew := h.dropped y hy
  rw [List.mem_append, not_or] at hnew
  rw [slotFor_eq, hval']
  refine find?_pid_eq_none ?_
  rw [List.map_append, List.map_append, List.map_map,
    show Pval.pid ∘ clearSlot od = Pval.pid from rfl, hu, hb, hw,
    List.mem_append, List.mem_append, not_or, not_or]
  refine ⟨⟨hl.pid_not_mem hpy fun hmem => ?_, hl.pid_not_mem hpy hnew.1⟩, hl.pid_not_mem hpy hnew.2⟩
  exact h.not_below hk ho hacyc (.inl (List.mem_append_left _ hy)) (below_of_mem_path ho hm hmem)

/-- What a change of parent does to every slot: `la` are the ancestors that are dropped, `lb`
the new ones and `lc` those that both parents have. -/
structure SlotsMoved (db db' : Db) (oid parent : Objid) (la lb lc : List Objid) : Prop where
  oldChain : Chain db.parentOf NOTHING oid (oid :: (la ++ lc))
  newChain : Chain db.parentOf NOTHING parent (lb ++ lc)
  disjoint : ∀ y ∈ la, y ∉ lb
  moved : db'.parentOf oid = some parent
  kept : ∀ d y p, (db.links kin).Below oid d → p ∈ db.propdefsOf y →
    ((db.links kin).Below oid y ∧ (db.links kin).Below y d) ∨ y ∈ lc →
    ∃ pv, db.slotFor d p.pid = some pv ∧ db'.slotFor d p.pid = some pv
  added : ∀ d od y p, (db.links kin).Below oid d → db.find d = some od →
    p ∈ db.propdefsOf y → y ∈ lb →
    ∃ pv, db.slotFor parent p.pid = some pv ∧ db'.slotFor d p.pid = some
      { pv with var := .clear, owner := if pv.perms &&& PF_CHOWN ≠ 0 then od.owner else pv.owner }
  dropped : ∀ d y p, (db.links kin).Below oid d → p ∈ db.propdefsOf y → y ∈ la →
    db'.slotFor d p.pid = none
  outside : ∀ x, ¬ (db.links kin).Below oid x → db'.slotsOf x = db.slotsOf x
  propdefs : db'.propdefsOf = db.propdefsOf
  layout : db'.Layout

/-- A change of parent keeps exactly the slots of the properties that stay. -/
theorem changeParent_slots (hk : (db.links kin).WF NOTHING) (hl : db.Layout)
    (ho : db.find oid = some o)
    (hp : parent = NOTHING ∨ ∃ op, db.find parent = some op)
    (hacyc : ¬ (db.links kin).Below oid parent) :
    db.dbChangeParent oid parent = some (false, db) ∨
    ∃ db' la lb lc, db.dbChangeParent oid parent = some (true, db') ∧
      SlotsMoved db db' oid parent la lb lc := by
  rcases changeParent_spec hk hl ho hp hacyc with ⟨h, -⟩ | ⟨db', la, lb, lc, h, hc⟩
  · exact .inl h
  refine .inr ⟨db', la, lb, lc, h, ?_⟩
  exact {
    oldChain := hc.oldChain
    newChain := hc.newChain
    disjoint := fun y hy hm => hc.dropped y hy (List.mem_append_left _ hm)
    moved := by rw [hc.slots.parentOf ho, if_pos rfl]
    kept := fun d y p hd hpy hy => hc.kept hk hl ho hp hacyc hd hpy hy
    added := fun d od y p hd hod hpy hy => hc.inherits hk hl ho hp hacyc hod hd hpy hy
    dropped := fun d y p hd hpy hy => hc.loses hk hl ho hp hacyc hd hpy hy
    outside := fun x hx => by rw [slotsOf, hc.slots.outside x hx, slotsOf]
    propdefs := hc.slots.propdefsOf
    layout := hc.layout }

theorem changeParent_slots_pair : (pair.dbChangeParent 1 0).map Prod.fst = some true ∧
    (pair.dbChangeParent 1 0 = some (false, pair) ∨
      ∃ db' la lb lc, pair.dbChangeParent 1 0 = some (true, db') ∧
      SlotsMoved pair db' 1 0 la lb lc) := by
  have hi := reachable_pair.inv
  have hacyc : ¬ (pair.links kin).Below 1 0 := by
    intro h
    rcases h.cases_up with h | ⟨z, hz, h⟩
    · cases h
    · obtain rfl : NOTHING = z := Option.some.inj hz
      exact not_below_nothing h
  exact ⟨rfl, changeParent_slots hi.kin hi.layout (o := (pair.find 1).get rfl)
    rfl (.inr ⟨(pair.find 0).get rfl, rfl⟩) hacyc⟩

end Follow

end Db

end NuMoo
