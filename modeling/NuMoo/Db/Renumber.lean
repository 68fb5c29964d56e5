import NuMoo.Db.Invariant

/-!
# Renumbering

`db_renumber_object` exchanges the number of an object with the lowest free one: both forests and
the property layout are those of the old table under another name.

Results:
1. `Layout.rename`: the layout does not depend on the numbers of the objects.
2. `Inv.renumberOwners`: the loop over all objects changes every owner once, and nothing else.
3. `Inv.renumberObject_swap`, `Inv.renumberObject`: renumbering renames both forests.
4. `Inv.renumberObject_exact`: the new table, entry by entry.
-/

namespace NuMoo

open Linked

namespace Db

variable {db db' : Db} {oid : Objid} {o : Object}

/-- The layout does not depend on the numbers of the objects. -/
theorem Layout.rename (hl : db.Layout) (hk : (db.links NuMoo.kin).WF NOTHING) (e : Objid ≃ Objid)
    (he : e NOTHING = NOTHING)
    (h : ∀ x, (db'.find (e x)).map shape = (db.find x).map fun o => (e o.parent, (shape o).2))
    (hn : db.nextPid ≤ db'.nextPid) : db'.Layout := by
  have hparent : ∀ x, db'.parentOf (e x) = (db.parentOf x).map e := by
    intro x
    have := congrArg (Option.map Prod.fst) (h x)
    simpa [parentOf, Links.up, links, Option.map_map, Function.comp_def, shape,
      NuMoo.kin] using this
  have hdefs : ∀ x, db'.propdefsOf (e x) = db.propdefsOf x := by
    intro x
    have := congrArg (Option.map fun r => r.2.1) (h x)
    simp only [Option.map_map, Function.comp_def, shape] at this
    rw [propdefsOf, propdefsOf, this]
  have hinh : ∀ l : List Objid, db'.inherited (l.map e) = db.inherited l := by
    intro l
    rw [inherited, List.flatMap_map, inherited]
    exact List.flatMap_congr fun x _ => hdefs x
  have hfind : ∀ x o', db'.find (e x) = some o' → ∃ o, db.find x = some o ∧
      (shape o').2 = (shape o).2 := by
    intro x o' ho'
    have := (h x).symm
    rw [ho', Option.map_some, Option.map_eq_some_iff] at this
    obtain ⟨o, ho, hs⟩ := this
    exact ⟨o, ho, (congrArg Prod.snd hs).symm⟩
  -- every chain of the new table is the image of one of the old table
  have hchain : ∀ x l, Chain db'.parentOf NOTHING (e x) l →
      ∃ l₀, l = l₀.map e ∧ Chain db.parentOf NOTHING x l₀ := by
    intro x l hc
    by_cases hxn : x = NOTHING
    · subst hxn
      rw [he] at hc
      exact ⟨[], Chain.nil_iff.mp hc, .done⟩
    · have hex : e x ≠ NOTHING := fun hex => hxn (e.injective (hex.trans he.symm))
      obtain ⟨b, m, -, hb, -⟩ := (Chain.cons_iff hex).mp hc
      obtain ⟨o', ho', -⟩ := exists_of_parentOf hb
      obtain ⟨o, ho, -⟩ := hfind x o' ho'
      obtain ⟨l₀, hl₀⟩ := exists_chain hk ho
      refine ⟨l₀, hc.unique ?_, hl₀⟩
      refine hl₀.map e (fun y => ?_) fun y _ => hparent y
      rw [← e.apply_eq_iff_eq (x := y) (y := NOTHING), he]
  refine ⟨fun y p hp => ?_, fun y o' l ho' hc => ?_, fun y l hc => ?_,
    fun y o' n pv ho' hlt hpv => ?_,
    fun y z i j p q hp hq hpq => ?_, fun y p hp => ?_⟩
  all_goals obtain ⟨x, rfl⟩ := e.surjective y
  · exact hl.hash x p (hdefs x ▸ hp)
  · obtain ⟨o, ho, hs⟩ := hfind x o' ho'
    obtain ⟨l₀, rfl, hl₀⟩ := hchain x l hc
    have hpids := congrArg (fun r => r.2.map Prod.fst) hs
    simp only [shape, List.map_map, Function.comp_def] at hpids
    rw [hinh, ← hl.aligned x o l₀ ho hl₀]
    exact hpids
  · obtain ⟨l₀, rfl, hl₀⟩ := hchain x l hc
    rw [hinh]
    exact hl.names x l₀ hl₀
  · obtain ⟨o, ho, hs⟩ := hfind x o' ho'
    have hd : o'.propdefs = o.propdefs := congrArg Prod.fst hs
    have hv : (o'.propval.map fun pv => (pv.pid, pv.var))[n]? =
        (o.propval.map fun pv => (pv.pid, pv.var))[n]? :=
      congrArg (fun r => r.2[n]?) hs
    rw [List.getElem?_map, List.getElem?_map, hpv, Option.map_some] at hv
    obtain ⟨pv', hpv', hee⟩ := Option.map_eq_some_iff.mp hv.symm
    have := hl.defined x o n pv' ho (hd ▸ hlt) hpv'
    rwa [(Prod.mk.inj hee).2] at this
  · obtain ⟨w, rfl⟩ := e.surjective z
    rw [hdefs] at hp hq
    obtain ⟨rfl, hij⟩ := hl.pidInj x w i j p q hp hq hpq
    exact ⟨rfl, hij⟩
  · exact (hl.pidLt x p (hdefs x ▸ hp)).trans_le hn

/-- The databases agree on everything but the owners. -/
abbrev SameButOwners (db db' : Db) : Prop := SameUpTo (fun o => { o with
  owner := NOTHING
  verbdefs := o.verbdefs.map fun v => { v with owner := NOTHING }
  propval := o.propval.map fun p => { p with owner := NOTHING } }) db db'

theorem SameUpTo.core_of_owners (h : SameButOwners db db') (x : Objid) :
    (db'.find x).map core = (db.find x).map core :=
  h.map_eq core (fun o => by simp [core, NuMoo.kin, NuMoo.place, Function.comp_def]) x

/-- An object with its owners replaced. -/
def fixOwners (fix : Objid → Objid) (o : Object) : Object :=
  { o with
    owner := fix o.owner
    verbdefs := o.verbdefs.map fun v => { v with owner := fix v.owner }
    propval := o.propval.map fun p => { p with owner := fix p.owner } }

/-- The loop over all objects succeeds and changes nothing but owners, those of each object once. -/
theorem Inv.renumberOwners (hi : db.Inv) (old newbie : Objid) {ns : List Nat} (hns : ns.Nodup) :
    ∃ db', ns.foldlM (fun db (n : Nat) => db.renumberOwners old newbie n) db = some db' ∧ db'.Inv ∧
      SameButOwners db db' ∧ ∀ x, db'.find x =
        if ∃ n ∈ ns, x = (n : Objid) then (db.find x).map (fixOwners (renumberOwner old newbie))
          else db.find x := by
  induction ns generalizing db with
  | nil => exact ⟨db, rfl, hi, .refl db, fun x => by simp⟩
  | cons n ns ih =>
    obtain ⟨db₁, h₁, hs₁, hf₁⟩ : ∃ db₁, db.renumberOwners old newbie n = some db₁ ∧
        SameButOwners db db₁ ∧
        ∀ x, db₁.find x = if x = (n : Objid) then
          (db.find x).map (fixOwners (renumberOwner old newbie)) else db.find x := by
      unfold Db.renumberOwners
      cases ho : db.find n with
      | none =>
        refine ⟨db, rfl, .refl db, fun x => ?_⟩
        split
        · next hx => rw [hx, ho, Option.map_none]
        · rfl
      | some o =>
        obtain ⟨l, hl⟩ := exists_chain hi.kin ho
        have hlen := hi.layout.length_eq ho hl
        have hput : ((o.propval.take o.propval.length).map fun p =>
          { p with owner := renumberOwner old newbie p.owner }) ++
            o.propval.drop o.propval.length = o.propval.map fun p =>
              { p with owner := renumberOwner old newbie p.owner } := by
          rw [List.take_length, List.drop_length, List.append_nil]
        refine ⟨db.put n (fixOwners (renumberOwner old newbie) o), ?_, .put ho ?_, fun x => ?_⟩
        · simp only [countProperties_eq hl, Option.bind_eq_bind, Option.bind_some, ← hlen,
            le_refl, if_true, hput]
          rfl
        · simp [fixOwners, Function.comp_def]
        · rw [find_put ho]
          split
          · next hx => rw [hx, ho, Option.map_some]
          · rfl
    obtain ⟨hn, hns⟩ := List.nodup_cons.mp hns
    obtain ⟨db₂, h₂, hi₂, hs₂, hf₂⟩ := ih (hi.congr hs₁.core_of_owners hs₁.nextPid) hns
    refine ⟨db₂, by rw [List.foldlM_cons, h₁]; exact h₂, hi₂, hs₁.trans hs₂, fun x => ?_⟩
    rw [hf₂, hf₁]
    by_cases hx : x = (n : Objid)
    · subst hx
      have hnot : ¬ ∃ m ∈ ns, (n : Objid) = (m : Objid) :=
        fun ⟨m, hm, he⟩ => hn (by rwa [Int.ofNat_inj.mp he])
      rw [if_neg hnot, if_pos rfl, if_pos ⟨n, List.mem_cons_self, rfl⟩]
    · rw [if_neg hx]
      have hiff : (∃ m ∈ n :: ns, x = (m : Objid)) ↔ ∃ m ∈ ns, x = (m : Objid) := by
        simp [hx]
      rw [if_congr hiff rfl rfl]

/-- What renumbering keeps of an object: all but its number, its links and the owners. -/
def body (o : Object) : Object :=
  { kin.set ⟨NOTHING, NOTHING, NOTHING⟩ (place.set ⟨NOTHING, NOTHING, NOTHING⟩ o) with
    id := NOTHING
    owner := NOTHING
    verbdefs := o.verbdefs.map fun v => { v with owner := NOTHING }
    propval := o.propval.map fun p => { p with owner := NOTHING } }

/-- The new database is the old one with the objects renamed along `e`. -/
structure Renumbered (db db' : Db) (e : Objid ≃ Objid) : Prop where
  kin : db'.links kin = (db.links kin).rename e
  place : db'.links place = (db.links place).rename e
  body : ∀ x, (db'.find (e x)).map body = (db.find x).map body
  vcTable : db'.vcTable = db.affectedCallableVerbLookup.vcTable
  numObjects : db'.numObjects = db.numObjects
  nextPid : db.nextPid ≤ db'.nextPid

theorem Inv.renumbered (hi : db.Inv) {e : Objid ≃ Objid} (he : e NOTHING = NOTHING)
    (h : Renumbered db db' e)
    (hid : ∀ x o, db'.find x = some o → o.id = x) : db'.Inv := by
  refine ⟨h.kin ▸ hi.kin.rename he, h.place ▸ hi.place.rename he, hid,
    hi.layout.rename hi.kin e he (fun x => ?_) h.nextPid⟩
  have hb : (db'.find (e x)).map (fun o => (shape o).2) = (db.find x).map fun o => (shape o).2 := by
    have := congrArg (Option.map fun o => (shape o).2) (h.body x)
    simpa [Option.map_map, Function.comp_def, shape, Db.body, NuMoo.kin, NuMoo.place] using this
  have hu : (db'.find (e x)).map (fun o => o.parent) = (db.find x).map fun o => e o.parent := by
    have := congrFun (congrArg Links.up h.kin) (e x)
    rw [Links.up_rename] at this
    simpa [Links.up, links, Option.map_map, Function.comp_def, NuMoo.kin] using this
  cases ho : db.find x with
  | none =>
    rw [ho] at hb
    simpa using hb
  | some o =>
    rw [ho] at hb hu
    obtain ⟨o', ho', hs⟩ := Option.map_eq_some_iff.mp hb
    rw [ho', Option.map_some, Option.map_some] at hu
    rw [ho', Option.map_some, Option.map_some]
    exact congrArg some (Prod.ext (Option.some.inj hu) hs)

/-- An object without its number and its links. -/
def unlinked (o : Object) : Object :=
  { kin.set ⟨NOTHING, NOTHING, NOTHING⟩ (place.set ⟨NOTHING, NOTHING, NOTHING⟩ o) with
    id := NOTHING }

/-- The table after the object has changed its identity. -/
def moveEntry (db : Db) (old newbie : Objid) (o : Object) : Db :=
  (db.affectedCallableVerbLookup.put newbie { o with id := newbie }).clearEntry old

theorem find_moveEntry (ho : db.find oid = some o) {n : Nat} (hlt : n < oid.toNat) (x : Objid) :
    (db.moveEntry oid n o).find x = if x = oid then none else if x = n then some { o with id := n }
      else db.find x := by
  obtain ⟨h0, hb⟩ := find_bounds ho
  have hput : (db.affectedCallableVerbLookup.put n { o with id := n }).find x =
      if x = n then some { o with id := n } else db.find x := by
    rw [Db.put, find_set (Int.natCast_nonneg n) (by simpa using hlt.trans hb), find_affected]
  rw [← hput]
  exact find_set h0 (by simpa using hb)

theorem numObjects_moveEntry (old newbie : Objid) (o : Object) :
    (db.moveEntry old newbie o).numObjects = db.numObjects := by
  rw [← numObjects_affected db]
  simp [moveEntry, clearEntry, Db.put, numObjects]

/-- Both blocks that fix the links rename them. -/
theorem Inv.renumberLinks (hi : db.Inv) (ho : db.find oid = some o) {n : Nat}
    (hfree : db.find n = none)
    (hlt : n < oid.toNat) :
    ∃ db', ((db.moveEntry oid n o).renumberLinks NuMoo.kin oid n).bind (Db.renumberLinks NuMoo.place
      oid n) = some db' ∧
      db'.links NuMoo.kin = (db.links NuMoo.kin).rename (Equiv.swap oid n) ∧
      db'.links NuMoo.place = (db.links NuMoo.place).rename (Equiv.swap oid n) ∧
      (∀ x o', db'.find x = some o' → o'.id = x) ∧
      (∀ x, (db'.find (Equiv.swap oid (n : Objid) x)).map unlinked = (db.find x).map unlinked) ∧
      db'.allUsers = db.allUsers ∧ db'.vcTable = db.affectedCallableVerbLookup.vcTable ∧
      db'.numObjects = db.numObjects ∧
      db.nextPid ≤ db'.nextPid := by
  have hfind := find_moveEntry ho hlt
  have hnum : (db.moveEntry oid n o).numObjects = db.numObjects := numObjects_moveEntry oid n o
  have hbound : (db.moveEntry oid n o).bound = db.bound := by rw [bound, bound, hnum]
  have hne : oid ≠ n := by
    rintro rfl
    rw [ho] at hfree
    cases hfree
  have hnn : (n : Objid) ≠ NOTHING := by
    intro h
    have : (0 : Int) ≤ n := Int.natCast_nonneg _
    rw [h] at this
    exact absurd this (by decide)
  -- both forests are renamed by the same steps, one after the other
  have hrelink : ∀ F : LinkFields, (∀ id, F.get { o with id := id } = F.get o) →
    (db.links F).WF NOTHING →
      ((db.moveEntry oid n o).links F).relink NOTHING (db.moveEntry oid n o).bound oid n =
        some ((db.links F).rename (Equiv.swap oid n)) := by
    intro F hF hwf
    have hL : (db.moveEntry oid n o).links F =
        Function.update (Function.update (db.links F) n (some (F.get o))) oid none := by
      funext x
      rw [links, hfind]
      by_cases hx : x = oid
      · subst hx
        simp
      · by_cases hxn : x = n
        · subst hxn
          simp [hne.symm, hF]
        · simp [hx, hxn, links]
    have :=
      hwf.renumber (links_eq ho) (by rw [links, hfree, Option.map_none]) hnn (links_bound db F)
    rwa [Links.renumber, links_eq ho, Option.bind_some, ← hL, ← hbound] at this
  obtain ⟨db₂, h₂, hl₂, hs₂⟩ := renumberLinks_spec (hrelink NuMoo.kin (fun _ => rfl) hi.kin)
  have hplace₂ := hrelink NuMoo.place (fun _ => rfl) hi.place
  rw [← hs₂.links NuMoo.place fun _ => rfl, ← hs₂.bound] at hplace₂
  obtain ⟨db₃, h₃, hl₃, hs₃⟩ := renumberLinks_spec hplace₂
  have hmap : ∀ {β : Type} (g : Object → β), (∀ c o, g (NuMoo.kin.set c o) = g o) →
      (∀ c o, g (NuMoo.place.set c o) = g o) → ∀ x, (db₃.find x).map g =
        ((db.moveEntry oid n o).find x).map g := by
    intro β g hk hp x
    rw [hs₃.map_eq g fun o => hp _ o, hs₂.map_eq g fun o => hk _ o]
  refine ⟨db₃, by rw [h₂, Option.bind_some, h₃], ?_, hl₃, ?_, fun x => ?_, ?_, ?_, ?_, ?_⟩
  · rw [hs₃.links NuMoo.kin fun _ => rfl, hl₂]
  · refine find_id_congr (hmap Object.id (fun _ _ => rfl) fun _ _ => rfl) fun x o' h => ?_
    rw [hfind] at h
    split at h
    · cases h
    · split at h
      · next hx =>
        cases h
        exact hx.symm
      · exact hi.ids x o' h
  · rw [hmap unlinked (fun _ _ => rfl) (fun _ _ => rfl), hfind]
    by_cases hx : x = oid
    · subst hx
      rw [Equiv.swap_apply_left, if_neg hne.symm, if_pos rfl, ho]
      rfl
    · by_cases hxn : x = n
      · subst hxn
        simp [hfree]
      · rw [Equiv.swap_apply_of_ne_of_ne hx hxn, if_neg hx, if_neg hxn]
  · rw [hs₃.allUsers, hs₂.allUsers]
    simp only [moveEntry, clearEntry, Db.put, affectedCallableVerbLookup]
    split <;> rfl
  · rw [hs₃.vcTable, hs₂.vcTable]
    rfl
  · rw [hs₃.numObjects, hs₂.numObjects, hnum]
  · exact (nextPid_affected db).ge.trans (hs₂.nextPid.trans hs₃.nextPid)

/-- What `db_renumber_object` has done when it comes to the owners. -/
structure Relinked (db db' : Db) (old newbie : Objid) : Prop where
  renumbered : Renumbered db db' (Equiv.swap old newbie)
  inv : db'.Inv
  unlinked : ∀ x, (db'.find (Equiv.swap old newbie x)).map unlinked = (db.find x).map unlinked
  allUsers : db'.allUsers = if db'.isUser newbie then db.allUsers.replace old newbie
    else db.allUsers

theorem body_unlinked (o : Object) : body (unlinked o) = body o := rfl

/-- Renumbering fails nowhere: there is no free number below the object, or the lowest is taken. -/
theorem Inv.renumberObject_steps (hi : db.Inv) (ho : db.find oid = some o) :
    ((∀ n : Nat, n < oid.toNat → (db.find n).isSome) ∧ db.dbRenumberObject oid =
      some (oid, db.affectedCallableVerbLookup)) ∨
      ∃ (n : Nat) (db₁ db' : Db), n < oid.toNat ∧ db.find n = none ∧
      (∀ m : Nat, m < n → (db.find m).isSome) ∧
        db.dbRenumberObject oid = some ((n : Objid), db') ∧ db.Relinked db₁ oid n ∧ db'.Inv ∧
        SameButOwners db₁ db' ∧
        ∀ x, db'.find x = (db₁.find x).map (fixOwners (renumberOwner oid n)) := by
  unfold dbRenumberObject
  simp only [find_affected]
  cases hn : (List.range oid.toNat).find? fun (n : Nat) => (db.find n).isNone with
  | none =>
    refine .inl ⟨fun n hlt => ?_, rfl⟩
    have := List.find?_eq_none.mp hn n (List.mem_range.mpr hlt)
    simpa [Option.isSome_iff_ne_none] using this
  | some n =>
    have hfree : db.find n = none := by simpa using List.find?_some hn
    have hlt : n < oid.toNat := List.mem_range.mp (List.mem_of_find?_eq_some hn)
    have hlow : ∀ m : Nat, m < n → (db.find m).isSome := by
      intro m hm
      obtain ⟨-, i, hi', hget, hbefore⟩ := List.find?_eq_some_iff_getElem.mp hn
      rw [List.getElem_range] at hget
      have := hbefore m (hget ▸ hm)
      rw [List.getElem_range] at this
      simpa [Option.isSome_iff_ne_none] using this
    obtain ⟨db₃, h₃, hkin₃, hplace₃, hid₃, hun₃, husers₃, htable₃, hnum₃, hpid₃⟩ :=
      hi.renumberLinks ho hfree hlt
    obtain ⟨db₂, h₂, h₃⟩ := Option.bind_eq_some_iff.mp h₃
    -- the links are settled; of the player list the first reference is replaced
    let db₄ : Db :=
      if db₃.isUser n then { db₃ with allUsers := db₃.allUsers.replace oid n } else db₃
    have hfind₄ : db₄.find = db₃.find := by
      simp only [db₄]
      split <;> rfl
    have hrest₄ : db₄.vcTable = db₃.vcTable ∧ db₄.nextPid = db₃.nextPid ∧
        db₄.numObjects = db₃.numObjects := by
      simp only [db₄]
      split <;> exact ⟨rfl, rfl, rfl⟩
    have husers₄ : db₄.allUsers = if db₄.isUser n then db.allUsers.replace oid n
      else db.allUsers := by
      have huser : db₄.isUser n = db₃.isUser n := by
        rw [isUser, isUser, validWithFlag, validWithFlag, dbObjectHasFlag, dbObjectHasFlag, hfind₄]
      rw [huser, ← husers₃]
      simp only [db₄]
      split <;> rfl
    have hnn : (n : Objid) ≠ NOTHING := by
      intro h
      have : (0 : Int) ≤ n := Int.natCast_nonneg _
      rw [h] at this
      exact absurd this (by decide)
    have he : Equiv.swap oid (n : Objid) NOTHING = NOTHING := by
      refine Equiv.swap_apply_of_ne_of_ne (fun h => ?_) hnn.symm
      rw [← h, find_nothing] at ho
      cases ho
    have hun₄ : ∀ x, (db₄.find (Equiv.swap oid (n : Objid) x)).map Db.unlinked =
        (db.find x).map Db.unlinked := by
      intro x
      rw [hfind₄, hun₃]
    have hren₄ : Renumbered db db₄ (Equiv.swap oid n) := by
      refine ⟨?_, ?_, fun x => ?_, hrest₄.1.trans htable₃, hrest₄.2.2.trans hnum₃,
        hpid₃.trans hrest₄.2.1.ge⟩
      · rw [← hkin₃]
        funext x
        rw [links, links, hfind₄]
      · rw [← hplace₃]
        funext x
        rw [links, links, hfind₄]
      · have := congrArg (Option.map Db.body) (hun₄ x)
        simpa only [Option.map_map, Function.comp_def, body_unlinked] using this
    have hi₄ : db₄.Inv := hi.renumbered he hren₄ fun x o' h => hid₃ x o' (by rwa [← hfind₄])
    -- the owners are fixed in a table that satisfies the invariant again
    obtain ⟨db₅, h₅, hi₅, hs₅, hf₅⟩ :=
      hi₄.renumberOwners oid n (List.nodup_range (n := db₄.numObjects))
    refine .inr ⟨n, db₄, db₅, hlt, hfree, hlow, ?_, ⟨hren₄, hi₄, hun₄, husers₄⟩, hi₅,
      hs₅, fun x => ?_⟩
    · simp only [ho, Option.bind_eq_bind, Option.bind_some]
      show (((db.moveEntry oid n o).renumberLinks NuMoo.kin oid n).bind _) = _
      rw [h₂, Option.bind_some, h₃, Option.bind_some]
      exact (congrArg (fun r : Option Db => r.bind fun db => some ((n : Objid), db)) h₅)
    · rw [hf₅]
      split
      · rfl
      · next hx =>
        cases hfx : db₄.find x with
        | none => rfl
        | some ox =>
          obtain ⟨hx0, hxb⟩ := find_bounds hfx
          exact absurd ⟨x.toNat, List.mem_range.mpr hxb, (Int.toNat_of_nonneg hx0).symm⟩ hx

/-- Renumbering exchanges the number of the object with one that is free. -/
theorem Inv.renumberObject_swap (hi : db.Inv) (ho : db.find oid = some o) :
    ∃ newbie db', db.dbRenumberObject oid = some (newbie, db') ∧ db'.Inv ∧ newbie ≠ NOTHING ∧
      (newbie = oid ∨ db.find newbie = none) ∧ Renumbered db db' (Equiv.swap oid newbie) := by
  rcases hi.renumberObject_steps ho with ⟨-, h⟩ | ⟨n, db₁, db', hlt, hfree, -, h, hre, hi', hs, -⟩
  · refine ⟨oid, _, h, hi.affected, ?_, .inl rfl, ?_⟩
    · rintro rfl
      rw [find_nothing] at ho
      cases ho
    rw [Equiv.swap_self]
    refine ⟨?_, ?_, fun x => by simp, rfl, numObjects_affected db, (nextPid_affected db).ge⟩
    · funext x
      simp [links, Links.rename, Option.map_map, Function.comp_def]
    · funext x
      simp [links, Links.rename, Option.map_map, Function.comp_def]
  · refine ⟨n, db', h, hi', ?_, .inr hfree, ?_, ?_, fun x => ?_,
      hs.vcTable.trans hre.renumbered.vcTable,
      hs.numObjects.trans hre.renumbered.numObjects, hre.renumbered.nextPid.trans hs.nextPid⟩
    · intro h
      have : (0 : Int) ≤ n := Int.natCast_nonneg _
      rw [h] at this
      exact absurd this (by decide)
    · rw [hs.links NuMoo.kin fun _ => rfl, hre.renumbered.kin]
    · rw [hs.links NuMoo.place fun _ => rfl, hre.renumbered.place]
    · rw [← hre.renumbered.body,
        hs.map_eq Db.body fun o => by simp [Db.body, NuMoo.kin, NuMoo.place, Function.comp_def]]

theorem Inv.renumberObject (hi : db.Inv) (ho : db.find oid = some o) :
    ∃ newbie db' e, db.dbRenumberObject oid = some (newbie, db') ∧ db'.Inv ∧ e NOTHING = NOTHING ∧
      e oid = newbie ∧ Renumbered db db' e := by
  obtain ⟨newbie, db', h, hi', hn, -, hren⟩ := hi.renumberObject_swap ho
  refine ⟨newbie, db', Equiv.swap oid newbie, h, hi', ?_, Equiv.swap_apply_left _ _, hren⟩
  refine Equiv.swap_apply_of_ne_of_ne (fun h => ?_) hn.symm
  rw [← h, find_nothing] at ho
  cases ho

/-! ## The new table -/

/-- What refers to the object by its old number refers to it by the new one. -/
def renumberRef (old newbie x : Objid) : Objid := if x = old then newbie else x

/-- An object after a renumbering. -/
def renumberObj (old newbie : Objid) (o : Object) : Object :=
  fixOwners (renumberOwner old newbie) { o with
    id := renumberRef old newbie o.id
    location := renumberRef old newbie o.location
    contents := renumberRef old newbie o.contents
    next := renumberRef old newbie o.next
    parent := renumberRef old newbie o.parent
    child := renumberRef old newbie o.child
    sibling := renumberRef old newbie o.sibling }

/-- The tables before and after, entry by entry. -/
structure RenumberedTo (db db' : Db) (old newbie : Objid) : Prop where
  find : ∀ x, db'.find x = if x = old then none
    else if x = newbie then (db.find old).map (renumberObj old newbie)
    else (db.find x).map (renumberObj old newbie)
  allUsers : db'.allUsers = if db.isUser old then db.allUsers.replace old newbie else db.allUsers
  vcTable : db'.vcTable = db.affectedCallableVerbLookup.vcTable
  numObjects : db'.numObjects = db.numObjects

/-- A free number is in no link of a forest, so exchanging it is renaming. -/
theorem swap_eq_renumberRef {old newbie x : Objid} (h : x ≠ newbie) :
    Equiv.swap old newbie x = renumberRef old newbie x := by
  unfold renumberRef
  split
  · next hx => rw [hx, Equiv.swap_apply_left]
  · next hx => exact Equiv.swap_apply_of_ne_of_ne hx h

theorem cell_ne {F : LinkFields} (hwf : (db.links F).WF NOTHING) {newbie x : Objid}
    (hfree : db.find newbie = none)
    (hn : newbie ≠ NOTHING) (ho : db.find x = some o) :
    (F.get o).up ≠ newbie ∧ (F.get o).head ≠ newbie ∧ (F.get o).next ≠ newbie := by
  have hnone : db.links F newbie = none := by rw [links, hfree, Option.map_none]
  refine ⟨fun h => ?_, fun h => ?_, fun h => ?_⟩
  · obtain ⟨c, hc⟩ := hwf.up_isSome (links_eq ho) (by rwa [h])
    rw [h, hnone] at hc
    cases hc
  · have hup := hwf.head_isSome (links_eq ho) (by rwa [h])
    rw [h, Links.up, hnone] at hup
    simp at hup
  · obtain ⟨_, _, _, _, _, hmem, hl⟩ := hwf.next_up (links_eq ho) (by rwa [h])
    have hup := (hl _).mp hmem
    rw [h, Links.up, hnone] at hup
    simp at hup

/-- An object is its number, its links and the rest. -/
theorem eq_of_unlinked {o o' : Object} (hid : o'.id = o.id)
    (hk : NuMoo.kin.get o' = NuMoo.kin.get o)
    (hp : NuMoo.place.get o' = NuMoo.place.get o) (hu : unlinked o' = unlinked o) : o' = o := by
  cases o
  cases o'
  simp only [NuMoo.kin, NuMoo.place, Cell.mk.injEq] at hk hp
  simp only [unlinked, NuMoo.kin, NuMoo.place, Object.mk.injEq] at hu
  simp only [Object.mk.injEq]
  exact ⟨hid, hu.2.1, hp.1, hp.2.1, hp.2.2, hk.1, hk.2.1, hk.2.2, hu.2.2.2.2.2.2.2.2⟩

theorem Relinked.find_swap {db₁ : Db} {old newbie : Objid} (h : db.Relinked db₁ old newbie)
    (hi : db.Inv)
    (hfree : db.find newbie = none) (hn : newbie ≠ NOTHING) {x : Objid} (ho : db.find x = some o) :
    (db₁.find (Equiv.swap old newbie x)).map (fixOwners (renumberOwner old newbie)) =
      some (renumberObj old newbie o) := by
  have hx : x ≠ newbie := by
    rintro rfl
    rw [hfree] at ho
    cases ho
  have hx' := h.unlinked x
  rw [ho, Option.map_some] at hx'
  obtain ⟨o', ho', hu⟩ := Option.map_eq_some_iff.mp hx'
  have hcell : ∀ F : LinkFields, (db.links F).WF NOTHING →
      db₁.links F = (db.links F).rename (Equiv.swap old newbie) →
      F.get o' = ⟨renumberRef old newbie (F.get o).up, renumberRef old newbie (F.get o).head,
        renumberRef old newbie (F.get o).next⟩ := by
    intro F hwf hren
    have hl := congrFun hren (Equiv.swap old newbie x)
    rw [links_eq ho', Links.rename, Equiv.symm_apply_apply, links_eq ho, Option.map_some,
      Option.some.injEq] at hl
    obtain ⟨hup, hhead, hnext⟩ := cell_ne hwf hfree hn ho
    rw [hl, swap_eq_renumberRef hup, swap_eq_renumberRef hhead, swap_eq_renumberRef hnext]
  have hid : o'.id = renumberRef old newbie o.id := by
    rw [h.inv.ids _ o' ho', hi.ids x o ho, swap_eq_renumberRef hx]
  rw [ho', Option.map_some, renumberObj]
  refine congrArg (fun o => some (fixOwners _ o)) (eq_of_unlinked hid ?_ ?_ hu)
  · exact hcell NuMoo.kin hi.kin h.renumbered.kin
  · exact hcell NuMoo.place hi.place h.renumbered.place

/-- Renumbering: the lowest number that is free below the object, or none; and the new table. -/
theorem Inv.renumberObject_exact (hi : db.Inv) (ho : db.find oid = some o) :
    ((∀ n : Nat, n < oid.toNat → (db.find n).isSome) ∧ db.dbRenumberObject oid =
      some (oid, db.affectedCallableVerbLookup) ∧
        db.affectedCallableVerbLookup.Inv) ∨
      ∃ (n : Nat) (db' : Db), n < oid.toNat ∧ db.find n = none ∧
      (∀ m : Nat, m < n → (db.find m).isSome) ∧
        db.dbRenumberObject oid = some ((n : Objid), db') ∧ db.RenumberedTo db' oid n ∧
        db'.Inv := by
  rcases hi.renumberObject_steps ho with ⟨hnone, h⟩ | ⟨n, db₁, db', hlt, hfree, hlow, h,
    hre, hi', hs, hf⟩
  · exact .inl ⟨hnone, h, hi.affected⟩
  refine .inr ⟨n, db', hlt, hfree, hlow, h,
    ⟨fun x => ?_, ?_, hs.vcTable.trans hre.renumbered.vcTable,
    hs.numObjects.trans hre.renumbered.numObjects⟩, hi'⟩
  · have hnn : (n : Objid) ≠ NOTHING := by
      intro h
      have : (0 : Int) ≤ n := Int.natCast_nonneg _
      rw [h] at this
      exact absurd this (by decide)
    have hnone : ∀ y, db.find y = none → db₁.find (Equiv.swap oid (n : Objid) y) = none := by
      intro y hy
      have := hre.unlinked y
      rw [hy, Option.map_none, Option.map_eq_none_iff] at this
      exact this
    rw [hf]
    by_cases hx : x = oid
    · subst hx
      rw [if_pos rfl, ← Equiv.swap_apply_right x (n : Objid), hnone _ hfree, Option.map_none]
    · rw [if_neg hx]
      by_cases hxn : x = n
      · subst hxn
        rw [if_pos rfl, ho, Option.map_some, ← hre.find_swap hi hfree hnn ho, Equiv.swap_apply_left]
      · rw [if_neg hxn]
        cases hox : db.find x with
        | none =>
          have := hnone x hox
          rw [Equiv.swap_apply_of_ne_of_ne hx hxn] at this
          rw [this, Option.map_none, Option.map_none]
        | some ox =>
          have := hre.find_swap hi hfree hnn hox
          rw [Equiv.swap_apply_of_ne_of_ne hx hxn] at this
          rw [this, Option.map_some]
  · have hflags : db₁.isUser n = db.isUser oid := by
      have hu := hre.unlinked oid
      rw [Equiv.swap_apply_left] at hu
      have hmap := congrArg (Option.map Object.flags) hu
      simp only [Option.map_map] at hmap
      have hmap : (db₁.find n).map Object.flags = (db.find oid).map Object.flags := hmap
      have hflag : ∀ (d : Db) (y : Objid), d.dbObjectHasFlag y .FLAG_USER =
          ((d.find y).map Object.flags).map fun f => f &&& ObjectFlag.FLAG_USER.mask != 0 := by
        intro d y
        rw [dbObjectHasFlag, Option.map_map]
        rfl
      rw [isUser, isUser, validWithFlag, validWithFlag, hflag, hflag, hmap]
    rw [hs.allUsers, hre.allUsers, hflags]

theorem map_renumberRef_of_not_mem {l : List Objid} {old : Objid} (h : old ∉ l) (newbie : Objid) :
    l.map (renumberRef old newbie) = l := by
  have hid : ∀ x ∈ l, renumberRef old newbie x = id x := by
    intro x hx
    refine if_neg ?_
    rintro rfl
    exact h hx
  rw [List.map_congr_left hid, List.map_id]

/-- In a list without duplicates the first occurrence is every occurrence. -/
theorem replace_eq_map {l : List Objid} (h : l.Nodup) (old newbie : Objid) :
    l.replace old newbie = l.map (renumberRef old newbie) := by
  induction l with
  | nil => rfl
  | cons x l ih =>
    obtain ⟨hx, hl⟩ := List.nodup_cons.mp h
    rw [List.replace_cons, List.map_cons]
    by_cases he : x = old
    · subst he
      rw [map_renumberRef_of_not_mem hx, beq_self_eq_true]
      exact congrArg (· :: l) (if_pos rfl).symm
    · rw [show (old == x) = false from beq_false_of_ne (Ne.symm he), ih hl]
      exact congrArg (· :: _) (if_neg he).symm

/-- Renumbering is an isomorphism of the table, and of the list of users if that has each user once
and nothing else. -/
theorem renumber_isomorphism (hi : db.Inv) {old : Objid} (ho : db.find old = some o) :
    ∃ newbie db', db.dbRenumberObject old = some (newbie, db') ∧ db'.Inv ∧
      (∀ progr, db.isWizard progr = true → db.bfRenumber old progr =
        some (.value (.obj newbie), db')) ∧
      ((newbie = old ∧ (∀ n, 0 ≤ n → n < old → db.valid n = true) ∧
        db' = db.affectedCallableVerbLookup) ∨
        (0 ≤ newbie ∧ newbie < old ∧ db.valid newbie = false ∧
          (∀ n, 0 ≤ n → n < newbie → db.valid n = true) ∧
          db.RenumberedTo db' old newbie ∧
          (db.allUsers.Nodup → (∀ x ∈ db.allUsers, db.isUser x = true) →
            db'.allUsers = db.allUsers.map (renumberRef old newbie)))) := by
  have hbf : ∀ {newbie db'}, db.dbRenumberObject old = some (newbie, db') →
      ∀ progr, db.isWizard progr = true →
      db.bfRenumber old progr = some (.value (.obj newbie), db') := by
    intro newbie db' h progr hw
    simp only [bfRenumber, valid, ho, hw, h, Option.isSome_some, Bool.not_true,
      Bool.false_eq_true, if_false,
      Option.bind_eq_bind, Option.bind_some]
    rfl
  obtain ⟨h0, -⟩ := find_bounds ho
  have hvalid : ∀ {k : Int}, (∀ m : Nat, m < k.toNat → (db.find m).isSome) → ∀ n, 0 ≤ n → n < k →
      db.valid n = true := by
    intro k h n hn hlt
    have := h n.toNat (by omega)
    rwa [Int.toNat_of_nonneg hn] at this
  rcases hi.renumberObject_exact ho with ⟨hnone, h, hi'⟩ | ⟨n, db', hlt, hfree, hlow, h, hto, hi'⟩
  · exact ⟨old, _, h, hi', hbf h, .inl ⟨rfl, hvalid hnone, rfl⟩⟩
  · have hltold : (n : Int) < old := by omega
    refine ⟨n, db', h, hi', hbf h, .inr ⟨Int.natCast_nonneg n, hltold, by rw [valid, hfree]; rfl,
      hvalid (k := n) hlow, hto, ?_⟩⟩
    intro hnd husers
    rw [hto.allUsers]
    split
    · exact replace_eq_map hnd old n
    · next hu =>
      exact (map_renumberRef_of_not_mem (fun h => hu (husers old h)) n).symm

end Db

end NuMoo
