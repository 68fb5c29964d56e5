import NuMoo.Db.Definitions
import NuMoo.Waif.Access

/-!
# Changes to the classes of waifs

The operations on objects and their properties, with what they do to `waif_propdefs`: it is
cleared at an object and all its descendants when a property is added or deleted there or the
object gets another parent, and edited in place when both names of a renamed property have the
prefix. It moves with an object that is renumbered.

Results:
1. `clearBelow_spec`, `renameBelow_spec`: what the recursions do to the pointers and the lists.
2. `ClassesOk`: a list that an object points to holds the `:` properties of its ancestor chain.
3. One lemma for each operation that it keeps this.
-/

namespace NuMoo

open Linked

namespace Server

/-! ## Operations -/

/-- Clear `waif_propdefs` at an object and below it, as `insert_prop_recursively`,
`remove_prop_recursively` and `fix_props` do on their way. -/
def clearBelow (root : Objid) (s : Server) : Option Server :=
  visit (fun s => s.db.links kin) NOTHING (fun oid (_ : Unit) s => some (s.clearPropdefs oid))
    (fun _ _ _ _ => some ())
    s.db.bound s.db.bound root () s

/-- `rename_prop_recursively` -/
def renamePropRecursively (root : Objid) (old newbie : MooStr) (s : Server) : Option Server :=
  visit (fun s => s.db.links kin) NOTHING
    (fun oid (_ : Unit) s => if s.waifPropdefs oid = none then some s
      else s.waifRenamePropdef oid old newbie)
    (fun _ _ _ _ => some ()) s.db.bound s.db.bound root () s

/-- `db_create_object` -/
def dbCreateObject (junk : Objid) (s : Server) : Server :=
  let (oid, db) := s.db.dbCreateObject junk
  { s with db }.clearPropdefs oid

/-- `db_destroy_object`; the pointer goes with the object. -/
def dbDestroyObject (oid : Objid) (s : Server) : Option Server :=
  (s.db.dbDestroyObject oid).map fun db => { s with db }.clearPropdefs oid

/-- `db_renumber_object` -/
def dbRenumberObject (old : Objid) (s : Server) : Option Server :=
  (s.db.dbRenumberObject old).map fun r => { s with
    db := r.2
    waifPropdefs := fun x => if x = r.1 then s.waifPropdefs old else if x = old then none
      else s.waifPropdefs x }

/-- `db_add_propdef`; the name is the string at an address. -/
def dbAddPropdef (oid : Objid) (pname : Nat) (value : Var) (owner : Objid)
    (flags : UInt16) (s : Server) :
    Option Server := do
  let (added, db) ← s.db.dbAddPropdef oid (s.text pname) value owner flags
  if !added then return s
  { s with db, nameAddr := Function.update s.nameAddr s.db.nextPid pname }.clearBelow oid

/-- `db_rename_propdef` -/
def dbRenamePropdef (oid : Objid) (old : Str) (newbie : Nat) (s : Server) : Option Server := do
  let (renamed, db) ← s.db.dbRenamePropdef oid old (s.text newbie)
  if !renamed then return s
  let o ← s.db.find oid
  let i ← o.propdefs.findIdx? fun p => p.matches (strHash old) old
  let p ← o.propdefs[i]?
  let s ← s.renamePropRecursively oid ⟨s.nameAddr p.pid, p.name⟩ ⟨newbie, s.text newbie⟩
  return { s with db, nameAddr := Function.update s.nameAddr p.pid newbie }

/-- `db_delete_propdef` -/
def dbDeletePropdef (oid : Objid) (pname : Str) (s : Server) : Option Server := do
  let (deleted, db) ← s.db.dbDeletePropdef oid pname
  if !deleted then return s
  { s with db }.clearBelow oid

/-- `db_change_parent` -/
def dbChangeParent (oid parent : Objid) (s : Server) : Option Server := do
  let (changed, db) ← s.db.dbChangeParent oid parent
  if !changed then return s
  { s with db }.clearBelow oid

/-! ## The invariant -/

/-- The entry for a property. -/
def entryOf (s : Server) (p : Propdef) : WaifPropdef := ⟨⟨s.nameAddr p.pid, p.name⟩, p.hash⟩

/-- The entries for the properties along an ancestor chain. -/
def defsOn (s : Server) (l : List Objid) : List WaifPropdef :=
  ((s.db.inherited l).filter fun p => prefixed p.name).map s.entryOf

/-- The lists of the objects are right. -/
structure ClassesOk (s : Server) : Prop where
  inv : s.db.Inv
  /-- The address of a name gives its text. -/
  names : ∀ x, ∀ p ∈ s.db.propdefsOf x, p.name = s.text (s.nameAddr p.pid)
  cached : ∀ x P, s.waifPropdefs x = some P → (∃ o, s.db.find x = some o) ∧
    ∀ l, Chain s.db.parentOf NOTHING x l → s.defs P = some (s.defsOn l)
  inj : ∀ x y P, s.waifPropdefs x = some P → s.waifPropdefs y = some P → x = y
  fresh : ∀ P, s.nextDefs ≤ P → s.defs P = none

variable {s s' : Server} {oid x : Objid} {o : Object}

theorem ClassesOk.lt (h : s.ClassesOk) {P : Nat} (hx : s.waifPropdefs x = some P) :
    P < s.nextDefs := by
  obtain ⟨⟨o, ho⟩, hdefs⟩ := h.cached x P hx
  obtain ⟨l, hl⟩ := Db.exists_chain h.inv.kin ho
  by_contra hge
  have := h.fresh P (Nat.le_of_not_lt hge)
  rw [hdefs l hl] at this
  cases this

theorem defsOn_congr {l : List Objid} (hinh : s'.db.inherited l = s.db.inherited l)
    (haddr : ∀ p ∈ s.db.inherited l, s'.nameAddr p.pid = s.nameAddr p.pid) :
    s'.defsOn l = s.defsOn l := by
  rw [defsOn, defsOn, hinh]
  refine List.map_congr_left fun p hp => ?_
  rw [entryOf, entryOf, haddr p (List.mem_of_mem_filter hp)]

/-- The list that `gen_waif_propdefs` makes. -/
theorem flatMap_entriesOf {l : List Objid} {os : List Object}
    (h : List.Forall₂ (fun x o => s.db.find x = some o) l os) :
    os.flatMap s.entriesOf = s.defsOn l := by
  rw [defsOn, ← Db.inherited_eq_of_forall₂ h, List.filter_flatMap, List.map_flatMap]
  rfl

/-! ## Recursion below an object -/

/-- The servers agree on all but the pointers and lists. -/
structure SameButPropdefs (s s' : Server) : Prop where
  db : s'.db = s.db
  nameAddr : s'.nameAddr = s.nameAddr
  nextDefs : s'.nextDefs = s.nextDefs
  waifs : s'.waifs = s.waifs
  nextWaif : s'.nextWaif = s.nextWaif
  text : s'.text = s.text
  waifBits : s'.waifBits = s.waifBits

theorem SameButPropdefs.refl (s : Server) : SameButPropdefs s s :=
  ⟨rfl, rfl, rfl, rfl, rfl, rfl, rfl⟩

theorem SameButPropdefs.trans {s'' : Server} (h : SameButPropdefs s s')
    (h' : SameButPropdefs s' s'') :
    SameButPropdefs s s'' :=
  ⟨h'.db.trans h.db, h'.nameAddr.trans h.nameAddr, h'.nextDefs.trans h.nextDefs,
    h'.waifs.trans h.waifs,
    h'.nextWaif.trans h.nextWaif, h'.text.trans h.text, h'.waifBits.trans h.waifBits⟩

/-- A recursion below an object that changes one object at a time. -/
theorem visitBelow_spec {ω : Type} {f : Objid → Server → Option Server}
    {g : Server → Objid → Option ω}
    {I : Server → Prop} {D : Objid → Option ω → Prop} (hk : (s.db.links kin).WF NOTHING)
    (ho : s.db.find oid = some o) (hI : I s) (hlinks : ∀ s', I s' → s'.db = s.db)
    (hact : ∀ s' x, I s' → (s.db.links kin).Below oid x → g s' x = g s x →
      ∃ s'', f x s' = some s'' ∧ I s'' ∧ (∀ y, y ≠ x → g s'' y = g s' y) ∧ D x (g s'' x)) :
    ∃ s', visit (fun s => s.db.links kin) NOTHING (fun x (_ : Unit) s => f x s)
    (fun _ _ _ _ => some ())
        s.db.bound s.db.bound oid () s = some s' ∧ I s' ∧
      (∀ y, ¬ (s.db.links kin).Below oid y → g s' y = g s y) ∧
      ∀ y, (s.db.links kin).Below oid y → D y (g s' y) := by
  have hr : ((s.db.links kin) oid).isSome := by simp [Db.links_isSome, ho]
  have hv : Visitor (s.db.links kin) oid (fun s => s.db.links kin) g (fun x (_ : Unit) s => f x s)
      (fun _ _ _ _ => some ()) (fun _ => ()) I (fun _ _ _ => True) (fun x _ v => D x v) (g s) := by
    refine ⟨fun s' hs' => by rw [hlinks s' hs'], fun _ _ _ _ _ _ _ => rfl,
      fun s' x m hs' hp hg _ => ?_,
      fun _ _ _ _ _ _ _ => trivial⟩
    exact hact s' x hs' (hp.isBelow hr) hg
  obtain ⟨s', h, hI', hout, hin⟩ := visit_spec hk hr hv (Db.links_bound s.db kin) hI .root
    (hk.depthLT (Db.links_bound s.db kin) oid) (fun _ _ => rfl) trivial
  refine ⟨s', h, hI', hout, fun y hy => ?_⟩
  obtain ⟨m, hm⟩ := hy.path
  exact hin y m hm

/-- The pointers of an object and its descendants are cleared. -/
theorem clearBelow_spec (hk : (s.db.links kin).WF NOTHING) (ho : s.db.find oid = some o) :
    ∃ s', s.clearBelow oid = some s' ∧ SameButPropdefs s s' ∧ s'.defs = s.defs ∧
      (∀ y, ¬ (s.db.links kin).Below oid y → s'.waifPropdefs y = s.waifPropdefs y) ∧
      ∀ y, (s.db.links kin).Below oid y → s'.waifPropdefs y = none := by
  obtain ⟨s', h, ⟨hsame, hdefs⟩, hout, hin⟩ := visitBelow_spec
    (g := waifPropdefs) (I := fun s' => SameButPropdefs s s' ∧ s'.defs = s.defs)
      (D := fun _ v => v = none) hk ho
    ⟨.refl s, rfl⟩ (fun s' h => h.1.db) fun s' x hs' _ _ =>
      ⟨s'.clearPropdefs x, rfl, ⟨hs'.1.trans ⟨rfl, rfl, rfl, rfl, rfl, rfl, rfl⟩, hs'.2⟩,
        fun y hy => Function.update_of_ne hy _ _, Function.update_self _ _ _⟩
  exact ⟨s', h, hsame, hdefs, hout, hin⟩

/-- Every list keeps its length. -/
structure SameLengths (s s' : Server) : Prop where
  some : ∀ P l, s.defs P = some l → ∃ l', s'.defs P = some l' ∧ l'.length = l.length
  none : ∀ P, s.defs P = none → s'.defs P = none

theorem SameLengths.of_eq (h : s'.defs = s.defs) : SameLengths s s' :=
  ⟨fun P l hl => ⟨l, by rw [h, hl], rfl⟩, fun P hP => by rw [h, hP]⟩

theorem SameLengths.trans {s'' : Server} (h : SameLengths s s') (h' : SameLengths s' s'') :
    SameLengths s s'' := by
  refine ⟨fun P l hl => ?_, fun P hP => h'.none P (h.none P hP)⟩
  obtain ⟨l₁, hl₁, hlen₁⟩ := h.some P l hl
  obtain ⟨l₂, hl₂, hlen₂⟩ := h'.some P l₁ hl₁
  exact ⟨l₂, hl₂, hlen₂.trans hlen₁⟩

/-- What renaming does at an object whose pointer is set, if both names have the prefix. -/
def Renamed (old newbie : MooStr) (l l' : List WaifPropdef) : Prop :=
  ∃ i, (l.findIdx? fun d => d.name.addr == old.addr) = some i ∧
    l' = l.set i ⟨newbie, strHash newbie.text⟩

/-- The lists of the object and its descendants are edited, or their pointers cleared. -/
theorem renamePropRecursively_spec (h : s.ClassesOk) (ho : s.db.find oid = some o)
    {old newbie : MooStr}
    (hfound : prefixed old.text → prefixed newbie.text → ∀ y P l, (s.db.links kin).Below oid y →
      s.waifPropdefs y = some P → s.defs P = some l → ∃ d ∈ l, d.name.addr = old.addr) :
    ∃ s', s.renamePropRecursively oid old newbie = some s' ∧ SameButPropdefs s s' ∧
      SameLengths s s' ∧
      (∀ y, ¬ (s.db.links kin).Below oid y → s'.waifPropdefs y = s.waifPropdefs y ∧
        ∀ P, s.waifPropdefs y = some P → s'.defs P = s.defs P) ∧
      ∀ y, (s.db.links kin).Below oid y → s'.waifPropdefs y = none ∨
      (prefixed old.text ∧ prefixed newbie.text) ∧
        s'.waifPropdefs y = s.waifPropdefs y ∧ ∀ P, s.waifPropdefs y = some P →
          ∃ l l', s.defs P = some l ∧ s'.defs P = some l' ∧ Renamed old newbie l l' := by
  by_cases hboth : prefixed old.text ∧ prefixed newbie.text
  -- one of the names is no name of a waif property: the lists below are dropped
  swap
  · obtain ⟨s', h', ⟨hsame, hdefs⟩, hout, hin⟩ := visitBelow_spec
      (f := fun x s => if s.waifPropdefs x = none then some s else s.waifRenamePropdef x old newbie)
      (I := fun s' => SameButPropdefs s s' ∧ s'.defs = s.defs) (D := fun _ v => v = none)
      h.inv.kin ho ⟨.refl s, rfl⟩ (fun s' h => h.1.db) fun s' x hs' _ _ => by
        by_cases hnone : s'.waifPropdefs x = none
        · exact ⟨s', if_pos hnone, hs', fun _ _ => rfl, hnone⟩
        · refine ⟨s'.clearPropdefs x, ?_, ⟨hs'.1.trans ⟨rfl, rfl, rfl, rfl, rfl, rfl, rfl⟩, hs'.2⟩,
            fun y hy => Function.update_of_ne hy _ _, Function.update_self _ _ _⟩
          rw [if_neg hnone, waifRenamePropdef, if_neg hboth]
    exact ⟨s', h', hsame, .of_eq hdefs, fun y hy => ⟨hout y hy, fun P _ => by rw [hdefs]⟩,
      fun y hy => .inl (hin y hy)⟩
  · obtain ⟨s', h', ⟨hsame, hptr, hlen⟩, hout, hin⟩ := visitBelow_spec
      (f := fun x s => if s.waifPropdefs x = none then some s else s.waifRenamePropdef x old newbie)
      (g := fun s' x => (s'.waifPropdefs x).bind s'.defs)
      (I := fun s' => SameButPropdefs s s' ∧ s'.waifPropdefs = s.waifPropdefs ∧ SameLengths s s')
      (D := fun x v => ∀ P, s.waifPropdefs x = some P → ∃ l l', s.defs P = some l ∧ v = some l' ∧
        Renamed old newbie l l')
      h.inv.kin ho ⟨.refl s, rfl, .of_eq rfl⟩ (fun s' h => h.1.db) fun s' x ⟨hs', hptr,
        hlen⟩ hx hget => by
        cases hP : s.waifPropdefs x with
        | none =>
          refine ⟨s', if_pos (by rw [hptr, hP]), ⟨hs', hptr, hlen⟩, fun _ _ => rfl, fun P h => ?_⟩
          cases h
        | some P =>
          obtain ⟨⟨ox, hox⟩, hdefs⟩ := h.cached x P hP
          obtain ⟨c, hc⟩ := Db.exists_chain h.inv.kin hox
          have hl := hdefs c hc
          have hl' : s'.defs P = some (s.defsOn c) := by
            rw [hptr, hP, Option.bind_some, Option.bind_some, hl] at hget
            exact hget
          obtain ⟨d, hd, haddr⟩ := hfound hboth.1 hboth.2 x P _ hx hP hl
          obtain ⟨i, hi⟩ : ∃ i, ((s.defsOn c).findIdx? fun d => d.name.addr == old.addr) = some i :=
            Option.isSome_iff_exists.mp (List.findIdx?_isSome.trans
              (List.any_eq_true.mpr ⟨d, hd, by simpa using haddr⟩))
          -- the entry with the old name is overwritten in place
          let new : WaifPropdef := ⟨newbie, strHash newbie.text⟩
          let s'' : Server :=
            { s' with defs := Function.update s'.defs P (some ((s.defsOn c).set i new)) }
          have hne : ∀ Q, Q ≠ P → s''.defs Q = s'.defs Q := fun Q hQ => Function.update_of_ne hQ _ _
          have hself : s''.defs P = some ((s.defsOn c).set i new) := Function.update_self _ _ _
          refine ⟨s'', ?_, ⟨hs'.trans ⟨rfl, rfl, rfl, rfl, rfl, rfl, rfl⟩, hptr,
            hlen.trans ⟨fun Q l hQ => ?_, fun Q hQ => ?_⟩⟩,
            fun y hy => ?_, fun P' hP' => ?_⟩
          · have hPx : s'.waifPropdefs x = some P := by rw [hptr, hP]
            have hsome : s'.waifPropdefs x ≠ none := by simp [hPx]
            rw [if_neg hsome, waifRenamePropdef, if_pos hboth, hPx, Option.bind_eq_bind,
              Option.bind_some, hl',
              Option.bind_eq_bind, Option.bind_some, hi]
            rfl
          · by_cases hQP : Q = P
            · subst hQP
              rw [hl'] at hQ
              cases hQ
              exact ⟨_, hself, List.length_set⟩
            · exact ⟨l, by rw [hne Q hQP, hQ], rfl⟩
          · rw [hne Q, hQ]
            rintro rfl
            rw [hl'] at hQ
            cases hQ
          · cases hy' : s'.waifPropdefs y with
            | none => simp only [s'', Option.bind_none]
            | some Q =>
              have hQ : Q ≠ P := by
                rintro rfl
                rw [hptr] at hy'
                exact hy (h.inj y x Q hy' hP)
              simp only [s'', Option.bind_some]
              exact hne Q hQ
          · cases hP'
            refine ⟨s.defsOn c, _, hl, ?_, i, hi, rfl⟩
            simp only [s'', hptr, hP, Option.bind_some]
            exact hself
    refine ⟨s', h', hsame, hlen, fun y hy => ⟨by rw [hptr], fun P hP => ?_⟩,
      fun y hy => .inr ⟨hboth, by rw [hptr], fun P hP => ?_⟩⟩
    · have := hout y hy
      rwa [hptr, hP, Option.bind_some, Option.bind_some] at this
    · obtain ⟨l, l', hl, hl', hren⟩ := hin y hy P hP
      rw [hptr, hP, Option.bind_some] at hl'
      exact ⟨l, l', hl, hl', hren⟩

/-! ## The operations keep the invariant -/

/-- A step that changes the classes but no waif. -/
structure ClassStep (s s' : Server) : Prop where
  classes : s'.ClassesOk
  waifs : s'.waifs = s.waifs
  nextWaif : s'.nextWaif = s.nextWaif
  waifBits : s'.waifBits = s.waifBits
  lengths : SameLengths s s'

theorem ClassStep.refl (h : s.ClassesOk) : ClassStep s s := ⟨h, rfl, rfl, rfl, .of_eq rfl⟩

/-- What the list of an object depends on has not changed. -/
theorem ClassesOk.keep (h : s.ClassesOk) {P : Nat} (hx : s.waifPropdefs x = some P)
    (hP : s'.defs P = s.defs P)
    (hchain : ∀ l, Chain s.db.parentOf NOTHING x l → ∀ y ∈ l, s'.db.parentOf y = s.db.parentOf y ∧
      s'.db.propdefsOf y = s.db.propdefsOf y ∧ ∀ p ∈ s.db.propdefsOf y,
      s'.nameAddr p.pid = s.nameAddr p.pid) :
    (∃ o, s'.db.find x = some o) ∧ ∀ l, Chain s'.db.parentOf NOTHING x l →
    s'.defs P = some (s'.defsOn l) := by
  obtain ⟨⟨o, ho⟩, hdefs⟩ := h.cached x P hx
  obtain ⟨l, hl⟩ := Db.exists_chain h.inv.kin ho
  have hsame := hchain l hl
  have hl' : Chain s'.db.parentOf NOTHING x l := hl.congr fun y hy => (hsame y hy).1
  obtain ⟨m, rfl, -⟩ := Db.chain_cons ho hl
  refine ⟨?_, fun l' hc => ?_⟩
  · have hup := (hsame x List.mem_cons_self).1
    rw [Db.parentOf_eq ho] at hup
    obtain ⟨o', ho', -⟩ := Db.exists_of_parentOf hup
    exact ⟨o', ho'⟩
  · obtain rfl := hc.unique hl'
    rw [hP, hdefs _ hl, defsOn_congr (Db.inherited_congr fun y hy => (hsame y hy).2.1)]
    intro p hp
    obtain ⟨y, hy, hpy⟩ := Db.mem_inherited.mp hp
    exact (hsame y hy).2.2 p hpy

theorem createObject_step (h : s.ClassesOk) (junk : Objid) :
    ClassStep s (s.dbCreateObject junk) := by
  have hfind : ∀ y : Objid, y ≠ s.db.numObjects → (s.dbCreateObject junk).db.find y = s.db.find y :=
    fun y hy => by
    show (s.db.dbCreateObject junk).2.find y = _
    rw [Db.find_create, if_neg hy]
  have hptr : ∀ (y : Objid) P, (s.dbCreateObject junk).waifPropdefs y = some P →
      y ≠ s.db.numObjects ∧ s.waifPropdefs y = some P := by
    intro y P hy
    by_cases hn : y = s.db.numObjects
    · subst hn
      rw [show (s.dbCreateObject junk).waifPropdefs (s.db.numObjects : Objid) =
        none from Function.update_self _ _ _] at hy
      cases hy
    · exact ⟨hn, (Function.update_of_ne hn _ _).symm.trans hy⟩
  refine ⟨⟨h.inv.createObject junk, fun y p hp => ?_, fun y P hy => ?_, fun y z P hy hz => ?_,
    h.fresh⟩, rfl, rfl, rfl,
    .of_eq rfl⟩
  · by_cases hn : y = s.db.numObjects
    · subst hn
      rw [Db.propdefsOf, show (s.dbCreateObject junk).db.find (s.db.numObjects : Objid) = _ from by
        show (s.db.dbCreateObject junk).2.find _ = _
        rw [Db.find_create, if_pos rfl]] at hp
      cases hp
    · rw [Db.propdefsOf, hfind y hn] at hp
      exact h.names y p hp
  · obtain ⟨-, hP⟩ := hptr y P hy
    refine h.keep hP rfl fun l hl z hz => ?_
    have hzn : z ≠ s.db.numObjects := by
      rintro rfl
      have := hl.next_isSome_of_mem hz
      simp [Db.parentOf, Links.up, Db.links, Db.find_numObjects] at this
    exact ⟨by rw [Db.parentOf, Links.up, Db.links, hfind z hzn]; rfl,
      by rw [Db.propdefsOf, hfind z hzn, Db.propdefsOf],
      fun _ _ => rfl⟩
  · exact h.inj y z P (hptr y P hy).2 (hptr z P hz).2

theorem find_destroy {db db' : Db} (h : db.dbDestroyObject oid = some db') (y : Objid) :
    db'.find y = if y = oid then none else db.find y := by
  obtain ⟨o, ho, h⟩ := Option.bind_eq_some_iff.mp h
  simp only [Option.ite_none_left_eq_some, Option.ite_none_right_eq_some, Option.some.injEq] at h
  obtain ⟨-, -, rfl⟩ := h
  obtain ⟨h0, hlt⟩ := Db.find_bounds ho
  rw [Db.clearEntry, Db.find_set h0]
  · congr 1
    split
    · exact congrFun (Db.find_affected db) y
    · exact congrFun (Db.find_affected db) y
  · split <;> exact hlt

theorem destroyObject_step (h : s.ClassesOk) (ho : s.db.find oid = some o)
    (hloc : o.location = NOTHING)
    (hcont : o.contents = NOTHING) (hpar : o.parent = NOTHING) (hch : o.child = NOTHING) :
    ∃ s', s.dbDestroyObject oid = some s' ∧ ClassStep s s' := by
  obtain ⟨db', hdb, hi, -⟩ := h.inv.destroyObject ho hloc hcont hpar hch
  have hfind := find_destroy hdb
  let s' : Server := { s with db := db' }.clearPropdefs oid
  have hptr : ∀ y P, s'.waifPropdefs y = some P → y ≠ oid ∧ s.waifPropdefs y = some P := by
    intro y P hy
    by_cases hn : y = oid
    · subst hn
      rw [show s'.waifPropdefs y = none from Function.update_self _ _ _] at hy
      cases hy
    · exact ⟨hn, (Function.update_of_ne hn _ _).symm.trans hy⟩
  refine ⟨s', by rw [dbDestroyObject, hdb]; rfl,
    ⟨hi, fun y p hp => ?_, fun y P hy => ?_, fun y z P hy hz => ?_, h.fresh⟩,
    rfl, rfl, rfl, .of_eq rfl⟩
  · by_cases hn : y = oid
    · subst hn
      rw [Db.propdefsOf, show s'.db.find y = none from (hfind y).trans (if_pos rfl)] at hp
      cases hp
    · rw [Db.propdefsOf, show s'.db.find y = s.db.find y from (hfind y).trans (if_neg hn)] at hp
      exact h.names y p hp
  · obtain ⟨hyn, hP⟩ := hptr y P hy
    refine h.keep hP rfl fun l hl z hz => ?_
    -- The object has no children, so that no other chain passes it.
    have hzn : z ≠ oid := by
      rintro rfl
      rcases (Db.mem_chain_isBelow h.inv.kin hl hz).cases_child with rfl | ⟨c, hc, -⟩
      · exact hyn rfl
      · exact (h.inv.kin.head_eq_nil_iff (Db.links_eq ho)).mp hch c hc
    have hz' : s'.db.find z = s.db.find z := (hfind z).trans (if_neg hzn)
    exact ⟨by rw [Db.parentOf, Links.up, Db.links, hz']; rfl,
      by rw [Db.propdefsOf, hz', Db.propdefsOf], fun _ _ => rfl⟩
  · exact h.inj y z P (hptr y P hy).2 (hptr z P hz).2

theorem renumberObject_step (h : s.ClassesOk) (ho : s.db.find oid = some o) :
    ∃ s', s.dbRenumberObject oid = some s' ∧ ClassStep s s' := by
  obtain ⟨newbie, db', hdb, hi, hn, hfree, hren⟩ := h.inv.renumberObject_swap ho
  have hon : oid ≠ NOTHING := by
    rintro rfl
    rw [Db.find_nothing] at ho
    cases ho
  have he : Equiv.swap oid newbie NOTHING = NOTHING := Equiv.swap_apply_of_ne_of_ne hon.symm hn.symm
  obtain ⟨hdefs, hchain⟩ := hren.inherited he
  let s' : Server := { s with
    db := db'
    waifPropdefs := fun x => if x = newbie then s.waifPropdefs oid else if x = oid then none
      else s.waifPropdefs x }
  -- The pointers move along the exchange of the numbers.
  have hptr : ∀ y P, s'.waifPropdefs (Equiv.swap oid newbie y) = some P →
      s.waifPropdefs y = some P := by
    intro y P hy
    simp only [s'] at hy
    by_cases hyo : y = oid
    · subst hyo
      rwa [Equiv.swap_apply_left, if_pos rfl] at hy
    by_cases hyn : y = newbie
    · subst hyn
      rw [Equiv.swap_apply_right, if_neg (Ne.symm hyo), if_pos rfl] at hy
      cases hy
    · rwa [Equiv.swap_apply_of_ne_of_ne hyo hyn, if_neg hyn, if_neg hyo] at hy
  refine ⟨s', by rw [dbRenumberObject, hdb]; rfl,
    ⟨hi, fun y p hp => ?_, fun y P hy => ?_, fun y z P hy hz => ?_, h.fresh⟩,
    rfl, rfl, rfl, .of_eq rfl⟩
  all_goals obtain ⟨y, rfl⟩ := (Equiv.swap oid newbie).surjective y
  · exact h.names y p (hdefs y ▸ hp)
  · have hP := hptr y P hy
    obtain ⟨⟨oy, hoy⟩, hcached⟩ := h.cached y P hP
    obtain ⟨l, hl⟩ := Db.exists_chain h.inv.kin hoy
    obtain ⟨hl', hinh⟩ := hchain y l hl
    refine ⟨?_, fun l' hc => ?_⟩
    · have hb := hren.body y
      rw [hoy, Option.map_some, Option.map_eq_some_iff] at hb
      obtain ⟨o', ho', -⟩ := hb
      exact ⟨o', ho'⟩
    · obtain rfl := hc.unique hl'
      show s.defs P = _
      rw [hcached l hl, defsOn, defsOn, hinh]
      rfl
  · obtain ⟨z, rfl⟩ := (Equiv.swap oid newbie).surjective z
    rw [h.inj y z P (hptr y P hy) (hptr z P hz)]

/-- A change of the database, followed by the clearing of the pointers below an object that all the
changes concern. -/
theorem clearBelow_step (h : s.ClassesOk) {db : Db} {nameAddr : Nat → Nat} (hi : db.Inv)
    (ho : db.find oid = some o)
    (hnames : ∀ y, ∀ p ∈ db.propdefsOf y, p.name = s.text (nameAddr p.pid))
    (hkeep : ∀ x l, ¬ (db.links kin).Below oid x → Chain s.db.parentOf NOTHING x l → ∀ y ∈ l,
      db.parentOf y = s.db.parentOf y ∧ db.propdefsOf y = s.db.propdefsOf y ∧
        ∀ p ∈ s.db.propdefsOf y, nameAddr p.pid = s.nameAddr p.pid) :
    ∃ s', { s with db, nameAddr }.clearBelow oid = some s' ∧ ClassStep s s' := by
  obtain ⟨s', h', hsame, hdefs, hout, hin⟩ :=
    clearBelow_spec (s := { s with db, nameAddr }) hi.kin ho
  have hptr : ∀ y P, s'.waifPropdefs y = some P → ¬ (db.links kin).Below oid y ∧
      s.waifPropdefs y = some P := by
    intro y P hy
    by_cases hb : (db.links kin).Below oid y
    · rw [hin y hb] at hy
      cases hy
    · exact ⟨hb, (hout y hb).symm.trans hy⟩
  refine ⟨s', h', ⟨hsame.db ▸ hi, fun y p hp => ?_, fun y P hy => ?_, fun y z P hy hz => ?_,
    fun P hP => ?_⟩, hsame.waifs,
    hsame.nextWaif, hsame.waifBits, .of_eq hdefs⟩
  · rw [hsame.db] at hp
    rw [hsame.text, hsame.nameAddr]
    exact hnames y p hp
  · obtain ⟨hb, hP⟩ := hptr y P hy
    refine h.keep hP (congrFun hdefs P) fun l hl z hz => ?_
    rw [hsame.db, hsame.nameAddr]
    exact hkeep y l hb hl z hz
  · exact h.inj y z P (hptr y P hy).2 (hptr z P hz).2
  · rw [hsame.nextDefs] at hP
    rw [hdefs]
    exact h.fresh P hP

/-- What lies on a chain that does not pass an object whose definitions change. -/
theorem DefsReplaced.keep {db db' : Db} {defs : List Propdef} (hd : db.DefsReplaced db' oid defs)
    (hk : (db.links kin).WF NOTHING) {x : Objid} {l : List Objid}
    (hx : ¬ (db'.links kin).Below oid x)
    (hl : Chain db.parentOf NOTHING x l) : ∀ y ∈ l, y ≠ oid ∧ db'.parentOf y = db.parentOf y ∧
      db'.propdefsOf y = db.propdefsOf y := by
  intro y hy
  have hne : y ≠ oid := by
    rintro rfl
    rw [hd.links] at hx
    exact hx (Db.mem_chain_isBelow hk hl hy)
  exact ⟨hne, by rw [Db.parentOf, hd.links, Db.parentOf], hd.other y hne⟩

theorem find_of_sameButProps {db db' : Db} (h : db.SameButProps db') (ho : db.find oid = some o) :
    ∃ o', db'.find oid = some o' := by
  obtain ⟨o', ho', -⟩ := h.exists_find ho
  exact ⟨o', ho'⟩

theorem addPropdef_step (h : s.ClassesOk) (ho : s.db.find oid = some o) (pname : Nat) {value : Var}
    (hv : value ≠ .clear)
    (owner : Objid) (flags : UInt16) :
    ∃ s', s.dbAddPropdef oid pname value owner flags = some s' ∧ ClassStep s s' := by
  obtain ⟨b, db', hdb, hl, hs⟩ :=
    Db.addPropdef_spec h.inv.kin h.inv.layout ho (s.text pname) hv owner flags
  obtain ⟨o', ho'⟩ := find_of_sameButProps hs ho
  rw [dbAddPropdef, hdb, Option.bind_eq_bind, Option.bind_some]
  rcases Db.dbAddPropdef_defs ho hdb with ⟨rfl, rfl⟩ | ⟨rfl, hd⟩
  · exact ⟨s, rfl, .refl h⟩
  have hold : ∀ y, ∀ p ∈ s.db.propdefsOf y, Function.update s.nameAddr s.db.nextPid pname p.pid =
      s.nameAddr p.pid :=
    fun y p hp => Function.update_of_ne (Nat.ne_of_lt (h.inv.layout.pidLt y p hp)) _ _
  refine clearBelow_step h (h.inv.of_props hs hl) ho' (fun y p hp => ?_) fun x l hx hl y hy => ?_
  · by_cases hy : y = oid
    · subst hy
      rw [hd.self] at hp
      rcases List.mem_append.mp hp with hp | hp
      · rw [← Db.propdefsOf_eq ho] at hp
        rw [hold y p hp]
        exact h.names y p hp
      · rw [List.mem_singleton.mp hp, Function.update_self]
    · rw [hd.other y hy] at hp
      rw [hold y p hp]
      exact h.names y p hp
  · obtain ⟨-, hup, hdefs⟩ := DefsReplaced.keep hd h.inv.kin hx hl y hy
    exact ⟨hup, hdefs, hold y⟩

theorem deletePropdef_step (h : s.ClassesOk) (ho : s.db.find oid = some o) (pname : Str) :
    ∃ s', s.dbDeletePropdef oid pname = some s' ∧ ClassStep s s' := by
  obtain ⟨b, db', hdb, hl, hs⟩ := Db.deletePropdef_spec h.inv.kin h.inv.layout ho pname
  obtain ⟨o', ho'⟩ := find_of_sameButProps hs ho
  rw [dbDeletePropdef, hdb, Option.bind_eq_bind, Option.bind_some]
  rcases Db.dbDeletePropdef_defs ho hdb with ⟨rfl, rfl⟩ | ⟨rfl, i, hd⟩
  · exact ⟨s, rfl, .refl h⟩
  refine clearBelow_step h (h.inv.of_props hs hl) ho' (fun y p hp => ?_) fun x l hx hl y hy => ?_
  · by_cases hy : y = oid
    · subst hy
      rw [hd.self] at hp
      refine h.names y p ?_
      rw [Db.propdefsOf_eq ho]
      exact List.mem_of_mem_eraseIdx hp
    · rw [hd.other y hy] at hp
      exact h.names y p hp
  · obtain ⟨-, hup, hdefs⟩ := DefsReplaced.keep hd h.inv.kin hx hl y hy
    exact ⟨hup, hdefs, fun _ _ => rfl⟩

theorem changeParent_step (h : s.ClassesOk) (ho : s.db.find oid = some o) {parent : Objid}
    (hp : parent = NOTHING ∨ ∃ op, s.db.find parent = some op)
    (hacyc : ¬ (s.db.links kin).Below oid parent) :
    ∃ s', s.dbChangeParent oid parent = some s' ∧ ClassStep s s' := by
  obtain ⟨b, db', hdb, hi, -⟩ := h.inv.changeParent ho hp hacyc
  rcases Db.changeParent_spec h.inv.kin h.inv.layout ho hp hacyc with ⟨h', -⟩ | ⟨db₁,
    la, lb, lc, h', hc⟩
  · rw [dbChangeParent, h', Option.bind_eq_bind, Option.bind_some]
    exact ⟨s, rfl, .refl h⟩
  rw [hdb] at h'
  cases h'
  rw [dbChangeParent, hdb, Option.bind_eq_bind, Option.bind_some]
  have hroot : ((s.db.links kin) oid).isSome := by simp [Db.links_isSome, ho]
  have hfind : ∃ o', db'.find oid = some o' := by
    have hup := hc.slots.parentOf ho oid
    rw [if_pos rfl] at hup
    obtain ⟨o', ho', -⟩ := Db.exists_of_parentOf hup
    exact ⟨o', ho'⟩
  obtain ⟨o', ho'⟩ := hfind
  refine clearBelow_step h hi ho' (fun y p hp => h.names y p (hc.slots.propdefsOf ▸ hp))
    fun x l hx hl y hy => ?_
  have hne : y ≠ oid := by
    rintro rfl
    obtain ⟨m, hm⟩ := (Db.mem_chain_isBelow h.inv.kin hl hy).path
    have hm' : Path (db'.links kin) y x m :=
      hm.congr (fun c _ hcy => (hc.slots.parentOf ho c).trans (if_neg hcy)) h.inv.kin hroot
    exact hx (hm'.isBelow (by simp [Db.links_isSome, ho']))
  exact ⟨(hc.slots.parentOf ho y).trans (if_neg hne), by rw [hc.slots.propdefsOf], fun _ _ => rfl⟩

/-- An operation that concerns neither parents nor definitions. -/
theorem other_step (h : s.ClassesOk) {db : Db} (hi : db.Inv) (hup : db.parentOf = s.db.parentOf)
    (hdefs : db.propdefsOf = s.db.propdefsOf) : ClassStep s { s with db } := by
  refine ⟨⟨hi, fun y p hp => h.names y p (hdefs ▸ hp), fun y P hy => ?_, h.inj, h.fresh⟩, rfl, rfl,
    rfl, .of_eq rfl⟩
  exact @ClassesOk.keep s { s with db } y h P hy rfl fun l _ z _ =>
    ⟨congrFun hup z, congrFun hdefs z, fun _ _ => rfl⟩

/-! ## Renaming -/

theorem set_eq_map {α β : Type} {a : List α} {g : α → β} {k : Nat} {v : β} {p : α → Prop}
    [DecidablePred p]
    (hp : ∀ j q, a[j]? = some q → (p q ↔ j = k)) :
    (a.map g).set k v = a.map fun q => if p q then v else g q := by
  refine List.ext_getElem? fun j => ?_
  rw [List.getElem?_set, List.getElem?_map, List.getElem?_map]
  cases hq : a[j]? with
  | none =>
    have hle : a.length ≤ j := List.getElem?_eq_none_iff.mp hq
    split
    · next hkj =>
      subst hkj
      rw [if_neg (by simpa using hle)]
      rfl
    · rfl
  | some q =>
    have hlt : j < a.length := (List.getElem?_eq_some_iff.mp hq).1
    by_cases hjk : j = k
    · subst hjk
      simp [hlt, (hp j q hq).mpr rfl]
    · simp [Ne.symm hjk, mt (hp j q hq).mp hjk]

/-- A property is known on a chain by the address of its name. -/
theorem ClassesOk.addr_inj (h : s.ClassesOk) {l : List Objid} (hl : Chain s.db.parentOf NOTHING x l)
    {p q : Propdef}
    (hp : p ∈ s.db.inherited l) (hq : q ∈ s.db.inherited l)
    (haddr : s.nameAddr p.pid = s.nameAddr q.pid) : p = q := by
  obtain ⟨y, -, hpy⟩ := Db.mem_inherited.mp hp
  obtain ⟨z, -, hqz⟩ := Db.mem_inherited.mp hq
  have hname : p.name = q.name := by rw [h.names y p hpy, haddr, ← h.names z q hqz]
  exact List.inj_on_of_nodup_map (h.inv.layout.names x l hl) hp hq (congrArg nameKey hname)

/-- The definitions along a chain, one of them with a new name. -/
theorem inherited_renamed {db db' : Db} (hl : db.Layout) (ho : db.find oid = some o)
    {i : Nat} {p : Propdef}
    (hp : o.propdefs[i]? = some p) {f : Propdef → Propdef}
    (hd : db.DefsReplaced db' oid (o.propdefs.modify i f))
    (l : List Objid) :
    db'.inherited l = (db.inherited l).map fun q => if q.pid = p.pid then f q else q := by
  rw [Db.inherited, Db.inherited, List.map_flatMap]
  refine List.flatMap_congr fun y _ => ?_
  have hpo : (db.propdefsOf oid)[i]? = some p := by rw [Db.propdefsOf_eq ho, hp]
  by_cases hy : y = oid
  · subst hy
    rw [hd.self, Db.propdefsOf_eq ho]
    refine List.ext_getElem? fun j => ?_
    rw [List.getElem?_modify, List.getElem?_map]
    cases hq : o.propdefs[j]? with
    | none => rfl
    | some q =>
      have hiff : q.pid = p.pid ↔ i = j := by
        constructor
        · intro he
          exact (hl.pidInj y y j i q p (by rw [Db.propdefsOf_eq ho, hq]) hpo he).2.symm
        · rintro rfl
          rw [hp] at hq
          cases hq
          rfl
      simp only [Option.map_some, hiff]
      split <;> rfl
  · rw [hd.other y hy]
    refine (List.map_id' _).symm.trans (List.map_congr_left fun q hq => ?_)
    obtain ⟨j, hj⟩ := List.mem_iff_getElem?.mp hq
    rw [if_neg fun he => hy (hl.pidInj y oid j i q p hj hpo he).1]

/-- Editing the list of a class renames its entry. -/
theorem renamed_eq (h : s.ClassesOk) {l : List Objid} (hl : Chain s.db.parentOf NOTHING x l)
    {p : Propdef}
    (hp : p ∈ s.db.inherited l) {newbie : MooStr} (hpre : prefixed p.name ∧ prefixed newbie.text)
    {l' : List WaifPropdef}
    (hren : Renamed ⟨s.nameAddr p.pid, p.name⟩ newbie (s.defsOn l) l')
    (hinh : s'.db.inherited l = (s.db.inherited l).map fun q =>
      if q.pid = p.pid then { q with name := newbie.text, hash := strHash newbie.text } else q)
    (haddr : s'.nameAddr = Function.update s.nameAddr p.pid newbie.addr) : l' = s'.defsOn l := by
  obtain ⟨k, hk, rfl⟩ := hren
  let F := (s.db.inherited l).filter fun q => prefixed q.name
  have hmem : ∀ {q}, q ∈ F → q ∈ s.db.inherited l := fun hq => List.mem_of_mem_filter hq
  have hF : s.defsOn l = F.map s.entryOf := rfl
  -- The edited entry is that of `p`.
  have hat : ∀ j q, F[j]? = some q → (q.pid = p.pid ↔ j = k) := by
    rw [hF, List.findIdx?_map, List.findIdx?_eq_some_iff_getElem] at hk
    obtain ⟨hklt, hka, -⟩ := hk
    have hkp : F[k] = p :=
      h.addr_inj hl (hmem (List.getElem_mem hklt)) hp (by simpa [entryOf] using hka)
    have hnd : (F.map Propdef.pid).Nodup :=
      (h.inv.layout.pidNodup hl.nodup).sublist (List.filter_sublist.map _)
    intro j q hq
    obtain ⟨hjlt, rfl⟩ := List.getElem?_eq_some_iff.mp hq
    constructor
    · intro he
      refine (@List.Nodup.getElem_inj_iff _ _ hnd j (by simpa using hjlt) k
        (by simpa using hklt)).mp ?_
      rw [List.getElem_map, List.getElem_map, he, hkp]
    · rintro rfl
      rw [hkp]
  have hfilter : (s'.db.inherited l).filter (fun q => prefixed q.name) = F.map fun q =>
      if q.pid = p.pid then { q with name := newbie.text, hash := strHash newbie.text } else q := by
    rw [hinh, List.filter_map]
    congr 1
    refine List.filter_congr fun q hq => ?_
    simp only [Function.comp_apply]
    split
    · next he =>
      have hqp : q = p := List.inj_on_of_nodup_map (h.inv.layout.pidNodup hl.nodup) hq hp he
      rw [hqp, hpre.1, hpre.2]
    · rfl
  rw [hF, set_eq_map hat, defsOn, hfilter, List.map_map]
  refine List.map_congr_left fun q hq => ?_
  simp only [Function.comp_apply, entryOf, haddr]
  split
  · next he => simp [he]
  · next hne => simp [hne]

theorem renamePropdef_step (h : s.ClassesOk) (ho : s.db.find oid = some o) (old : Str)
    (newbie : Nat) :
    ∃ s', s.dbRenamePropdef oid old newbie = some s' ∧ ClassStep s s' := by
  obtain ⟨b, db', hdb, hlay, hs⟩ :=
    Db.renamePropdef_spec h.inv.kin h.inv.layout ho old (s.text newbie)
  rw [dbRenamePropdef, hdb, Option.bind_eq_bind, Option.bind_some]
  rcases Db.dbRenamePropdef_defs ho hdb with ⟨rfl, rfl⟩ | ⟨rfl, i, hi, hd⟩
  · exact ⟨s, rfl, .refl h⟩
  obtain ⟨hlt, -⟩ := List.findIdx?_eq_some_iff_getElem.mp hi
  let p := o.propdefs[i]
  have hp : o.propdefs[i]? = some p := List.getElem?_eq_getElem hlt
  have hpmem : p ∈ s.db.propdefsOf oid := by
    rw [Db.propdefsOf_eq ho]
    exact List.getElem_mem hlt
  have hinh := inherited_renamed h.inv.layout ho hp hd
  have hon : ∀ y l, (s.db.links kin).Below oid y → Chain s.db.parentOf NOTHING y l →
      p ∈ s.db.inherited l :=
    fun y l hy hl =>
      Db.mem_inherited.mpr ⟨oid, (Links.mem_chain_iff h.inv.kin.nil_none hl).mpr hy, hpmem⟩
  obtain ⟨t, ht, hsame, hlen, hout, hin⟩ :=
    @renamePropRecursively_spec s oid o h ho ⟨s.nameAddr p.pid, p.name⟩
    ⟨newbie, s.text newbie⟩ fun hpre _ y P l hy hP hl => by
      obtain ⟨⟨oy, hoy⟩, hdefs⟩ := h.cached y P hP
      obtain ⟨c, hc⟩ := Db.exists_chain h.inv.kin hoy
      rw [hdefs c hc] at hl
      cases hl
      exact ⟨s.entryOf p, List.mem_map_of_mem (List.mem_filter.mpr ⟨hon y c hy hc, hpre⟩), rfl⟩
  let s' : Server := { t with db := db', nameAddr := Function.update t.nameAddr p.pid newbie }
  have haddr : s'.nameAddr = Function.update s.nameAddr p.pid newbie := by
    show Function.update t.nameAddr p.pid newbie = _
    rw [hsame.nameAddr]
  have hother : ∀ y, y ≠ oid → ∀ q ∈ s.db.propdefsOf y, s'.nameAddr q.pid = s.nameAddr q.pid :=
    fun y hy q hq => by
    obtain ⟨j, hj⟩ := List.mem_iff_getElem?.mp hq
    rw [haddr, Function.update_of_ne fun he =>
      hy (h.inv.layout.pidInj y oid j i q p hj (by rw [Db.propdefsOf_eq ho, hp]) he).1]
  -- no class gets a list: those below keep theirs or lose it
  have hptr : ∀ y P, s'.waifPropdefs y = some P → s.waifPropdefs y = some P := by
    intro y P hy
    by_cases hb : (s.db.links kin).Below oid y
    · rcases hin y hb with hnone | ⟨-, hsome, -⟩
      · rw [show s'.waifPropdefs y = none from hnone] at hy
        cases hy
      · exact hsome.symm.trans hy
    · exact (hout y hb).1.symm.trans hy
  refine ⟨s', ?_, ⟨h.inv.of_props hs hlay, fun y q hq => ?_, fun y P hy => ?_,
    fun y z P hy hz => ?_, fun P hP => ?_⟩,
    hsame.waifs, hsame.nextWaif, hsame.waifBits, ⟨hlen.some, hlen.none⟩⟩
  · simp only [ho, hi, hp, ht, Option.bind_eq_bind, Option.bind_some, Bool.not_true,
      Bool.false_eq_true, if_false]
    rfl
  · show q.name = t.text (s'.nameAddr q.pid)
    rw [hsame.text]
    by_cases hy : y = oid
    · subst hy
      have hq' : q ∈ db'.inherited [y] := Db.mem_inherited.mpr ⟨y, by simp, hq⟩
      rw [hinh, List.mem_map] at hq'
      obtain ⟨r, hr, rfl⟩ := hq'
      obtain ⟨z, hz, hrz⟩ := Db.mem_inherited.mp hr
      rw [List.mem_singleton.mp hz] at hrz
      split
      · next he =>
        show s.text newbie = s.text (s'.nameAddr r.pid)
        rw [haddr, he, Function.update_self]
      · next hne =>
        rw [haddr, Function.update_of_ne hne]
        exact h.names y r hrz
    · rw [show db'.propdefsOf y = _ from hd.other y hy] at hq
      rw [hother y hy q hq]
      exact h.names y q hq
  · have hP := hptr y P hy
    by_cases hb : (s.db.links kin).Below oid y
    · rcases hin y hb with hnone | ⟨hpre, -, hlists⟩
      · rw [show s'.waifPropdefs y = none from hnone] at hy
        cases hy
      · obtain ⟨l, l', hl, hl', hren⟩ := hlists P hP
        obtain ⟨⟨oy, hoy⟩, hdefs⟩ := h.cached y P hP
        obtain ⟨c, hc⟩ := Db.exists_chain h.inv.kin hoy
        rw [hdefs c hc] at hl
        cases hl
        obtain ⟨oy', hoy', -⟩ := hs.exists_find hoy
        refine ⟨⟨oy', hoy'⟩, fun c' hc' => ?_⟩
        have hup : db'.parentOf = s.db.parentOf := by rw [Db.parentOf, hd.links, Db.parentOf]
        obtain rfl : c' = c := by
          rw [show s'.db.parentOf = s.db.parentOf from hup] at hc'
          exact hc'.unique hc
        rw [← renamed_eq h hc (hon y c' hb hc) hpre hren (hinh c') haddr]
        exact hl'
    · refine h.keep hP ((hout y hb).2 P hP) fun l hl z hz => ?_
      obtain ⟨hne, hup, hdefs⟩ :=
        DefsReplaced.keep hd h.inv.kin (by rw [hd.links]; exact hb) hl z hz
      exact ⟨hup, hdefs, hother z hne⟩
  · exact h.inj y z P (hptr y P hy) (hptr z P hz)
  · exact hlen.none P (h.fresh P (hsame.nextDefs ▸ hP))

end Server

end NuMoo
