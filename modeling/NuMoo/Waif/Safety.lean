import NuMoo.Waif.Cycles

/-!
# Safety of accesses

A waif outlives its class. When it is accessed without one its list becomes null, and so is the list
of a new object until it is generated: `update_waif_propdefs` takes the two null pointers for equal
and leaves the waif without a list.

Results:
1. `Reachable.accessSafe_iff`: accesses to a waif are safe in a reachable server unless both
   pointers are null.
2. `stranded_unsafe`: a run that leads to two null pointers.
-/

namespace NuMoo

open Linked Packed

namespace Server

variable {s : Server} {a : Nat} {w : Waif}

/-- The list of an updated waif, and where `find_propval_offset` looks. -/
structure Listed (s : Server) (w : Waif) : Prop where
  /-- The `:` properties of the class and its ancestors, in the order of the chain. -/
  list : ∃ P c, w.propdefs = some P ∧ Chain s.db.parentOf NOTHING w.waifclass c ∧
    s.defs P = some (s.defsOn c)
  offset : ∀ name, ∃ r, s.findPropvalOffset w name = some r ∧ ∀ i k, r = some (i, some k) →
    k < w.vals.length

/-- Updating and accessing a waif returns, and with a valid class its list is right. -/
def AccessSafe (s : Server) (a : Nat) : Prop :=
  (∃ s' w', s.updateWaifPropdefs a = some s' ∧ s'.waifs a = some w' ∧
    (s'.db.valid w'.waifclass = true → s'.Listed w')) ∧
    (∀ name progr, ∃ r, s.waifGetProp a name progr = some r) ∧
    (∀ name val progr, (∀ b ∈ val.waifs, b < s.nextWaif) →
      ∃ r, s.waifPutProp a name val progr = some r) ∧
    ∃ r, s.waifBytes s.nextWaif a = some r

theorem Synced.listed (h : s.ClassesOk) (hw : WaifOk s w) (hs : Synced s w) : s.Listed w := by
  obtain ⟨P, hP, hclass⟩ := hs
  obtain ⟨⟨o, ho⟩, hdefs⟩ := h.cached _ P hclass
  obtain ⟨c, hc⟩ := Db.exists_chain h.inv.kin ho
  have hl := hdefs c hc
  obtain ⟨l, hl', hlen⟩ := hw.vals P hP
  rw [hl] at hl'
  cases hl'
  refine ⟨⟨P, c, hP, hc, hl⟩, fun name => ⟨_, findPropvalOffset_eq hw.map hP hl name,
    fun i k hr => ?_⟩⟩
  obtain ⟨j, hj, he⟩ := Option.map_eq_some_iff.mp hr
  obtain ⟨rfl, hk⟩ := Prod.mk.inj he
  rw [hlen]
  exact slot_lt hk (indexOf_lt hj)

/-- Reading through an updated waif returns. -/
theorem getProp_total (h : s.ClassesOk) (hw : WaifOk s w)
    (hs : s.db.valid w.waifclass = true → Synced s w) (name : Str)
    (progr : Objid) : ∃ r, s.getProp w name progr = some r := by
  by_cases hname : reserved name
  · rw [getProp]
    rcases hname with hname | hname | hname <;> simp only [hname, if_true] <;> repeat' split
    all_goals exact ⟨_, rfl⟩
  by_cases hv : s.db.valid w.waifclass = true
  · rcases hasProperty_or h hw (hs hv) name with ⟨-, hnone, -⟩ | ⟨i, own, hd, pv, v, hp⟩
    · simp only [reserved, not_or] at hname
      exact ⟨(.E_PROPNF, .none), by simp [getProp, hname, hv, hnone]⟩
    · exact ⟨_, getProp_spec progr hname hv hw hp⟩
  · simp only [reserved, not_or] at hname
    exact ⟨(.E_INVIND, .none), by simp [getProp, hname, hv]⟩

/-- Storing through an updated waif returns. -/
theorem putProp_total (h : s.Ok) (hw : s.waifs a = some w)
    (hs : s.db.valid w.waifclass = true → Synced s w) (name : Str)
    {val : Var} (progr : Objid) (hval : ∀ b ∈ val.waifs, b < s.nextWaif) :
    ∃ r, s.putProp a w name val progr = some r := by
  by_cases hname : reserved name
  · rw [putProp]
    rcases hname with hname | hname | hname <;> simp only [hname, true_or, or_true, if_true] <;>
      repeat' split
    all_goals exact ⟨_, rfl⟩
  by_cases hv : s.db.valid w.waifclass = true
  · have hok := h.heap.ok a w hw
    rcases hasProperty_or h.classes hok (hs hv) name with ⟨-, hnone, -⟩ | ⟨i, own, hd, pv, v, hp⟩
    · simp only [reserved, not_or] at hname
      exact ⟨(.E_PROPNF, s), by simp [putProp, hname, hv, hnone]⟩
    · obtain ⟨b, href, -⟩ := refersTo_spec h.heap a hval
      obtain ⟨w', -, hput⟩ := putProp_spec progr hname hv hok hp href
      exact ⟨_, hput⟩
  · simp only [reserved, not_or] at hname
    exact ⟨(.E_INVIND, s), by simp [putProp, hname, hv]⟩

/-- Accesses to a waif are safe unless its list and that of its class are both null. -/
theorem Reachable.accessSafe_iff (h : Reachable s) (hw : s.waifs a = some w) :
    s.AccessSafe a ↔ ¬ s.Stranded w := by
  have hok := h.ok
  obtain ⟨w', s₁, -, hs₁, hup, hok₁, hacc⟩ := updateWaifPropdefs_spec hok hw
  have hok' := hok₁.heap.ok a w' waifs_putWaif_self
  constructor
  · rintro ⟨⟨s', u, hs', hu, hlisted⟩, -⟩ hst
    obtain ⟨rfl, rfl⟩ := hup.stranded hst
    rw [hs₁] at hs'
    cases hs'
    rw [waifs_putWaif_self] at hu
    cases hu
    obtain ⟨P, c, hP, -⟩ := (hlisted hst.1).list
    rw [hst.2.1] at hP
    cases hP
  · intro hst
    have hsync : (s₁.putWaif a w').db.valid w'.waifclass = true →
        Synced (s₁.putWaif a w') w' := fun hv =>
      hup.synced (by rw [← hup.waifclass, ← hup.generated.db]; exact hv) hst
    refine ⟨⟨_, w', hs₁, waifs_putWaif_self, fun hv => (hsync hv).listed hok₁.classes hok'⟩,
      fun name progr => ?_,
      fun name val progr hval => ?_, ?_⟩
    · obtain ⟨⟨err, v⟩, hr⟩ := getProp_total hok₁.classes hok' hsync name progr
      refine ⟨(err, v, s₁.putWaif a w'), ?_⟩
      rw [waifGetProp, hs₁, Option.bind_eq_bind, Option.bind_some, waifs_putWaif_self,
        Option.bind_eq_bind, Option.bind_some,
        hr]
      rfl
    · obtain ⟨r, hr⟩ :=
        putProp_total hok₁ waifs_putWaif_self hsync name progr fun b hb => hacc.nextWaif ▸ hval b hb
      refine ⟨r, ?_⟩
      rw [waifPutProp, hs₁, Option.bind_eq_bind, Option.bind_some, waifs_putWaif_self,
        Option.bind_eq_bind, Option.bind_some,
        hr]
    · obtain ⟨r, s', hr, -⟩ :=
        waifBytes_spec hok (hok.heap.within (hok.heap.lt hw)) (hok.heap.lt hw)
      exact ⟨_, hr⟩

theorem accessSafe_linked : linked.AccessSafe 0 :=
  (reachable_linked.accessSafe_iff (w := ((linked.waifs 0).get (by decide))) (by simp)).mpr fun h =>
    absurd h.2.1 (by decide)

/-! ## Two null pointers -/

/-- An object is recycled after a waif of it was made, the waif is read, and the number is used
again. -/
def strandedServer : Server :=
  next (.createObject 0) <| next .resetMaxObject <| next (.getProp 0 [97] 0) <|
    next (.destroyObject 1) <|
    next (.newWaif 1 0) <| next (.createObject 0) <| next (.createObject 0) start

theorem reachable_stranded : Reachable strandedServer := by
  have h₁ : Reachable start := .empty _ _
  have h₂ := (h₁.next (.createObject 0) trivial rfl).next (.createObject 0) trivial rfl
  have h₃ := h₂.next (.newWaif 1 0) (Db.valid_iff.mp (by decide)) (by decide)
  have h₄ := h₃.next (.destroyObject 1) ⟨_, rfl, rfl, rfl, rfl, rfl⟩ (by decide)
  have h₅ := h₄.next (.getProp 0 [97] 0) Nat.zero_lt_one (by decide)
  have h₆ := h₅.next .resetMaxObject ⟨0, Db.valid_iff.mp (by decide)⟩ (by decide)
  exact h₆.next (.createObject 0) trivial rfl

/-- The class is valid, and reading any property crashes. -/
theorem stranded_unsafe : ¬ ∀ s, Reachable s → ∀ a w, s.waifs a = some w → s.AccessSafe a := by
  intro hall
  obtain ⟨r, hr⟩ :=
    (hall strandedServer reachable_stranded 0 ((strandedServer.waifs 0).get (by decide))
      (by simp)).2.1 [97] 0
  have hcrash : (strandedServer.waifGetProp 0 [97] 0).isNone = true := by decide
  rw [hr] at hcrash
  cases hcrash

end Server

end NuMoo
