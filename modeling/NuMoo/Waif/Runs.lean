import NuMoo.Waif.Properties

/-!
# Runs

States are reached from the empty server by changes to objects and properties, the creation of
waifs and accesses to them, in any order.

Results:
1. `Ok`: the invariant of every reachable server.
2. `updateWaifPropdefs_spec`, `waifPutProp_ok`, `waifBytes_spec`, `newWaif_spec`: accesses keep it.
3. `Act.run_ok`, `Reachable.ok`: every step keeps it.
-/

namespace NuMoo

open Linked Packed Relation References

/-! ## Counting the bytes of a value -/

mutual

theorem Var.valueBytes_spec {σ : Type} {sub : Nat → σ → Option (Nat × σ)} {I : σ → Prop} :
    (v : Var) → (∀ a ∈ v.waifs, ∀ st, I st → ∃ r st', sub a st = some (r, st') ∧ I st') →
    ∀ st, I st →
      ∃ r st', Var.valueBytes sub v st = some (r, st') ∧ I st'
  | .list l, h, st, hI => by
    obtain ⟨r, st', hr, hI'⟩ := Var.valuesBytes_spec l h st hI
    exact ⟨16 + 16 + r, st', by rw [Var.valueBytes, hr]; rfl, hI'⟩
  | .waif a, h, st, hI => by
    obtain ⟨r, st', hr, hI'⟩ := h a (by simp [Var.waifs]) st hI
    exact ⟨16 + r, st', by rw [Var.valueBytes, hr]; rfl, hI'⟩
  | .str s, _, st, hI => ⟨16 + s.length + 1, st, by rw [Var.valueBytes], hI⟩
  | .float _, _, st, hI => ⟨16 + 8, st, by rw [Var.valueBytes], hI⟩
  | .int _, _, st, hI | .obj _, _, st, hI | .err _, _, st, hI | .clear, _, st, hI | .none, _, st, hI
  | .catch _, _, st, hI
  | .finally _, _, st, hI => ⟨16, st, by rw [Var.valueBytes], hI⟩

theorem Var.valuesBytes_spec {σ : Type} {sub : Nat → σ → Option (Nat × σ)} {I : σ → Prop} :
    (l : List Var) → (∀ a ∈ Var.waifsOf l, ∀ st, I st → ∃ r st', sub a st = some (r, st') ∧ I st') →
    ∀ st, I st →
      ∃ r st', Var.valuesBytes sub l st = some (r, st') ∧ I st'
  | [], _, st, hI => ⟨0, st, by rw [Var.valuesBytes], hI⟩
  | v :: l, h, st, hI => by
    obtain ⟨r, st₁, hr, hI₁⟩ :=
      Var.valueBytes_spec v (fun a ha => h a (by simp [Var.waifsOf, ha])) st hI
    obtain ⟨r', st₂, hr', hI₂⟩ :=
      Var.valuesBytes_spec l (fun a ha => h a (by simp [Var.waifsOf, ha])) st₁ hI₁
    exact ⟨r + r', st₂, by rw [Var.valuesBytes, hr, Option.bind_some, hr']; rfl, hI₂⟩

end

namespace Server

/-- The invariant of every reachable server. -/
structure Ok (s : Server) : Prop where
  classes : s.ClassesOk
  heap : s.HeapOk

variable {s s' : Server} {a : Nat} {w w' : Waif}

theorem ClassStep.ok (h : ClassStep s s') (hs : s.Ok) : s'.Ok := by
  have hrefers : s'.Refers = s.Refers := by
    funext x y
    rw [Refers, Refers, h.waifs]
  refine ⟨h.classes, fun x w hw => ?_, fun x => ?_, fun x y hxy => ?_, ?_⟩
  · rw [h.waifs] at hw
    exact (hs.heap.ok x w hw).of_lengths h.lengths
  · rw [h.waifs, h.nextWaif]
    exact hs.heap.alloc x
  · rw [h.nextWaif]
    exact hs.heap.closed x y (hrefers ▸ hxy)
  · rw [hrefers]
    exact hs.heap.acyclic

theorem ClassesOk.putWaif (h : s.ClassesOk) (a : Nat) (w : Waif) : (s.putWaif a w).ClassesOk :=
  ⟨h.inv, h.names, h.cached, h.inj, h.fresh⟩

theorem Generated.heap (h : Generated s s') (hs : s.Ok) : s'.HeapOk := by
  have hrefers : s'.Refers = s.Refers := by
    funext x y
    rw [Refers, Refers, h.waifs]
  refine ⟨fun x w hw => ?_, fun x => ?_, fun x y hxy => ?_, ?_⟩
  · rw [h.waifs] at hw
    exact (hs.heap.ok x w hw).of_generated hs.classes h
  · rw [h.waifs, h.nextWaif]
    exact hs.heap.alloc x
  · rw [h.nextWaif]
    exact hs.heap.closed x y (hrefers ▸ hxy)
  · rw [hrefers]
    exact hs.heap.acyclic

theorem waifs_putWaif_self : (s.putWaif a w).waifs a = some w := Function.update_self _ _ _

theorem waifs_putWaif_of_ne {x : Nat} (hx : x ≠ a) : (s.putWaif a w).waifs x = s.waifs x :=
  Function.update_of_ne hx _ _

/-- Replacing a waif by one that refers only to what it did before and to waifs that do not lead
back to it. -/
theorem HeapOk.put (h : s.HeapOk) (ha : a < s.nextWaif) (hw : WaifOk s w) {B : Nat → Prop}
    (hB : ∀ b, B b → b < s.nextWaif ∧ ¬ ReflTransGen s.Refers b a)
    (hvals : ∀ b ∈ Var.waifsOf w.vals, s.Refers a b ∨ B b) : (s.putWaif a w).HeapOk := by
  have hlink : ∀ x y, (s.putWaif a w).Refers x y → s.Refers x y ∨ x = a ∧ B y := by
    rintro x y ⟨wx, hwx, hy⟩
    by_cases hx : x = a
    · subst hx
      rw [waifs_putWaif_self] at hwx
      cases hwx
      exact (hvals y hy).imp_right fun h => ⟨rfl, h⟩
    · rw [waifs_putWaif_of_ne hx] at hwx
      exact .inl ⟨wx, hwx, hy⟩
  refine ⟨fun x wx hwx => ?_, fun x => ?_, fun x y hxy => ?_,
    h.acyclic.link hlink fun b hb => (hB b hb).2⟩
  · have hok : WaifOk s wx := by
      by_cases hx : x = a
      · subst hx
        rw [waifs_putWaif_self] at hwx
        cases hwx
        exact hw
      · rw [waifs_putWaif_of_ne hx] at hwx
        exact h.ok x wx hwx
    exact ⟨hok.map, hok.null, hok.vals⟩
  · by_cases hx : x = a
    · subst hx
      rw [waifs_putWaif_self]
      exact ⟨fun _ => ha, fun _ => rfl⟩
    · rw [waifs_putWaif_of_ne hx]
      exact h.alloc x
  · rcases hlink x y hxy with hxy | ⟨-, hy⟩
    · exact h.closed x y hxy
    · exact (hB y hy).1

/-! ## Updating -/

/-- What an access that stores nothing may change: waifs are brought up to date. -/
structure Accessed (s s' : Server) : Prop where
  db : s'.db = s.db
  nextWaif : s'.nextWaif = s.nextWaif
  refers : ∀ x y, s'.Refers x y → s.Refers x y

theorem Accessed.trans {s'' : Server} (h : Accessed s s') (h' : Accessed s' s'') : Accessed s s'' :=
  ⟨h'.db.trans h.db, h'.nextWaif.trans h.nextWaif, fun x y hxy => h.refers x y (h'.refers x y hxy)⟩

theorem waifsOf_updated {s₁ : Server} (hw : s.waifs a = some w) (h : Updated s s₁ w w') {b : Nat}
    (hb : b ∈ Var.waifsOf w'.vals) : s.Refers a b := by
  obtain ⟨v, hv, hbv⟩ := Var.mem_waifsOf.mp hb
  rcases h.vals v hv with hv | rfl
  · exact ⟨w, hw, Var.mem_waifsOf.mpr ⟨v, hv, hbv⟩⟩
  · cases hbv

/-- Updating a waif succeeds and keeps the invariant. -/
theorem updateWaifPropdefs_spec (h : s.Ok) (hw : s.waifs a = some w) :
    ∃ w' s₁, updatedWaif w s = some (w', s₁) ∧
    s.updateWaifPropdefs a = some (s₁.putWaif a w') ∧ Updated s s₁ w w' ∧ (s₁.putWaif a w').Ok ∧
    Accessed s (s₁.putWaif a w') := by
  obtain ⟨w', s₁, hrun, hup⟩ := updatedWaif_spec h.classes (h.heap.ok a w hw)
  have hheap := hup.generated.heap h
  have hrefers : ∀ x y, s₁.Refers x y ↔ s.Refers x y :=
    fun x y => by rw [Refers, Refers, hup.generated.waifs]
  have ha : a < s₁.nextWaif := hup.generated.nextWaif ▸ h.heap.lt hw
  have hvals : ∀ b ∈ Var.waifsOf w'.vals, s₁.Refers a b :=
    fun b hb => (hrefers a b).mpr (waifsOf_updated hw hup hb)
  refine ⟨w', s₁, hrun, ?_, hup,
    ⟨hup.classes.putWaif a w', hheap.put ha hup.ok (B := fun _ => False) (fun _ h => h.elim)
    fun b hb => .inl (hvals b hb)⟩, hup.generated.db, hup.generated.nextWaif, fun x y hxy => ?_⟩
  · rw [updateWaifPropdefs, hw, Option.bind_eq_bind, Option.bind_some, hrun]
    rfl
  · obtain ⟨wx, hwx, hy⟩ := hxy
    by_cases hx : x = a
    · subst hx
      rw [waifs_putWaif_self] at hwx
      cases hwx
      exact waifsOf_updated hw hup hy
    · rw [waifs_putWaif_of_ne hx] at hwx
      exact (hrefers x y).mp ⟨wx, hwx, hy⟩

/-! ## Accesses -/

theorem waifGetProp_ok {name : Str} {progr : Objid} {err : ErrCode} {v : Var} (h : s.Ok)
    (hw : s.waifs a = some w)
    (hrun : s.waifGetProp a name progr = some (err, v, s')) : s'.Ok ∧ Accessed s s' := by
  obtain ⟨w', s₁, -, hs₁, -, hok, hacc⟩ := updateWaifPropdefs_spec h hw
  simp only [waifGetProp, hs₁, Option.bind_eq_bind, Option.bind_some,
    Option.bind_eq_some_iff] at hrun
  obtain ⟨w₁, -, r, -, hrun⟩ := hrun
  cases hrun
  exact ⟨hok, hacc⟩

/-- `find_propval_offset` on a null list. -/
theorem findPropvalOffset_null (hP : w.propdefs = none) (name : Str) :
    s.findPropvalOffset w name = none := by
  rw [findPropvalOffset, propdefsOf, hP]
  rfl

/-- What storing through an updated waif can do: nothing with an error, or change one property of
the waif to a value that does not lead to the waif. -/
theorem putProp_cases {name : Str} {val : Var} {progr : Objid} {err : ErrCode} (h : s.Ok)
    (hw : s.waifs a = some w)
    (hsync : s.db.valid w.waifclass = true → w.propdefs = none ∨ Synced s w)
    (hval : ∀ b ∈ val.waifs, b < s.nextWaif)
    (hrun : s.putProp a w name val progr = some (err, s')) :
    (err ≠ .E_NONE ∧ s' = s) ∨
      (err = .E_NONE ∧ s.db.valid w.waifclass = true ∧ Synced s w ∧
        (∀ b ∈ val.waifs, ¬ ReflTransGen s.Refers b a) ∧
        ∃ i own hd pv v w', HasProperty s w name i own hd pv v ∧ Stored s w w' i val ∧
        s' = s.putWaif a w') := by
  by_cases hname : reserved name
  · rw [putProp] at hrun
    rcases hname with hname | hname | hname
    all_goals
      simp only [hname, true_or, or_true, if_true] at hrun
      repeat' split at hrun
      all_goals
        cases hrun
        exact .inl ⟨by decide, rfl⟩
  by_cases hv : s.db.valid w.waifclass = true
  swap
  · simp only [reserved, not_or] at hname
    simp only [putProp, hname.1, hname.2.1, hname.2.2, or_self, if_false, hv, Bool.not_false,
      if_true] at hrun
    cases hrun
    exact .inl ⟨by decide, rfl⟩
  rcases hsync hv with hnull | hsync
  · simp only [reserved, not_or] at hname
    simp only [putProp, hname.1, hname.2.1, hname.2.2, or_self, if_false, hv, Bool.not_true,
      Bool.false_eq_true,
      findPropvalOffset_null hnull, Option.bind_eq_bind, Option.bind_none] at hrun
    cases hrun
  have hok := h.heap.ok a w hw
  rcases hasProperty_or h.classes hok hsync name with ⟨-, hnone, -⟩ | ⟨i, own, hd, pv, v, hp⟩
  · simp only [reserved, not_or] at hname
    simp only [putProp, hname.1, hname.2.1, hname.2.2, or_self, if_false, hv, Bool.not_true,
      Bool.false_eq_true, hnone,
      Option.bind_eq_bind, Option.bind_some] at hrun
    cases hrun
    exact .inl ⟨by decide, rfl⟩
  · obtain ⟨b, href, hfree⟩ := refersTo_spec h.heap a hval
    obtain ⟨w', hst, hput⟩ := putProp_spec progr hname hv hok hp href
    rw [hput] at hrun
    split at hrun
    · cases b with
      | true =>
        cases hrun
        exact .inl ⟨by decide, rfl⟩
      | false =>
        cases hrun
        exact .inr ⟨rfl, hv, hsync, hfree rfl, i, own, hd, pv, v, w', hp, hst, rfl⟩
    · cases hrun
      exact .inl ⟨by decide, rfl⟩

theorem putProp_ok {name : Str} {val : Var} {progr : Objid} {err : ErrCode} (h : s.Ok)
    (hw : s.waifs a = some w)
    (hsync : s.db.valid w.waifclass = true → w.propdefs = none ∨ Synced s w)
    (hval : ∀ b ∈ val.waifs, b < s.nextWaif)
    (hrun : s.putProp a w name val progr = some (err, s')) : s'.Ok := by
  rcases putProp_cases h hw hsync hval hrun with ⟨-, rfl⟩ | ⟨-, -, -, hfree, i, own, hd, pv, v,
    w', -, hst, rfl⟩
  · exact h
  · refine ⟨h.classes.putWaif a w', h.heap.put (h.heap.lt hw) hst.ok (B := fun b => b ∈ val.waifs)
      (fun b hb => ⟨hval b hb, hfree b hb⟩) fun b hb => ?_⟩
    obtain ⟨u, hu, hbu⟩ := Var.mem_waifsOf.mp hb
    rcases hst.vals u hu with hu | rfl | rfl
    · exact .inl ⟨w, hw, Var.mem_waifsOf.mpr ⟨u, hu, hbu⟩⟩
    · exact .inr hbu
    · cases hbu

/-- An updated waif of a valid class has no list or the list of its class. -/
theorem Updated.null_or_synced {s₁ : Server} (h : Updated s s₁ w w') :
    (s₁.putWaif a w').db.valid w'.waifclass = true → w'.propdefs = none ∨
      Synced (s₁.putWaif a w') w' := by
  intro hv
  have hv' : s.db.valid w.waifclass = true := by
    rw [← h.waifclass, ← h.generated.db]
    exact hv
  by_cases hst : Stranded s w
  · obtain ⟨rfl, -⟩ := h.stranded hst
    exact .inl hst.2.1
  · exact .inr (h.synced hv' hst)

theorem waifPutProp_ok {name : Str} {val : Var} {progr : Objid} {err : ErrCode} (h : s.Ok)
    (hw : s.waifs a = some w)
    (hval : ∀ b ∈ val.waifs, b < s.nextWaif)
    (hrun : s.waifPutProp a name val progr = some (err, s')) : s'.Ok := by
  obtain ⟨w', s₁, -, hs₁, hup, hok, hacc⟩ := updateWaifPropdefs_spec h hw
  simp only [waifPutProp, hs₁, Option.bind_eq_bind, Option.bind_some, waifs_putWaif_self] at hrun
  exact putProp_ok hok waifs_putWaif_self hup.null_or_synced (fun b hb =>
    hacc.nextWaif ▸ hval b hb) hrun

/-- Counting the bytes of a waif ends. -/
theorem waifBytes_spec {n : Nat} (h : s.Ok) (hn : Within s.Refers n a) (ha : a < s.nextWaif) :
    ∃ r s', waifBytes n a s = some (r, s') ∧ s'.Ok ∧ Accessed s s' := by
  induction n generalizing s a with
  | zero => cases hn
  | succ n ih =>
    cases hn with
    | intro hsub =>
      obtain ⟨w, hw⟩ := h.heap.exists ha
      obtain ⟨w', s₁, -, hs₁, hup, hok, hacc⟩ := updateWaifPropdefs_spec h hw
      have hok' := hok.heap.ok a w' waifs_putWaif_self
      obtain ⟨r, s', hr, hok'', hacc'⟩ :=
        Var.valuesBytes_spec (I := fun s' => s'.Ok ∧ Accessed s s')
        w'.vals.reverse (fun b hb st hst => by
          obtain ⟨v, hv, hbv⟩ := Var.mem_waifsOf.mp hb
          have hab : s.Refers a b :=
            waifsOf_updated hw hup (Var.mem_waifsOf.mpr ⟨v, List.mem_reverse.mp hv, hbv⟩)
          obtain ⟨r, st', hr, hok, hacc⟩ := ih hst.1 ((hsub b hab).mono hst.2.refers)
            (hst.2.nextWaif ▸ h.heap.closed a b hab)
          exact ⟨r, st', hr, hok, hst.2.trans hacc⟩) _ ⟨hok, hacc⟩
      refine ⟨56 + r, s', ?_, hok'', hacc'⟩
      simp only [waifBytes, hs₁, Option.bind_eq_bind, Option.bind_some, waifs_putWaif_self,
        hok'.count, Nat.le_refl, if_true,
        List.take_length, hr, Option.map_some]

/-! ## Creation -/

/-- A new waif is in step with its class, and every property of it is clear. -/
theorem newWaif_spec (h : s.Ok) {waifclass owner : Objid} {o : Object}
    (ho : s.db.find waifclass = some o) :
    ∃ w s', s.newWaif waifclass owner = some (s.nextWaif, s') ∧ s'.Ok ∧
      s'.waifs s.nextWaif = some w ∧
      w.waifclass = waifclass ∧ Synced s' w ∧ ∀ v ∈ w.vals, v = .clear := by
  obtain ⟨P, s₁, hs₁, hc, hg, hP⟩ := classPropdefs_spec h.classes ho
  obtain ⟨⟨o', ho'⟩, hdefs⟩ := hc.cached _ P hP
  obtain ⟨c, hch⟩ := Db.exists_chain hc.inv.kin ho'
  let w₀ : Waif := ⟨waifclass, owner, some P, none, fun _ => 0⟩
  have halloc := allocWaifPropvals_eq (s := s₁) (w := w₀) .zero rfl (hdefs c hch)
  let n := room w₀.map (s₁.defsOn c).length
  let w : Waif := { w₀ with propvals := if n = 0 then none else some (List.replicate n .clear) }
  have hvals : w.vals = List.replicate n .clear := by
    rw [Waif.vals]
    show (if n = 0 then none else some (List.replicate n Var.clear)).getD [] = _
    split
    · next h0 => rw [h0]; rfl
    · rfl
  have hw : WaifOk s₁ w := by
    refine ⟨.zero, fun h => (Option.some_ne_none P h).elim, fun Q hQ => ?_⟩
    cases hQ
    exact ⟨_, hdefs c hch, by rw [hvals, List.length_replicate]⟩
  let s' : Server := { s₁.putWaif s₁.nextWaif w with nextWaif := s₁.nextWaif + 1 }
  have hheap := hg.heap h
  -- the new waif refers to none, its values being clear, and none refers to it
  have hrefers : ∀ x y, s'.Refers x y → s₁.Refers x y := by
    rintro x y ⟨wx, hwx, hy⟩
    by_cases hx : x = s₁.nextWaif
    · subst hx
      rw [show s'.waifs s₁.nextWaif = some w from Function.update_self _ _ _] at hwx
      cases hwx
      obtain ⟨v, hv, hyv⟩ := Var.mem_waifsOf.mp hy
      rw [hvals] at hv
      rw [List.eq_of_mem_replicate hv] at hyv
      cases hyv
    · rw [show s'.waifs x = s₁.waifs x from Function.update_of_ne hx _ _] at hwx
      exact ⟨wx, hwx, hy⟩
  refine ⟨w, s', ?_, ⟨⟨hc.inv, hc.names, hc.cached, hc.inj, hc.fresh⟩, fun x wx hwx => ?_,
    fun x => ?_, fun x y hxy => ?_,
    hheap.acyclic.mono hrefers⟩, ?_, rfl, ⟨P, rfl, hP⟩, fun v hv =>
      List.eq_of_mem_replicate (hvals ▸ hv)⟩
  · simp only [newWaif, ho, hs₁, Option.bind_eq_bind, Option.bind_some]
    rw [show s₁.allocWaifPropvals ⟨waifclass, owner, some P, none, fun _ => 0⟩ =
      _ from halloc, ← hg.nextWaif]
    rfl
  · have hok : WaifOk s₁ wx := by
      by_cases hx : x = s₁.nextWaif
      · subst hx
        rw [show s'.waifs s₁.nextWaif = some w from Function.update_self _ _ _] at hwx
        cases hwx
        exact hw
      · rw [show s'.waifs x = s₁.waifs x from Function.update_of_ne hx _ _] at hwx
        exact hheap.ok x wx hwx
    exact ⟨hok.map, hok.null, hok.vals⟩
  · by_cases hx : x = s₁.nextWaif
    · subst hx
      rw [show s'.waifs s₁.nextWaif = some w from Function.update_self _ _ _]
      exact ⟨fun _ => Nat.lt_succ_self _, fun _ => rfl⟩
    · rw [show s'.waifs x = s₁.waifs x from Function.update_of_ne hx _ _, hheap.alloc x]
      show x < s₁.nextWaif ↔ x < s₁.nextWaif + 1
      omega
  · exact Nat.lt_succ_of_lt (hheap.closed x y (hrefers x y hxy))
  · rw [← hg.nextWaif]
    exact Function.update_self _ _ _

/-! ## Runs -/

/-- The steps. `other` is any operation that concerns neither the parents nor the definitions of
objects: on values, permissions, owners, flags, verbs and locations. -/
inductive Act where
  | createObject (junk : Objid)
  | destroyObject (oid : Objid)
  | changeParent (oid parent : Objid)
  | renumberObject (oid : Objid)
  | resetMaxObject
  | addPropdef (oid : Objid) (pname : Nat) (value : Var) (owner : Objid) (flags : UInt16)
  | renamePropdef (oid : Objid) (old : Str) (newbie : Nat)
  | deletePropdef (oid : Objid) (pname : Str)
  | other (db : Db)
  | newWaif (waifclass owner : Objid)
  | getProp (a : Nat) (name : Str) (progr : Objid)
  | putProp (a : Nat) (name : Str) (val : Var) (progr : Objid)
  | bytes (a : Nat)

namespace Act

/-- Perform a step. -/
def run (act : Act) (s : Server) : Option Server :=
  match act with
  | createObject junk => some (s.dbCreateObject junk)
  | destroyObject oid => s.dbDestroyObject oid
  | changeParent oid parent => s.dbChangeParent oid parent
  | renumberObject oid => s.dbRenumberObject oid
  | resetMaxObject => s.db.dbResetLastUsedObjid.map fun db => { s with db }
  | addPropdef oid pname value owner flags => s.dbAddPropdef oid pname value owner flags
  | renamePropdef oid old newbie => s.dbRenamePropdef oid old newbie
  | deletePropdef oid pname => s.dbDeletePropdef oid pname
  | other db => some { s with db }
  | newWaif waifclass owner => (s.newWaif waifclass owner).map Prod.snd
  | getProp a name progr => (s.waifGetProp a name progr).map fun r => r.2.2
  | putProp a name val progr => (s.waifPutProp a name val progr).map Prod.snd
  | bytes a => (s.waifBytes s.nextWaif a).map Prod.snd

/-- What the callers of an operation have checked; a waif that is passed exists. -/
def Allowed (act : Act) (s : Server) : Prop :=
  match act with
  | createObject _ => True
  | destroyObject oid => ∃ o, s.db.find oid = some o ∧ o.location = NOTHING ∧ o.contents = NOTHING ∧
      o.parent = NOTHING ∧ o.child = NOTHING
  | changeParent oid parent =>
    (∃ o, s.db.find oid = some o) ∧ (parent = NOTHING ∨ ∃ p, s.db.find parent = some p) ∧
      ¬ (s.db.links kin).Below oid parent
  | renumberObject oid => ∃ o, s.db.find oid = some o
  | resetMaxObject => ∃ oid o, s.db.find oid = some o
  | addPropdef oid _ value _ _ => (∃ o, s.db.find oid = some o) ∧ value ≠ .clear
  | renamePropdef oid _ _ => ∃ o, s.db.find oid = some o
  | deletePropdef oid _ => ∃ o, s.db.find oid = some o
  | other db => db.Inv ∧ db.parentOf = s.db.parentOf ∧ db.propdefsOf = s.db.propdefsOf
  | newWaif waifclass _ => ∃ o, s.db.find waifclass = some o
  | getProp a _ _ => a < s.nextWaif
  | putProp a _ val _ => a < s.nextWaif ∧ val ≠ .clear ∧ ∀ b ∈ val.waifs, b < s.nextWaif
  | bytes a => a < s.nextWaif

/-- Every step keeps the invariant. -/
theorem run_ok {act : Act} (h : s.Ok) (ha : act.Allowed s) (hrun : act.run s = some s') :
    s'.Ok := by
  -- a change of the classes leaves every waif as it can be
  have hstep : ∀ {r : Option Server}, (∃ s', r = some s' ∧ ClassStep s s') →
      r = some s' → s'.Ok := by
    rintro r ⟨s₁, rfl, hs₁⟩ hr
    cases hr
    exact hs₁.ok h
  cases act with
  | createObject junk =>
    cases hrun
    exact (createObject_step h.classes junk).ok h
  | destroyObject oid =>
    obtain ⟨o, ho, hloc, hcont, hpar, hch⟩ := ha
    exact hstep (destroyObject_step h.classes ho hloc hcont hpar hch) hrun
  | changeParent oid parent =>
    obtain ⟨⟨o, ho⟩, hp, hacyc⟩ := ha
    exact hstep (changeParent_step h.classes ho hp hacyc) hrun
  | renumberObject oid =>
    obtain ⟨o, ho⟩ := ha
    exact hstep (renumberObject_step h.classes ho) hrun
  | resetMaxObject =>
    obtain ⟨oid, o, ho⟩ := ha
    obtain ⟨db', hdb, hfind, -, -, hpid⟩ := Db.resetLastUsedObjid_spec ho
    simp only [run, hdb, Option.map_some] at hrun
    cases hrun
    refine (other_step h.classes (h.classes.inv.of_find hfind hpid.ge) ?_ ?_).ok h
    · funext x
      rw [Db.parentOf, Links.up, Db.links, hfind]
      rfl
    · funext x
      rw [Db.propdefsOf, hfind, Db.propdefsOf]
  | addPropdef oid pname value owner flags =>
    obtain ⟨⟨o, ho⟩, hv⟩ := ha
    exact hstep (addPropdef_step h.classes ho pname hv owner flags) hrun
  | renamePropdef oid old newbie =>
    obtain ⟨o, ho⟩ := ha
    exact hstep (renamePropdef_step h.classes ho old newbie) hrun
  | deletePropdef oid pname =>
    obtain ⟨o, ho⟩ := ha
    exact hstep (deletePropdef_step h.classes ho pname) hrun
  | other db =>
    cases hrun
    exact (other_step h.classes ha.1 ha.2.1 ha.2.2).ok h
  | newWaif waifclass owner =>
    obtain ⟨o, ho⟩ := ha
    obtain ⟨w, s₁, hs₁, hok, -⟩ := @newWaif_spec s h waifclass owner o ho
    simp only [run, hs₁, Option.map_some] at hrun
    cases hrun
    exact hok
  | getProp a name progr =>
    obtain ⟨w, hw⟩ := h.heap.exists ha
    obtain ⟨⟨err, v, s₁⟩, hr, hrun⟩ := Option.map_eq_some_iff.mp hrun
    cases hrun
    exact (waifGetProp_ok h hw hr).1
  | putProp a name val progr =>
    obtain ⟨hlt, -, hval⟩ := ha
    obtain ⟨w, hw⟩ := h.heap.exists hlt
    obtain ⟨⟨err, s₁⟩, hr, hrun⟩ := Option.map_eq_some_iff.mp hrun
    cases hrun
    exact waifPutProp_ok h hw hval hr
  | bytes a =>
    obtain ⟨r, s₁, hr, hok, -⟩ := waifBytes_spec h (h.heap.within ha) ha
    simp only [run, hr, Option.map_some] at hrun
    cases hrun
    exact hok

end Act

/-- The server without objects and waifs. -/
def empty (text : Nat → Str) (waifBits : Nat → UInt64) : Server :=
  ⟨.empty, fun _ => 0, fun _ => none, fun _ => none, 0, fun _ => none, 0, text, waifBits⟩

theorem empty_ok (text : Nat → Str) (waifBits : Nat → UInt64) : (empty text waifBits).Ok := by
  refine ⟨⟨Db.inv_empty, fun x p hp => ?_, fun x P h => (by cases h), fun x y P h => (by cases h),
    fun _ _ => rfl⟩,
    fun a w h => (by cases h), fun a => ?_, ?_, ?_⟩
  · rw [Db.propdefsOf, show (empty text waifBits).db.find x = none from Db.find_empty x] at hp
    cases hp
  · exact ⟨fun h => (by cases h), fun h => (by cases h)⟩
  · rintro a b ⟨w, hw, -⟩
    cases hw
  · intro a ha
    obtain ⟨b, hab, -⟩ := TransGen.head'_iff.mp ha
    obtain ⟨w, hw, -⟩ := hab
    cases hw

/-- Servers reachable from an empty one by allowed steps in any order. -/
inductive Reachable : Server → Prop
  | empty (text : Nat → Str) (waifBits : Nat → UInt64) : Reachable (empty text waifBits)
  | step {s s' : Server} (act : Act) : Reachable s → act.Allowed s →
      act.run s = some s' → Reachable s'

/-- The invariant holds in every reachable server. -/
theorem Reachable.ok (h : Reachable s) : s.Ok := by
  induction h with
  | empty text waifBits => exact empty_ok text waifBits
  | step act _ ha hrun ih => exact act.run_ok ih ha hrun

end Server

end NuMoo
