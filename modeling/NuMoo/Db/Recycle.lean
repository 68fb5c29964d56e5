import NuMoo.Db.Lookup

/-!
# Recycling

`bf_recycle` from each of its entries. The state that it keeps while a verb runs is an object
number, so an entry is a function of that number and of whatever database it then finds.

Results:
1. `recycleContents_spec`, `recycleChildren_spec`: both loops end, and every child is handed over.
2. `bfRecycleToDestroy_spec`: the object that reaches `db_destroy_object` is a barren orphan.
3. `bfRecycle1_spec`, `bfRecycle2_spec`: nothing panics, and the invariant holds again.
-/

namespace NuMoo

open Linked

namespace Db

variable {db : Db} {oid : Objid} {o : Object}

/-- The operation succeeds on `db`, in a database that satisfies the invariant. -/
def Good {α : Type} (db : Db) (r : Option (α × Db)) : Prop :=
  ∃ a db', r = some (a, db') ∧ db'.Inv ∧ db.Undisturbed db'

theorem Good.intro {α : Type} {a : α} (hi : db.Inv) : db.Good (some (a, db)) :=
  ⟨a, db, rfl, hi, .refl db⟩

/-- An operation that has turned `db` into `db'` goes on from there. -/
theorem Good.next {α : Type} {db' : Db} {r : Option (α × Db)} (hu : db.Undisturbed db')
    (h : db'.Good r) : db.Good r := by
  obtain ⟨a, db'', hr, hi, hu'⟩ := h
  exact ⟨a, db'', hr, hi, hu.trans hu'⟩

theorem not_below_nothing {F : LinkFields} {x : Objid} : ¬ (db.links F).Below x NOTHING := by
  intro h
  have := h.isSome.2
  rw [links_nothing] at this
  cases this

/-! ## The loops -/

/-- The loop of `bf_recycle` over the children, with what each `db_change_parent` returns. -/
def recycleChildrenResults (oid : Objid) : Nat → Db → Option (List Bool × Db)
  | 0, _ => none
  | n + 1, db => do
    let o ← db.find oid
    if o.child = NOTHING then return ([], db)
    let (changed, db) ← db.dbChangeParent o.child o.parent
    let (results, db) ← recycleChildrenResults oid n db
    return (changed :: results, db)

/-- `bf_recycle` from `moving_contents` up to `db_destroy_object`: a verb call or the end of the
function, or what `db_change_parent` has returned for each child and for the object, and the
database that is left. -/
def bfRecycleToDestroy (oid progr : Objid) (call : CallVerb) (db : Db) :
    Option ((Package ⊕ List Bool) × Db) := do
  if !db.valid oid then return (.inl .noVar, db)
  let (called, db) ← db.recycleContents oid call db.bound
  if called then return (.inl (.call (.recycle oid progr)), db)
  let o ← db.find oid
  let (called, db) ← (if o.location ≠ NOTHING then db.moveToNothing oid call else some (false, db))
  if called then return (.inl (.call (.recycle oid progr)), db)
  let (results, db) ← db.recycleChildrenResults oid db.bound
  let (changed, db) ← db.dbChangeParent oid NOTHING
  return (.inr (results ++ [changed]), db)

/-- An object that `db_destroy_object` accepts. -/
def BarrenOrphan (db : Db) (oid : Objid) : Prop :=
  ∃ o, db.find oid = some o ∧ o.location = NOTHING ∧ o.contents = NOTHING ∧ o.parent = NOTHING ∧
    o.child = NOTHING

theorem moveToNothing_spec (hi : db.Inv) (ho : db.find oid = some o) (call : CallVerb) :
    ∃ called db', db.moveToNothing oid call = some (called, db') ∧ db'.Inv ∧
      Links.Reparented (db.links NuMoo.place) (db'.links NuMoo.place) oid NOTHING ∧
      SameBut NuMoo.place db db' := by
  obtain ⟨db', h, hi', hr, hs⟩ := hi.changeLocation ho (.inl rfl) not_below_nothing
  exact ⟨call o.location .exitfunc == .E_NONE, db', by simp [moveToNothing, ho, h], hi', hr, hs⟩

/-- The loop over the contents ends: each turn takes one object out. -/
theorem recycleContents_spec (call : CallVerb) {n : Nat} {l : List Objid} (hi : db.Inv)
    (ho : db.find oid = some o)
    (hl : Chain (db.links NuMoo.place).next NOTHING o.contents l)
    (hmem : ∀ x, x ∈ l ↔ (db.links NuMoo.place).up x = some oid) (hn : l.length < n) :
    ∃ called db', db.recycleContents oid call n = some (called, db') ∧ db'.Inv ∧
      SameBut NuMoo.place db db' ∧
      (called = false → ∀ x, (db'.links NuMoo.place).up x ≠ some oid) := by
  induction n generalizing db o l with
  | zero => simp at hn
  | succ n ih =>
    simp only [recycleContents, ho, Option.bind_eq_bind, Option.bind_some]
    by_cases hc : o.contents = NOTHING
    · refine ⟨false, db, if_pos hc, hi, .refl db, fun _ => ?_⟩
      exact (hi.place.head_eq_nil_iff (links_eq ho)).mp hc
    · have hup := (hmem _).mp (hl.head_mem hc)
      obtain ⟨cc, hcc, -⟩ := Links.exists_of_up_eq hup
      obtain ⟨oc, hoc, -⟩ := exists_of_links hcc
      obtain ⟨called, db₁, h₁, hi₁, hr₁, hs₁⟩ := moveToNothing_spec hi hoc call
      rw [if_neg hc]
      simp only [h₁, Option.bind_some]
      cases called with
      | true => exact ⟨true, db₁, rfl, hi₁, hs₁, fun h => Bool.noConfusion h⟩
      | false =>
        obtain ⟨o₁, ho₁, -⟩ := hs₁.exists_find ho
        obtain ⟨l₁, hl₁, hmem₁⟩ := hi₁.place.kids oid _ (links_eq ho₁)
        have hlt := hr₁.length_lt hup (fun h => by rw [← h, find_nothing] at ho; cases ho)
          hl₁.nodup hmem hmem₁
        obtain ⟨called, db', h', hi', hs', hnone⟩ := ih hi₁ ho₁ hl₁ hmem₁ (by omega)
        exact ⟨called, db', h', hi', hs₁.trans hs', hnone⟩

theorem recycleChildren_eq (n : Nat) (db : Db) :
    db.recycleChildren oid n = (db.recycleChildrenResults oid n).map Prod.snd := by
  induction n generalizing db with
  | zero => rfl
  | succ n ih =>
    rw [recycleChildren, recycleChildrenResults]
    cases ho : db.find oid with
    | none => rfl
    | some o =>
      simp only [Option.bind_eq_bind, Option.bind_some]
      split
      · rfl
      · cases hp : db.dbChangeParent o.child o.parent with
        | none => rfl
        | some r =>
          simp only [Option.bind_some, ih]
          cases r.2.recycleChildrenResults oid n <;> rfl

/-- The loop over the children ends: each turn gives one child to the grandparent, who takes it. -/
theorem recycleChildren_spec {n : Nat} {l : List Objid} (hi : db.Inv) (ho : db.find oid = some o)
    (hl : Chain (db.links NuMoo.kin).next NOTHING o.child l)
    (hmem : ∀ x, x ∈ l ↔ db.parentOf x = some oid) (hn : l.length < n) :
    ∃ results db', db.recycleChildrenResults oid n = some (results, db') ∧
      (∀ b ∈ results, b = true) ∧ db'.Inv ∧
      db.Undisturbed db' ∧
      db'.links NuMoo.place = db.links NuMoo.place ∧ ∀ x, db'.parentOf x ≠ some oid := by
  induction n generalizing db o l with
  | zero => simp at hn
  | succ n ih =>
    simp only [recycleChildrenResults, ho, Option.bind_eq_bind, Option.bind_some]
    by_cases hc : o.child = NOTHING
    · refine ⟨[], db, if_pos hc, by simp, hi, .refl db, rfl, ?_⟩
      exact (hi.kin.head_eq_nil_iff (links_eq ho)).mp hc
    · have hup := (hmem _).mp (hl.head_mem hc)
      obtain ⟨oc, hoc, -⟩ := exists_of_parentOf hup
      have hp : o.parent = NOTHING ∨ ∃ op, db.find o.parent = some op := by
        by_cases hpn : o.parent = NOTHING
        · exact .inl hpn
        · obtain ⟨c, hc⟩ := hi.kin.up_isSome (links_eq ho) hpn
          obtain ⟨op, hop, -⟩ := exists_of_links hc
          exact .inr ⟨op, hop⟩
      have hacyc : ¬ (db.links NuMoo.kin).Below o.child o.parent := fun hb =>
        hi.kin.not_below_child hup (hb.of_up (parentOf_eq ho))
      obtain ⟨b, db₁, h₁, hi₁, hplace₁, htrue, hfalse⟩ := hi.changeParent hoc hp hacyc
      rw [if_neg hc]
      simp only [h₁, Option.bind_some]
      cases b with
      | false =>
        -- The check cannot fail: the names of the grandparent are on the chain already.
        obtain ⟨-, lnew, hnew, hclash⟩ := hfalse rfl
        have hchain : Chain db.parentOf NOTHING o.child (o.child :: ([oid] ++ lnew)) := by
          refine .step hc hup (.step ?_ (parentOf_eq ho) hnew)
          rintro rfl
          rw [find_nothing] at ho
          cases ho
        exact absurd (hi.layout.noClash hchain) hclash
      | true =>
        have hr₁ := htrue rfl
        obtain ⟨o₁, ho₁⟩ : ∃ o₁, db₁.find oid = some o₁ := by
          refine Option.isSome_iff_exists.mp ?_
          rw [← links_isSome (F := NuMoo.kin), hr₁.isSome, links_isSome, ho]
          rfl
        obtain ⟨l₁, hl₁, hmem₁⟩ := hi₁.kin.kids oid _ (links_eq ho₁)
        have hne : o.parent ≠ oid := by
          intro h
          refine hi.kin.not_below_child (x := oid) (y := oid) ?_ (.refl (links_eq ho))
          exact (parentOf_eq ho).trans (congrArg some h)
        have hlt := hr₁.length_lt hup hne hl₁.nodup hmem hmem₁
        obtain ⟨results, db', h', hall, hi', hu', hplace', hnone⟩ := ih hi₁ ho₁ hl₁ hmem₁ (by omega)
        refine ⟨true :: results, db', by rw [h']; rfl, by simpa using hall, hi', ?_⟩
        exact ⟨(hi.changeParent_undisturbed hoc hp hacyc h₁).trans hu',
          hplace'.trans hplace₁, hnone⟩

/-- The object that reaches `db_destroy_object` is a barren orphan, and every `db_change_parent` on
the way has succeeded. -/
theorem bfRecycleToDestroy_spec (hi : db.Inv) (oid progr : Objid) (call : CallVerb) :
    ∃ r db', db.bfRecycleToDestroy oid progr call = some (r, db') ∧ db'.Inv ∧ db.Undisturbed db' ∧
      ∀ results, r = .inr results → (∀ b ∈ results, b = true) ∧ db'.BarrenOrphan oid := by
  unfold bfRecycleToDestroy
  by_cases hv : db.valid oid = true
  swap
  · simp only [hv, Bool.not_false, if_true]
    exact ⟨_, _, rfl, hi, .refl db, fun _ h => absurd h Sum.inl_ne_inr⟩
  obtain ⟨o, ho⟩ := valid_iff.mp hv
  obtain ⟨l, hl, hmem⟩ := hi.place.kids oid _ (links_eq ho)
  have hlen : l.length < db.bound := links_bound db NuMoo.place l hl.nodup fun y hy => by
    have := hl.next_isSome_of_mem hy
    simpa [Links.next, Option.isSome_map] using this
  -- the contents leave one by one, and each may call `exitfunc'
  obtain ⟨called, db₁, h₁, hi₁, hs₁, hnone₁⟩ := recycleContents_spec call hi ho hl hmem hlen
  simp only [hv, h₁, Option.bind_eq_bind, Option.bind_some, Bool.not_true,
    Bool.false_eq_true, if_false]
  have hu₁ : db.Undisturbed db₁ := hs₁.undisturbed fun _ => rfl
  cases called with
  | true => exact ⟨_, _, rfl, hi₁, hu₁, fun _ h => absurd h Sum.inl_ne_inr⟩
  | false =>
    have hnone₁ := hnone₁ rfl
    obtain ⟨o₁, ho₁, -⟩ := hs₁.exists_find ho
    -- then the object leaves its own location
    obtain ⟨called, db₂, h₂, hi₂, hu₂, ho₂, hnone₂, hup₂⟩ :
        ∃ called db₂, (if o₁.location ≠ NOTHING then
        db₁.moveToNothing oid call else some (false, db₁)) = some (called, db₂) ∧ db₂.Inv ∧
        db₁.Undisturbed db₂ ∧
        (∃ o₂, db₂.find oid = some o₂) ∧ (∀ x, (db₂.links NuMoo.place).up x ≠ some oid) ∧
        (db₂.links NuMoo.place).up oid = some NOTHING := by
      by_cases hloc : o₁.location = NOTHING
      · refine ⟨false, db₁, if_neg (not_not.mpr hloc), hi₁, .refl db₁, ⟨o₁, ho₁⟩, hnone₁, ?_⟩
        exact (Links.up_eq (links_eq ho₁)).trans (congrArg some hloc)
      · obtain ⟨called, db₂, h₂, hi₂, hr₂, hs₂⟩ := moveToNothing_spec hi₁ ho₁ call
        obtain ⟨o₂, ho₂, -⟩ := hs₂.exists_find ho₁
        have hu₂ : db₁.Undisturbed db₂ := hs₂.undisturbed fun _ => rfl
        refine ⟨called, db₂, by rw [if_pos hloc, h₂], hi₂, hu₂, ⟨o₂, ho₂⟩, fun x => ?_, ?_⟩
        · rw [hr₂.up]
          by_cases hx : x = oid
          · subst hx
            simp only [if_true, links_eq ho₁, Option.map_some]
            intro h
            rw [← Option.some.inj h, find_nothing] at ho₁
            cases ho₁
          · simpa [hx] using hnone₁ x
        · rw [hr₂.up]
          simp [links_eq ho₁]
    simp only [ho₁, h₂, Option.bind_some]
    have hu₂ := hu₁.trans hu₂
    cases called with
    | true => exact ⟨_, _, rfl, hi₂, hu₂, fun _ h => absurd h Sum.inl_ne_inr⟩
    | false =>
      obtain ⟨o₂, ho₂⟩ := ho₂
      obtain ⟨lk, hlk, hmemk⟩ := hi₂.kin.kids oid _ (links_eq ho₂)
      have hlenk : lk.length < db₂.bound := links_bound db₂ NuMoo.kin lk hlk.nodup fun y hy => by
        have := hlk.next_isSome_of_mem hy
        simpa [Links.next, Option.isSome_map] using this
      -- its children go to its parent, and last it leaves that parent
      obtain ⟨results, db₃, h₃, hall, hi₃, hu₃, hplace₃, hnone₃⟩ :=
        recycleChildren_spec hi₂ ho₂ hlk hmemk hlenk
      obtain ⟨o₃, ho₃⟩ : ∃ o₃, db₃.find oid = some o₃ := by
        refine exists_find_of_links (F := NuMoo.place) ?_
        rw [hplace₃, links_isSome, ho₂]
        rfl
      obtain ⟨b, db₄, h₄, hi₄, hplace₄, htrue, hfalse⟩ :=
        hi₃.changeParent ho₃ (.inl rfl) not_below_nothing
      have hu₄ := hi₃.changeParent_undisturbed ho₃ (.inl rfl) not_below_nothing h₄
      have hb : b = true := by
        cases b with
        | true => rfl
        | false =>
          obtain ⟨-, lnew, hnew, hclash⟩ := hfalse rfl
          rw [Chain.nil_iff.mp hnew] at hclash
          exact absurd (fun p hp => by simp [inherited] at hp) hclash
      have hr₄ := htrue hb
      obtain ⟨o₄, ho₄⟩ : ∃ o₄, db₄.find oid = some o₄ := by
        refine exists_find_of_links (F := NuMoo.place) ?_
        rw [hplace₄, links_isSome, ho₃]
        rfl
      have hplace : db₄.links NuMoo.place = db₂.links NuMoo.place := hplace₄.trans hplace₃
      have hloc : o₄.location = NOTHING := by
        have : (db₄.links NuMoo.place).up oid = some o₄.location := Links.up_eq (links_eq ho₄)
        rw [hplace, hup₂] at this
        exact (Option.some.inj this).symm
      have hcont : o₄.contents = NOTHING :=
        (hi₄.place.head_eq_nil_iff (links_eq ho₄)).mpr fun x => by rw [hplace]; exact hnone₂ x
      have hpar : o₄.parent = NOTHING := by
        have : (db₄.links NuMoo.kin).up oid = some o₄.parent := Links.up_eq (links_eq ho₄)
        rw [hr₄.up] at this
        simpa [links_eq ho₃, eq_comm] using this
      have hch : o₄.child = NOTHING := by
        refine (hi₄.kin.head_eq_nil_iff (links_eq ho₄)).mpr fun x => ?_
        rw [hr₄.up]
        by_cases hx : x = oid
        · subst hx
          simp only [if_true, links_eq ho₃, Option.map_some]
          intro h
          rw [← Option.some.inj h, find_nothing] at ho₃
          cases ho₃
        · simpa [hx, parentOf] using hnone₃ x
      refine ⟨.inr (results ++ [b]), db₄, ?_, hi₄, hu₂.trans (hu₃.trans hu₄), ?_⟩
      · simp only [h₃, h₄, Bool.false_eq_true, if_false, Option.bind_some]
        rfl
      · intro _ h
        cases h
        refine ⟨fun c hc => ?_, o₄, ho₄, hloc, hcont, hpar, hch⟩
        rcases List.mem_append.mp hc with hc | hc
        · exact hall c hc
        · exact (List.mem_singleton.mp hc).trans hb

/-- Nothing but `db_destroy_object` is left to do. -/
theorem bfRecycle2_eq (oid progr : Objid) (call : CallVerb) (db : Db) :
    db.bfRecycle2 oid progr call = (do
    let (r, db) ← db.bfRecycleToDestroy oid progr call
    match r with
    | .inl p => return (p, db)
    | .inr _ => return (.noVar, ← db.dbDestroyObject oid)) := by
  rw [bfRecycle2, bfRecycleToDestroy]
  simp only [Option.bind_eq_bind, Option.pure_def]
  split
  · rfl
  cases db.recycleContents oid call db.bound with
  | none => rfl
  | some r₁ =>
    simp only [Option.bind_some]
    split
    · rfl
    cases r₁.2.find oid with
    | none => rfl
    | some o =>
      simp only [Option.bind_some]
      cases (if o.location ≠ NOTHING then r₁.2.moveToNothing oid call else some (false, r₁.2)) with
      | none => rfl
      | some r₂ =>
        simp only [Option.bind_some]
        split
        · rfl
        rw [recycleChildren_eq]
        cases r₂.2.recycleChildrenResults oid r₂.2.bound with
        | none => rfl
        | some r₃ =>
          simp only [Option.map_some, Option.bind_some]
          cases r₃.2.dbChangeParent oid NOTHING <;> rfl

theorem bfRecycle2_spec (hi : db.Inv) (oid progr : Objid) (call : CallVerb) :
    db.Good (db.bfRecycle2 oid progr call) := by
  obtain ⟨r, db', h, hi', hu, hbarren⟩ := bfRecycleToDestroy_spec hi oid progr call
  simp only [bfRecycle2_eq, h, Option.bind_eq_bind, Option.bind_some]
  cases r with
  | inl p => exact .next hu (.intro hi')
  | inr results =>
    obtain ⟨-, o, ho, hloc, hcont, hpar, hch⟩ := hbarren results rfl
    obtain ⟨db'', hd, hi'', -⟩ := hi'.destroyObject ho hloc hcont hpar hch
    simp only [hd, Option.bind_some]
    exact .next (hu.trans (destroyObject_undisturbed hd)) (.intro hi'')

theorem bfRecycle1_spec (hi : db.Inv) (oid progr : Objid) (call : CallVerb) :
    db.Good (db.bfRecycle1 oid progr call) := by
  unfold bfRecycle1
  by_cases hv : db.valid oid = true
  swap
  · simp only [hv, Bool.not_false, if_true]
    exact .intro hi
  obtain ⟨o, ho⟩ := valid_iff.mp hv
  simp only [hv, controls, ho, Option.map_some, Option.bind_eq_bind,
    Option.bind_some, Bool.not_true,
    Bool.false_eq_true, if_false]
  split
  · exact .intro hi
  split
  · exact .intro hi
  · exact bfRecycle2_spec hi oid progr call

end Db

end NuMoo
