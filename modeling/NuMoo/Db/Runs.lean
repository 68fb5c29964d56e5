import NuMoo.Db.Recycle

/-!
# Runs of the database

Every operation that its callers allow succeeds, keeps the invariant and leaves
the entries of the verb cache right, so the invariant holds in every reachable
state, whatever verbs do while a built-in function waits for them.

Results:
1. `bfCreate_spec`, `bfChparent_spec`, `doMove1_spec`, `bfRecycle1_spec` and the
   specifications of the other built-in functions.
2. `run_spec`: one operation; `Reachable.inv`: a whole run.
-/

namespace NuMoo

open Linked

namespace Db

variable {db : Db} {oid : Objid} {o : Object}

theorem nothing_or_exists {x : Objid} (h : (!db.valid x && x != NOTHING) = false) :
    x = NOTHING ∨ ∃ o, db.find x = some o := by
  by_cases hx : x = NOTHING
  · exact .inl hx
  · refine .inr (valid_iff.mp ?_)
    simpa [hx] using h

/-- The loop by which a caller looks for a cycle finds the ancestors of the new parent. -/
theorem cycleCheck_eq {F : LinkFields} (hwf : (db.links F).WF NOTHING) (what : Objid) {p : Objid}
    (hp : p = NOTHING ∨ ∃ op, db.find p = some op) :
    ∃ b, anyChain (db.links F).up NOTHING (fun oid => some (oid == what)) db.bound p = some b ∧
      (b = true ↔ (db.links F).Below what p) := by
  obtain ⟨l, hl⟩ : ∃ l, Chain (db.links F).up NOTHING p l := by
    rcases hp with rfl | ⟨op, hop⟩
    · exact ⟨[], .done⟩
    · exact hwf.chain p _ (links_eq hop)
  have hlen : l.length < db.bound := links_bound db F l hl.nodup fun y hy => by
    have := hl.next_isSome_of_mem hy
    simpa [Links.up, Option.isSome_map] using this
  refine ⟨_, anyChain_eq hl (q := fun x => x == what) (fun _ _ => rfl) hlen, ?_⟩
  rw [← Links.mem_chain_iff hwf.nil_none hl, List.any_eq_true]
  simp

theorem isWizard_valid {progr : Objid} (h : db.isWizard progr = true) :
    ∃ o, db.find progr = some o := by
  cases ho : db.find progr with
  | some o => exact ⟨o, rfl⟩
  | none => simp [isWizard, validWithFlag, dbObjectHasFlag, ho] at h

theorem dbObjectAllows_isSome (ho : db.find oid = some o) (progr : Objid) (f : ObjectFlag) :
    ∃ b, db.dbObjectAllows oid progr f = some b := by
  simp [dbObjectAllows, dbObjectHasFlag, ho]

/-! ## create and chparent -/

theorem bfCreate_spec (hi : db.Inv) (parent : Objid) (owner : Option Objid) (progr junk : Objid)
    (call : CallVerb) :
    db.Good (db.bfCreate parent owner progr junk call) := by
  unfold bfCreate
  have hrefused :
      ∃ b, (if db.valid parent = true then (db.dbObjectAllows parent progr .FLAG_FERTILE).map not
      else some (parent != NOTHING)) = some b ∧
      (b = false → parent = NOTHING ∨ ∃ op, db.find parent = some op) := by
    by_cases hv : db.valid parent = true
    · obtain ⟨op, hop⟩ := valid_iff.mp hv
      obtain ⟨b, hb⟩ := dbObjectAllows_isSome hop progr .FLAG_FERTILE
      exact ⟨!b, by simp [hv, hb], fun _ => .inr ⟨op, hop⟩⟩
    · refine ⟨_, if_neg hv, fun h => .inl ?_⟩
      simpa using h
  obtain ⟨refused, hr, hparent⟩ := hrefused
  simp only [hr, Option.bind_eq_bind, Option.bind_some]
  split
  · exact .intro hi
  · next hcond =>
    have hp := hparent (by simp at hcond; exact hcond.1)
    have hi₁ := hi.createObject junk
    have hold : ∀ x ox, db.find x = some ox → (db.dbCreateObject junk).2.find x = some ox := by
      intro x ox hx
      rw [find_create, if_neg, hx]
      rintro rfl
      rw [find_numObjects] at hx
      cases hx
    have hnew : ∃ o, (db.dbCreateObject junk).2.find (db.dbCreateObject junk).1 = some o ∧
        o.child = NOTHING :=
      ⟨_, (find_create junk _).trans (if_pos rfl), rfl⟩
    have hne : ∀ x ox, db.find x = some ox → x ≠ (db.dbCreateObject junk).1 := by
      rintro x ox hx rfl
      rw [show (db.dbCreateObject junk).1 = (db.numObjects : Objid) from rfl, find_numObjects] at hx
      cases hx
    cases hcr : db.dbCreateObject junk with
    | mk oid db₁ =>
      rw [hcr] at hi₁ hold hnew hne
      simp only at hi₁ hold hnew hne
      obtain ⟨o₁, ho₁, hch⟩ := hnew
      -- The name and the owner are outside the core.
      let o₂ : Object := { o₁ with name := [] }
      let o₃ : Object :=
        { o₂ with owner := if owner.getD progr = NOTHING then oid else owner.getD progr }
      have ho₂ : (db₁.put oid o₂).find oid = some o₂ := find_put_self ho₁
      have hi₂ : (db₁.put oid o₂).Inv := hi₁.put ho₁ rfl
      have hi₃ : ((db₁.put oid o₂).put oid o₃).Inv := hi₂.put ho₂ rfl
      have ho₃ : ((db₁.put oid o₂).put oid o₃).find oid = some o₃ := find_put_self ho₂
      have hp₃ : parent = NOTHING ∨ ∃ op, ((db₁.put oid o₂).put oid o₃).find parent = some op := by
        refine hp.imp_right fun ⟨op, hop⟩ => ⟨op, ?_⟩
        rw [find_put_of_ne ho₂ (hne parent op hop), find_put_of_ne ho₁ (hne parent op hop),
          hold parent op hop]
      -- Nobody is below a new object.
      have hacyc : ¬ (((db₁.put oid o₂).put oid o₃).links NuMoo.kin).Below oid parent := by
        intro hb
        rcases hb.cases_child with rfl | ⟨c, hc, -⟩
        · rcases hp with rfl | ⟨op, hop⟩
          · exact not_below_nothing hb
          · exact hne _ op hop rfl
        · exact (hi₃.kin.head_eq_nil_iff (links_eq ho₃)).mp hch c hc
      obtain ⟨b, db₄, h₄, hi₄, -⟩ := hi₃.changeParent ho₃ hp₃ hacyc
      have hname : dbSetObjectName oid [] db₁ = some (db₁.put oid o₂) := by
        rw [dbSetObjectName, Db.modify, ho₁, Option.map_some]
      have howner : dbSetObjectOwner oid (if owner.getD progr = NOTHING then oid
        else owner.getD progr)
          (db₁.put oid o₂) = some ((db₁.put oid o₂).put oid o₃) := by
        rw [dbSetObjectOwner, Db.modify, ho₂, Option.map_some]
      simp only [hname, howner, h₄, Option.bind_some]
      have hu₁ : db.Undisturbed db₁ := by
        have := Undisturbed.createObject db junk
        rwa [hcr] at this
      have hu₂ : db.Undisturbed (db₁.put oid o₂) := hu₁.trans (.put ho₁ rfl)
      have hu₃ : db.Undisturbed ((db₁.put oid o₂).put oid o₃) := hu₂.trans (.put ho₂ rfl)
      have hu₄ : db.Undisturbed db₄ := hu₃.trans (hi₃.changeParent_undisturbed ho₃ hp₃ hacyc h₄)
      split <;> exact .next hu₄ (.intro hi₄)

theorem bfChparent_spec (hi : db.Inv) (what parent progr : Objid) :
    db.Good (db.bfChparent what parent progr) := by
  unfold bfChparent
  by_cases hinv : (!db.valid what || (!db.valid parent && parent != NOTHING)) = true
  · simp only [hinv, if_true]
    exact .intro hi
  obtain ⟨ow, how⟩ : ∃ ow, db.find what = some ow := by
    rw [← valid_iff]
    simp only [Bool.or_eq_true, not_or, Bool.not_eq_true'] at hinv
    simpa using hinv.1
  have hp : parent = NOTHING ∨ ∃ op, db.find parent = some op := nothing_or_exists (by
    simp only [Bool.or_eq_true, not_or] at hinv
    simpa using hinv.2)
  obtain ⟨b, hb⟩ : ∃ b, db.controls progr what = some b :=
    ⟨_, by rw [controls, how, Option.map_some]⟩
  obtain ⟨b', hb'⟩ :
      ∃ b', (if db.valid parent = true then db.dbObjectAllows parent progr .FLAG_FERTILE
      else some true) = some b' := by
    by_cases hv : db.valid parent = true
    · obtain ⟨op, hop⟩ := valid_iff.mp hv
      obtain ⟨b, hb⟩ := dbObjectAllows_isSome hop progr .FLAG_FERTILE
      exact ⟨b, by rw [if_pos hv, hb]⟩
    · exact ⟨true, if_neg hv⟩
  obtain ⟨c, hc, hciff⟩ := cycleCheck_eq hi.kin what hp
  simp only [hinv, hb, hb', Option.bind_eq_bind, Option.bind_some, Bool.false_eq_true, if_false,
    show anyChain db.parentOf NOTHING (fun oid => some (oid == what)) db.bound parent =
        some c from hc]
  split
  · exact .intro hi
  · split
    · exact .intro hi
    · next hcycle =>
      have hacyc : ¬ (db.links NuMoo.kin).Below what parent := fun h => hcycle (hciff.mpr h)
      obtain ⟨b, db', h, hi', -⟩ := hi.changeParent how hp hacyc
      simp only [h, Option.bind_some]
      exact .next (hi.changeParent_undisturbed how hp hacyc h) (.intro hi')

/-! ## move -/

theorem doMove3_spec (hi : db.Inv) (what dest progr : Objid) (call : CallVerb) :
    db.Good (db.doMove3 what dest progr call) := by
  unfold doMove3
  split
  · next hv =>
    obtain ⟨o, ho⟩ := valid_iff.mp (Bool.and_eq_true_iff.mp hv).2
    simp only [ho, Option.bind_eq_bind, Option.bind_some]
    split
    · split <;> exact .intro hi
    · exact .intro hi
  · exact .intro hi

theorem doMove2_spec (hi : db.Inv) (what dest progr : Objid) (accepts : Bool) (call : CallVerb) :
    db.Good (db.doMove2 what dest progr accepts call) := by
  unfold doMove2
  split
  · exact .intro hi
  by_cases hinv : (!db.valid what || (dest != NOTHING && !db.valid dest)) = true
  · simp only [hinv, if_true]
    exact .intro hi
  obtain ⟨o, ho⟩ : ∃ o, db.find what = some o := by
    rw [← valid_iff]
    simp only [Bool.or_eq_true, not_or, Bool.not_eq_true'] at hinv
    simpa using hinv.1
  have hd : dest = NOTHING ∨ ∃ od, db.find dest = some od := nothing_or_exists (by
    simp only [Bool.or_eq_true, not_or] at hinv
    simpa [Bool.and_comm] using hinv.2)
  obtain ⟨c, hc, hciff⟩ := cycleCheck_eq hi.place what hd
  simp only [hinv, ho, hc, Option.bind_eq_bind, Option.bind_some, Bool.false_eq_true, if_false]
  split
  · exact .intro hi
  split
  · exact .intro hi
  · next hcycle =>
    have hacyc : ¬ (db.links NuMoo.place).Below what dest := fun h => hcycle (hciff.mpr h)
    obtain ⟨db', h, hi', -, hs⟩ := hi.changeLocation ho hd hacyc
    refine .next (hs.undisturbed fun _ => rfl) ?_
    simp only [h, Option.bind_some]
    split
    · exact .intro hi'
    · exact .intro hi'
    · exact doMove3_spec hi' what dest progr call

theorem doMove1_spec (hi : db.Inv) (what dest progr : Objid) (call : CallVerb) :
    db.Good (db.doMove1 what dest progr call) := by
  unfold doMove1
  split
  · exact .intro hi
  · next hv =>
    obtain ⟨o, ho⟩ : ∃ o, db.find what = some o := by
      rw [← valid_iff]
      simp only [Bool.or_eq_true, not_or] at hv
      simpa using hv.1
    obtain ⟨b, hb⟩ : ∃ b, db.controls progr what = some b :=
      ⟨_, by rw [controls, ho, Option.map_some]⟩
    simp only [hb, Option.bind_eq_bind, Option.bind_some]
    split
    · exact .intro hi
    split
    · exact doMove2_spec hi what dest progr true call
    split
    · exact .intro hi
    · exact doMove2_spec hi what dest progr false call
    · exact .intro hi

/-! ## renumber, reset_max_object and clear_property -/

theorem bfRenumber_spec (hi : db.Inv) (oid progr : Objid) : db.Good (db.bfRenumber oid progr) := by
  unfold bfRenumber
  by_cases hv : db.valid oid = true
  swap
  · simp only [hv, Bool.not_false, if_true]
    exact .intro hi
  obtain ⟨o, ho⟩ := valid_iff.mp hv
  obtain ⟨newbie, db', e, h, hi', -, -, hren⟩ := hi.renumberObject ho
  simp only [hv, h, Option.bind_eq_bind, Option.bind_some, Bool.not_true,
    Bool.false_eq_true, if_false]
  split
  · exact .intro hi
  · exact .next hren.undisturbed (.intro hi')

/-- Dropping null entries from the end of the table leaves every object. -/
theorem find_reset (l : List (Option Object)) (k : Nat) (x : Objid) {db' : Db}
    (hdb : db.objects = l ++ List.replicate k none)
    (hl : db'.objects = l) : db'.find x = db.find x := by
  unfold find
  rw [hdb, hl]
  split
  · rcases Nat.lt_or_ge x.toNat l.length with h | h
    · rw [List.getElem?_append_left h]
    · rw [List.getElem?_append_right h, List.getElem?_eq_none h]
      by_cases hk : x.toNat - l.length < k
      · simp [hk]
      · rw [List.getElem?_eq_none (by simpa using hk)]
  · rfl

/-- A list is what remains without its trailing nulls, and these. -/
theorem reverse_dropWhile (a : List (Option Object)) :
    ∃ k, a = (a.reverse.dropWhile Option.isNone).reverse ++ List.replicate k none := by
  refine ⟨(a.reverse.takeWhile Option.isNone).length, ?_⟩
  have hnull : a.reverse.takeWhile Option.isNone =
      List.replicate (a.reverse.takeWhile Option.isNone).length none := by
    refine List.eq_replicate_iff.mpr ⟨rfl, fun b hb => ?_⟩
    simpa using List.all_eq_true.mp List.all_takeWhile b hb
  calc
    a = (a.reverse.takeWhile Option.isNone ++ a.reverse.dropWhile Option.isNone).reverse := by
      rw [List.takeWhile_append_dropWhile, List.reverse_reverse]
    _ = _ := by
      rw [List.reverse_append]
      congr 1
      rw [hnull, List.reverse_replicate, List.length_replicate]

theorem resetLastUsedObjid_spec (ho : db.find oid = some o) :
    ∃ db', db.dbResetLastUsedObjid = some db' ∧ db'.find = db.find ∧ db'.allUsers = db.allUsers ∧
      db'.vcTable = db.vcTable ∧ db'.nextPid = db.nextPid := by
  obtain ⟨k, hk⟩ := reverse_dropWhile db.objects
  unfold dbResetLastUsedObjid
  cases hd : db.objects.reverse.dropWhile Option.isNone with
  | nil =>
    rw [hd, List.reverse_nil, List.nil_append] at hk
    have : db.find oid = none := by
      have hempty : ({ db with objects := [] } : Db).find oid = db.find oid :=
        find_reset [] k oid hk rfl
      rw [← hempty]
      simp [find]
    rw [this] at ho
    cases ho
  | cons e es =>
    rw [hd] at hk
    exact ⟨_, rfl, funext fun x => find_reset _ k x hk rfl, rfl, rfl, rfl⟩

theorem bfResetMaxObject_spec (hi : db.Inv) (progr : Objid) :
    db.Good (db.bfResetMaxObject progr) := by
  unfold bfResetMaxObject
  by_cases hw : db.isWizard progr = true
  swap
  · simp only [hw, Bool.not_false, if_true]
    exact .intro hi
  obtain ⟨o, ho⟩ := isWizard_valid hw
  obtain ⟨db', h, hfind, -, htable, hpid⟩ := resetLastUsedObjid_spec ho
  simp only [hw, h, Bool.not_true, Bool.false_eq_true, if_false, Option.bind_eq_bind,
    Option.bind_some]
  exact .next (.same htable fun x => by rw [hfind]) (.intro (hi.of_find hfind hpid.ge))

/-- The slot of a handle lies inside its array, and among the inherited ones unless the
object is the definer. -/
theorem Inv.slot_bounds (hi : db.Inv) (ho : db.find oid = some o) {pname : Str}
    {definer y : Objid} {n : Nat}
    (h : db.dbFindProperty oid pname = some (some (.slot definer y n))) :
    y = oid ∧ n < o.propval.length ∧ (n < o.propdefs.length → definer = oid) := by
  obtain ⟨l, hc⟩ := exists_chain hi.kin ho
  obtain ⟨m, rfl, -⟩ := chain_cons ho hc
  rcases hi.layout.findProperty_eq hc pname with ⟨prop, hf⟩ | ⟨hf, -⟩ | ⟨d, k, p, z, oz, hf,
    hp, -, -, hoz, hd, hpz⟩
  · simp [hf] at h
  · simp [hf] at h
  · rw [hf] at h
    obtain ⟨rfl, rfl, rfl⟩ : d = definer ∧ oid = y ∧ k = n := by simpa using h
    refine ⟨rfl, ?_, fun hlt => ?_⟩
    · rw [hi.layout.length_eq ho hc]
      exact (List.getElem?_eq_some_iff.mp hp).1
    · rw [inherited_cons, propdefsOf_eq ho, List.getElem?_append_left hlt] at hp
      obtain ⟨j, hj, hpj⟩ := List.mem_iff_getElem.mp hpz
      have heq := hi.layout.pidInj oid z k j p p (by rw [propdefsOf_eq ho, hp])
        (by rw [propdefsOf_eq hoz, List.getElem?_eq_getElem hj, hpj]) rfl
      rw [← hd, hi.ids z oz hoz, heq.1]

theorem Inv.modifySlot (hi : db.Inv) (ho : db.find oid = some o) {n : Nat}
    (hn : n < o.propval.length) {f : Pval → Pval}
    (hpid : ∀ pv, (f pv).pid = pv.pid) (hclear : n < o.propdefs.length → ∀ pv, pv.var ≠ .clear →
      (f pv).var ≠ .clear) :
    ∃ db', db.modifySlot oid n f = some db' ∧ db'.Inv ∧ db.Undisturbed db' := by
  obtain ⟨db', h, hl, hs⟩ := hi.layout.modifySlot ho hn hpid hclear
  exact ⟨db', h, hi.of_props (hs.mono fun _ => rfl) hl, hs.undisturbed fun _ => rfl⟩

theorem bfClearProp_spec (hi : db.Inv) (oid : Objid) (pname : Str) (progr : Objid) :
    db.Good (db.bfClearProp oid pname progr) := by
  unfold bfClearProp
  by_cases hv : db.valid oid = true
  swap
  · simp only [hv, Bool.not_false, if_true]
    exact .intro hi
  obtain ⟨o, ho⟩ := valid_iff.mp hv
  obtain ⟨l, hc⟩ := exists_chain hi.kin ho
  simp only [hv, Option.bind_eq_bind, Bool.not_true, Bool.false_eq_true, if_false]
  rcases hi.layout.findProperty_eq hc pname with ⟨prop, hf⟩ | ⟨hf, -⟩ | ⟨definer, n,
    p, y, oy, hf, -⟩
  · simp only [hf, Option.bind_some]
    exact .intro hi
  · simp only [hf, Option.bind_some]
    exact .intro hi
  · obtain ⟨-, hn, hdef⟩ := hi.slot_bounds ho hf
    have hslot : db.slot (.slot definer oid n) = some o.propval[n] := by
      rw [slot, ho, Option.bind_some, List.getElem?_eq_getElem hn]
    simp only [hf, hslot, Option.bind_some]
    split
    · exact .intro hi
    split
    · exact .intro hi
    · next hne =>
      obtain ⟨db', h, hi', hu⟩ :=
        hi.modifySlot ho hn (f := fun p => { p with var := .clear }) (fun _ => rfl)
        (fun hlt => absurd (hdef hlt) hne)
      simp only [dbSetPropertyValue, h, Option.bind_some]
      exact .next hu (.intro hi')

/-! ## Storing into properties -/

theorem Inv.modify_undisturbed (hi : db.Inv) (ho : db.find oid = some o) {f : Object → Object}
    (hf : ∀ o, core (f o) = core o) (hv : ∀ o, lookupView (f o) = lookupView o) :
    ∃ db', db.modify oid f = some db' ∧ db'.Inv ∧ db.Undisturbed db' :=
  ⟨_, by rw [Db.modify, ho, Option.map_some], hi.put ho (hf o), .put ho (hv o)⟩

theorem setFlag_spec (hi : db.Inv) (ho : db.find oid = some o) (b : Bool) (f : ObjectFlag) :
    ∃ db', (if b then db.dbSetObjectFlag oid f else db.dbClearObjectFlag oid f) =
      some db' ∧ db'.Inv ∧
      db.Undisturbed db' := by
  cases b with
  | true =>
    obtain ⟨db₁, h₁, hi₁, hu₁⟩ :=
      hi.modify_undisturbed ho (f := fun o => { o with flags := o.flags ||| f.mask })
      (fun _ => rfl) fun _ => rfl
    simp only [if_true, dbSetObjectFlag, h₁, Option.bind_eq_bind, Option.bind_some]
    split
    · exact ⟨_, rfl, hi₁.of_find rfl (Nat.le_refl _), hu₁.trans (.same rfl fun _ => rfl)⟩
    · exact ⟨_, rfl, hi₁, hu₁⟩
  | false =>
    obtain ⟨db₁, h₁, hi₁, hu₁⟩ :=
      hi.modify_undisturbed ho (f := fun o => { o with flags := o.flags &&& ~~~f.mask })
      (fun _ => rfl) fun _ => rfl
    simp only [Bool.false_eq_true, if_false, dbClearObjectFlag, h₁, Option.bind_eq_bind,
      Option.bind_some]
    split
    · exact ⟨_, rfl, hi₁.of_find rfl (Nat.le_refl _), hu₁.trans (.same rfl fun _ => rfl)⟩
    · exact ⟨_, rfl, hi₁, hu₁⟩

theorem setPropertyValue_spec (hi : db.Inv) (ho : db.find oid = some o) {pname : Str}
    {h : PropHandle}
    (hf : db.dbFindProperty oid pname = some (some h)) {value : Var} (hs : Act.Suits h value) :
    ∃ db', db.dbSetPropertyValue h value = some db' ∧ db'.Inv ∧ db.Undisturbed db' := by
  cases h with
  | slot definer y n =>
    obtain ⟨rfl, hn, -⟩ := hi.slot_bounds ho hf
    exact hi.modifySlot ho hn (f := fun p => { p with var := value }) (fun _ => rfl) fun _ _ _ => hs
  | builtIn prop y =>
    obtain ⟨l, hc⟩ := exists_chain hi.kin ho
    obtain rfl : oid = y := by
      rcases hi.layout.findProperty_eq hc pname with ⟨prop', hf'⟩ | ⟨hf', -⟩ | ⟨_, _, _,
        _, _, hf', -⟩ <;>
        rw [hf] at hf' <;> simp at hf'
      exact hf'.2.symm
    cases prop with
    | BP_NAME =>
      obtain ⟨s, rfl⟩ := hs
      exact hi.modify_undisturbed ho (fun _ => rfl) fun _ => rfl
    | BP_OWNER =>
      obtain ⟨v, rfl⟩ := hs
      exact hi.modify_undisturbed ho (fun _ => rfl) fun _ => rfl
    | BP_PROGRAMMER => exact setFlag_spec hi ho _ _
    | BP_WIZARD => exact setFlag_spec hi ho _ _
    | BP_R => exact setFlag_spec hi ho _ _
    | BP_W => exact setFlag_spec hi ho _ _
    | BP_F => exact setFlag_spec hi ho _ _
    | BP_LOCATION => exact hs.elim
    | BP_CONTENTS => exact hs.elim

/-! ## Verbs -/

theorem Inv.modifyVerb (hi : db.Inv) {h : Handle} (hlive : Act.LiveVerb db h)
    (f : Verbdef → Verbdef) :
    ∃ db', db.modifyVerb h f = some db' ∧ db'.Inv ∧ db'.vcTable = db.vcTable ∧
      ((∀ v, verbView (f v) = verbView v) → db.Undisturbed db') := by
  obtain ⟨o, ho, v, hv, haddr⟩ := hlive
  cases hidx : o.verbdefs.findIdx? fun v => v.addr == h.verbdef with
  | none =>
    have := List.findIdx?_eq_none_iff.mp hidx v hv
    simp [haddr] at this
  | some i =>
    refine ⟨db.put h.definer { o with verbdefs := o.verbdefs.modify i f }, ?_, hi.put ho rfl, rfl,
      fun hf => .put ho ?_⟩
    · simp [Db.modifyVerb, ho, hidx]
    · have hmap : (o.verbdefs.modify i f).map verbView = o.verbdefs.map verbView := by
        refine List.ext_getElem? fun k => ?_
        rw [List.getElem?_map, List.getElem?_map, List.getElem?_modify]
        cases o.verbdefs[k]? with
        | none => rfl
        | some v => by_cases h : i = k <;> simp [h, hf]
      rw [lookupView, lookupView, hmap]

/-- A change of a verb after a flush of the cache. -/
theorem Inv.modifyVerb_flushed (hi : db.Inv) {h : Handle} (hlive : Act.LiveVerb db h)
    (f : Verbdef → Verbdef) :
    ∃ db', db.affectedCallableVerbLookup.modifyVerb h f = some db' ∧ db'.Inv ∧
      db.Undisturbed db' := by
  have hlive' : Act.LiveVerb db.affectedCallableVerbLookup h := by rwa [Act.LiveVerb, find_affected]
  obtain ⟨db', h', hi', htable, -⟩ := hi.affected.modifyVerb hlive' f
  exact ⟨db', h', hi', .flushed fun table ht => flushed_affected db table (htable ▸ ht)⟩

theorem Inv.deleteVerb (hi : db.Inv) {h : Handle} (hlive : Act.LiveVerb db h) :
    ∃ db', db.dbDeleteVerb h = some db' ∧ db'.Inv ∧ db.Undisturbed db' := by
  obtain ⟨o, ho, v, hv, haddr⟩ := hlive
  cases hidx : o.verbdefs.findIdx? fun v => v.addr == h.verbdef with
  | none =>
    have := List.findIdx?_eq_none_iff.mp hidx v hv
    simp [haddr] at this
  | some i =>
    have ho' : db.affectedCallableVerbLookup.find h.definer = some o := by rw [find_affected, ho]
    refine ⟨db.affectedCallableVerbLookup.put h.definer
      { o with verbdefs := o.verbdefs.eraseIdx i }, ?_,
      hi.affected.put ho' rfl, .flushed (flushed_affected db)⟩
    simp [dbDeleteVerb, ho, hidx]

/-- The ancestor loop from any object number. -/
theorem exists_lineage (hk : (db.links NuMoo.kin).WF NOTHING) (oid : Objid) :
    ∃ l os, db.lineage db.bound oid = some os ∧ List.Forall₂ (fun x o => db.find x = some o) l os ∧
      ((db.find oid = none ∧ l = []) ∨ Chain db.parentOf NOTHING oid l) := by
  cases ho : db.find oid with
  | none => exact ⟨[], [], by simp [bound, lineage, ho], .nil, .inl ⟨rfl, rfl⟩⟩
  | some o =>
    obtain ⟨l, hc⟩ := exists_chain hk ho
    obtain ⟨os, hos, hall⟩ := lineage_eq hc (chain_length_lt hc)
    exact ⟨l, os, hos, hall, .inr hc⟩

/-- A lookup changes the cache only. -/
theorem findCallableVerb_spec (hk : (db.links NuMoo.kin).WF NOTHING) (oid : Objid) (verb : MooStr) :
    ∃ h table, db.dbFindCallableVerb oid verb = some (h, { db with vcTable := some table }) := by
  obtain ⟨l, os, hos, -⟩ := exists_lineage hk oid
  simp only [dbFindCallableVerb, hos, Option.bind_eq_bind, Option.bind_some]
  split <;> exact ⟨_, _, rfl⟩

end Db

/-! ## Runs -/

open Db

variable {s s' : DbState}

theorem Act.finish_db (pending : List Frame) (r : Package × Db) :
    (Act.finish pending r).db = r.2 := by
  rw [Act.finish]
  split <;> rfl

/-- An operation that its callers allow succeeds and keeps the invariant; only a lookup adds
to the verb cache. -/
theorem Act.run_spec {a : Act} (hi : s.db.Inv) (ha : a.Allowed s) :
    ∃ s', a.run s = some s' ∧ s'.db.Inv ∧
    (s.db.Undisturbed s'.db ∨ ∃ oid verb, a = .findCallableVerb oid verb) := by
  have hplain : ∀ {r : Option Db}, (∃ db', r = some db' ∧ db'.Inv ∧ s.db.Undisturbed db') →
      ∃ s', (r.map fun db => { s with db }) = some s' ∧ s'.db.Inv ∧
        (s.db.Undisturbed s'.db ∨ ∃ oid verb, a = .findCallableVerb oid verb) := by
    rintro r ⟨db', rfl, hi', hu⟩
    exact ⟨_, rfl, hi', .inl hu⟩
  have hbuiltin : ∀ {pending : List Frame} {r : Option (Package × Db)}, s.db.Good r →
      ∃ s', r.map (Act.finish pending) = some s' ∧ s'.db.Inv ∧
        (s.db.Undisturbed s'.db ∨ ∃ oid verb, a = .findCallableVerb oid verb) := by
    rintro pending r ⟨p, db', rfl, hi', hu⟩
    exact ⟨_, rfl, by rwa [finish_db], .inl (by rwa [finish_db])⟩
  cases a with
  | create parent owner progr junk call =>
    exact hbuiltin (bfCreate_spec hi parent owner progr junk call)
  | chparent what parent progr => exact hbuiltin (bfChparent_spec hi what parent progr)
  | move what dest progr call => exact hbuiltin (doMove1_spec hi what dest progr call)
  | recycle oid progr call => exact hbuiltin (bfRecycle1_spec hi oid progr call)
  | renumber o progr => exact hbuiltin (bfRenumber_spec hi o progr)
  | resetMaxObject progr => exact hbuiltin (bfResetMaxObject_spec hi progr)
  | clearProperty oid pname progr => exact hbuiltin (bfClearProp_spec hi oid pname progr)
  | resume i result call =>
    have hf : s.pending[i]? = some s.pending[i] := List.getElem?_eq_getElem ha
    -- a built-in goes on where it waited, in the database that the verb has left
    have hgood : s.db.Good (Act.resumeFrame s.pending[i] result call s.db) := by
      cases s.pending[i] with
      | create oid => exact .intro hi
      | recycle oid progr => exact bfRecycle2_spec hi oid progr call
      | move what dest progr next =>
        cases next with
        | fromAccept => exact doMove2_spec hi what dest progr _ call
        | fromExitfunc => exact doMove3_spec hi what dest progr call
        | fromEnterfunc => exact .intro hi
    obtain ⟨r, db', hr, hi', hu⟩ := hgood
    exact ⟨Act.finish (s.pending.eraseIdx i) (r, db'), by simp [run, hf, hr], by rwa [finish_db],
      .inl (by rwa [finish_db])⟩
  | abandon i => exact ⟨_, rfl, hi, .inl (.refl s.db)⟩
  | createObject junk => exact ⟨_, rfl, hi.createObject junk, .inl (.createObject s.db junk)⟩
  | destroyObject oid =>
    obtain ⟨o, ho, hloc, hcont, hpar, hch⟩ := ha
    obtain ⟨db', h, hi', -⟩ := hi.destroyObject ho hloc hcont hpar hch
    exact hplain ⟨db', h, hi', destroyObject_undisturbed h⟩
  | changeParent oid parent =>
    obtain ⟨⟨o, ho⟩, hp, hacyc⟩ := ha
    obtain ⟨b, db', h, hi', -⟩ := hi.changeParent ho hp hacyc
    exact hplain ⟨db', by rw [h, Option.map_some], hi', hi.changeParent_undisturbed ho hp hacyc h⟩
  | renumberObject oid =>
    obtain ⟨o, ho⟩ := ha
    obtain ⟨newbie, db', e, h, hi', -, -, hren⟩ := hi.renumberObject ho
    exact hplain ⟨db', by rw [h, Option.map_some], hi', hren.undisturbed⟩
  | addPropdef oid pname value owner flags =>
    obtain ⟨⟨o, ho⟩, hv⟩ := ha
    obtain ⟨b, db', h, hl, hs⟩ := addPropdef_spec hi.kin hi.layout ho pname hv owner flags
    exact hplain ⟨db', by rw [h, Option.map_some], hi.of_props hs hl, hs.undisturbed fun _ => rfl⟩
  | renamePropdef oid old newbie =>
    obtain ⟨o, ho⟩ := ha
    obtain ⟨b, db', h, hl, hs⟩ := renamePropdef_spec hi.kin hi.layout ho old newbie
    exact hplain ⟨db', by rw [h, Option.map_some], hi.of_props hs hl, hs.undisturbed fun _ => rfl⟩
  | deletePropdef oid pname =>
    obtain ⟨o, ho⟩ := ha
    obtain ⟨b, db', h, hl, hs⟩ := deletePropdef_spec hi.kin hi.layout ho pname
    exact hplain ⟨db', by rw [h, Option.map_some], hi.of_props hs hl, hs.undisturbed fun _ => rfl⟩
  | setPropertyValue oid pname value =>
    obtain ⟨⟨o, ho⟩, h, hf, hsuits⟩ := ha
    obtain ⟨db', h', hi', hu⟩ := setPropertyValue_spec hi ho hf hsuits
    exact hplain ⟨db', by simp [withProp, hf, h'], hi', hu⟩
  | setPropertyOwner oid pname owner =>
    obtain ⟨⟨o, ho⟩, definer, n, hf⟩ := ha
    obtain ⟨-, hn, -⟩ := hi.slot_bounds ho hf
    obtain ⟨db', h', hi', hu⟩ :=
      hi.modifySlot ho hn (f := fun p => { p with owner }) (fun _ => rfl) fun _ _ h => h
    exact hplain ⟨db', by simp [withProp, hf, dbSetPropertyOwner, h'], hi', hu⟩
  | setPropertyFlags oid pname flags =>
    obtain ⟨⟨o, ho⟩, definer, n, hf⟩ := ha
    obtain ⟨-, hn, -⟩ := hi.slot_bounds ho hf
    obtain ⟨db', h', hi', hu⟩ :=
      hi.modifySlot ho hn (f := fun p => { p with perms := flags }) (fun _ => rfl) fun _ _ h => h
    exact hplain ⟨db', by simp [withProp, hf, dbSetPropertyFlags, h'], hi', hu⟩
  | addVerb oid addr vnames owner flags dobj prep iobj =>
    obtain ⟨⟨o, ho⟩, -⟩ := ha
    have ho' : s.db.affectedCallableVerbLookup.find oid = some o := by rw [find_affected, ho]
    obtain ⟨db', h, hi'⟩ := hi.affected.modify ho' (f := fun o => { o with verbdefs := o.verbdefs ++
      [{ addr, name := vnames, program := none, owner, prep
         perms := flags ||| (dobj <<< DOBJSHIFT) ||| (iobj <<< IOBJSHIFT) }] }) fun _ => rfl
    refine hplain ⟨db', h, hi', .flushed ?_⟩
    rw [Db.modify, ho', Option.map_some, Option.some.injEq] at h
    subst h
    exact flushed_affected s.db
  | deleteVerb h => exact hplain (hi.deleteVerb ha)
  | setVerbNames h names => exact hplain (hi.modifyVerb_flushed ha _)
  | setVerbOwner h owner =>
    obtain ⟨db', h', hi', -, hu⟩ := hi.modifyVerb ha fun v => { v with owner }
    exact hplain ⟨db', h', hi', hu fun _ => rfl⟩
  | setVerbFlags h flags => exact hplain (hi.modifyVerb_flushed ha _)
  | setVerbProgram h program =>
    obtain ⟨db', h', hi', -, hu⟩ := hi.modifyVerb ha fun v => { v with program }
    exact hplain ⟨db', h', hi', hu fun _ => rfl⟩
  | setVerbArgSpecs h dobj prep iobj => exact hplain (hi.modifyVerb_flushed ha _)
  | findCallableVerb oid verb =>
    obtain ⟨h, table, hf⟩ := findCallableVerb_spec hi.kin oid verb
    exact ⟨{ s with db := { s.db with vcTable := some table } }, by simp [run, hf],
      hi.of_find rfl (Nat.le_refl _),
      .inr ⟨oid, verb, rfl⟩⟩

/-- The invariant holds in every reachable state. -/
theorem Reachable.inv (h : Reachable s) : s.db.Inv := by
  induction h with
  | empty => exact inv_empty
  | step a _ ha hrun ih =>
    obtain ⟨s'', hs'', hi, -⟩ := a.run_spec ih ha
    rw [hrun] at hs''
    cases hs''
    exact hi

end NuMoo
