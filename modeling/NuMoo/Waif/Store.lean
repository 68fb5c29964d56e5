import NuMoo.Waif.Cycles

/-!
# The properties of a waif as a map

Whatever the packing, the properties of a waif are a map from names to values: a put changes one
entry, and a get reads one entry or, if there is none, asks the class.

The names "owner", "class" and "wizard" are not in the map, even if the class has properties for
them: the waif answers them by itself (`owner_hides_property`).

Results:
1. `contentsOf_extends`: bringing one waif up to date changes no entry of any waif.
2. `contents_stored`: storing changes one entry.
3. `Reachable.refinesMap`: the answers after any calls are those of the map, and puts are refused as
   they have to be.
-/

namespace NuMoo

open Linked Packed

/-! ## The map -/

/-- The values that waifs have been given, by waif and name. -/
abbrev Store := Nat → Str → Option Var

/-- A call of `waif_get_prop` or of `waif_put_prop`, the latter with the error that it returned. -/
inductive Call where
  | get (a : Nat) (name : Str) (progr : Objid)
  | put (a : Nat) (name : Str) (val : Var) (progr : Objid) (err : ErrCode)

namespace Store

/-- Names that differ in case are the same. -/
def put (st : Store) (a : Nat) (name : Str) (val : Var) : Store := fun b n =>
  if b = a ∧ nameKey n = nameKey name then some val else st b n

/-- Only a put that succeeded counts. -/
def after (st : Store) : Call → Store
  | .get _ _ _ => st
  | .put a name val _ err => if err = .E_NONE then st.put a name val else st

/-- The map after some calls. -/
def replay (st : Store) (calls : List Call) : Store := calls.foldl after st

end Store

namespace Server

variable {s s' s'' : Server} {a : Nat} {w w' : Waif} {st : Store}

/-- The calls lead from one server to another. -/
inductive Calls : Server → List Call → Server → Prop
  | nil (s : Server) : Calls s [] s
  | get {s s' s'' : Server} {a : Nat} {name : Str} {progr : Objid} {err : ErrCode} {v : Var}
      {l : List Call} :
      s.waifGetProp a name progr = some (err, v, s') → Calls s' l s'' →
        Calls s (.get a name progr :: l) s''
  | put {s s' s'' : Server} {a : Nat} {name : Str} {val : Var} {progr : Objid} {err : ErrCode}
      {l : List Call} :
      val ≠ .clear → (∀ b ∈ val.waifs, b < s.nextWaif) →
        s.waifPutProp a name val progr = some (err, s') →
      Calls s' l s'' → Calls s (.put a name val progr err :: l) s''

/-- What a waif holds for a name once it is up to date. -/
def contentsOf (s : Server) (w : Waif) (name : Str) : Option Var :=
  (updatedWaif w s).bind fun r => (r.2.ownValue r.1 name).filter (· ≠ .clear)

/-- The map that a server is. -/
def contents (s : Server) : Store := fun a name => (s.waifs a).bind fun w => s.contentsOf w name

/-- The permission to access a property, or that there is no such property. -/
def permission (s : Server) (w : Waif) (name : Str) (progr : Objid) (flag : UInt16) : ErrCode :=
  match s.db.dbFindProperty w.waifclass (prefixedName name) with
  | some (some h) => if (s.db.slot h).any fun pv =>
    s.waifPropertyAllows w pv progr flag then .E_NONE else .E_PERM
  | _ => .E_PROPNF

/-- What a get returns if the map has `entry`. -/
def expected (s : Server) (w : Waif) (name : Str) (progr : Objid) (entry : Option Var) :
    ErrCode × Var :=
  match s.permission w name progr PF_READ, s.db.dbFindPropertyValue w.waifclass
    (prefixedName name) with
  | .E_NONE, some (some (_, v)) => (.E_NONE, entry.getD v)
  | err, _ => (err, .none)

/-- Calls on the waifs of a server, from there on, are answered as by a map for the given names. -/
structure RefinesMap (s : Server) (names : Str → Prop) : Prop where
  new : ∀ x owner a s', s.bfNewWaif x owner = some (.ok a, s') → ∀ name, s'.contents a name = none
  get : ∀ l s', Calls s l s' → ∀ a w, s.waifs a = some w → s.db.valid w.waifclass = true →
    ¬ Stranded s w →
    ∀ name, names name → ∀ progr, ∃ s'', s'.waifGetProp a name progr =
      some ((s.expected w name progr (s.contents.replay l a name)).1,
        (s.expected w name progr (s.contents.replay l a name)).2, s'')
  put : ∀ l s', Calls s l s' → ∀ a w, s.waifs a = some w → s.db.valid w.waifclass = true →
    ¬ Stranded s w →
    ∀ name, names name → ∀ val progr, (∀ b ∈ val.waifs, b < s'.nextWaif) → ∃ err s'',
      s'.waifPutProp a name val progr = some (err, s'') ∧
      (err = s.permission w name progr PF_WRITE ∨
        s.permission w name progr PF_WRITE = .E_NONE ∧ err = .E_RECMOVE ∧
        ∃ s₁, s'.updateWaifPropdefs a = some s₁ ∧
          s₁.refersTo val a = some true)

/-- Puts on the waifs of a server, from there on, are refused to the names that a waif answers by
itself, and where the value leads to the waif. -/
structure RefusesPuts (s : Server) : Prop where
  reserved : ∀ l s', Calls s l s' → ∀ a w, s.waifs a = some w → s.db.valid w.waifclass = true →
    ¬ Stranded s w →
    ∀ name, reserved name → ∀ val progr, ∃ s'', s'.waifPutProp a name val progr =
      some (.E_PERM, s'')
  leads : ∀ l s', Calls s l s' → ∀ a w, s.waifs a = some w → s.db.valid w.waifclass = true →
    ¬ Stranded s w →
    ∀ name, ¬ Server.reserved name → ∀ val progr, (∀ b ∈ val.waifs, b < s'.nextWaif) →
      s.permission w name progr PF_WRITE = .E_NONE → ∀ s₁, s'.updateWaifPropdefs a = some s₁ →
        s₁.refersTo val a = some true → ∃ s'', s'.waifPutProp a name val progr =
          some (.E_RECMOVE, s'')

/-! ## Names and indices -/

theorem defsOn_matches (h : s.ClassesOk) {c : List Objid} {d : WaifPropdef}
    (hd : d ∈ s.defsOn c) (name : Str) :
    (d.hash == strHash name && mystrcasecmp d.name.text name == 0) = true ↔
    nameKey d.name.text = nameKey name := by
  obtain ⟨p, hp, rfl⟩ := List.mem_map.mp hd
  obtain ⟨y, -, hpy⟩ := Db.mem_inherited.mp (List.mem_of_mem_filter hp)
  exact Db.Propdef.matches_iff (h.inv.layout.hash y p hpy)

theorem prefixedName_inj {n n' : Str} :
    nameKey (prefixedName n) = nameKey (prefixedName n') ↔ nameKey n = nameKey n' := by
  rw [prefixedName_key, prefixedName_key, List.cons.injEq, and_iff_right rfl]

theorem indexOf_congr {n n' : Str} (h : nameKey n = nameKey n') (l : List WaifPropdef) :
    indexOf l (prefixedName n) = indexOf l (prefixedName n') := by
  have hkey := prefixedName_inj.mpr h
  have hcase : ∀ t : Str, (mystrcasecmp t (prefixedName n) == 0) =
      (mystrcasecmp t (prefixedName n') == 0) := fun t => by
    rw [Bool.eq_iff_iff, beq_iff_eq, beq_iff_eq, mystrcasecmp_eq_zero, mystrcasecmp_eq_zero, hkey]
  rw [indexOf, indexOf, strHash_eq_of_key hkey]
  simp only [hcase]

/-- Names with one index are the same. -/
theorem indexOf_inj (h : s.ClassesOk) {c : List Objid} {n n' : Str} {i : Nat}
    (hi : indexOf (s.defsOn c) (prefixedName n) = some i) :
    indexOf (s.defsOn c) (prefixedName n') = some i ↔ nameKey n' = nameKey n := by
  constructor
  · intro hi'
    obtain ⟨hlt, hm, -⟩ := List.findIdx?_eq_some_iff_getElem.mp hi
    obtain ⟨_, hm', -⟩ := List.findIdx?_eq_some_iff_getElem.mp hi'
    have hd := List.getElem_mem hlt
    have hkey := (defsOn_matches h hd (prefixedName n)).mp hm
    have hkey' := (defsOn_matches h hd (prefixedName n')).mp hm'
    exact prefixedName_inj.mp (hkey'.symm.trans hkey)
  · intro hkey
    rw [← hi, indexOf_congr hkey]

/-! ## The entries of a waif -/

/-- The map and the values of a waif that is brought in step with the chain of its class. -/
def synced (s : Server) (w : Waif) (c : List Objid) : Option (PropMap × List Var) :=
  if w.propdefs = s.waifPropdefs w.waifclass then some (w.map, w.vals)
  else resync w.map (s.propdefsOf w) w.propvals (s.defsOn c)

theorem ownValue_synced (h : s.ClassesOk) (hs : Synced s w) {c : List Objid}
    (hc : Chain s.db.parentOf NOTHING w.waifclass c) (name : Str) : s.ownValue w name =
      (indexOf (s.defsOn c) (prefixedName name)).bind
        (Packed.read (propMapped w.map) N_MAPPABLE_PROPS .clear w.vals) := by
  obtain ⟨P, hP, hclass⟩ := hs
  have hl := (h.cached _ P hclass).2 c hc
  simp only [ownValue, propdefsOf, hP, hl, Option.bind_eq_bind, Option.bind_some]

/-- What is in a waif depends on the class chain and on what it is brought in step from. -/
theorem contentsOf_eq (h : s.ClassesOk) (hw : WaifOk s w) (hv : s.db.valid w.waifclass = true)
    (hst : ¬ Stranded s w)
    {c : List Objid} (hc : Chain s.db.parentOf NOTHING w.waifclass c) :
    ∃ r, s.synced w c = some r ∧ ∀ name,
      s.contentsOf w name = ((indexOf (s.defsOn c) (prefixedName name)).bind
        (Packed.read (propMapped r.1) N_MAPPABLE_PROPS .clear r.2)).filter (· ≠ .clear) := by
  obtain ⟨w', s', hrun, hup⟩ := updatedWaif_spec h hw
  have hdefs : s'.defsOn c = s.defsOn c := hup.generated.defsOn c
  have hc' : Chain s'.db.parentOf NOTHING w'.waifclass c := by rwa [hup.generated.db, hup.waifclass]
  refine ⟨(w'.map, w'.vals), ?_, fun name => ?_⟩
  · rw [synced]
    split
    · next hsync => rw [(hup.same hv hsync).1]
    · next hsync => exact hup.content hv hsync c hc
  · rw [contentsOf, hrun, Option.bind_some,
      ownValue_synced hup.classes (hup.synced hv hst) hc', hdefs]

/-- The second server has generated more lists; its waifs may differ. -/
structure Extends (s s' : Server) : Prop where
  db : s'.db = s.db
  nameAddr : s'.nameAddr = s.nameAddr
  defs : ∀ P l, s.defs P = some l → s'.defs P = some l
  ptr : ∀ x P, s.waifPropdefs x = some P → s'.waifPropdefs x = some P
  new : ∀ x P, s'.waifPropdefs x = some P → s.waifPropdefs x = some P ∨
    s.waifPropdefs x = none ∧ s.defs P = none

theorem Generated.extends (hg : Generated s s') (h : s.ClassesOk) : Extends s s' :=
  ⟨hg.db, hg.nameAddr, fun _ _ hl => hg.defs_eq h hl, hg.ptr,
    fun x P hP => (hg.new x P hP).imp_right fun hn => ⟨hn.1, h.fresh P hn.2⟩⟩

theorem Extends.putWaif (h : Extends s s') (a : Nat) (w : Waif) : Extends s (s'.putWaif a w) :=
  ⟨h.db, h.nameAddr, h.defs, h.ptr, h.new⟩

/-- A waif is in step with its class in both servers or in neither. -/
theorem Extends.sync_iff (he : Extends s s') (hw : WaifOk s w) (hst : ¬ Stranded s w)
    (hv : s.db.valid w.waifclass = true) :
    w.propdefs = s'.waifPropdefs w.waifclass ↔ w.propdefs = s.waifPropdefs w.waifclass := by
  have hnull : ∀ {p : Prop}, w.propdefs = none → s.waifPropdefs w.waifclass = none → p :=
    fun h h' =>
    absurd ⟨hv, h, h'⟩ hst
  constructor
  · intro h
    cases hP : w.propdefs with
    | none =>
      cases hc : s.waifPropdefs w.waifclass with
      | none => rfl
      | some Q =>
        rw [hP, he.ptr _ Q hc] at h
        cases h
    | some P =>
      rw [hP] at h
      rcases he.new _ P h.symm with h | ⟨-, hfree⟩
      · exact h.symm
      · obtain ⟨l, hl, -⟩ := hw.vals P hP
        rw [hfree] at hl
        cases hl
  · intro h
    cases hP : w.propdefs with
    | none => exact hnull hP (h ▸ hP)
    | some P => exact (he.ptr _ P (h ▸ hP)).symm

theorem Extends.stranded (he : Extends s s') (hst : ¬ Stranded s w) : ¬ Stranded s' w := by
  rintro ⟨hv, hP, hc⟩
  refine hst ⟨he.db ▸ hv, hP, ?_⟩
  cases hx : s.waifPropdefs w.waifclass with
  | none => rfl
  | some Q =>
    rw [he.ptr _ Q hx] at hc
    cases hc

/-- Generating lists changes no entry. -/
theorem contentsOf_extends (h : s.ClassesOk) (h' : s'.ClassesOk) (he : Extends s s')
    (hw : WaifOk s w) (hw' : WaifOk s' w)
    (hv : s.db.valid w.waifclass = true) (hst : ¬ Stranded s w) (name : Str) :
    s'.contentsOf w name = s.contentsOf w name := by
  obtain ⟨o, ho⟩ := Db.valid_iff.mp hv
  obtain ⟨c, hc⟩ := Db.exists_chain h.inv.kin ho
  have hdefs : s'.defsOn c = s.defsOn c :=
    defsOn_congr (by rw [he.db]) fun p _ => by rw [he.nameAddr]
  obtain ⟨r, hr, hcont⟩ := contentsOf_eq h hw hv hst hc
  obtain ⟨r', hr', hcont'⟩ :=
    contentsOf_eq h' hw' (by rwa [he.db]) (he.stranded hst) (c := c) (by rwa [he.db])
  have hsame : s'.synced w c = s.synced w c := by
    rw [synced, synced, hdefs]
    by_cases hsync : w.propdefs = s.waifPropdefs w.waifclass
    · rw [if_pos hsync, if_pos ((he.sync_iff hw hst hv).mpr hsync)]
    · rw [if_neg hsync, if_neg fun h => hsync ((he.sync_iff hw hst hv).mp h)]
      cases hpv : w.propvals with
      | none => rw [resync.eq_def, resync.eq_def]
      | some ov =>
        obtain ⟨P, hP⟩ : ∃ P, w.propdefs = some P := by
          refine Option.ne_none_iff_exists'.mp fun hn => ?_
          rw [hw.null hn] at hpv
          cases hpv
        obtain ⟨l, hl, -⟩ := hw.vals P hP
        rw [propdefsOf, propdefsOf, hP, Option.bind_some, Option.bind_some, hl, he.defs P l hl]
  rw [hsame, hr] at hr'
  cases hr'
  rw [hcont, hcont', hdefs]

/-! ## Calls -/

/-- The waifs of `s` whose class is known are in `s'` what the map says. -/
structure Tracks (s s' : Server) (st : Store) : Prop where
  ok : s'.Ok
  db : s'.db = s.db
  waif : ∀ b w, s.waifs b = some w → s.db.valid w.waifclass = true → ¬ Stranded s w →
    ∃ w', s'.waifs b = some w' ∧
    w'.waifclass = w.waifclass ∧ w'.owner = w.owner ∧ ¬ Stranded s' w' ∧
    ∀ name, s'.contents b name = st b name

theorem contents_eq (hw : s.waifs a = some w) (name : Str) :
    s.contents a name = s.contentsOf w name := by
  rw [contents, hw, Option.bind_some]

theorem Tracks.refl (h : s.Ok) : Tracks s s s.contents :=
  ⟨h, rfl, fun _ w hw _ hst => ⟨w, hw, rfl, rfl, hst, fun _ => rfl⟩⟩

/-- A step that changes the map as it changes the entries that agree with it. -/
theorem Tracks.trans {f : Store → Store} (h : Tracks s s' st) (h' : Tracks s' s'' (f s'.contents))
    (hf : ∀ b name, s'.contents b name = st b name → f s'.contents b name = f st b name) :
    Tracks s s'' (f st) := by
  refine ⟨h'.ok, h'.db.trans h.db, fun b w hw hv hst => ?_⟩
  obtain ⟨w', hw', hclass, howner, hst', hcont⟩ := h.waif b w hw hv hst
  obtain ⟨w'', hw'', hclass', howner', hst'', hcont'⟩ :=
    h'.waif b w' hw' (by rwa [h.db, hclass]) hst'
  exact ⟨w'', hw'', hclass'.trans hclass, howner'.trans howner, hst'', fun name =>
    (hcont' name).trans (hf b name (hcont name))⟩

/-- A waif in step with its class is not changed by an update. -/
theorem contentsOf_of_synced (hs : Synced s w) (hv : s.db.valid w.waifclass = true) (name : Str) :
    s.contentsOf w name = (s.ownValue w name).filter (· ≠ .clear) := by
  obtain ⟨P, hP, hclass⟩ := hs
  obtain ⟨o, ho⟩ := Db.valid_iff.mp hv
  have hrun : updatedWaif w s = some (w, s) := by simp [updatedWaif, ho, hP, hclass]
  rw [contentsOf, hrun, Option.bind_some]

theorem not_stranded_of_synced (hs : Synced s w) : ¬ Stranded s w := by
  rintro ⟨-, hnull, -⟩
  obtain ⟨P, hP, -⟩ := hs
  rw [hP] at hnull
  cases hnull

/-- Bringing a waif up to date changes no entry. -/
theorem update_tracks (h : s.Ok) (hw : s.waifs a = some w) (hs : s.updateWaifPropdefs a = some s') :
    Tracks s s' s.contents := by
  obtain ⟨w', s₁, hrun, hs₁, hup, hok, -⟩ := updateWaifPropdefs_spec h hw
  rw [hs₁] at hs
  cases hs
  have he : Extends s (s₁.putWaif a w') := (hup.generated.extends h.classes).putWaif a w'
  refine ⟨hok, hup.generated.db, fun b wb hwb hv hst => ?_⟩
  by_cases hb : b = a
  · subst hb
    rw [hw] at hwb
    cases hwb
    have hsync : Synced (s₁.putWaif b w') w' := hup.synced hv hst
    have hv' : (s₁.putWaif b w').db.valid w'.waifclass = true := by rwa [he.db, hup.waifclass]
    refine ⟨w', waifs_putWaif_self, hup.waifclass, hup.owner, not_stranded_of_synced hsync,
      fun name => ?_⟩
    rw [contents_eq waifs_putWaif_self, contents_eq hw, contentsOf_of_synced hsync hv', contentsOf,
      hrun, Option.bind_some]
    rfl
  · have hwb' : (s₁.putWaif a w').waifs b = some wb := by
      rw [waifs_putWaif_of_ne hb, hup.generated.waifs, hwb]
    refine ⟨wb, hwb', rfl, rfl, he.stranded hst, fun name => ?_⟩
    rw [contents_eq hwb', contents_eq hwb]
    exact contentsOf_extends h.classes hok.classes he (h.heap.ok b wb hwb)
      (hok.heap.ok b wb hwb') hv hst name

theorem Stored.synced {i : Nat} {val : Var} (hst : Stored s w w' i val) (hs : Synced s w) :
    Synced s w' := by
  obtain ⟨P, hP, hclass⟩ := hs
  exact ⟨P, hst.propdefs.trans hP, by rw [hst.waifclass, hclass]⟩

/-- Storing changes one entry. -/
theorem contents_stored (h : s.ClassesOk) (hsync : Synced s w) (hv : s.db.valid w.waifclass = true)
    {name : Str} {val : Var}
    (hval : val ≠ .clear) {i : Nat} {own : Var} {hd : PropHandle} {pv : Pval} {v : Var}
    (hp : HasProperty s w name i own hd pv v) (hst : Stored s w w' i val) (n : Str) :
    s.contentsOf w' n = if nameKey n = nameKey name then some val else s.contentsOf w n := by
  have hsync' := hst.synced hsync
  obtain ⟨o, ho⟩ := Db.valid_iff.mp hv
  obtain ⟨c, hc⟩ := Db.exists_chain h.inv.kin ho
  have hi : indexOf (s.defsOn c) (prefixedName name) = some i := by
    obtain ⟨P, l, hP, hl, hi⟩ := hp.index
    obtain ⟨Q, hQ, hclass⟩ := hsync
    rw [hP] at hQ
    cases hQ
    rw [(h.cached _ P hclass).2 c hc] at hl
    cases hl
    exact hi
  rw [contentsOf_of_synced hsync' (by rwa [hst.waifclass]), contentsOf_of_synced hsync hv,
    ownValue_synced h hsync' (hst.waifclass ▸ hc), ownValue_synced h hsync hc]
  by_cases hkey : nameKey n = nameKey name
  · rw [if_pos hkey, (indexOf_inj h hi).mpr hkey, Option.bind_some, hst.read, if_pos rfl,
      Option.filter_some_pos (by simpa)]
  · rw [if_neg hkey]
    cases hj : indexOf (s.defsOn c) (prefixedName n) with
    | none => rfl
    | some j =>
      have hne : j ≠ i := by
        rintro rfl
        exact hkey ((indexOf_inj h hi).mp hj)
      rw [Option.bind_some, Option.bind_some, hst.read, if_neg hne]

/-- A waif is replaced, and the other ones are not looked at. -/
theorem store_tracks (h : s.Ok) (hw : s.waifs a = some w) (hsync : Synced s w)
    (hv : s.db.valid w.waifclass = true)
    {name : Str} {val : Var} (hval : val ≠ .clear) {i : Nat} {own : Var} {hd : PropHandle}
    {pv : Pval} {v : Var}
    (hp : HasProperty s w name i own hd pv v) (hst : Stored s w w' i val)
    (hok : (s.putWaif a w').Ok) :
    Tracks s (s.putWaif a w') (s.contents.put a name val) := by
  have he : Extends s (s.putWaif a w') := ((Generated.refl s).extends h.classes).putWaif a w'
  refine ⟨hok, rfl, fun b wb hwb hvb hstb => ?_⟩
  by_cases hb : b = a
  · subst hb
    rw [hw] at hwb
    cases hwb
    have hsync' : Synced s w' := hst.synced hsync
    have hsync'' : Synced (s.putWaif b w') w' := hsync'
    have hv' : s.db.valid w'.waifclass = true := hst.waifclass ▸ hv
    have hsame : ∀ n, (s.putWaif b w').contentsOf w' n = s.contentsOf w' n := fun n => by
      rw [contentsOf_of_synced hsync'' hv', contentsOf_of_synced hsync' hv']
      rfl
    refine ⟨w', waifs_putWaif_self, hst.waifclass, hst.owner,
      not_stranded_of_synced hsync'', fun n => ?_⟩
    rw [contents_eq waifs_putWaif_self, hsame, contents_stored h.classes hsync hv hval hp hst,
      Store.put, contents_eq hw]
    simp only [true_and]
  · have hwb' : (s.putWaif a w').waifs b = some wb := by rw [waifs_putWaif_of_ne hb, hwb]
    refine ⟨wb, hwb', rfl, rfl, he.stranded hstb, fun n => ?_⟩
    rw [contents_eq hwb', Store.put, if_neg fun h => hb h.1, contents_eq hwb]
    exact contentsOf_extends h.classes hok.classes he (h.heap.ok b wb hwb)
      (hok.heap.ok b wb hwb') hvb hstb n

/-- A get changes no entry. -/
theorem get_tracks (h : s.Ok) {name : Str} {progr : Objid} {err : ErrCode} {v : Var}
    (hrun : s.waifGetProp a name progr = some (err, v, s')) : Tracks s s' s.contents := by
  cases hw : s.waifs a with
  | none =>
    rw [waifGetProp, updateWaifPropdefs, hw] at hrun
    cases hrun
  | some w =>
    obtain ⟨w', s₁, -, hs₁, -⟩ := updateWaifPropdefs_spec h hw
    simp only [waifGetProp, hs₁, Option.bind_eq_bind, Option.bind_some,
      Option.bind_eq_some_iff] at hrun
    obtain ⟨w₁, -, r, -, hrun⟩ := hrun
    cases hrun
    exact update_tracks h hw hs₁

/-- A put changes one entry or, with an error, none. -/
theorem put_tracks (h : s.Ok) {name : Str} {val : Var} {progr : Objid} {err : ErrCode}
    (hval : val ≠ .clear)
    (hsub : ∀ b ∈ val.waifs, b < s.nextWaif)
    (hrun : s.waifPutProp a name val progr = some (err, s')) :
    Tracks s s' (s.contents.after (.put a name val progr err)) := by
  cases hw : s.waifs a with
  | none =>
    rw [waifPutProp, updateWaifPropdefs, hw] at hrun
    cases hrun
  | some w =>
    have hok' := waifPutProp_ok h hw hsub hrun
    obtain ⟨w', s₁, -, hs₁, hup, hok, hacc⟩ := updateWaifPropdefs_spec h hw
    have htr := update_tracks h hw hs₁
    simp only [waifPutProp, hs₁, Option.bind_eq_bind, Option.bind_some, waifs_putWaif_self] at hrun
    rcases putProp_cases hok waifs_putWaif_self hup.null_or_synced
      (fun b hb => hacc.nextWaif ▸ hsub b hb) hrun with
      ⟨herr, rfl⟩ | ⟨rfl, hv, hsync, -, i, own, hd, pv, v, w'', hp, hst, rfl⟩
    · rw [Store.after, if_neg herr]
      exact htr
    · rw [Store.after, if_pos rfl]
      refine htr.trans (f := fun st => st.put a name val)
        (store_tracks hok waifs_putWaif_self hsync hv hval hp hst hok')
        fun b n hb => ?_
      simp only [Store.put, hb]

/-- The map after some calls. -/
theorem calls_tracks {s₀ : Server} {l : List Call} (hrun : Calls s l s') (h : Tracks s₀ s st) :
    Tracks s₀ s' (st.replay l) := by
  induction hrun generalizing st with
  | nil => exact h
  | get hcall _ ih => exact ih (h.trans (f := id) (get_tracks h.ok hcall) fun _ _ hb => hb)
  | @put s s₁ s₂ a name val progr err l hval hsub hcall _ ih =>
    refine ih (h.trans (f := fun st => st.after (.put a name val progr err))
      (put_tracks h.ok hval hsub hcall)
      fun b n hb => ?_)
    simp only [Store.after]
    split
    · simp only [Store.put, hb]
    · exact hb

/-! ## Answers -/

theorem permission_eq {name : Str} {i : Nat} {own : Var} {hd : PropHandle} {pv : Pval} {v : Var}
    (hp : HasProperty s w name i own hd pv v) (progr : Objid) (flag : UInt16) :
    s.permission w name progr flag = if s.waifPropertyAllows w pv progr flag then .E_NONE
      else .E_PERM := by
  simp only [permission, hp.found, hp.slot, Option.any_some]

theorem permission_none {name : Str}
    (h : s.db.dbFindProperty w.waifclass (prefixedName name) = some none) (progr : Objid)
    (flag : UInt16) : s.permission w name progr flag = .E_PROPNF := by
  rw [permission, h]

theorem permission_congr (hdb : s'.db = s.db) (hclass : w'.waifclass = w.waifclass)
    (howner : w'.owner = w.owner)
    (name : Str) (progr : Objid) (flag : UInt16) :
    s'.permission w' name progr flag = s.permission w name progr flag := by
  have hallows : ∀ pv, s'.waifPropertyAllows w' pv progr flag =
      s.waifPropertyAllows w pv progr flag := fun pv => by
    unfold waifPropertyAllows
    rw [hdb, howner]
  simp only [permission, hallows]
  rw [hdb, hclass]

theorem expected_congr (hdb : s'.db = s.db) (hclass : w'.waifclass = w.waifclass)
    (howner : w'.owner = w.owner)
    (name : Str) (progr : Objid) (entry : Option Var) :
    s'.expected w' name progr entry = s.expected w name progr entry := by
  rw [expected, expected, permission_congr hdb hclass howner, hdb, hclass]

/-- A get answers as the map does. -/
theorem getProp_expected (h : s.ClassesOk) (hw : WaifOk s w) (hsync : Synced s w)
    (hv : s.db.valid w.waifclass = true)
    {name : Str} (hname : ¬ reserved name) (progr : Objid) :
    s.getProp w name progr = some (s.expected w name progr (s.contentsOf w name)) := by
  rw [contentsOf_of_synced hsync hv]
  rcases hasProperty_or h hw hsync name with ⟨-, hnone, hf⟩ | ⟨i, own, hd, pv, v, hp⟩
  · simp only [reserved, not_or] at hname
    rw [expected, permission_none hf]
    simp [getProp, hname, hv, hnone]
  · rw [getProp_spec progr hname hv hw hp, answer, expected, permission_eq hp, hp.value, hp.own]
    cases hallow : s.waifPropertyAllows w pv progr PF_READ with
    | false => rfl
    | true => by_cases hclear : own = .clear <;> simp [hclear, Option.filter]

/-- What a put answers with some permission, where it is known whether the value leads to the
waif. -/
def PutAnswer (permission : ErrCode) (leads : Option Bool) (err : ErrCode) : Prop :=
  err = permission ∧ ¬ (permission = .E_NONE ∧ leads = some true) ∨ permission = .E_NONE ∧
    err = .E_RECMOVE ∧ leads = some true

/-- A put answers as the permissions say, unless the value leads to the waif. -/
theorem putProp_expected (h : s.Ok) (hw : s.waifs a = some w) (hsync : Synced s w)
    (hv : s.db.valid w.waifclass = true)
    {name : Str} (hname : ¬ reserved name) {val : Var} (hval : ∀ b ∈ val.waifs, b < s.nextWaif)
    (progr : Objid) :
    ∃ err s', s.putProp a w name val progr = some (err, s') ∧
      PutAnswer (s.permission w name progr PF_WRITE) (s.refersTo val a) err := by
  have hok := h.heap.ok a w hw
  rcases hasProperty_or h.classes hok hsync name with ⟨-, hnone, hf⟩ | ⟨i, own, hd, pv, v, hp⟩
  · simp only [reserved, not_or] at hname
    refine ⟨.E_PROPNF, s, by simp [putProp, hname, hv, hnone], .inl ?_⟩
    rw [permission_none hf]
    exact ⟨rfl, fun h => by cases h.1⟩
  · obtain ⟨b, href, -⟩ := refersTo_spec h.heap a hval
    obtain ⟨w', -, hput⟩ := putProp_spec progr hname hv hok hp href
    rw [permission_eq hp, hput, href]
    cases hallow : s.waifPropertyAllows w pv progr PF_WRITE with
    | false => exact ⟨_, _, rfl, .inl ⟨rfl, fun h => by cases h.1⟩⟩
    | true =>
      cases b with
      | false => exact ⟨_, _, rfl, .inl ⟨rfl, fun h => by cases h.2⟩⟩
      | true => exact ⟨_, _, rfl, .inr ⟨rfl, rfl, rfl⟩⟩

/-- Nothing has been put into a new waif. -/
theorem newWaif_contents (h : s.Ok) {x owner : Objid}
    (hrun : s.bfNewWaif x owner = some (.ok a, s')) (name : Str) :
    s'.contents a name = none := by
  rw [bfNewWaif] at hrun
  split at hrun
  · cases hrun
  · next hx =>
    obtain ⟨o, ho⟩ := Db.valid_iff.mp (by simpa using hx)
    obtain ⟨w, s₁, hs₁, hok, hw, hclass, hsync, hclear⟩ := newWaif_spec h ho
    rw [hs₁] at hrun
    cases hrun
    have hv : s₁.db.valid w.waifclass = true := by
      obtain ⟨P, -, hP⟩ := hsync
      exact Db.valid_iff.mpr (hok.classes.cached _ P hP).1
    rw [contents_eq hw, contentsOf_of_synced hsync hv]
    rcases hasProperty_or hok.classes (hok.heap.ok _ _ hw) hsync name with ⟨hnone, -⟩ | ⟨i,
      own, hd, pv, v, hp⟩
    · rw [hnone]
      rfl
    · obtain ⟨P, l, hP, hl, hi⟩ := hp.index
      have hown := hp.own
      simp only [ownValue, propdefsOf, hP, hl, hi, Option.bind_eq_bind, Option.bind_some,
        Packed.read] at hown
      have hc : own = .clear := by
        split at hown
        · exact (Option.some.inj hown).symm
        · exact hclear own (List.mem_of_getElem? hown)
      rw [hp.own, hc]
      rfl

/-- After any calls, a waif that can be brought up to date answers a get as the map does. -/
theorem Calls.get_expected (h : s.Ok) {l : List Call} (hcalls : Calls s l s')
    (hw : s.waifs a = some w)
    (hv : s.db.valid w.waifclass = true) (hst : ¬ Stranded s w) {name : Str}
    (hname : ¬ reserved name) (progr : Objid) :
    ∃ s'', s'.waifGetProp a name progr =
      some ((s.expected w name progr (s.contents.replay l a name)).1,
      (s.expected w name progr (s.contents.replay l a name)).2, s'') := by
  have htr := calls_tracks hcalls (.refl h)
  obtain ⟨w', hw', hclass, howner, hst', hcont⟩ := htr.waif a w hw hv hst
  have hv' : s'.db.valid w'.waifclass = true := by rwa [htr.db, hclass]
  obtain ⟨w'', s₁, -, hs₁, hup, hok, -⟩ := updateWaifPropdefs_spec htr.ok hw'
  obtain ⟨u, hu, -, -, -, hcont'⟩ := (update_tracks htr.ok hw' hs₁).waif a w' hw' hv' hst'
  rw [waifs_putWaif_self] at hu
  cases hu
  have hsync : Synced (s₁.putWaif a w'') w'' := hup.synced hv' hst'
  have hget := getProp_expected hok.classes (hok.heap.ok a w'' waifs_putWaif_self) hsync (by
    rw [hup.waifclass]
    exact hup.generated.db ▸ hv') hname progr
  have hdb : (s₁.putWaif a w'').db = s.db := hup.generated.db.trans htr.db
  rw [← contents_eq waifs_putWaif_self, hcont', hcont,
    expected_congr hdb (hup.waifclass.trans hclass) (hup.owner.trans howner)] at hget
  refine ⟨s₁.putWaif a w'', ?_⟩
  rw [waifGetProp, hs₁, Option.bind_eq_bind, Option.bind_some, waifs_putWaif_self,
    Option.bind_eq_bind, Option.bind_some,
    hget]
  rfl

/-- After any calls, such a waif answers a put as the permissions say, unless the value leads to
it. -/
theorem Calls.put_expected (h : s.Ok) {l : List Call} (hcalls : Calls s l s')
    (hw : s.waifs a = some w)
    (hv : s.db.valid w.waifclass = true) (hst : ¬ Stranded s w) {name : Str}
    (hname : ¬ reserved name) {val : Var}
    (hval : ∀ b ∈ val.waifs, b < s'.nextWaif) (progr : Objid) :
    ∃ err s'' s₁, s'.updateWaifPropdefs a = some s₁ ∧ s'.waifPutProp a name val progr =
      some (err, s'') ∧
      PutAnswer (s.permission w name progr PF_WRITE) (s₁.refersTo val a) err := by
  have htr := calls_tracks hcalls (.refl h)
  obtain ⟨w', hw', hclass, howner, hst', -⟩ := htr.waif a w hw hv hst
  have hv' : s'.db.valid w'.waifclass = true := by rwa [htr.db, hclass]
  obtain ⟨w'', s₁, -, hs₁, hup, hok, hacc⟩ := updateWaifPropdefs_spec htr.ok hw'
  have hsync : Synced (s₁.putWaif a w'') w'' := hup.synced hv' hst'
  obtain ⟨err, s'', hput, herr⟩ := putProp_expected hok waifs_putWaif_self hsync (by
    rw [hup.waifclass]
    exact hup.generated.db ▸ hv') hname (fun b hb => hacc.nextWaif ▸ hval b hb) progr
  have hdb : (s₁.putWaif a w'').db = s.db := hup.generated.db.trans htr.db
  rw [permission_congr hdb (hup.waifclass.trans hclass) (hup.owner.trans howner)] at herr
  refine ⟨err, s'', _, hs₁, ?_, herr⟩
  rw [waifPutProp, hs₁, Option.bind_eq_bind, Option.bind_some, waifs_putWaif_self,
    Option.bind_eq_bind, Option.bind_some,
    hput]

/-- A put to a name that the waif answers by itself is refused. -/
theorem putProp_reserved {name : Str} (hname : reserved name) (val : Var) (progr : Objid) :
    s.putProp a w name val progr = some (.E_PERM, s) := by
  unfold putProp
  rcases hname with h | h | h
  · rw [if_pos (.inl h)]
    rfl
  · rw [if_pos (.inr h)]
    rfl
  · rw [if_pos h, ite_self]
    rfl

theorem Ok.refusesPuts (h : s.Ok) : s.RefusesPuts where
  reserved l s' hcalls a w hw hv hst name hname val progr := by
    have htr := calls_tracks hcalls (.refl h)
    obtain ⟨w', hw', -⟩ := htr.waif a w hw hv hst
    obtain ⟨w'', s₁, -, hs₁, -⟩ := updateWaifPropdefs_spec htr.ok hw'
    refine ⟨s₁.putWaif a w'', ?_⟩
    rw [waifPutProp, hs₁, Option.bind_eq_bind, Option.bind_some, waifs_putWaif_self,
      Option.bind_eq_bind, Option.bind_some,
      putProp_reserved hname]
  leads l s' hcalls a w hw hv hst name hname val progr hval hperm s₁ hs₁ hleads := by
    obtain ⟨err, s'', s₂, hs₂, hput, hanswer⟩ := hcalls.put_expected h hw hv hst hname hval progr
    obtain rfl := Option.some.inj (hs₁.symm.trans hs₂)
    rcases hanswer with ⟨-, hno⟩ | ⟨-, rfl, -⟩
    · exact absurd ⟨hperm, hleads⟩ hno
    · exact ⟨s'', hput⟩

theorem Ok.answersAsMap (h : s.Ok) : s.RefinesMap fun name => ¬ reserved name where
  new _ _ _ _ hrun := newWaif_contents h hrun
  get _ _ hcalls _ _ hw hv hst _ hname progr := hcalls.get_expected h hw hv hst hname progr
  put l s' hcalls a w hw hv hst name hname val progr hval := by
    obtain ⟨err, s'', s₁, hs₁, hput, hanswer⟩ := hcalls.put_expected h hw hv hst hname hval progr
    exact ⟨err, s'', hput, hanswer.imp And.left fun h => ⟨h.1, h.2.1, s₁, hs₁, h.2.2⟩⟩

/-- After any calls, a waif that can be brought up to date answers as the map does, and refuses what
it has to. -/
theorem Reachable.refinesMap (h : Reachable s) :
    (s.RefinesMap fun name => ¬ reserved name) ∧ s.RefusesPuts :=
  ⟨h.ok.answersAsMap, h.ok.refusesPuts⟩

theorem refinesMap_linked : linked.contents 0 [97] = some (.list [.waif 1]) ∧
    (linked.RefinesMap fun name => ¬ reserved name) ∧ linked.RefusesPuts :=
  ⟨by decide, reachable_linked.refinesMap⟩

/-! ## Names that a waif answers by itself -/

/-- ":owner" is the string at every address. -/
def ownerStart : Server := empty (fun _ => 58 :: OWNER) fun _ => 0

/-- An object with the property ":owner" and a waif of it. -/
def ownerServer : Server :=
  next (.newWaif 0 0) <| next (.addPropdef 0 0 (.int 5) 0 3) <| next (.createObject 0) ownerStart

theorem reachable_ownerServer : Reachable ownerServer :=
  (((Reachable.empty _ _).next (.createObject 0) trivial rfl).next (.addPropdef 0 0 (.int 5) 0 3)
    ⟨Db.valid_iff.mp (by decide), by decide⟩ (by decide)).next (.newWaif 0 0)
      (Db.valid_iff.mp (by decide)) (by decide)

/-- The property "owner" of the class is never read. -/
theorem owner_hides_property : ¬ ∀ s, Reachable s → s.RefinesMap fun _ => True := by
  intro hall
  obtain ⟨s', hget⟩ := (hall ownerServer reachable_ownerServer).get [] ownerServer (.nil _) 0
    ((ownerServer.waifs 0).get (by decide)) (by simp) (by decide)
      (fun h => absurd h.2.1 (by decide)) OWNER trivial 0
  have hanswer : (ownerServer.waifGetProp 0 OWNER 0).map (fun r => r.2.1) = some (.obj 0) := by
    decide
  have hclass : (ownerServer.expected ((ownerServer.waifs 0).get (by decide)) OWNER 0
      (ownerServer.contents.replay [] 0 OWNER)).2 = .int 5 := by decide
  rw [hget, Option.map_some, hclass] at hanswer
  cases hanswer

end Server

end NuMoo
