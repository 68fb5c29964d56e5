import Mathlib.Data.List.Find
import NuMoo.Db.Safety

/-!
# The verb cache

An entry of the cache is right when it holds what the walk from its key finds by
the text of the name. A lookup by a string that is itself stored as the name of
a verb may find that verb whatever the text says, as `verbcasecmp` then compares
no text; a lookup that does not, and every other operation, keeps all entries
right.

Results:
1. `verbMatches_congr`: the text of a word matters up to case only.
2. `CacheOk.of_undisturbed`, `CacheOk.find`: operations and lookups keep the entries right.
3. `CleanRun.transparent`: in a run without such lookups the cache is transparent.
-/

namespace NuMoo

open Linked

/-! ## Matching by text -/

theorem nameKey_eq_nil {w : Str} : nameKey w = [] ↔ w.headD 0 = 0 := by
  cases w with
  | nil => simp
  | cons c w =>
    rw [nameKey_cons, List.headD_cons]
    by_cases h : c = 0 <;> simp [h]

/-- A word is read up to case and up to its end. -/
theorem matchWord_congr {w w' : Str} (h : nameKey w = nameKey w') (v : Str) (star : Star) :
    (matchWord v w star).1 = (matchWord v w' star).1 ∧ (matchWord v w star).2.2 =
      (matchWord v w' star).2.2 ∧
      nameKey (matchWord v w star).2.1 = nameKey (matchWord v w' star).2.1 := by
  induction w generalizing w' v star with
  | nil =>
    cases w' with
    | nil => exact ⟨rfl, rfl, rfl⟩
    | cons c w' =>
      obtain rfl : c = 0 := by simpa using nameKey_eq_nil.mp h.symm
      simp [matchWord, nameKey_cons]
  | cons c w ih =>
    cases w' with
    | nil =>
      obtain rfl : c = 0 := by simpa using nameKey_eq_nil.mp h
      simp [matchWord, nameKey_cons]
    | cons c' w' =>
      have hkey := h
      rw [nameKey_cons, nameKey_cons] at h
      by_cases hc : c = 0
      · subst hc
        obtain rfl : c' = 0 := by
          by_contra hc'
          simp [hc'] at h
        simp [matchWord, nameKey_cons]
      by_cases hc' : c' = 0
      · simp [hc, hc'] at h
      rw [if_neg hc, if_neg hc', List.cons.injEq] at h
      simp only [matchWord, hc, hc', h.1, beq_eq_false_iff_ne.mpr, ne_eq, not_false_eq_true]
      split
      · exact ⟨rfl, rfl, hkey⟩
      · exact ih h.2 _ _

theorem scanNames_congr {w w' : Str} (h : nameKey w = nameKey w') (n : Nat) (v : Str) :
    scanNames w n v = scanNames w' n v := by
  induction n generalizing v with
  | zero => rfl
  | succ n ih =>
    obtain ⟨hv, hstar, hrest⟩ := matchWord_congr h v .none
    have hend : (matchWord v w .none).2.1.headD 0 = 0 ↔ (matchWord v w' .none).2.1.headD 0 = 0 := by
      rw [← nameKey_eq_nil, ← nameKey_eq_nil, hrest]
    simp only [scanNames, hv, hstar, hend, ih]

theorem verbMatches_congr {w w' : Str} (h : nameKey w = nameKey w') (verb : Str) :
    verbMatches verb w = verbMatches verb w' := scanNames_congr h _ verb

namespace Db

/-- The first executable verb of an object that the text of a word matches. -/
def textLookup (word : Str) (o : Object) : Option Handle :=
  (o.verbdefs.find? fun v => verbMatches v.name.text word && v.perms &&& VF_EXEC != 0).map fun v =>
    ⟨o.id, v.addr⟩

/-- The first verb on a chain that the text of a word matches. -/
def textSearch (db : Db) (word : Str) (l : List Objid) : Option Handle :=
  l.findSome? fun x => (db.find x).bind (textLookup word)

/-- No verb on the walk is named by the string that is looked up itself, unless its text matches
too. -/
def NoAlias (db : Db) (oid : Objid) (verb : MooStr) : Prop :=
  ∀ os, db.lineage db.bound oid = some os → ∀ o ∈ os, ∀ v ∈ o.verbdefs, v.perms &&& VF_EXEC ≠ 0 →
    v.name.addr = verb.addr → verbMatches v.name.text verb.text = true

/-- The entry holds what the walk from its key finds, and the key is a first object with verbs. -/
def EntryOk (db : Db) (vc : VcEntry) : Prop :=
  ∃ l, Chain db.parentOf NOTHING vc.oidKey l ∧ vc.h = db.textSearch vc.verbname l ∧
    ∀ o, db.find vc.oidKey = some o → o.verbdefs ≠ []

/-- Every entry of the cache is right. -/
def CacheOk (db : Db) : Prop :=
  ∀ table, db.vcTable = some table → ∀ b, ∀ vc ∈ table b, db.EntryOk vc

variable {db db' : Db} {oid : Objid} {o : Object}

/-! ## Operations -/

theorem textLookup_of_view {o o' : Object} (h : lookupView o' = lookupView o) (word : Str) :
    textLookup word o' = textLookup word o := by
  let find (r : Objid × Objid × List (Nat × MooStr × Bool)) : Option Handle :=
    (r.2.2.find? fun v => verbMatches v.2.1.text word && v.2.2).map fun v => ⟨r.1, v.1⟩
  have hfind : ∀ o, textLookup word o = find (lookupView o) := by
    intro o
    simp only [textLookup, find, lookupView, List.find?_map, Option.map_map]
    rfl
  rw [hfind, hfind, h]

theorem findSome?_congr {α β : Type} {f g : α → Option β} {l : List α} (h : ∀ a ∈ l, f a = g a) :
    l.findSome? f = l.findSome? g := by
  induction l with
  | nil => rfl
  | cons a l ih =>
    rw [List.findSome?_cons, List.findSome?_cons, h a List.mem_cons_self,
      ih fun b hb => h b (List.mem_cons_of_mem _ hb)]

theorem textSearch_of_view {l : List Objid}
    (h : ∀ y ∈ l, (db'.find y).map lookupView = (db.find y).map lookupView)
    (word : Str) : db'.textSearch word l = db.textSearch word l := by
  refine findSome?_congr fun y hy => ?_
  cases ho : db.find y with
  | none =>
    have := h y hy
    rw [ho, Option.map_none, Option.map_eq_none_iff] at this
    rw [this]
  | some o =>
    obtain ⟨o', ho', hv⟩ := exists_find_of_map (h y hy) ho
    rw [ho', Option.bind_some, Option.bind_some, textLookup_of_view hv]

/-- An operation that leaves the cache undisturbed keeps its entries right. -/
theorem CacheOk.of_undisturbed (hc : db.CacheOk) (hu : db.Undisturbed db') : db'.CacheOk := by
  intro table ht b vc hvc
  rcases hu with hflushed | ⟨htable, hview⟩
  · rw [hflushed table ht b] at hvc
    cases hvc
  obtain ⟨l, hl, hh, hverbs⟩ := hc table (htable ▸ ht) b vc hvc
  cases ho : db.find vc.oidKey with
  | none =>
    have hnil : vc.oidKey = NOTHING := by
      by_contra hne
      obtain ⟨p, m, -, hp, -⟩ := (Chain.cons_iff hne).mp hl
      obtain ⟨o, ho', -⟩ := exists_of_parentOf hp
      rw [ho] at ho'
      cases ho'
    rw [hnil] at hl
    obtain rfl := Chain.nil_iff.mp hl
    refine ⟨[], by rw [hnil]; exact .done, hh, fun o ho' => ?_⟩
    rw [hnil, find_nothing] at ho'
    cases ho'
  | some o =>
    have hview := hview vc.oidKey o l ho (hverbs o ho) hl
    refine ⟨l, chain_of_view hl hview, by rw [hh, textSearch_of_view hview], fun o' ho' => ?_⟩
    obtain ⟨m, rfl, -⟩ := chain_cons ho hl
    obtain ⟨o'', ho'', hv⟩ := exists_find_of_map (hview vc.oidKey List.mem_cons_self) ho
    rw [ho'] at ho''
    cases ho''
    exact verbdefs_of_view hv (hverbs o ho)

/-! ## Lookups -/

/-- The walk skips objects without verbs. -/
theorem searchVerbs_dropWhile (verb : MooStr) (os : List Object) :
    searchVerbs verb (os.dropWhile fun o => o.verbdefs.isEmpty) = searchVerbs verb os := by
  induction os with
  | nil => rfl
  | cons o os ih =>
    rw [List.dropWhile_cons]
    split
    · next h =>
      rw [ih, searchVerbs, searchVerbs, List.findSome?_cons, findVerbdefByName,
        List.isEmpty_iff.mp h]
      rfl
    · rfl

/-- Without an alias the walk finds what the text matches. -/
theorem searchVerbs_eq {verb : MooStr} {l : List Objid} {os : List Object}
    (hos : List.Forall₂ (fun x o => db.find x = some o) l os)
    (halias : ∀ o ∈ os, ∀ v ∈ o.verbdefs, v.perms &&& VF_EXEC ≠ 0 → v.name.addr = verb.addr →
      verbMatches v.name.text verb.text = true) :
    searchVerbs verb os = db.textSearch verb.text l := by
  induction hos with
  | nil => rfl
  | @cons x o l os ho _ ih =>
    have hverb : ∀ v ∈ o.verbdefs,
        (verbcasecmp v.name verb && (!true || v.perms &&& VF_EXEC != 0)) =
        (verbMatches v.name.text verb.text && v.perms &&& VF_EXEC != 0) := by
      intro v hv
      unfold verbcasecmp
      split
      · next haddr =>
        by_cases hx : v.perms &&& VF_EXEC = 0
        · simp [hx]
        · rw [halias o List.mem_cons_self v hv hx haddr]
          rfl
      · rfl
    have hfind : (findVerbdefByName o verb true).map (fun v => (⟨o.id, v.addr⟩ : Handle)) =
        textLookup verb.text o := by
      rw [findVerbdefByName, textLookup, List.find?_congr hverb]
    rw [searchVerbs, List.findSome?_cons, hfind, textSearch, List.findSome?_cons, ho,
      Option.bind_some]
    rw [← textSearch, ← ih fun o' ho' => halias o' (List.mem_cons_of_mem _ ho'), searchVerbs]

theorem textSearch_congr {w w' : Str} (h : nameKey w = nameKey w') (l : List Objid) :
    db.textSearch w l = db.textSearch w' l := by
  refine findSome?_congr fun x _ => ?_
  cases db.find x with
  | none => rfl
  | some o =>
    simp only [Option.bind_some, textLookup, verbMatches_congr h]

/-- The key of a lookup, and the rest of the walk from there. -/
theorem exists_key (hi : db.Inv) {l : List Objid} {os : List Object}
    (hos : List.Forall₂ (fun x o => db.find x = some o) l os)
    (hc : l = [] ∨ Chain db.parentOf NOTHING oid l) :
    ∃ key l', firstParentWithVerbs (os.dropWhile fun o => o.verbdefs.isEmpty) = key ∧
      Chain db.parentOf NOTHING key l' ∧
      List.Forall₂ (fun x o => db.find x = some o) l' (os.dropWhile fun o => o.verbdefs.isEmpty) ∧
      ∀ o, db.find key = some o → o.verbdefs ≠ [] := by
  induction hos generalizing oid with
  | nil =>
    refine ⟨NOTHING, [], rfl, .done, .nil, fun o ho => ?_⟩
    rw [find_nothing] at ho
    cases ho
  | @cons x o l os ho hos ih =>
    obtain hc : Chain db.parentOf NOTHING oid (x :: l) := hc.resolve_left (List.cons_ne_nil _ _)
    cases hc with
    | @step _ b _ hne hb hm =>
      rw [List.dropWhile_cons]
      split
      · exact ih (.inr hm)
      · next hv =>
        refine ⟨x, x :: l, hi.ids x o ho, .step hne hb hm, .cons ho hos, fun o' ho' => ?_⟩
        rw [ho] at ho'
        cases ho'
        simpa using hv

/-- A lookup without an alias returns what the walk finds, and keeps the entries right. -/
theorem CacheOk.find (hi : db.Inv) (hc : db.CacheOk) {verb : MooStr}
    (halias : db.NoAlias oid verb) :
    ∃ h db', db.dbFindCallableVerb oid verb = some (h, db') ∧
      db.findCallableVerbUncached oid verb = some h ∧
      db'.CacheOk := by
  obtain ⟨l, os, hos, hall, hl⟩ := exists_lineage hi.kin oid
  obtain ⟨key, l', hkey, hchain, hrest, hverbs⟩ := exists_key hi hall (hl.imp_left And.right)
  have hsearch : searchVerbs verb (os.dropWhile fun o => o.verbdefs.isEmpty) =
      db.textSearch verb.text l' :=
    searchVerbs_eq hrest fun o ho => halias os hos o ((List.dropWhile_sublist _).subset ho)
  have huncached : db.findCallableVerbUncached oid verb = some (db.textSearch verb.text l') := by
    rw [findCallableVerbUncached, hos, Option.map_some, ← searchVerbs_dropWhile, hsearch]
  have htable : ∀ b, ∀ vc ∈ (db.vcTable.getD fun _ => []) b, db.EntryOk vc := by
    cases ht : db.vcTable with
    | none => simp
    | some table => exact hc table ht
  simp only [dbFindCallableVerb, hos, Option.bind_eq_bind, Option.bind_some, hkey]
  split
  · next vc hfind =>
    refine ⟨_, _, rfl, ?_, fun table ht => ?_⟩
    · obtain ⟨m, hm, hh, -⟩ := htable _ vc (List.mem_of_find?_eq_some hfind)
      have hhit := List.find?_some hfind
      simp only [Bool.and_eq_true, beq_iff_eq] at hhit
      rw [← hhit.1.2] at hm
      rw [huncached, hh, hm.unique hchain, textSearch_congr (mystrcasecmp_eq_zero.mp hhit.2)]
    · obtain rfl := Option.some.inj ht
      exact htable
  · refine ⟨_, _, rfl, huncached.trans (congrArg some hsearch.symm), fun table ht b vc hvc => ?_⟩
    obtain rfl := Option.some.inj ht
    rw [Function.update_apply] at hvc
    split at hvc
    · rcases List.mem_cons.mp hvc with rfl | hvc
      · exact ⟨l', hchain, hsearch, hverbs⟩
      · exact htable _ vc hvc
    · exact htable b vc hvc

end Db

/-! ## Runs -/

/-- No lookup is made by the string that names a verb on its walk, unless the text matches. -/
def Act.Clean (a : Act) (s : DbState) : Prop :=
  match a with
  | .findCallableVerb oid verb => s.db.NoAlias oid verb
  | _ => True

/-- States reachable by allowed operations of which every lookup is clean. -/
inductive CleanRun : DbState → Prop
  | empty : CleanRun ⟨.empty, []⟩
  | step {s s' : DbState} (a : Act) : CleanRun s → a.Allowed s → a.Clean s →
      a.run s = some s' → CleanRun s'

open Db

variable {s : DbState}

/-- One clean operation keeps the entries of the cache right. -/
theorem Act.run_cacheOk {a : Act} {s' : DbState} (hi : s.db.Inv) (hc : s.db.CacheOk)
    (ha : a.Allowed s)
    (hclean : a.Clean s) (h : a.run s = some s') : s'.db.Inv ∧ s'.db.CacheOk := by
  obtain ⟨s'', hs'', hi', hu⟩ := a.run_spec hi ha
  rw [h] at hs''
  cases hs''
  refine ⟨hi', ?_⟩
  rcases hu with hu | ⟨oid, verb, rfl⟩
  · exact hc.of_undisturbed hu
  · obtain ⟨r, db', hr, -, hc'⟩ := hc.find hi hclean
    simp only [run, hr, Option.map_some, Option.some.injEq] at h
    exact h ▸ hc'

theorem CleanRun.inv (h : CleanRun s) : s.db.Inv ∧ s.db.CacheOk := by
  induction h with
  | empty => exact ⟨inv_empty, fun table ht => by cases ht⟩
  | step a _ ha hclean hrun ih => exact a.run_cacheOk ih.1 ih.2 ha hclean hrun

/-- In a run whose lookups are clean, a clean lookup returns what the walk finds. -/
theorem CleanRun.transparent (h : CleanRun s) {oid : Objid} {verb : MooStr}
    (hclean : s.db.NoAlias oid verb) :
    ∃ r db', s.db.dbFindCallableVerb oid verb = some (r, db') ∧
      s.db.findCallableVerbUncached oid verb = some r := by
  obtain ⟨r, db', hr, hw, -⟩ := h.inv.2.find h.inv.1 hclean
  exact ⟨r, db', hr, hw⟩

/-! ## A lookup by the name of a verb itself -/

/-- A name with a space in it, which no text matches as a whole. -/
def fooBar : Str := [102, 111, 111, 32, 98, 97, 114]

/-- One object with one executable verb of that name. -/
def verbOwner : Db where
  objects := [
    some { id := 0, owner := 0, location := NOTHING, contents := NOTHING, next := NOTHING,
           parent := NOTHING,
           child := NOTHING, sibling := NOTHING, name := [], flags := 0,
           verbdefs :=
             [{ addr := 100, name := ⟨7, fooBar⟩, program := none, owner := 0,
                perms := VF_EXEC, prep := 0 }],
           propdefs := [], propval := [] }]
  allUsers := []
  vcTable := none
  nextPid := 0

theorem cleanRun_verbOwner : CleanRun ⟨verbOwner, []⟩ := by
  have h := CleanRun.step (.createObject 0) .empty trivial trivial rfl
  refine .step (.addVerb 0 100 ⟨7, fooBar⟩ 0 VF_EXEC 0 0 0) h ⟨⟨_, rfl⟩, ?_⟩ trivial rfl
  rintro definer ⟨o, ho, v, hv, -⟩
  replace ho : (empty.dbCreateObject 0).2.find definer = some o := ho
  rw [find_create] at ho
  split at ho
  · cases ho
    cases hv
  · rw [find_empty] at ho
    cases ho

theorem CleanRun.reachable (h : CleanRun s) : Reachable s := by
  induction h with
  | empty => exact .empty
  | step a _ ha _ hrun ih => exact .step a ih ha hrun

/-- A string other than the name has no verb by its own address. -/
theorem noAlias_verbOwner {verb : MooStr} (h : verb.addr ≠ 7) : verbOwner.NoAlias 0 verb := by
  rintro os hos o ho v hv - haddr
  obtain rfl : [(verbOwner.find 0).get rfl] = os := Option.some.inj hos
  obtain rfl := List.mem_singleton.mp ho
  obtain rfl := List.mem_singleton.mp hv
  exact absurd haddr.symm h

/-- The same after a lookup of `foo`, which has made an entry. -/
def verbOwnerLooked : Db := ((verbOwner.dbFindCallableVerb 0 ⟨8, foo⟩).get rfl).2

theorem cleanRun_verbOwnerLooked : CleanRun ⟨verbOwnerLooked, []⟩ :=
  .step (.findCallableVerb 0 ⟨8, foo⟩) cleanRun_verbOwner
    trivial (noAlias_verbOwner (by decide)) rfl

/-- Another lookup of `foo` finds the verb by the entry, and without the cache. -/
theorem transparent_verbOwner : verbOwnerLooked.vcTable.isSome ∧
    verbOwnerLooked.findCallableVerbUncached 0 ⟨9, foo⟩ = some (some ⟨0, 100⟩) ∧
    ∃ r db', verbOwnerLooked.dbFindCallableVerb 0 ⟨9, foo⟩ = some (r, db') ∧
      verbOwnerLooked.findCallableVerbUncached 0 ⟨9, foo⟩ = some r :=
  ⟨rfl, rfl, CleanRun.transparent cleanRun_verbOwnerLooked (noAlias_verbOwner (by decide))⟩

/-- After a lookup by the very string that is stored as the name, a copy of the string
finds the verb in the cache, and without the cache it does not. -/
theorem cache_not_transparent :
    ¬ ∀ s, Reachable s → ∀ oid verb r db', s.db.dbFindCallableVerb oid verb = some (r, db') →
    s.db.findCallableVerbUncached oid verb = some r := by
  intro h
  have hrun :=
    Reachable.step (.findCallableVerb 0 ⟨7, fooBar⟩) cleanRun_verbOwner.reachable trivial rfl
  have hcached := h _ hrun 0 ⟨8, fooBar⟩ (some ⟨0, 100⟩) _ rfl
  have hwalk : verbOwner.findCallableVerbUncached 0 ⟨8, fooBar⟩ = some none := rfl
  cases hwalk.symm.trans hcached

end NuMoo
