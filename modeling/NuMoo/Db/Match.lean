import NuMoo.Code.Value
import NuMoo.Db.Dbio
import NuMoo.Db.Safety
import NuMoo.Lib.Sole
import NuMoo.Net.Index

/-!
# Matching objects

`match_object` of `match.c`: the object that a command means by a name, among those in the contents
of the player and of where the player is.

Results:
1. `matchNames_spec`, `forAllContents_spec`: what the scan keeps tells what it has come across.
2. `matchObject_spec`: the only object that has the name, or else the only one with a name that
   begins so; the order of the contents and of the names does not matter.
-/

namespace NuMoo

open Linked
open Net (strncmpZero)
open Decimal (isSpace)

def AMBIGUOUS : Objid := -2
def FAILED_MATCH : Objid := -3

/-- `strtol` for base 10, with where it stops; a text without a number is not touched. -/
def strtol (s : Str) : Int × Str :=
  match Decimal.scan (s.dropWhile isSpace) with
  | (some n, rest) => (boundNum n, rest)
  | (none, _) => (0, s)

/-- `struct match_data`; `lname` is the length of the name as a C string. -/
structure MatchData where
  name : Str
  exact : Objid
  partial_ : Objid
deriving DecidableEq, Repr

def MatchData.lname (d : MatchData) : Nat := (cstr d.name).length

/-- The loop of `match_proc` over the names of an object, of which some aliases are no strings;
whether it stops the scan. -/
def matchNames (oid : Objid) : List (Option Str) → MatchData → Bool × MatchData
  | [], d => (false, d)
  | none :: names, d => matchNames oid names d
  | some name :: names, d =>
    if strncmpZero false (name ++ [0]) d.name d.lname then
      if (name ++ [0])[d.lname]? = some 0 then
        if d.exact = NOTHING ∨ d.exact = oid then matchNames oid names { d with exact := oid }
          else (true, d)
      else matchNames oid names
        { d with partial_ := if d.partial_ = FAILED_MATCH ∨ d.partial_ = oid then oid
                   else AMBIGUOUS }
    else matchNames oid names d

/-- The text of a string. -/
def Var.text? : Var → Option Str
  | .str s => some s
  | _ => Option.none

namespace Db

/-- `aliases` -/
def aliases (oid : Objid) (db : Db) : Option (List Var) :=
  (db.dbFindPropertyValue oid [97, 108, 105, 97, 115, 101, 115]).map fun
    | some (_, .list value) => value
    | _ => []

/-- `match_proc` -/
def matchProc (oid : Objid) (d : MatchData) (db : Db) : Option (Bool × MatchData) := do
  let names ← db.aliases oid
  let o ← db.find oid
  return matchNames oid (some o.name :: names.map Var.text?) d

/-- `db_for_all_contents` from an object of the list on, with what the function says of whether to
stop. -/
def forAllContents {σ : Type} (func : Objid → σ → Option (Bool × σ)) (db : Db) :
    Nat → Objid → σ → Option (Bool × σ)
  | 0, _, _ => none
  | n + 1, c, s =>
    if c = NOTHING then some (false, s)
    else do
      let (stop, s) ← func c s
      if stop then return (true, s)
      let o ← db.find c
      db.forAllContents func n o.next s

/-- The loop of `match_contents` over the player and the location. -/
def matchInside (db : Db) : List Objid → MatchData → Option (Bool × MatchData)
  | [], d => some (false, d)
  | oid :: oids, d =>
    match db.find oid with
    | none => db.matchInside oids d
    | some o => do
      let (stop, d) ← db.forAllContents (fun c d => db.matchProc c d) db.bound o.contents d
      if stop then return (true, d)
      db.matchInside oids d

/-- `match_contents` -/
def matchContents (player : Objid) (name : Str) (db : Db) : Option Objid :=
  match db.find player with
  | none => some FAILED_MATCH
  | some o => do
    let (stop, d) ← db.matchInside [player, o.location]
      { name, exact := NOTHING, partial_ := FAILED_MATCH }
    return if stop then AMBIGUOUS else if d.exact ≠ NOTHING then d.exact else d.partial_

/-- `match_object` -/
def matchObject (player : Objid) (name : Str) (db : Db) : Option Objid :=
  if name.headD 0 = 0 then some NOTHING
  else if name.headD 0 = 35 then
    let (r, p) := strtol name.tail
    some (if p.headD 0 ≠ 0 ∨ !db.valid r then FAILED_MATCH else r)
  else
    match db.find player with
    | none => some FAILED_MATCH
    | some o =>
      if mystrcasecmp name [109, 101] = 0 then some player
      else if mystrcasecmp name [104, 101, 114, 101] = 0 then some o.location
      else db.matchContents player name

/-! ## What a name means -/

/-- The list is the contents of an object. -/
def Contents (db : Db) (w : Objid) (l : List Objid) : Prop :=
  ∃ o, db.find w = some o ∧ Chain (db.links place).next NOTHING o.contents l

/-- The names of an object: its name and the strings among its aliases. -/
def namesOf (db : Db) (oid : Objid) : Option (List Str) := do
  let names ← db.aliases oid
  let o ← db.find oid
  return o.name :: names.filterMap Var.text?

/-- The objects in the contents of one of these. -/
def Inside (db : Db) (ws : List Objid) : Set Objid := {x | ∃ w ∈ ws, ∃ l, db.Contents w l ∧ x ∈ l}

/-- The objects in the contents of the player and of where the player is. -/
def Near (db : Db) (player : Objid) : Set Objid :=
  {x | ∃ o, db.find player = some o ∧ x ∈ db.Inside [player, o.location]}

/-- An object has such a name or alias. -/
def HasName (db : Db) (P : Str → Prop) (oid : Objid) : Prop :=
  ∃ names, db.namesOf oid = some names ∧ ∃ n ∈ names, P n

end Db

/-- A name is equal to the text, up to case. -/
def IsName (name n : Str) : Prop := nameKey n = nameKey name

/-- A name begins with the text, up to case, and is longer. -/
def IsLonger (name n : Str) : Prop := nameKey name <+: nameKey n ∧ nameKey n ≠ nameKey name

/-- The only element of the first set, or of the second if there is none in the first. -/
def Means (exact longer : Set Objid) (r : Objid) : Prop :=
  (exact.Nontrivial ∧ r = AMBIGUOUS) ∨ exact = {r} ∨
    (exact = ∅ ∧ ((longer.Nontrivial ∧ r = AMBIGUOUS) ∨ longer = {r} ∨
      (longer = ∅ ∧ r = FAILED_MATCH)))

/-- The contents and the names are there in another order. -/
structure Db.Rearranged (db db' : Db) (player : Objid) : Prop where
  location : (db'.find player).map Object.location = (db.find player).map Object.location
  contents : ∀ o w, db.find player = some o → w ∈ [player, o.location] →
    (∀ l, db.Contents w l → ∃ l', db'.Contents w l' ∧ l'.Perm l) ∧
    (db'.valid w = true → db.valid w = true)
  names : ∀ x ∈ db.Near player, ∀ ns, db.namesOf x = some ns →
    ∃ ns', db'.namesOf x = some ns' ∧ ns'.Perm ns

/-! ## Comparing -/

section Compare

variable {s t : Str} {a b : UInt8}

theorem cstr_cons (hb : b ≠ 0) (t : Str) : cstr (b :: t) = b :: cstr t :=
  List.takeWhile_cons_of_pos (by simpa using hb)

theorem nameKey_cons_ne (hb : b ≠ 0) (t : Str) : nameKey (b :: t) = cmap b :: nameKey t := by
  rw [nameKey_cons, if_neg hb]

/-- As many characters as the name has agree. -/
theorem strncmpZero_key (s t : Str) :
    strncmpZero false (s ++ [0]) t (cstr t).length = true ↔ nameKey t <+: nameKey s := by
  induction t generalizing s with
  | nil => exact iff_of_true rfl List.nil_prefix
  | cons b t ih =>
    by_cases hb : b = 0
    · subst hb
      exact iff_of_true rfl List.nil_prefix
    · rw [cstr_cons hb, nameKey_cons_ne hb, List.length_cons]
      have hb' : cmap b ≠ 0 := mt cmap_eq_zero.mp hb
      cases s with
      | nil =>
        have hne : ¬ cmap 0 = cmap b := fun h => hb' (h.symm.trans (cmap_eq_zero.mpr rfl))
        refine iff_of_false ?_ fun h => nomatch List.prefix_nil.mp h
        show ¬ (if cmap 0 = cmap b then _ else false) = true
        rw [if_neg hne]
        exact Bool.false_ne_true
      | cons a s =>
        show (if cmap a = cmap b then if a = 0 then true
          else strncmpZero false (s ++ [0]) t (cstr t).length else false) = true ↔ _
        by_cases hab : cmap a = cmap b
        · have ha : a ≠ 0 := fun h => hb' (hab ▸ cmap_eq_zero.mpr h)
          rw [if_pos hab, if_neg ha, nameKey_cons_ne ha, List.cons_prefix_cons,
            and_iff_right hab.symm]
          exact ih s
        · rw [if_neg hab, nameKey_cons]
          refine iff_of_false Bool.false_ne_true fun h => ?_
          split at h
          · cases List.prefix_nil.mp h
          · exact hab (List.cons_prefix_cons.mp h).1.symm

/-- What agrees is all of the name where it ends there. -/
theorem ends_iff (h : nameKey t <+: nameKey s) :
    (s ++ [0])[(cstr t).length]? = some 0 ↔ nameKey s = nameKey t := by
  induction t generalizing s with
  | nil =>
    show (s ++ [0])[0]? = some 0 ↔ nameKey s = []
    cases s with
    | nil => exact iff_of_true rfl rfl
    | cons a s =>
      show some a = some 0 ↔ _
      rw [nameKey_cons, Option.some_inj]
      split
      · next ha => exact iff_of_true ha rfl
      · next ha => exact iff_of_false ha (List.cons_ne_nil _ _)
  | cons b t ih =>
    by_cases hb : b = 0
    · subst hb
      show (s ++ [0])[0]? = some 0 ↔ nameKey s = []
      cases s with
      | nil => exact iff_of_true rfl rfl
      | cons a s =>
        show some a = some 0 ↔ _
        rw [nameKey_cons, Option.some_inj]
        split
        · next ha => exact iff_of_true ha rfl
        · next ha => exact iff_of_false ha (List.cons_ne_nil _ _)
    · rw [nameKey_cons_ne hb] at h ⊢
      cases s with
      | nil => cases List.prefix_nil.mp h
      | cons a s =>
        have ha : a ≠ 0 := by
          rintro rfl
          cases List.prefix_nil.mp h
        rw [nameKey_cons_ne ha] at h ⊢
        obtain ⟨hab, h⟩ := List.cons_prefix_cons.mp h
        rw [cstr_cons hb, List.length_cons, List.cons_append, List.getElem?_cons_succ, ih h,
          List.cons.injEq,
          and_iff_right hab.symm]

end Compare

/-! ## What the scan keeps -/

/-- How `match_data` holds what has been found. -/
def codeOf (nothing : Objid) : Sole Objid → Objid
  | .none => nothing
  | .one oid => oid
  | .many => AMBIGUOUS

/-- The names that have been compared are exact for the objects of the first set, and longer for
those of the second. -/
structure Tallied (d : MatchData) (exact longer : Set Objid) : Prop where
  nonneg : ∀ x ∈ exact ∪ longer, 0 ≤ x
  exact : ∃ r, r ≠ .many ∧ Sole.Of exact r ∧ d.exact = codeOf NOTHING r
  longer : ∃ r, Sole.Of longer r ∧ d.partial_ = codeOf FAILED_MATCH r

/-- The objects that a scan of the names of one object finds. -/
def Hits (oid : Objid) (names : List (Option Str)) (P : Str → Prop) : Set Objid :=
  {x | x = oid ∧ ∃ n, some n ∈ names ∧ P n}

section Names

variable {oid : Objid} {name : Str} {names : List (Option Str)} {d : MatchData} {E Q : Set Objid}
    {P : Str → Prop}

theorem hits_nil : Hits oid [] P = ∅ :=
  Set.eq_empty_of_forall_notMem fun _ ⟨_, _, h, _⟩ => nomatch h

theorem union_hits_none (E : Set Objid) :
    E ∪ Hits oid (none :: names) P = E ∪ Hits oid names P := by
  congr 1
  ext x
  simp [Hits]

theorem union_hits_pos (E : Set Objid) (h : P name) :
    E ∪ Hits oid (some name :: names) P = insert oid E ∪ Hits oid names P := by
  ext x
  simp only [Hits, Set.mem_union, Set.mem_ofPred_eq, Set.mem_insert_iff, List.mem_cons,
    Option.some_inj]
  constructor
  · rintro (hx | ⟨rfl, -⟩)
    · exact .inl (.inr hx)
    · exact .inl (.inl rfl)
  · rintro ((rfl | hx) | ⟨rfl, n, hn, hp⟩)
    · exact .inr ⟨rfl, name, .inl rfl, h⟩
    · exact .inl hx
    · exact .inr ⟨rfl, n, .inr hn, hp⟩

theorem union_hits_neg (E : Set Objid) (h : ¬ P name) :
    E ∪ Hits oid (some name :: names) P = E ∪ Hits oid names P := by
  congr 1
  ext x
  simp only [Hits, Set.mem_ofPred_eq, List.mem_cons, Option.some_inj]
  refine and_congr_right fun _ => ⟨?_, fun ⟨n, hn, hp⟩ => ⟨n, .inr hn, hp⟩⟩
  rintro ⟨n, rfl | hn, hp⟩
  · exact absurd hp h
  · exact ⟨n, hn, hp⟩

/-- Another object whose name is longer. -/
theorem codeOf_add (r : Sole Objid) (hr : ∀ a, r = .one a → 0 ≤ a) (hoid : 0 ≤ oid) :
    (if codeOf FAILED_MATCH r = FAILED_MATCH ∨ codeOf FAILED_MATCH r = oid then oid
      else AMBIGUOUS) =
      codeOf FAILED_MATCH (r.add oid) := by
  cases r with
  | none => exact if_pos (.inl rfl)
  | one a =>
    have ha : a ≠ FAILED_MATCH := by
      have h0 := hr a rfl
      rintro rfl
      exact absurd h0 (by decide)
    rw [Sole.add]
    by_cases h : oid = a
    · rw [if_pos h, if_pos (.inr h.symm), h]
      rfl
    · rw [if_neg h]
      show (if a = FAILED_MATCH ∨ a = oid then oid else AMBIGUOUS) = AMBIGUOUS
      exact if_neg (not_or.mpr ⟨ha, fun h' => h h'.symm⟩)
  | many =>
    have hoid' : AMBIGUOUS ≠ oid := by
      rintro rfl
      exact absurd hoid (by decide)
    exact if_neg (not_or.mpr ⟨by decide, hoid'⟩)

theorem Tallied.addLonger (h : Tallied d E Q) (hoid : 0 ≤ oid) :
    Tallied { d with partial_ := if d.partial_ = FAILED_MATCH ∨ d.partial_ = oid then oid
                       else AMBIGUOUS } E (insert oid Q) := by
  obtain ⟨r, hr, hd⟩ := h.longer
  refine ⟨?_, h.exact, r.add oid, hr.add oid, ?_⟩
  · rintro x (hx | rfl | hx)
    · exact h.nonneg x (.inl hx)
    · exact hoid
    · exact h.nonneg x (.inr hx)
  · rw [hd]
    refine codeOf_add r (fun a ha => ?_) hoid
    subst ha
    have hq : Q = {a} := hr
    exact h.nonneg a (.inr (hq ▸ Set.mem_singleton a))

/-- Another object whose name is exact: it is the only one, or there are several. -/
theorem Tallied.addExact (h : Tallied d E Q) (hoid : 0 ≤ oid) :
    ((d.exact = NOTHING ∨ d.exact = oid) → Tallied { d with exact := oid } (insert oid E) Q) ∧
      (¬ (d.exact = NOTHING ∨ d.exact = oid) → (insert oid E).Nontrivial) := by
  obtain ⟨r, hmany, hr, hd⟩ := h.exact
  have hadd := hr.add oid
  have hnonneg : ∀ x ∈ insert oid E ∪ Q, 0 ≤ x := by
    rintro x ((rfl | hx) | hx)
    · exact hoid
    · exact h.nonneg x (.inl hx)
    · exact h.nonneg x (.inr hx)
  cases r with
  | none => exact ⟨fun _ => ⟨hnonneg, ⟨.one oid, nofun, hadd, rfl⟩, h.longer⟩,
      fun hn => absurd (.inl hd) hn⟩
  | one a =>
    have he : E = {a} := hr
    have ha : 0 ≤ a := h.nonneg a (.inl (he ▸ Set.mem_singleton a))
    have hne : d.exact ≠ NOTHING := by
      rw [hd]
      rintro rfl
      exact absurd ha (by decide)
    rw [Sole.add] at hadd
    by_cases hoa : oid = a
    · rw [if_pos hoa] at hadd
      exact ⟨fun _ => ⟨hnonneg, ⟨.one a, nofun, hadd, hoa⟩, h.longer⟩,
        fun hn => absurd (.inr (hd.trans hoa.symm)) hn⟩
    · rw [if_neg hoa] at hadd
      exact ⟨fun hor => absurd (hor.resolve_left hne) fun heq => hoa (heq.symm.trans hd),
        fun _ => hadd⟩
  | many => exact absurd rfl hmany

/-- The names of one object, by induction on them. -/
theorem matchNames_spec (hoid : 0 ≤ oid) (names : List (Option Str)) (h : Tallied d E Q) :
    ((matchNames oid names d).1 = true → (E ∪ Hits oid names (IsName d.name)).Nontrivial) ∧
    ((matchNames oid names d).1 = false → (matchNames oid names d).2.name = d.name ∧
      Tallied (matchNames oid names d).2 (E ∪ Hits oid names (IsName d.name))
        (Q ∪ Hits oid names (IsLonger d.name))) := by
  induction names generalizing d E Q with
  | nil =>
    rw [hits_nil, hits_nil, Set.union_empty, Set.union_empty]
    exact ⟨nofun, fun _ => ⟨rfl, h⟩⟩
  | cons n names ih =>
    cases n with
    | none =>
      rw [union_hits_none, union_hits_none]
      exact ih h
    | some n =>
      rw [matchNames, MatchData.lname]
      by_cases hpre : nameKey d.name <+: nameKey n
      · rw [if_pos ((strncmpZero_key n d.name).mpr hpre)]
        by_cases heq : IsName d.name n
        · obtain ⟨hone, hmany⟩ := h.addExact hoid
          have hlonger : ¬ IsLonger d.name n := fun hn => hn.2 heq
          rw [if_pos ((ends_iff hpre).mpr heq), union_hits_pos E heq, union_hits_neg Q hlonger]
          split
          · next hor => exact ih (hone hor)
          · next hor => exact ⟨fun _ => (hmany hor).mono Set.subset_union_left, nofun⟩
        · have hlonger : IsLonger d.name n := ⟨hpre, heq⟩
          rw [if_neg (mt (ends_iff hpre).mp heq), union_hits_neg E heq, union_hits_pos Q hlonger]
          exact ih (h.addLonger hoid)
      · have hneq : ¬ IsName d.name n := by
          intro heq
          refine hpre ?_
          rw [← show nameKey n = nameKey d.name from heq]
        have hlonger : ¬ IsLonger d.name n := fun hn => hpre hn.1
        rw [if_neg (mt (strncmpZero_key n d.name).mp hpre), union_hits_neg E hneq,
          union_hits_neg Q hlonger]
        exact ih h

end Names

/-! ## The scan of contents -/

namespace Db

variable {db db' : Db} {player oid c w : Objid} {o : Object} {name : Str} {d : MatchData}
    {E Q : Set Objid} {l : List Objid}

/-- In a sound database every object has its names. -/
theorem Inv.aliases (hi : db.Inv) (ho : db.find oid = some o) : ∃ l, db.aliases oid = some l := by
  obtain ⟨l, hc⟩ := exists_chain hi.kin ho
  obtain ⟨r, hr, -⟩ := hi.findPropertyValue ho hc [97, 108, 105, 97, 115, 101, 115]
  exact ⟨_, by rw [Db.aliases, hr, Option.map_some]⟩

theorem find_nonneg (ho : db.find oid = some o) : 0 ≤ oid := by
  by_contra h
  rw [find, if_neg (by omega)] at ho
  cases ho

/-- What one object adds. -/
theorem matchProc_spec (hi : db.Inv) (ho : db.find oid = some o) (h : Tallied d E Q) :
    ∃ stop d', db.matchProc oid d = some (stop, d') ∧
      (stop = true → (E ∪ {x | x = oid ∧ db.HasName (IsName d.name) x}).Nontrivial) ∧
      (stop = false → d'.name = d.name ∧
        Tallied d' (E ∪ {x | x = oid ∧ db.HasName (IsName d.name) x})
        (Q ∪ {x | x = oid ∧ db.HasName (IsLonger d.name) x})) := by
  obtain ⟨names, hnames⟩ := hi.aliases ho
  have hhits : ∀ P : Str → Prop, Hits oid (some o.name :: names.map Var.text?) P =
      {x | x = oid ∧ db.HasName P x} := by
    intro P
    ext x
    refine and_congr_right fun hx => ?_
    have hof : db.namesOf x = some (o.name :: names.filterMap Var.text?) := by
      rw [hx, namesOf, hnames, ho]
      rfl
    rw [HasName, hof]
    simp only [Option.some_inj, exists_eq_left', List.mem_cons, List.mem_map, List.mem_filterMap]
  obtain ⟨hstop, hgo⟩ := matchNames_spec (find_nonneg ho) (some o.name :: names.map Var.text?) h
  rw [hhits] at hstop hgo
  rw [hhits] at hgo
  refine ⟨_, _, ?_, hstop, hgo⟩
  rw [matchProc, hnames, ho]
  rfl

theorem insert_scanned (S : Set Objid) (c : Objid) (l : List Objid) (P : Objid → Prop) :
    S ∪ {x | x = c ∧ P x} ∪ {x | x ∈ l ∧ P x} = S ∪ {x | x ∈ c :: l ∧ P x} := by
  rw [Set.union_assoc]
  congr 1
  ext x
  simp only [Set.mem_union, Set.mem_ofPred_eq, List.mem_cons, or_and_right]

/-- The objects of a list, by induction on it. -/
theorem forAllContents_spec (hi : db.Inv) (hc : Chain (db.links NuMoo.place).next NOTHING c l)
    (h : Tallied d E Q) {n : Nat}
    (hn : l.length < n) :
    ∃ stop d', db.forAllContents (fun c d => db.matchProc c d) n c d = some (stop, d') ∧
      (stop = true → (E ∪ {x | x ∈ l ∧ db.HasName (IsName d.name) x}).Nontrivial) ∧
      (stop = false → d'.name = d.name ∧ Tallied d' (E ∪ {x | x ∈ l ∧ db.HasName (IsName d.name) x})
        (Q ∪ {x | x ∈ l ∧ db.HasName (IsLonger d.name) x})) := by
  induction hc generalizing n d E Q with
  | done =>
    obtain ⟨n, rfl⟩ := Nat.exists_eq_add_of_lt hn
    refine ⟨false, d, if_pos rfl, nofun, fun _ => ⟨rfl, ?_⟩⟩
    simpa using h
  | @step c b l hne hb hc ih =>
    cases n with
    | zero => exact absurd hn (Nat.not_lt_zero _)
    | succ n =>
      obtain ⟨cell, hcell, rfl⟩ := Links.exists_of_next hb
      obtain ⟨o, ho, rfl⟩ := exists_of_links hcell
      obtain ⟨stop, d', hproc, hstop, hgo⟩ := matchProc_spec hi ho h
      rw [forAllContents, if_neg hne, hproc, Option.bind_eq_bind, Option.bind_some]
      cases stop with
      | true =>
        refine ⟨true, d', rfl, fun _ => (hstop rfl).mono ?_, nofun⟩
        rw [← insert_scanned]
        exact Set.subset_union_left
      | false =>
        obtain ⟨hname, htally⟩ := hgo rfl
        have hrest := ih htally (Nat.lt_of_succ_lt_succ hn)
        rw [hname, insert_scanned, insert_scanned] at hrest
        rw [ho]
        exact hrest

theorem inside_cons (S : Set Objid) (hl : db.Contents w l) (ws : List Objid) (P : Objid → Prop) :
    S ∪ {x | x ∈ l ∧ P x} ∪ {x | x ∈ db.Inside ws ∧ P x} = S ∪
      {x | x ∈ db.Inside (w :: ws) ∧ P x} := by
  rw [Set.union_assoc]
  congr 1
  ext x
  have hiff : x ∈ db.Inside (w :: ws) ↔ x ∈ l ∨ x ∈ db.Inside ws := by
    refine (List.exists_mem_cons_iff _ _ _).trans (or_congr_left ⟨?_, fun hx => ⟨l, hl, hx⟩⟩)
    rintro ⟨l', ⟨o', ho', hl'⟩, hx⟩
    obtain ⟨o, ho, hl⟩ := hl
    rw [ho] at ho'
    cases ho'
    exact hl.unique hl' ▸ hx
  show (x ∈ l ∧ P x) ∨ (x ∈ db.Inside ws ∧ P x) ↔ x ∈ db.Inside (w :: ws) ∧ P x
  rw [hiff, or_and_right]

theorem inside_invalid (h : db.find w = none) (ws : List Objid) :
    db.Inside (w :: ws) = db.Inside ws := by
  ext x
  refine (List.exists_mem_cons_iff _ _ _).trans (or_iff_right ?_)
  rintro ⟨l, ⟨o, ho, -⟩, -⟩
  rw [h] at ho
  cases ho

theorem Inv.contents (hi : db.Inv) (ho : db.find w = some o) :
    ∃ l, Chain (db.links NuMoo.place).next NOTHING o.contents l ∧ l.length < db.bound := by
  obtain ⟨l, hl, -⟩ := hi.place.kids w _ (links_eq ho)
  have hl : Chain (db.links NuMoo.place).next NOTHING o.contents l := hl
  refine ⟨l, hl, links_bound db NuMoo.place l hl.nodup fun y hy => ?_⟩
  have hsome := hl.next_isSome_of_mem hy
  rwa [Links.next, Option.isSome_map] at hsome

theorem matchInside_spec (hi : db.Inv) (ws : List Objid) (h : Tallied d E Q) :
    ∃ stop d', db.matchInside ws d = some (stop, d') ∧
      (stop = true → (E ∪ {x | x ∈ db.Inside ws ∧ db.HasName (IsName d.name) x}).Nontrivial) ∧
      (stop = false → Tallied d' (E ∪ {x | x ∈ db.Inside ws ∧ db.HasName (IsName d.name) x})
        (Q ∪ {x | x ∈ db.Inside ws ∧ db.HasName (IsLonger d.name) x})) := by
  induction ws generalizing d E Q with
  | nil =>
    refine ⟨false, d, rfl, nofun, fun _ => ?_⟩
    have hnone : ∀ P : Objid → Prop, {x | x ∈ db.Inside [] ∧ P x} = ∅ := fun P =>
      Set.eq_empty_of_forall_notMem fun x ⟨⟨w, hw, _⟩, _⟩ => nomatch hw
    rw [hnone, hnone, Set.union_empty, Set.union_empty]
    exact h
  | cons w ws ih =>
    cases ho : db.find w with
    | none =>
      rw [matchInside, ho, inside_invalid ho]
      exact ih h
    | some o =>
      obtain ⟨l, hl, hlen⟩ := hi.contents ho
      have hcont : db.Contents w l := ⟨o, ho, hl⟩
      obtain ⟨stop, d', hall, hstop, hgo⟩ := forAllContents_spec hi hl h hlen
      rw [matchInside, ho]
      dsimp only
      rw [hall, Option.bind_eq_bind, Option.bind_some]
      cases stop with
      | true =>
        refine ⟨true, d', rfl, fun _ => (hstop rfl).mono ?_, nofun⟩
        rw [← inside_cons E hcont]
        exact Set.subset_union_left
      | false =>
        obtain ⟨hname, htally⟩ := hgo rfl
        have hrest := ih htally
        rw [hname, inside_cons E hcont, inside_cons Q hcont] at hrest
        exact hrest

end Db

/-! ## The answer -/

/-- The answer for the two outcomes. -/
def answer : Sole Objid → Sole Objid → Objid
  | .one oid, _ => oid
  | .many, _ => AMBIGUOUS
  | .none, r => codeOf FAILED_MATCH r

theorem means_iff {E Q : Set Objid} {e q : Sole Objid} {r : Objid} (he : Sole.Of E e)
    (hq : Sole.Of Q q) :
    Means E Q r ↔ r = answer e q := by
  have hcases : ∀ {S : Set Objid} {s : Sole Objid} (nothing : Objid), Sole.Of S s →
      ((S.Nontrivial ∧ r = AMBIGUOUS) ∨ S = {r} ∨ (S = ∅ ∧ r = nothing) ↔
        r = codeOf nothing s) := by
    intro S s nothing hs
    constructor
    · rintro (⟨hS, hr⟩ | hS | ⟨hS, hr⟩)
      · cases hs.unique (show Sole.Of S .many from hS)
        exact hr
      · cases hs.unique (show Sole.Of S (.one r) from hS)
        rfl
      · cases hs.unique (show Sole.Of S .none from hS)
        exact hr
    · rintro rfl
      cases s with
      | none => exact .inr (.inr ⟨hs, rfl⟩)
      | one a => exact .inr (.inl hs)
      | many => exact .inl ⟨hs, rfl⟩
  unfold Means
  rw [hcases FAILED_MATCH hq]
  cases e with
  | none =>
    have hE : E = ∅ := he
    have hnone : ¬ E = {r} := fun h => Set.singleton_ne_empty r (h.symm.trans hE)
    have hmany : ¬ E.Nontrivial := hE ▸ Set.not_nontrivial_empty
    rw [or_iff_right fun h => hmany h.1, or_iff_right hnone, and_iff_right hE]
    rfl
  | one a =>
    have hE : E = {a} := he
    have hempty : ¬ E = ∅ := fun h => Set.singleton_ne_empty a (hE.symm.trans h)
    have hmany : ¬ E.Nontrivial := hE ▸ Set.not_nontrivial_singleton
    rw [or_iff_right fun h => hmany h.1, or_iff_left fun h => hempty h.1, hE,
      Set.singleton_eq_singleton_iff, eq_comm]
    rfl
  | many =>
    have hE : E.Nontrivial := he
    have hempty : ¬ E = ∅ := fun h => Set.not_nontrivial_empty (h ▸ hE)
    have hone : ¬ E = {r} := fun h => Set.not_nontrivial_singleton (h ▸ hE)
    rw [and_iff_right hE, or_iff_left]
    · rfl
    · rintro (h | h)
      · exact hone h
      · exact hempty h.1

theorem Means.unique {E Q : Set Objid} {r r' : Objid} (h : Means E Q r) (h' : Means E Q r') :
    r = r' := by
  obtain ⟨e, he⟩ := Sole.Of.exists E
  obtain ⟨q, hq⟩ := Sole.Of.exists Q
  rw [(means_iff he hq).mp h, (means_iff he hq).mp h']

namespace Db

variable {db db' : Db} {player : Objid} {o : Object} {name : Str}

/-- The objects near the player that have such a name. -/
def NearNamed (db : Db) (player : Objid) (P : Str → Prop) : Set Objid :=
  {x | x ∈ db.Near player ∧ db.HasName P x}

theorem near_eq (ho : db.find player = some o) :
    db.Near player = db.Inside [player, o.location] := by
  ext x
  constructor
  · rintro ⟨o', ho', hx⟩
    rw [ho] at ho'
    cases ho'
    exact hx
  · exact fun hx => ⟨o, ho, hx⟩

theorem tallied_start (name : Str) :
    Tallied { name, exact := NOTHING, partial_ := FAILED_MATCH } ∅ ∅ where
  nonneg x hx := absurd hx (by simp)
  exact := ⟨.none, nofun, rfl, rfl⟩
  longer := ⟨.none, rfl, rfl⟩

theorem matchContents_spec (hi : db.Inv) (ho : db.find player = some o) (name : Str) :
    ∃ r, db.matchContents player name = some r ∧
      Means (db.NearNamed player (IsName name)) (db.NearNamed player (IsLonger name)) r := by
  obtain ⟨stop, d, hin, hstop, hgo⟩ := matchInside_spec hi [player, o.location] (tallied_start name)
  rw [Set.empty_union, ← near_eq ho] at hstop hgo
  rw [Set.empty_union] at hgo
  rw [matchContents, ho]
  dsimp only
  rw [hin, Option.bind_eq_bind, Option.bind_some]
  cases stop with
  | true => exact ⟨_, rfl, .inl ⟨hstop rfl, rfl⟩⟩
  | false =>
    obtain ⟨hnonneg, ⟨e, hmany, he, hexact⟩, q, hq, hlonger⟩ := hgo rfl
    refine ⟨_, rfl, (means_iff he hq).mpr ?_⟩
    rw [if_neg Bool.false_ne_true, hexact, hlonger]
    cases e with
    | none => exact if_neg (not_not.mpr rfl)
    | one a =>
      have hE : {x | x ∈ db.Near player ∧ db.HasName (IsName name) x} = {a} := he
      have ha : 0 ≤ a := hnonneg a (.inl (hE ▸ Set.mem_singleton a))
      refine if_pos ?_
      rintro (rfl : a = NOTHING)
      exact absurd ha (by decide)
    | many => exact absurd rfl hmany

theorem nearNamed_none (h : db.find player = none) (P : Str → Prop) :
    db.NearNamed player P = ∅ := by
  refine Set.eq_empty_of_forall_notMem fun x ⟨⟨o, ho, _⟩, _⟩ => ?_
  rw [h] at ho
  cases ho

/-- A text that is not empty, no object number and neither `me` nor `here`. -/
structure IsOrdinary (name : Str) : Prop where
  nonempty : name.headD 0 ≠ 0
  number : name.headD 0 ≠ 35
  me : mystrcasecmp name [109, 101] ≠ 0
  here : mystrcasecmp name [104, 101, 114, 101] ≠ 0

theorem matchObject_means (hi : db.Inv) (player : Objid) (hname : IsOrdinary name) :
    ∃ r, db.matchObject player name = some r ∧
      Means (db.NearNamed player (IsName name)) (db.NearNamed player (IsLonger name)) r := by
  rw [matchObject, if_neg hname.nonempty, if_neg hname.number]
  cases ho : db.find player with
  | none =>
    exact ⟨_, rfl, .inr (.inr ⟨nearNamed_none ho _, .inr (.inr ⟨nearNamed_none ho _, rfl⟩)⟩)⟩
  | some o =>
    dsimp only
    rw [if_neg hname.me, if_neg hname.here]
    exact matchContents_spec hi ho name

/-! ## The order does not matter -/

theorem contents_find {w : Objid} {l : List Objid} (h : db.Contents w l) :
    ∃ o, db.find w = some o := h.imp fun _ h => h.1

theorem contents_unique {w : Objid} {l l' : List Objid} (h : db.Contents w l)
    (h' : db.Contents w l') : l = l' := by
  obtain ⟨o, ho, hl⟩ := h
  obtain ⟨o', ho', hl'⟩ := h'
  rw [ho] at ho'
  cases ho'
  exact hl.unique hl'

theorem Rearranged.near (h : Rearranged db db' player) (hi : db.Inv) :
    db'.Near player = db.Near player := by
  have hloc := h.location
  cases ho : db.find player with
  | none =>
    rw [ho, Option.map_none, Option.map_eq_none_iff] at hloc
    ext x
    constructor
    · rintro ⟨o, ho', -⟩
      rw [hloc] at ho'
      cases ho'
    · rintro ⟨o, ho', -⟩
      rw [ho] at ho'
      cases ho'
  | some o =>
    rw [ho, Option.map_some, Option.map_eq_some_iff] at hloc
    obtain ⟨o', ho', hloc⟩ := hloc
    rw [near_eq ho, near_eq ho', hloc]
    ext x
    refine exists_congr fun w => and_congr_right fun hw => ?_
    obtain ⟨hcont, hvalid⟩ := h.contents o w ho hw
    constructor
    · rintro ⟨l', hl', hx⟩
      obtain ⟨ow', how'⟩ := contents_find hl'
      obtain ⟨ow, how⟩ := valid_iff.mp (hvalid (valid_iff.mpr ⟨ow', how'⟩))
      obtain ⟨l, hl, -⟩ := hi.contents how
      obtain ⟨l'', hl'', hperm⟩ := hcont l ⟨ow, how, hl⟩
      exact ⟨l, ⟨ow, how, hl⟩, hperm.mem_iff.mp (contents_unique hl' hl'' ▸ hx)⟩
    · rintro ⟨l, hl, hx⟩
      obtain ⟨l', hl', hperm⟩ := hcont l hl
      exact ⟨l', hl', hperm.mem_iff.mpr hx⟩

theorem Inv.namesOf (hi : db.Inv) {x : Objid} (ho : db.find x = some o) :
    ∃ ns, db.namesOf x = some ns := by
  obtain ⟨l, hl⟩ := hi.aliases ho
  exact ⟨_, by rw [Db.namesOf, hl, ho]; rfl⟩

theorem find_of_near {x : Objid} (hx : x ∈ db.Near player) : ∃ ox, db.find x = some ox := by
  obtain ⟨o, ho, w, hw, l, ⟨ow, how, hl⟩, hx⟩ := hx
  obtain ⟨c, hc⟩ := Option.isSome_iff_exists.mp (hl.next_isSome_of_mem hx)
  obtain ⟨cell, hcell, -⟩ := Links.exists_of_next hc
  obtain ⟨ox, hox, -⟩ := exists_of_links hcell
  exact ⟨ox, hox⟩

theorem Rearranged.nearNamed (h : Rearranged db db' player) (hi : db.Inv) (P : Str → Prop) :
    db'.NearNamed player P = db.NearNamed player P := by
  ext x
  show x ∈ db'.Near player ∧ db'.HasName P x ↔ x ∈ db.Near player ∧ db.HasName P x
  rw [h.near hi]
  refine and_congr_right fun hx => ?_
  obtain ⟨ox, hox⟩ := find_of_near hx
  obtain ⟨ns, hns⟩ := hi.namesOf hox
  obtain ⟨ns', hns', hperm⟩ := h.names x hx ns hns
  rw [HasName, HasName, hns, hns']
  simp only [Option.some_inj, exists_eq_left', hperm.mem_iff]

/-- An object is found by its name or alias if it is the only one near the player, and in whatever
order they stand. -/
theorem matchObject_spec (hi : db.Inv) (player : Objid) (hname : IsOrdinary name) :
    (∃ r, db.matchObject player name = some r ∧
      Means (db.NearNamed player (IsName name)) (db.NearNamed player (IsLonger name)) r) ∧
    ∀ db' : Db, db'.Inv → Rearranged db db' player →
    db'.matchObject player name = db.matchObject player name := by
  refine ⟨matchObject_means hi player hname, fun db' hi' h => ?_⟩
  obtain ⟨r, hr, hmeans⟩ := matchObject_means hi player hname
  obtain ⟨r', hr', hmeans'⟩ := matchObject_means hi' player hname
  rw [h.nearNamed hi, h.nearNamed hi] at hmeans'
  rw [hr, hr', hmeans.unique hmeans']

end Db

/-! ## Two lamps -/

/-- The texts `lamp` and `lamps`. -/
def lamp : Str := [108, 97, 109, 112]
def lamps : Str := lamp ++ [115]

/-- A wizard who holds two objects. -/
def holder : Db where
  objects := [
    some { id := 0, owner := 0, location := NOTHING, contents := 1, next := NOTHING,
           parent := NOTHING,
           child := NOTHING, sibling := NOTHING, name := [], flags := 4, verbdefs := [], propdefs :=
             [], propval := [] },
    some { id := 1, owner := 0, location := 0, contents := NOTHING, next := 2, parent := NOTHING,
           child := NOTHING, sibling := NOTHING, name := lamp, flags := 0, verbdefs :=
             [], propdefs := [], propval := [] },
    some { id := 2, owner := 0, location := 0, contents := NOTHING, next := NOTHING,
           parent := NOTHING,
           child := NOTHING, sibling := NOTHING, name := lamps, flags := 0, verbdefs :=
             [], propdefs := [], propval := [] }]
  allUsers := []
  vcTable := none
  nextPid := 0

theorem reachable_holder : Reachable ⟨holder, []⟩ := by
  have h₁ := Reachable.step (.createObject 0) .empty trivial rfl
  have h₂ := Reachable.step (.createObject 0) h₁ trivial rfl
  have h₃ := Reachable.step (.createObject 0) h₂ trivial rfl
  have h₄ := Reachable.step (.setPropertyValue 0 [119, 105, 122, 97, 114, 100] (.int 1)) h₃
    ⟨⟨_, rfl⟩, _, rfl, trivial⟩ rfl
  have h₅ := Reachable.step (.move 1 0 0 fun _ _ => .E_VERBNF) h₄ trivial rfl
  have h₆ := Reachable.step (.move 2 0 0 fun _ _ => .E_VERBNF) h₅ trivial rfl
  have h₇ := Reachable.step (.setPropertyValue 1 [110, 97, 109, 101] (.str lamp)) h₆ ⟨⟨_, rfl⟩, _,
    rfl, _, rfl⟩ rfl
  refine .step (.setPropertyValue 2 [110, 97, 109, 101] (.str lamps)) h₇ ⟨⟨_, rfl⟩,
    _, rfl, _, rfl⟩ ?_
  rfl

/-- `Lamp` is the name of one object, and the beginning of the name of another. -/
theorem matchObject_lamp : ∃ r, holder.matchObject 0 [76, 97, 109, 112] = some r ∧
    Means (holder.NearNamed 0 (IsName [76, 97, 109, 112]))
    (holder.NearNamed 0 (IsLonger [76, 97, 109, 112])) r :=
  (Db.matchObject_spec reachable_holder.inv 0 ⟨by decide, by decide, by decide, by decide⟩).1

example : holder.matchObject 0 [76, 97, 109, 112] = some 1 ∧
    holder.matchObject 0 [108, 97] = some AMBIGUOUS := by decide

end NuMoo
