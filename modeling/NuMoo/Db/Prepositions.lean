import NuMoo.Code.Lex
import NuMoo.Net.Words

/-!
# Prepositions

The table of prepositional phrases of `db_verbs.c`, and the search of `db_find_prep` for a phrase
among the words of a command. The search takes the first phrase that it comes across.

Results:
1. `buildPrepTable_spec`: the table holds the words of the phrases, in the order in which they are
   listed.
2. `dbFindPrep_some`, `dbFindPrep_none`: what the search returns.
3. `not_overshadowed`, `prepTable_overshadowed`: which tables list a phrase where it can be found.
4. `dbFindPrep_longest_iff`: the phrase found is the longest unless a shorter one is listed before
   it.
-/

namespace NuMoo
namespace Db

open NuMoo.Lex (ascii)
open Net (parseIntoWords parseIntoWordlist)

/-! ## The table -/

def MAXPPHRASE : Nat := 3

/-- `prep_list` -/
def prepList : List Str := [
  ascii "with/using",
  ascii "at/to",
  ascii "in front of",
  ascii "in/inside/into",
  ascii "on top of/on/onto/upon",
  ascii "out of/from inside/from",
  ascii "over",
  ascii "through",
  ascii "under/underneath/beneath",
  ascii "behind",
  ascii "beside",
  ascii "for/about",
  ascii "is",
  ascii "as",
  ascii "off/off of"]

def chSlash : UInt8 := 47

/-- A row of `prep_table`: the words of each phrase. -/
abbrev Phrases := List (List Str)

/-- The loop of `dbpriv_build_prep_table` over the phrases of a row, which it copies to `cprep`. -/
def splitPhrases : Nat → Str → List Str
  | 0, _ => []
  | _ + 1, [] => []
  | n + 1, c :: p =>
    let p := if c = chSlash then p else c :: p
    p.takeWhile (· ≠ chSlash) :: splitPhrases n (p.dropWhile (· ≠ chSlash))

/-- One phrase, where `cprep` has 100 bytes and `words` has `MAXPPHRASE` places. -/
def buildPhrase (cprep : Str) : Option (List Str) := do
  if 100 ≤ cprep.length then none
  let words ← parseIntoWordlist cprep
  if words.length ≤ MAXPPHRASE then some words else none

/-- `dbpriv_build_prep_table` -/
def buildPrepTable (prepList : List Str) : Option (List Phrases) :=
  prepList.mapM fun p => (splitPhrases p.length p).mapM buildPhrase

/-! ## The search -/

/-- The loop that compares the words of a phrase. -/
def wordsAgree : List Str → List Str → Bool
  | _, [] => true
  | [], _ :: _ => false
  | a :: argv, w :: words => mystrcasecmp a w = 0 && wordsAgree argv words

/-- Whether an alias is found at a word; `search` is false for an exact match. -/
def aliasMatches (search : Bool) (argv : List Str) (i : Nat) (entry : List Str) : Bool :=
  i + entry.length ≤ argv.length && wordsAgree (argv.drop i) entry &&
    (search || i + entry.length = argv.length)

/-- The loops over the table and the aliases. -/
def prepAt (search : Bool) (argv : List Str) (i : Nat) (table : List Phrases) :
    Option (Nat × List Str) :=
  table.zipIdx.findSome? fun (aliases, j) => (aliases.find? (aliasMatches search argv i)).map (j, ·)

/-- `db_find_prep`, with `*first` and `*last` where they are asked for; `none` is `PREP_NONE`. -/
def dbFindPrep (table : List Phrases) (argv : List Str) (search : Bool) :
    Option (Nat × Option (Nat × Int)) :=
  let places := if search then List.range argv.length else (List.range argv.length).take 1
  places.findSome? fun i => (prepAt search argv i table).map fun (j, entry) =>
    (j, if search then some (i, (i : Int) + entry.length - 1) else none)

/-! ## Phrases and words -/

/-- The slash-separated phrases of a row. -/
def slashSeparated : Str → List Str
  | [] => []
  | c :: p => if c = chSlash then p.splitOn chSlash else (c :: p).splitOn chSlash

/-- The words of the phrases of each row. -/
def phraseTable (rows : List Str) : List Phrases :=
  rows.map fun p => (slashSeparated p).map Net.words

/-- The phrases with the numbers of their rows, in the order in which they are listed. -/
def listed (table : List Phrases) : List (Nat × List Str) :=
  table.zipIdx.flatMap fun (aliases, j) => aliases.map (j, ·)

/-- The words from the `i`-th on begin with the phrase, but for case. -/
def Occurs (argv : List Str) (i : Nat) (phrase : List Str) : Prop :=
  i < argv.length ∧ phrase.map nameKey <+: (argv.drop i).map nameKey

instance (argv : List Str) (i : Nat) (phrase : List Str) : Decidable (Occurs argv i phrase) := by
  unfold Occurs
  infer_instance

variable {rows : List Str} {table : List Phrases} {argv : List Str} {i j : Nat} {phrase : List Str}

theorem wordsAgree_iff (argv words : List Str) :
    wordsAgree argv words = true ↔ words.map nameKey <+: argv.map nameKey := by
  induction words generalizing argv with
  | nil => simp [wordsAgree]
  | cons w words ih =>
    cases argv with
    | nil => simp [wordsAgree]
    | cons a argv =>
      rw [wordsAgree, Bool.and_eq_true, decide_eq_true_iff, mystrcasecmp_eq_zero, ih, List.map_cons,
        List.map_cons, List.cons_prefix_cons,
        eq_comm]

theorem aliasMatches_iff (hi : i < argv.length) :
    aliasMatches true argv i phrase = true ↔ Occurs argv i phrase := by
  have hlen : phrase.map nameKey <+: (argv.drop i).map nameKey →
      i + phrase.length ≤ argv.length := by
    intro h
    have hle := h.length_le
    rw [List.length_map, List.length_map, List.length_drop] at hle
    exact Nat.add_le_of_le_sub' (Nat.le_of_lt hi) hle
  rw [aliasMatches, Bool.true_or, Bool.and_true, Bool.and_eq_true, decide_eq_true_iff,
    wordsAgree_iff, Occurs]
  exact ⟨fun h => ⟨hi, h.2⟩, fun h => ⟨hlen h.2, h.2⟩⟩

/-! ## What is built -/

/-- The front of what is separated is up to the first slash. -/
theorem splitOn_slash (p : Str) : p.splitOn chSlash = p.takeWhile (· ≠ chSlash) ::
    slashSeparated (p.dropWhile (· ≠ chSlash)) := by
  have hfront : ∀ c ∈ p.takeWhile (· ≠ chSlash), (c == chSlash) = false := fun c hc => by
    simpa using List.mem_takeWhile_imp hc
  have hparts : p.takeWhile (· ≠ chSlash) ++ p.dropWhile (· ≠ chSlash) = p :=
    List.takeWhile_append_dropWhile
  generalize p.takeWhile (· ≠ chSlash) = front at hfront hparts
  cases hrest : p.dropWhile (· ≠ chSlash) with
  | nil =>
    rw [hrest, List.append_nil] at hparts
    rw [← hparts]
    exact List.splitOnP_eq_singleton hfront
  | cons c rest =>
    have hc : c = chSlash := by
      have hnot := List.head?_dropWhile_not (· ≠ chSlash) p
      rw [hrest] at hnot
      simpa using hnot
    subst hc
    rw [hrest] at hparts
    rw [← hparts, slashSeparated, if_pos rfl]
    exact List.splitOnP_append_cons_of_forall_mem (p := fun c => c == chSlash) hfront chSlash
      (beq_self_eq_true _) rest

theorem splitPhrases_eq {n : Nat} (p : Str) (hn : p.length ≤ n) :
    splitPhrases n p = slashSeparated p := by
  induction n generalizing p with
  | zero =>
    rw [List.length_eq_zero_iff.mp (Nat.le_zero.mp hn)]
    rfl
  | succ n ih =>
    cases p with
    | nil => rfl
    | cons c p =>
      rw [splitPhrases, slashSeparated, ← apply_ite (List.splitOn chSlash), splitOn_slash]
      refine congrArg (List.cons _) (ih _ (le_trans ?_ (Nat.le_of_succ_le_succ hn)))
      by_cases hc : c = chSlash
      · rw [if_pos hc]
        exact (List.dropWhile_suffix _).length_le
      · rw [if_neg hc, List.dropWhile_cons_of_pos (by simpa using hc)]
        exact (List.dropWhile_suffix _).length_le

theorem splitPhrases_subset {n : Nat} {p word : Str} (h : word ∈ splitPhrases n p) :
    ∀ c ∈ word, c ∈ p := by
  induction n generalizing p with
  | zero => exact absurd h List.not_mem_nil
  | succ n ih =>
    cases p with
    | nil => exact absurd h List.not_mem_nil
    | cons c p =>
      have hsub : ∀ b ∈ (if c = chSlash then p else c :: p), b ∈ c :: p := by
        intro b hb
        split at hb
        · exact List.mem_cons_of_mem _ hb
        · exact hb
      rw [splitPhrases] at h
      intro b hb
      rcases List.mem_cons.mp h with rfl | h
      · exact hsub b ((List.takeWhile_sublist _).subset hb)
      · exact hsub b ((List.dropWhile_suffix _).subset (ih h b hb))

theorem buildPhrase_eq {cprep : Str} {words : List Str} (h0 : 0 ∉ cprep)
    (h : buildPhrase cprep = some words) :
    words = Net.words cprep := by
  obtain ⟨r, hr, hargv⟩ := Net.parseIntoWords_spec h0
  rw [buildPhrase] at h
  split at h
  · simp at h
  · rw [parseIntoWordlist, hr, Option.map_some, hargv] at h
    simp only [Option.bind_eq_bind, Option.bind_some] at h
    split at h
    · exact (Option.some.inj h).symm
    · simp at h

theorem mapM_eq {α β : Type} {f : α → Option β} {g : α → β} {l : List α} {r : List β}
    (hf : ∀ x ∈ l, ∀ y, f x = some y → y = g x)
    (h : l.mapM f = some r) : r = l.map g := by
  induction l generalizing r with
  | nil => simpa using h.symm
  | cons x l ih =>
    rw [List.mapM_cons] at h
    obtain ⟨y, hy, h⟩ := Option.bind_eq_some_iff.mp h
    obtain ⟨ys, hys, h⟩ := Option.bind_eq_some_iff.mp h
    rw [List.map_cons, ← hf x List.mem_cons_self y hy, ← ih (fun x hx =>
      hf x (List.mem_cons_of_mem _ hx)) hys]
    exact (Option.some.inj h).symm

/-- The table holds the words of the phrases. -/
theorem buildPrepTable_spec (h0 : ∀ p ∈ rows, 0 ∉ p) (h : buildPrepTable rows = some table) :
    table = phraseTable rows := by
  have hrow : ∀ p ∈ rows, ∀ row, (splitPhrases p.length p).mapM buildPhrase = some row →
      row = (slashSeparated p).map Net.words := by
    intro p hp row hrow
    rw [← splitPhrases_eq p (le_refl _)]
    exact mapM_eq (fun word hword ws => buildPhrase_eq fun h =>
      h0 p hp (splitPhrases_subset hword 0 h)) hrow
  exact mapM_eq hrow h

/-! ## What is found -/

/-- The first listed phrase that is found at a word. -/
theorem prepAt_eq (hi : i < argv.length) :
    prepAt true argv i table = (listed table).find? fun e => decide (Occurs argv i e.2) := by
  rw [listed, List.find?_flatMap, prepAt]
  congr 1
  funext e
  obtain ⟨aliases, j⟩ := e
  rw [List.find?_map]
  have hsame : aliasMatches true argv i = fun words => decide (Occurs argv i words) := by
    funext words
    rw [Bool.eq_iff_iff, aliasMatches_iff hi, decide_eq_true_iff]
  rw [hsame]
  rfl

/-- The first place of a range at which there is a result. -/
theorem findSome?_range {β : Type} {f : Nat → Option β} {n : Nat} {b : β}
    (h : (List.range n).findSome? f = some b) :
    ∃ i < n, f i = some b ∧ ∀ k < i, f k = none := by
  obtain ⟨front, i, back, hsplit, hi, hfront⟩ := List.findSome?_eq_some_iff.mp h
  have hlen : front.length < (List.range n).length := by
    rw [hsplit, List.length_append, List.length_cons]
    exact Nat.lt_add_of_pos_right (Nat.succ_pos _)
  have hplace : i = front.length := by
    have hget : (List.range n)[front.length]? = some i := by
      rw [hsplit, List.getElem?_append_right (le_refl _), Nat.sub_self]
      rfl
    rw [List.getElem?_eq_getElem hlen, List.getElem_range] at hget
    exact (Option.some.inj hget).symm
  rw [List.length_range] at hlen
  refine ⟨i, hplace ▸ hlen, hi, fun k hk => hfront k ?_⟩
  rw [hplace] at hk
  have hget : (List.range n)[k]? = front[k]? := by rw [hsplit, List.getElem?_append_left hk]
  rw [List.getElem?_range (hk.trans hlen), List.getElem?_eq_getElem hk] at hget
  exact Option.some.inj hget ▸ List.getElem_mem hk

/-- No phrase occurs before the `i`-th word. -/
def NoneBefore (table : List Phrases) (argv : List Str) (i : Nat) : Prop :=
  ∀ k < i, ∀ e ∈ listed table, ¬ Occurs argv k e.2

/-- The `j`-th row has a phrase that is found at `first` before any listed one, and `last` is where
it ends. -/
theorem dbFindPrep_some {bounds : Option (Nat × Int)}
    (h : dbFindPrep table argv true = some (j, bounds)) :
    ∃ (first : Nat) (front : _) (phrase : _) (back : _), bounds =
      some (first, (first : Int) + phrase.length - 1) ∧ NoneBefore table argv first ∧
      listed table = front ++ (j, phrase) :: back ∧ Occurs argv first phrase ∧
      ∀ e ∈ front, ¬ Occurs argv first e.2 := by
  obtain ⟨i, hi, hfound, hbefore⟩ := findSome?_range h
  obtain ⟨⟨j', phrase⟩, hat, heq⟩ := Option.map_eq_some_iff.mp hfound
  obtain ⟨rfl, rfl⟩ := Prod.mk.inj heq
  rw [prepAt_eq hi] at hat
  obtain ⟨hoccurs, front, back, hsplit, hfront⟩ := List.find?_eq_some_iff_append.mp hat
  refine ⟨i, front, phrase, back, rfl, fun k hk e he => ?_, hsplit, of_decide_eq_true hoccurs,
    fun e he => by simpa using hfront e he⟩
  have hnone := Option.map_eq_none_iff.mp (hbefore k hk)
  rw [prepAt_eq (hk.trans hi)] at hnone
  simpa using List.find?_eq_none.mp hnone e he

theorem dbFindPrep_none (h : dbFindPrep table argv true = none) (i : Nat) :
    ∀ e ∈ listed table, ¬ Occurs argv i e.2 := by
  intro e he hoccurs
  have hnone :=
    Option.map_eq_none_iff.mp (List.findSome?_eq_none_iff.mp h i (List.mem_range.mpr hoccurs.1))
  rw [prepAt_eq hoccurs.1] at hnone
  exact absurd (decide_eq_true hoccurs) (List.find?_eq_none.mp hnone e he)

/-! ## The longest phrase -/

/-- The `j`-th row has a phrase that occurs from `first` to `last`, at the earliest place where any
does, and no phrase that occurs there has more words. -/
structure Longest (table : List Phrases) (argv : List Str) (j first : Nat) (last : Int) : Prop where
  earliest : NoneBefore table argv first
  occurs : ∃ phrase, (j, phrase) ∈ listed table ∧ Occurs argv first phrase ∧
    last - first + 1 = phrase.length ∧
    ∀ e ∈ listed table, Occurs argv first e.2 → e.2.length ≤ phrase.length

/-- `PREP_NONE` iff no phrase occurs, and otherwise the leftmost and longest. -/
structure FindsLongest (table : List Phrases) (argv : List Str)
    (result : Option (Nat × Option (Nat × Int))) : Prop where
  none_iff : result = none ↔ ∀ i, ∀ e ∈ listed table, ¬ Occurs argv i e.2
  longest : ∀ j bounds, result = some (j, bounds) → ∃ first last, bounds = some (first, last) ∧
    Longest table argv j first last

/-- At the earliest place, a phrase is listed before all others that occur there, one of which has
more words. -/
def Overshadowed (table : List Phrases) (argv : List Str) : Prop :=
  ∃ i front p back, NoneBefore table argv i ∧ listed table = front ++ p :: back ∧
    (∀ e ∈ front, ¬ Occurs argv i e.2) ∧
    Occurs argv i p.2 ∧ ∃ q ∈ back, Occurs argv i q.2 ∧ p.2.length < q.2.length

/-- What is listed first of those with a property is determined. -/
theorem first_unique {α : Type} {P : α → Prop} {l front front' back back' : List α} {p p' : α}
    (h : l = front ++ p :: back)
    (h' : l = front' ++ p' :: back') (hfront : ∀ e ∈ front, ¬ P e) (hfront' : ∀ e ∈ front', ¬ P e)
    (hp : P p) (hp' : P p') : p = p' := by
  classical
  have hfind : ∀ {f b : List α} {x : α}, l = f ++ x :: b → (∀ e ∈ f, ¬ P e) → P x →
      l.find? (fun e => decide (P e)) = some x := by
    intro f b x hl hf hx
    exact List.find?_eq_some_iff_append.mpr ⟨decide_eq_true hx, f, b, hl,
      fun e he => by simpa using hf e he⟩
  exact Option.some.inj ((hfind h hfront hp).symm.trans (hfind h' hfront' hp'))

/-- So is the earliest place. -/
theorem earliest_unique {e e' : Nat × List Str} {i i' : Nat} (h : NoneBefore table argv i)
    (h' : NoneBefore table argv i')
    (he : e ∈ listed table) (he' : e' ∈ listed table) (hoccurs : Occurs argv i e.2)
    (hoccurs' : Occurs argv i' e'.2) : i = i' := by
  rcases Nat.lt_trichotomy i i' with hlt | heq | hlt
  · exact absurd hoccurs (h' i hlt e he)
  · exact heq
  · exact absurd hoccurs' (h i' hlt e' he')

/-! ## The table of the server -/

def prepTable : List Phrases := [
  [[ascii "with"], [ascii "using"]],
  [[ascii "at"], [ascii "to"]],
  [[ascii "in", ascii "front", ascii "of"]],
  [[ascii "in"], [ascii "inside"], [ascii "into"]],
  [[ascii "on", ascii "top", ascii "of"], [ascii "on"], [ascii "onto"], [ascii "upon"]],
  [[ascii "out", ascii "of"], [ascii "from", ascii "inside"], [ascii "from"]],
  [[ascii "over"]],
  [[ascii "through"]],
  [[ascii "under"], [ascii "underneath"], [ascii "beneath"]],
  [[ascii "behind"]],
  [[ascii "beside"]],
  [[ascii "for"], [ascii "about"]],
  [[ascii "is"]],
  [[ascii "as"]],
  [[ascii "off"], [ascii "off", ascii "of"]]]

set_option maxRecDepth 4000 in
theorem buildPrepTable_prepList : buildPrepTable prepList = some prepTable := by decide

theorem phraseTable_prepList : phraseTable prepList = prepTable :=
  (buildPrepTable_spec (by decide) buildPrepTable_prepList).symm

/-- Phrases that occur at one place begin with each other. -/
theorem Occurs.prefix_of_shorter {p q : List Str} (hp : Occurs argv i p) (hq : Occurs argv i q)
    (h : p.length ≤ q.length) :
    p.map nameKey <+: q.map nameKey :=
  List.prefix_of_prefix_length_le hp.2 hq.2 (by simpa using h)

theorem Overshadowed.exists_pair (h : Overshadowed table argv) :
    ∃ i p q, NoneBefore table argv i ∧ List.Sublist [p, q] (listed table) ∧ Occurs argv i q.2 ∧
      p.2.length < q.2.length ∧
      p.2.map nameKey <+: q.2.map nameKey := by
  obtain ⟨i, front, p, back, hbefore, hsplit, -, hp, q, hq, hoccurs, hlt⟩ := h
  refine ⟨i, p, q, hbefore, ?_, hoccurs, hlt, hp.prefix_of_shorter hoccurs (Nat.le_of_lt hlt)⟩
  rw [hsplit]
  exact ((List.singleton_sublist.mpr hq).cons_cons p).trans (List.sublist_append_right _ _)

/-- A table in which no phrase stands before a longer one that begins so finds the longest. -/
theorem not_overshadowed (h : (listed table).Pairwise fun p q => p.2.length < q.2.length →
    ¬ p.2.map nameKey <+: q.2.map nameKey) :
    ¬ Overshadowed table argv := by
  intro hover
  obtain ⟨i, p, q, -, hsub, -, hlt, hpre⟩ := hover.exists_pair
  exact List.rel_of_pairwise_cons (h.sublist hsub) List.mem_cons_self hlt hpre

/-- In the table of the server only one phrase is never found. -/
theorem prepTable_overshadowed :
    Overshadowed prepTable argv ↔ ∃ i, NoneBefore prepTable argv i ∧
      Occurs argv i [ascii "off", ascii "of"] := by
  have hpairs : (listed prepTable).Pairwise fun p q =>
      p.2.length < q.2.length → p.2.map nameKey <+: q.2.map nameKey →
        q.2 = [ascii "off", ascii "of"] := by decide
  constructor
  · intro h
    obtain ⟨i, p, q, hbefore, hsub, hoccurs, hlt, hpre⟩ := h.exists_pair
    exact ⟨i, hbefore, List.rel_of_pairwise_cons (hpairs.sublist hsub) List.mem_cons_self hlt hpre ▸
      hoccurs⟩
  · rintro ⟨i, hbefore, hoccurs⟩
    have hsplit : listed prepTable = (listed prepTable).take 26 ++ (14, [ascii "off"]) ::
        [(14, [ascii "off", ascii "of"])] := by decide
    have hapart : ∀ e ∈ (listed prepTable).take 26, ¬ e.2.map nameKey <+:
        [ascii "off", ascii "of"].map nameKey ∧
        ¬ [ascii "off", ascii "of"].map nameKey <+: e.2.map nameKey := by decide
    refine ⟨i, _, _, _, hbefore, hsplit, fun e he hocc => ?_, ⟨hoccurs.1, ?_⟩, _,
      List.mem_cons_self, hoccurs, by decide⟩
    · rcases le_total e.2.length [ascii "off", ascii "of"].length with hle | hle
      · exact (hapart e he).1 (hocc.prefix_of_shorter hoccurs hle)
      · exact (hapart e he).2 (hoccurs.prefix_of_shorter hocc hle)
    · exact List.IsPrefix.trans (by decide) hoccurs.2

/-! ## The result -/

theorem dbFindPrep_longest_iff (h0 : ∀ p ∈ rows, 0 ∉ p) (h : buildPrepTable rows = some table)
    (argv : List Str) :
    FindsLongest (phraseTable rows) argv (dbFindPrep table argv true) ↔
    ¬ Overshadowed (phraseTable rows) argv := by
  rw [← buildPrepTable_spec h0 h]
  constructor
  · rintro hfinds ⟨i, front, p, back, hbefore, hsplit, hfront, hp, q, hq, hoccurs, hlt⟩
    have hpmem : p ∈ listed table := hsplit ▸ List.mem_append_right _ List.mem_cons_self
    have hqmem : q ∈ listed table := hsplit ▸ List.mem_append_right _ (List.mem_cons_of_mem _ hq)
    cases hresult : dbFindPrep table argv true with
    | none => exact dbFindPrep_none hresult i p hpmem hp
    | some found =>
      obtain ⟨j, bounds⟩ := found
      obtain ⟨first, front', phrase, back', hbounds, hbefore', hsplit', hoccurs', hfront'⟩ :=
        dbFindPrep_some hresult
      have hmem' : (j, phrase) ∈ listed table :=
        hsplit' ▸ List.mem_append_right _ List.mem_cons_self
      have hi := earliest_unique hbefore hbefore' hpmem hmem' hp hoccurs'
      subst hi
      have hpeq :=
        first_unique (P := fun e => Occurs argv i e.2) hsplit hsplit' hfront hfront' hp hoccurs'
      obtain ⟨first, last, hbounds', hlongest⟩ := hfinds.longest j bounds hresult
      obtain ⟨rfl, rfl⟩ := Prod.mk.inj (Option.some.inj (hbounds.symm.trans hbounds'))
      obtain ⟨longest, -, -, hlen, hmax⟩ := hlongest.occurs
      have hle := hmax q hqmem hoccurs
      rw [hpeq] at hlt
      simp only at hlt
      omega
  · intro hnot
    refine ⟨⟨dbFindPrep_none, fun hnone => ?_⟩, fun j bounds hresult => ?_⟩
    · cases hresult : dbFindPrep table argv true with
      | none => rfl
      | some found =>
        obtain ⟨first, front, phrase, back, -, -, hsplit, hoccurs, -⟩ := dbFindPrep_some hresult
        exact absurd hoccurs (hnone first _ (hsplit ▸ List.mem_append_right _ List.mem_cons_self))
    · obtain ⟨first, front, phrase, back, hbounds, hbefore, hsplit, hoccurs, hfront⟩ :=
        dbFindPrep_some hresult
      have hmem : (j, phrase) ∈ listed table := hsplit ▸ List.mem_append_right _ List.mem_cons_self
      refine ⟨first, _, hbounds, hbefore, phrase, hmem, hoccurs, by omega, fun e he hocc => ?_⟩
      -- a longer phrase at the same place stands behind the one that is found, and is overshadowed
      by_contra hlong
      rw [hsplit] at he
      rcases List.mem_append.mp he with he | he
      · exact hfront e he hocc
      · rcases List.mem_cons.mp he with rfl | he
        · exact hlong (le_refl _)
        · exact hnot ⟨first, front, (j, phrase), back, hbefore, hsplit, hfront, hoccurs, e, he,
            hocc, Nat.lt_of_not_le hlong⟩

theorem dbFindPrep_longest_inFrontOf :
    FindsLongest (phraseTable prepList) [ascii "in", ascii "front", ascii "of"]
      (dbFindPrep prepTable [ascii "in", ascii "front", ascii "of"] true) := by
  refine (dbFindPrep_longest_iff (by decide) buildPrepTable_prepList _).mpr ?_
  rw [phraseTable_prepList, prepTable_overshadowed]
  rintro ⟨i, -, hlt, hpre⟩
  have hnone : ∀ k < 3, ¬ Occurs [ascii "in", ascii "front", ascii "of"] k [ascii "off",
    ascii "of"] := by decide
  exact hnone i hlt ⟨hlt, hpre⟩

/-- Of the two phrases that occur here, the table has the shorter first. -/
theorem dbFindPrep_off_of : buildPrepTable prepList = some prepTable ∧
    ¬ FindsLongest (phraseTable prepList) [ascii "off", ascii "of"]
    (dbFindPrep prepTable [ascii "off", ascii "of"] true) := by
  refine ⟨buildPrepTable_prepList, ?_⟩
  have hresult : dbFindPrep prepTable [ascii "off", ascii "of"] true = some (14, some (0, 0)) := by
    decide
  have hlisted : (14, [ascii "off", ascii "of"]) ∈ listed prepTable := by decide
  rw [phraseTable_prepList]
  intro h
  obtain ⟨first, last, hbounds, hlongest⟩ := h.longest 14 _ hresult
  obtain ⟨rfl, rfl⟩ := Prod.mk.inj (Option.some.inj hbounds)
  obtain ⟨phrase, -, -, hlen, hmax⟩ := hlongest.occurs
  have hle := hmax _ hlisted (by decide)
  simp only [List.length_cons, List.length_nil] at hle
  omega

end Db
end NuMoo
