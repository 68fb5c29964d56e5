import NuMoo.Db.Match
import NuMoo.Db.Prepositions

/-!
# Commands

`parse_command` of `parse_cmd.c`: the verb of a line, its arguments as a text and as words, and the
direct and indirect object around a preposition. The text is found by a scanner of its own.

Results:
1. `skipVerb_eq`: that scanner passes over what the tokeniser takes for the first word.
2. `parseCommand_consistent`: the words of the line are the verb and the arguments, those of the
   text are the arguments, and the parts around the preposition join to them.
-/

namespace NuMoo
namespace Task

open NuMoo.Lex (ascii)
open Net (chQuote chBackslash chBlank parseIntoWords parseIntoWordlist argvOf words takeWord)
open Db (Phrases dbFindPrep)

/-- `Parsed_Command`; no preposition is `PREP_NONE`. -/
structure ParsedCommand where
  verb : Str
  argstr : Str
  args : List Str
  dobjstr : Str
  dobj : Objid
  prepstr : Str
  prep : Option Nat
  iobjstr : Str
  iobj : Objid
deriving DecidableEq, Repr

/-- `build_string` -/
def buildString (argc : Int) (argv : List Str) : Str :=
  match argv.take argc.toNat with
  | [] => []
  | word :: words => words.foldl (fun str w => str ++ [chBlank] ++ w) word

/-- The loop of `parse_command` that skips past even complexly-quoted verbs. -/
def skipVerb : Bool → Str → Str
  | _, [] => []
  | inQuotes, c :: argstr =>
    if inQuotes = false ∧ c = chBlank then c :: argstr
    else if c = chQuote then skipVerb (!inQuotes) argstr
    else if c = chBackslash then
      match argstr with
      | [] => []
      | _ :: argstr => skipVerb inQuotes argstr
    else skipVerb inQuotes argstr

/-- The buffer that is cut into words, and `argstr`. -/
def splitVerb (command : Str) : Str × Str :=
  match command with
  | 34 :: argstr => (ascii "say" ++ [chBlank] ++ argstr, argstr)
  | 58 :: argstr => (ascii "emote" ++ [chBlank] ++ argstr, argstr)
  | 59 :: argstr => (ascii "eval" ++ [chBlank] ++ argstr, argstr)
  | _ => (command, (skipVerb false command).dropWhile (· = chBlank))

/-- The search of `parse_command` for a preposition, with the places of its first and last word in
`argv`. -/
def findPrep (table : List Phrases) (args : List Str) : Option Nat × Int × Int :=
  let argc : Int := args.length + 1
  if 1 < argc then
    match dbFindPrep table args true with
    | some (prep, some (pstart, pend)) => (some prep, pstart + 1, pend + 1)
    | _ => (none, argc, argc)
  else (none, argc, argc)

/-- `parse_command` behind the tokeniser, where `argv` begins with the verb. -/
def parseArgs (table : List Phrases) (db : Db) (user : Objid) (argstr verb : Str)
    (args : List Str) : Option ParsedCommand :=
  let argv := verb :: args
  let argc : Int := args.length + 1
  let (prep, pstart, pend) := findPrep table args
  let prepstr :=
    if prep = none then [] else buildString (pend - pstart + 1) (argv.drop pstart.toNat)
  let iobjstr :=
    if prep = none then [] else buildString (argc - (pend + 1)) (argv.drop (pend + 1).toNat)
  let dlen := pstart - 1
  let dobjstr := if dlen = 0 then [] else buildString dlen args
  (if prep = none then some NOTHING else db.matchObject user iobjstr).bind fun iobj =>
    (if dlen = 0 then some NOTHING else db.matchObject user dobjstr).map fun dobj =>
      { verb, argstr, args, dobjstr, dobj, prepstr, prep, iobjstr, iobj }

/-- `parse_command`; the inner `none` is the null pointer. -/
def parseCommand (table : List Phrases) (db : Db) (command : Str) (user : Objid) :
    Option (Option ParsedCommand) := do
  let (buf, argstr) := splitVerb (command.dropWhile (· = chBlank))
  let r ← parseIntoWords buf
  match argvOf r with
  | [] => return none
  | verb :: args => return some (← parseArgs table db user argstr verb args)

/-! ## The text of the arguments -/

variable {table : List Phrases} {db : Db} {user : Objid} {command argstr verb : Str}
    {args : List Str} {pc : ParsedCommand}

/-- Both scanners agree about where a verb ends. -/
theorem skipVerb_eq (q : Bool) (line : Str) : skipVerb q line = (takeWord q line).2.2 := by
  fun_induction takeWord q line with
  | case1 q => rfl
  | case2 q c line h => rw [skipVerb.eq_def]; simp [h]
  | case3 q line hb ih => rw [skipVerb.eq_def]; simpa [hb] using ih
  | case4 q hb hq => cases q <;> rfl
  | case5 q d line hb hq ih => rw [skipVerb.eq_def]; simpa [hb, hq] using ih
  | case6 q c line hb hq hbs ih => rw [skipVerb.eq_def]; simpa [hb, hq, hbs] using ih

theorem splitVerb_fst (command : Str) :
    ((splitVerb command).1 = command ∧ (splitVerb command).2 =
      (takeWord false command).2.2.dropWhile (· = chBlank)) ∨
      ∃ c, command = c :: (splitVerb command).2 ∧
      ∃ verb ∈ [ascii "say", ascii "emote", ascii "eval"],
        (splitVerb command).1 = verb ++ chBlank :: (splitVerb command).2 := by
  unfold splitVerb
  split
  · rename_i argstr
    exact .inr ⟨34, rfl, ascii "say", by decide, by simp⟩
  · rename_i argstr
    exact .inr ⟨58, rfl, ascii "emote", by decide, by simp⟩
  · rename_i argstr
    exact .inr ⟨59, rfl, ascii "eval", by decide, by simp⟩
  · exact .inl ⟨rfl, by rw [skipVerb_eq]⟩

/-- A word without quotes, backslashes and spaces is read as it is. -/
theorem words_plain {v : Str} (hne : v ≠ [])
    (hv : ∀ c ∈ v, c ≠ chBlank ∧ c ≠ chQuote ∧ c ≠ chBackslash) (rest : Str) :
    words (v ++ chBlank :: rest) = v :: words rest := by
  have htake : takeWord false (v ++ chBlank :: rest) = (v, false, chBlank :: rest) := by
    clear hne
    induction v with
    | nil => exact Net.takeWord_blank rest
    | cons c v ih =>
      obtain ⟨hb, hq, hbs⟩ := hv c List.mem_cons_self
      have ih := ih fun c hc => hv c (List.mem_cons_of_mem _ hc)
      rw [List.cons_append, Net.takeWord_plain hb hq hbs, ih]
  have hfront : (v ++ chBlank :: rest).head? ≠ some chBlank := by
    obtain ⟨c, v, rfl⟩ := List.exists_cons_of_ne_nil hne
    exact fun h => (hv c List.mem_cons_self).1 (Option.some.inj h)
  rw [Net.words_eq (List.append_ne_nil_of_left_ne_nil hne _) hfront, htake, Net.words_blank]

/-- The words behind the verb are those of `argstr`. -/
theorem splitVerb_words (hfront : command.head? ≠ some chBlank)
    (h : words (splitVerb command).1 = verb :: args) :
    words (splitVerb command).2 = args := by
  rcases splitVerb_fst command with ⟨hbuf, hargstr⟩ | ⟨c, -, v, hv, hbuf⟩
  · rw [hbuf] at h
    have hne : command ≠ [] := fun hnil => by simp [hnil, Net.words_nil] at h
    rw [Net.words_eq hne hfront] at h
    rw [hargstr, Net.words_dropBlanks]
    exact (List.cons.inj h).2
  · have hplain : ∀ v ∈ [ascii "say", ascii "emote", ascii "eval"], v ≠ [] ∧ ∀ c ∈ v, c ≠ chBlank ∧
        c ≠ chQuote ∧ c ≠ chBackslash := by
      decide +kernel
    rw [hbuf, words_plain (hplain v hv).1 (hplain v hv).2] at h
    exact (List.cons.inj h).2

theorem splitVerb_plain (h0 : 0 ∉ command) :
    0 ∉ (splitVerb command).1 ∧ 0 ∉ (splitVerb command).2 := by
  rcases splitVerb_fst command with ⟨hbuf, hargstr⟩ | ⟨c, hc, v, hv, hbuf⟩
  · rw [hbuf, hargstr]
    exact ⟨h0, fun h => h0 ((Net.takeWord_suffix false command).subset
      ((List.dropWhile_suffix _).subset h))⟩
  · have hargstr : 0 ∉ (splitVerb command).2 :=
      fun h => h0 (by rw [hc]; exact List.mem_cons_of_mem _ h)
    have hplain : ∀ v ∈ [ascii "say", ascii "emote", ascii "eval"], 0 ∉ v := by decide
    refine ⟨?_, hargstr⟩
    rw [hbuf, List.mem_append, List.mem_cons, not_or, not_or]
    exact ⟨hplain v hv, by decide, hargstr⟩

/-! ## The parts around the preposition -/

/-- The words with a space between them. -/
def joined (words : List Str) : Str := [chBlank].intercalate words

theorem foldl_joined (w : Str) (ws : List Str) :
    ws.foldl (fun str w => str ++ [chBlank] ++ w) w = joined (w :: ws) := by
  induction ws generalizing w with
  | nil => simp [joined]
  | cons v ws ih =>
    rw [List.foldl_cons, ih]
    cases ws with
    | nil => simp [joined]
    | cons x ws => simp [joined]

theorem buildString_eq (argc : Int) (argv : List Str) :
    buildString argc argv = joined (argv.take argc.toNat) := by
  rw [buildString]
  split
  · rename_i h
    rw [h]
    rfl
  · rename_i w ws h
    rw [h, foldl_joined]

/-- The words of the direct object, of the preposition and of the indirect object, in order. -/
structure Parts (table : List Phrases) (pc : ParsedCommand) (dobj prep iobj : List Str) : Prop where
  args : pc.args = dobj ++ prep ++ iobj
  dobjstr : pc.dobjstr = joined dobj
  prepstr : pc.prepstr = joined prep
  iobjstr : pc.iobjstr = joined iobj
  none : pc.prep = none → prep = [] ∧ iobj = []
  some : ∀ spec, pc.prep = some spec → ∃ phrase, (spec, phrase) ∈ Db.listed table ∧
    prep.map nameKey = phrase.map nameKey

/-- The words of the arguments around the preposition. -/
theorem findPrep_spec (table : List Phrases) (args : List Str) :
    findPrep table args = (none, (args.length : Int) + 1, (args.length : Int) + 1) ∨
      ∃ (spec first : Nat) (phrase : List Str), findPrep table args =
        (some spec, (first : Int) + 1, (first : Int) + phrase.length) ∧
        (spec, phrase) ∈ Db.listed table ∧ first + phrase.length ≤ args.length ∧
        ((args.drop first).take phrase.length).map nameKey = phrase.map nameKey := by
  rw [findPrep]
  split
  · cases hfound : dbFindPrep table args true with
    | none => exact .inl rfl
    | some found =>
      obtain ⟨spec, bounds⟩ := found
      obtain ⟨first, front, phrase, back, rfl, -, hlisted, hoccurs, -⟩ := Db.dbFindPrep_some hfound
      have hlen := hoccurs.2.length_le
      rw [List.length_map, List.length_map, List.length_drop] at hlen
      refine .inr ⟨spec, first, phrase, ?_, hlisted ▸ List.mem_append_right _ List.mem_cons_self,
        Nat.add_le_of_le_sub' (Nat.le_of_lt hoccurs.1) hlen, ?_⟩
      · dsimp only
        rw [Int.sub_add_cancel]
      · rw [List.map_take, ← List.length_map nameKey]
        exact (List.prefix_iff_eq_take.mp hoccurs.2).symm
  · exact .inl rfl

theorem parseArgs_parts (h : parseArgs table db user argstr verb args = some pc) :
    pc.verb = verb ∧ pc.argstr = argstr ∧ pc.args = args ∧ ∃ dobj prep iobj,
      Parts table pc dobj prep iobj := by
  have hdlen : ∀ dlen : Int, (if dlen = 0 then [] else buildString dlen args) =
      joined (args.take dlen.toNat) := by
    intro dlen
    split
    · rename_i hzero
      rw [hzero]
      rfl
    · exact buildString_eq dlen args
  rcases findPrep_spec table args with hfound | ⟨spec, first, phrase, hfound,
    hlisted, hlen, hphrase⟩
  · rw [parseArgs, hfound] at h
    obtain ⟨iobj, -, h⟩ := Option.bind_eq_some_iff.mp h
    obtain ⟨dobj, -, rfl⟩ := Option.map_eq_some_iff.mp h
    refine ⟨rfl, rfl, rfl, args, [], [], ?_, ?_, rfl, rfl, fun _ => ⟨rfl, rfl⟩, nofun⟩
    · rw [List.append_nil, List.append_nil]
    · show (if (args.length : Int) + 1 - 1 = 0 then []
      else buildString ((args.length : Int) + 1 - 1) args) = _
      rw [hdlen, Int.add_sub_cancel, Int.toNat_natCast, List.take_length]
  · rw [parseArgs, hfound] at h
    obtain ⟨iobj, -, h⟩ := Option.bind_eq_some_iff.mp h
    obtain ⟨dobj, -, rfl⟩ := Option.map_eq_some_iff.mp h
    refine ⟨rfl, rfl, rfl, args.take first, (args.drop first).take phrase.length,
      args.drop (first + phrase.length), ?_, ?_,
      ?_, ?_, nofun, fun j hj => ?_⟩
    · show args = _
      rw [List.append_assoc, ← List.drop_drop, List.take_append_drop, List.take_append_drop]
    · show (if (first : Int) + 1 - 1 = 0 then [] else buildString ((first : Int) + 1 - 1) args) = _
      rw [hdlen, Int.add_sub_cancel, Int.toNat_natCast]
    · show buildString ((first : Int) + phrase.length - (first + 1) + 1)
          ((verb :: args).drop ((first : Int) + 1).toNat) = _
      have hcount : ((first : Int) + phrase.length - (first + 1) + 1).toNat = phrase.length := by
        omega
      have hplace : ((first : Int) + 1).toNat = first + 1 := by omega
      rw [buildString_eq, hcount, hplace, List.drop_succ_cons]
    · show buildString ((args.length : Int) + 1 - (first + phrase.length + 1))
          ((verb :: args).drop ((first : Int) + phrase.length + 1).toNat) = _
      have hcount : ((args.length : Int) + 1 - (first + phrase.length + 1)).toNat =
          (args.drop (first + phrase.length)).length := by
        rw [List.length_drop]
        omega
      have hplace : ((first : Int) + phrase.length + 1).toNat = first + phrase.length + 1 := by
        omega
      rw [buildString_eq, hcount, hplace, List.drop_succ_cons, List.take_length]
    · obtain rfl := Option.some.inj hj
      exact ⟨phrase, hlisted, hphrase⟩

/-- The verb and the arguments are the words of the line behind its shortcut, the arguments are the
words of `argstr`, and the parts around the preposition join to them. -/
theorem parseCommand_consistent (h0 : 0 ∉ command)
    (h : parseCommand table db command user = some (some pc)) :
    (∀ line : Str, 0 ∉ line → ∃ r, parseIntoWords line = some r ∧ argvOf r = words line) ∧
      words (splitVerb (command.dropWhile (· = chBlank))).1 = pc.verb :: pc.args ∧
      pc.argstr = (splitVerb (command.dropWhile (· = chBlank))).2 ∧
      parseIntoWordlist pc.argstr = some pc.args ∧ ∃ dobj prep iobj,
      Parts table pc dobj prep iobj := by
  refine ⟨fun line hline => Net.parseIntoWords_spec hline, ?_⟩
  have hplain : 0 ∉ command.dropWhile (· = chBlank) :=
    fun hm => h0 ((List.dropWhile_suffix _).subset hm)
  obtain ⟨hbuf, hargstr⟩ := splitVerb_plain hplain
  obtain ⟨r, hr, hargv⟩ := Net.parseIntoWords_spec hbuf
  obtain ⟨r', hr', hargv'⟩ := Net.parseIntoWords_spec hargstr
  rw [parseCommand] at h
  simp only [Option.bind_eq_bind] at h
  rw [hr, Option.bind_some, hargv] at h
  split at h
  · simp at h
  · rename_i verb args hwords
    obtain ⟨pc', hpc, hsome⟩ := Option.bind_eq_some_iff.mp h
    obtain rfl := Option.some.inj (Option.some.inj hsome)
    obtain ⟨hverb, htext, hargs, hparts⟩ := parseArgs_parts hpc
    refine ⟨?_, htext, ?_, hparts⟩
    · rw [hwords, hverb, hargs]
    · rw [htext, hargs, parseIntoWordlist, hr', Option.map_some, hargv',
        splitVerb_words (Net.dropBlanks_front command) hwords]

/-- A line that begins with a shortcut. -/
def putsOnLamp : ParsedCommand where
  verb := ascii "emote"
  argstr := ascii "puts it on lamp"
  args := [ascii "puts", ascii "it", ascii "on", ascii "lamp"]
  dobjstr := ascii "puts it"
  dobj := FAILED_MATCH
  prepstr := ascii "on"
  prep := some 4
  iobjstr := ascii "lamp"
  iobj := 1

set_option maxRecDepth 4000 in
theorem parseCommand_consistent_puts :
    (∀ line : Str, 0 ∉ line → ∃ r, parseIntoWords line = some r ∧ argvOf r = words line) ∧
      words (splitVerb ((ascii ":puts it on lamp").dropWhile (· = chBlank))).1 = putsOnLamp.verb ::
        putsOnLamp.args ∧
      putsOnLamp.argstr = (splitVerb ((ascii ":puts it on lamp").dropWhile (· = chBlank))).2 ∧
      parseIntoWordlist putsOnLamp.argstr = some putsOnLamp.args ∧
      ∃ dobj prep iobj, Parts Db.prepTable putsOnLamp dobj prep iobj :=
  have hplain : 0 ∉ ascii ":puts it on lamp" := by decide
  have hparse : parseCommand Db.prepTable holder (ascii ":puts it on lamp") 0 =
      some (some putsOnLamp) := by decide
  parseCommand_consistent hplain hparse

end Task
end NuMoo
