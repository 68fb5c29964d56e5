import NuMoo.Code.Lex

/-!
# The two sources of program text

The clients that the parser reads a verb's program from: `end_programming` of `tasks.c`, whose
`my_getc` returns the `char`s of `program_stream`, and `parse_list_as_program` of `parser.y`, whose
`my_getc` goes through a list of strings as `unsigned char`s.

Results:
1. `readCallN_list`: from a list of lines, the parser reads their characters and line ends.
2. `readCallN_stream`: from the stream it reads every byte as a `char` of its own.
3. `sources_agree_iff`: a parser is given the same characters, and does the same, as long as it
   stops before the first character that is not ASCII.
-/

namespace NuMoo
namespace Lex

open Net

/-- A `char`, which is signed. -/
def charInt (c : UInt8) : Int := if c ≤ 0x7f then c.toNat else c.toNat - 256

/-- `program_stream` after the lines have been sent, each printed with `"%s\n"`. -/
def programStream (lines : List Str) : Str := (lines.map (· ++ [0x0a])).flatten

/-- `my_getc` of `tasks.c`; its data are what is left of `program_stream`. -/
def streamGetc (input : Str) : Int × Str :=
  match input with
  | [] => (EOF, [])
  | c :: rest => if c ≠ 0 then (charInt c, rest) else (EOF, input)

/-- `struct parser_state`, without the list of errors. -/
structure ParserState where
  code : List Str
  cur_string : Nat
  cur_char : Nat
deriving DecidableEq, Repr

/-- `my_getc` of `parser.y` -/
def listGetc (state : ParserState) : Int × ParserState :=
  if state.cur_string > state.code.length then (EOF, state)
  else
    let c := ((state.code.getD (state.cur_string - 1) []).getD state.cur_char 0)
    if c = 0 then (0x0a, { state with cur_string := state.cur_string + 1, cur_char := 0 })
    else ((c.toNat : Int), { state with cur_char := state.cur_char + 1 })

/-- A line that may be sent after `.program`: UTF-8 text without a line end, and not the dot that
ends it. -/
structure TextLine where
  chars : List Nat
  text : ∀ r ∈ chars, Encodable r ∧ r ≠ 0 ∧ r ≠ 0x0a
  more : encode chars ≠ [0x2e]

def TextLine.bytes (line : TextLine) : Str := encode line.chars

/-- The characters of some lines, with their line ends. -/
def lineRunes (lines : List TextLine) : List Nat := (lines.map (·.chars ++ [0x0a])).flatten

section Programming

variable {α : Type} (parse : List Int → α)

/-- `parse_program` as `end_programming` calls it, for a parser that is a function of the characters
`lex_getc` gives it. -/
def endProgramming (lines : List Str) : Option α :=
  let input := programStream lines
  (readCallN streamGetc (input.length + 1) (-1) input).map parse

/-- `parse_list_as_program` -/
def parseListAsProgram (code : List Str) : Option α :=
  (readCallN listGetc ((programStream code).length + 1) (-1) ⟨code, 1, 0⟩).map parse

end Programming

/-- A parser that goes through the text from its start, as `yyparse` does: what it answers once it
has read some characters, unless it reads on, and what it answers at the end of the text. -/
structure Parser (α : Type) where
  stop : List Int → Option α
  eof : List Int → α

/-- What a parser has read, and its answer. -/
structure Parsed (α : Type) where
  read : List Int
  result : α
deriving DecidableEq, Repr

/-- A parser that has read some characters goes through the others. -/
def Parser.run {α : Type} (p : Parser α) (read : List Int) : List Int → Parsed α
  | [] => ⟨read, (p.stop read).getD (p.eof read)⟩
  | c :: rest =>
    match p.stop read with
    | some result => ⟨read, result⟩
    | none => p.run (read ++ [c]) rest

/-! ## The list -/

/-- What `my_getc` of `parser.y` has still to deliver: the rest `y` of a line, and the lines `rest`
after it. -/
inductive Remaining : ParserState → List Int → Prop
  | line {code done rest : List Str} {x y : Str} {k j : Nat} {l : List Int} :
      code = done ++ (x ++ y) :: rest → k = done.length + 1 →
      j = x.length → (∀ s ∈ code, 0 ∉ s) → l = (y ++ 0x0a :: programStream rest).map byteInt →
      Remaining ⟨code, k, j⟩ l
  | done {code : List Str} {k j : Nat} : code.length < k → Remaining ⟨code, k, j⟩ []

theorem Remaining.step {state : ParserState} {l : List Int} (h : Remaining state l) :
    (listGetc state).1 = (listGetch l).1 ∧ Remaining (listGetc state).2 (listGetch l).2 := by
  cases h with
  | @done code k j hk =>
    rw [listGetc, if_pos hk]
    exact ⟨rfl, .done hk⟩
  | @line code done rest x y k j l hcode hk hj hnul hl =>
    subst hk hj hl
    have hlt : ¬ done.length + 1 > code.length := by
      rw [hcode, List.length_append, List.length_cons]
      omega
    have hget : code.getD (done.length + 1 - 1) [] = x ++ y := by
      rw [hcode, Nat.add_sub_cancel, List.getD_eq_getElem?_getD,
        List.getElem?_append_right (Nat.le_refl _), Nat.sub_self]
      rfl
    rw [listGetc, if_neg hlt, hget, List.getD_eq_getElem?_getD,
      List.getElem?_append_right (Nat.le_refl _), Nat.sub_self]
    cases y with
    | nil =>
      refine ⟨rfl, ?_⟩
      cases rest with
      | nil => exact .done (by rw [hcode]; simp)
      | cons s rest =>
        refine @Remaining.line _ (done ++ [x]) rest [] s _ _ _ ?_ ?_ rfl hnul ?_
        · rw [hcode]
          simp
        · simp
        · simp [programStream, listGetch]
    | cons c y =>
      have hc : c ≠ 0 := by
        rintro rfl
        exact hnul (x ++ 0 :: y) (by rw [hcode]; simp) (by simp)
      rw [List.getElem?_cons_zero, Option.getD_some, if_neg hc]
      exact ⟨rfl, .line (x := x ++ [c]) (y := y) (by rw [hcode]; simp) rfl (by simp) hnul rfl⟩

theorem listGetc_feeds {code : List Str} (hnul : ∀ s ∈ code, 0 ∉ s) :
    Feeds listGetc ⟨code, 1, 0⟩ ((programStream code).map byteInt) := by
  refine Feeds.of_step (R := Remaining) (fun _ _ h => h.step) ?_
  cases code with
  | nil => exact .done Nat.zero_lt_one
  | cons s code =>
    exact @Remaining.line _ [] _ [] s _ _ _ rfl rfl rfl hnul (by simp [programStream])

/-- The text of some lines is the encoding of their characters. -/
theorem programStream_bytes (lines : List TextLine) :
    programStream (lines.map TextLine.bytes) = encode (lineRunes lines) := by
  induction lines with
  | nil => rfl
  | cons line lines ih =>
    rw [programStream, encode] at ih
    simp only [programStream, TextLine.bytes, lineRunes, encode, List.map_cons, List.flatten_cons,
      List.map_append, List.flatten_append,
      ih, List.map_nil, List.flatten_nil, List.append_nil]
    rfl

theorem lineRunes_text {lines : List TextLine} {r : Nat} (h : r ∈ lineRunes lines) :
    Encodable r ∧ r ≠ 0 := by
  obtain ⟨l, hl, hr⟩ := List.mem_flatten.mp h
  obtain ⟨line, _, rfl⟩ := List.mem_map.mp hl
  rcases List.mem_append.mp hr with hr | hr
  · exact ⟨(line.text r hr).1, (line.text r hr).2.1⟩
  · rw [List.mem_singleton.mp hr]
    decide

/-- The bytes of a character: one below 0x80, or a first byte and bytes that continue it. -/
theorem putUtf_bytes {r : Nat} (h : Encodable r) :
    (r ≤ 0x7f ∧ (putUtf r).getD [] = [UInt8.ofNat r]) ∨
      (0x7f < r ∧ ∃ c n invalid, lead c = some (n, r / 64 ^ n, invalid) ∧
        (putUtf r).getD [] = c :: tailBytes n r) := by
  by_cases hr : r ≤ 0x7f
  · exact .inl ⟨hr, by rw [putUtf, if_pos hr]; rfl⟩
  · obtain ⟨c, n, invalid, hl, _, hput⟩ := lead_putUtf h (by omega)
    exact .inr ⟨by omega, c, n, invalid, hl, by rw [hput]; rfl⟩

theorem tailBytes_range {n r : Nat} {c : UInt8} (h : c ∈ tailBytes n r) :
    ¬ c ≤ 0x7f ∧ c ≤ 0xbf := by
  induction n with
  | zero => simp [tailBytes] at h
  | succ n ih =>
    rcases List.mem_cons.mp h with rfl | h
    · have hall : ∀ x < 64, ¬ UInt8.ofNat (0x80 ||| x) ≤ 0x7f ∧
          UInt8.ofNat (0x80 ||| x) ≤ 0xbf := by decide
      exact hall _ (Nat.lt_succ_of_le Nat.and_le_right)
    · exact ih h

theorem lead_range {c : UInt8} {n v : Nat} {invalid : Nat → Bool}
    (h : lead c = some (n, v, invalid)) : ¬ c ≤ 0xbf ∧ c ≤ 0xf7 := by
  unfold lead at h
  split at h
  · simp at h
  · next h₀ =>
    refine ⟨h₀, ?_⟩
    split at h
    · next h₁ => exact UInt8.le_trans h₁ (by decide)
    · split at h
      · next h₂ => exact UInt8.le_trans h₂ (by decide)
      · split at h
        · next h₃ => exact h₃
        · simp at h

theorem continued_tailBytes (n₀ n w r : Nat) (s : Str) : Continued n₀ n w (tailBytes n r ++ s) := by
  induction n generalizing w with
  | zero => trivial
  | succ n ih =>
    have hmem : UInt8.ofNat (0x80 ||| ((r >>> (6 * n)) &&& 0x3f)) ∈ tailBytes (n + 1) r :=
      List.mem_cons_self
    obtain ⟨hlo, hhi⟩ := tailBytes_range hmem
    rw [tailBytes, List.cons_append, Continued, if_neg hlo, if_pos hhi]
    exact ih _

/-- Encoded text is never broken off. -/
theorem unbroken_encode {l : List Nat} (h : ∀ r ∈ l, Encodable r) : Unbroken (encode l) := by
  induction l with
  | nil => trivial
  | cons r l ih =>
    obtain ⟨henc, hl⟩ := List.forall_mem_cons.mp h
    have hcons : encode (r :: l) = (putUtf r).getD [] ++ encode l := by simp [encode]
    rw [hcons]
    rcases putUtf_bytes henc with ⟨hr, hput⟩ | ⟨_, c, n, invalid, hlead, hput⟩
    · have hle : ∀ x ≤ 0x7f, UInt8.ofNat x ≤ 0xbf := by decide
      rw [hput]
      exact (unbroken_append (by simpa using lead_none_of_le (hle r hr))).mpr (ih hl)
    · rw [hput, List.cons_append, unbroken_cons hlead]
      exact ⟨continued_tailBytes _ _ _ _ _,
        (unbroken_append fun c hc => lead_none_of_le (tailBytes_range hc).2).mpr (ih hl)⟩

/-- A byte of a character is never above 0xf7, and it is NUL only if the character is. -/
theorem mem_putUtf {r : Nat} (h : Encodable r) :
    ∀ c ∈ (putUtf r).getD [], c ≤ 0xf7 ∧ (r ≠ 0 → c ≠ 0) := by
  rcases putUtf_bytes h with ⟨hr, hput⟩ | ⟨hr, c, n, invalid, hlead, hput⟩
  · rw [hput]
    have hall : ∀ x ≤ 0x7f, UInt8.ofNat x ≤ 0xf7 ∧ (x ≠ 0 → UInt8.ofNat x ≠ 0) := by decide
    simpa using hall r hr
  · obtain ⟨hlo, hhi⟩ := lead_range hlead
    rw [hput]
    intro d hd
    rcases List.mem_cons.mp hd with rfl | hd
    · exact ⟨hhi, fun _ h0 => hlo (by rw [h0]; decide)⟩
    · obtain ⟨htlo, hthi⟩ := tailBytes_range hd
      exact ⟨UInt8.le_trans hthi (by decide), fun _ h0 => htlo (by rw [h0]; decide)⟩

theorem encode_nul {l : List Nat} (h : ∀ r ∈ l, Encodable r ∧ r ≠ 0) : 0 ∉ encode l := by
  intro h0
  obtain ⟨b, hb, h0⟩ := List.mem_flatten.mp h0
  obtain ⟨r, hr, rfl⟩ := List.mem_map.mp hb
  exact (mem_putUtf (h r hr).1 0 h0).2 (h r hr).2 rfl

theorem stringRunes_encode {l : List Nat} (h : ∀ r ∈ l, Encodable r ∧ r ≠ 0) :
    stringRunes (encode l) = l.map fun r : Nat => (r : Int) := by
  rw [stringRunes, scan_encode h, Option.getD_some, List.map_map]
  rfl

/-- From a list of lines, the parser reads their characters and line ends. -/
theorem readCallN_list (lines : List TextLine) :
    readCallN listGetc ((programStream (lines.map TextLine.bytes)).length + 1)
    (-1) ⟨lines.map TextLine.bytes, 1, 0⟩ =
      some ((lineRunes lines).map fun r : Nat => (r : Int)) := by
  have hnul : ∀ s ∈ lines.map TextLine.bytes, 0 ∉ s := by
    intro s hs
    obtain ⟨line, _, rfl⟩ := List.mem_map.mp hs
    exact encode_nul fun r hr => ⟨(line.text r hr).1, (line.text r hr).2.1⟩
  have htext : ∀ r ∈ lineRunes lines, Encodable r ∧ r ≠ 0 := fun r hr => lineRunes_text hr
  rw [readCallN_feeds _ _ (listGetc_feeds hnul), programStream_bytes]
  exact ((readCall_eq_iff (encode_nul htext) (listGetch_feeds _)).mpr
    (unbroken_encode fun r hr => (htext r hr).1)).trans
    (congrArg some (stringRunes_encode htext))

/-! ## The stream -/

theorem streamGetc_feeds {s : Str} (hnul : 0 ∉ s) : Feeds streamGetc s (s.map charInt) := by
  refine Feeds.of_step (R := fun s l => 0 ∉ s ∧ l = s.map charInt) ?_ ⟨hnul, rfl⟩
  rintro s l ⟨hnul, rfl⟩
  cases s with
  | nil => exact ⟨rfl, hnul, rfl⟩
  | cons c s =>
    have hc : c ≠ 0 := fun h => hnul (by simp [h])
    rw [streamGetc, if_pos hc]
    exact ⟨rfl, fun h => hnul (List.mem_cons_of_mem _ h), rfl⟩

/-- Values below 0x80, the negative ones among them, are characters of their own. -/
theorem readCallN_low {l : List Int} (h : ∀ c ∈ l, c ≤ 0x7f ∧ c ≠ EOF) :
    readCallN listGetch (l.length + 1) (-1) l = some l := by
  induction l with
  | nil => rfl
  | cons c l ih =>
    obtain ⟨⟨hle, hne⟩, hl⟩ := List.forall_mem_cons.mp h
    have hcall : getUtfCall listGetch (-1) (c :: l) = (c, -1, l) := by
      rw [getUtfCall, if_neg (by simp)]
      show (if c = EOF then _ else _) = _
      rw [if_neg hne, getUtfFrom, if_pos hle]
    exact readCallN_step hcall hne (ih hl)

theorem charInt_le (c : UInt8) (h : c ≤ 0xf7) : charInt c ≤ 0x7f ∧ charInt c ≠ EOF := by
  have hlt : c.toNat ≤ 0xf7 := UInt8.le_iff_toNat_le.mp h
  unfold charInt EOF
  split
  · next hc =>
    have := UInt8.le_iff_toNat_le.mp hc
    have e : (0x7f : UInt8).toNat = 127 := rfl
    omega
  · omega

theorem charInt_neg {c : UInt8} (h : ¬ c ≤ 0x7f) : charInt c < 0 := by
  have := c.toNat_lt
  rw [charInt, if_neg h]
  omega

/-- From `program_stream`, the parser reads every byte as a `char` of its own. -/
theorem readCallN_stream (lines : List TextLine) :
    readCallN streamGetc ((programStream (lines.map TextLine.bytes)).length + 1) (-1)
    (programStream (lines.map TextLine.bytes)) =
      some ((encode (lineRunes lines)).map charInt) := by
  have hnul : 0 ∉ encode (lineRunes lines) := encode_nul fun r hr => lineRunes_text hr
  have hlow : ∀ c ∈ (encode (lineRunes lines)).map charInt, c ≤ 0x7f ∧ c ≠ EOF := by
    intro x hx
    obtain ⟨c, hc, rfl⟩ := List.mem_map.mp hx
    obtain ⟨b, hb, hc⟩ := List.mem_flatten.mp hc
    obtain ⟨r, hr, rfl⟩ := List.mem_map.mp hb
    exact charInt_le c (mem_putUtf (lineRunes_text hr).1 c hc).1
  rw [programStream_bytes, readCallN_feeds _ _ (streamGetc_feeds hnul)]
  simpa using readCallN_low hlow

/-! ## Where they part -/

/-- Two lists of characters agree up to the first that is not ASCII, which one of them has as a
negative `char`. -/
inductive Parts : List Int → List Int → Prop
  | nil : Parts [] []
  | same {c : Int} {l l' : List Int} : c < 0x80 → Parts l l' → Parts (c :: l) (c :: l')
  | apart {c d : Int} {l l' : List Int} : 0x80 ≤ c → d < 0 → Parts (c :: l) (d :: l')

/-- A character and its bytes as `char`s. -/
theorem parts_encode {l : List Nat} (h : ∀ r ∈ l, Encodable r) :
    Parts (l.map fun r : Nat => (r : Int)) ((encode l).map charInt) := by
  induction l with
  | nil => exact .nil
  | cons r l ih =>
    obtain ⟨henc, hl⟩ := List.forall_mem_cons.mp h
    have hcons : encode (r :: l) = (putUtf r).getD [] ++ encode l := by simp [encode]
    rw [hcons, List.map_cons, List.map_append]
    rcases putUtf_bytes henc with ⟨hr, hput⟩ | ⟨hr, c, n, invalid, hlead, hput⟩
    · have hchar : ∀ x ≤ 0x7f, charInt (UInt8.ofNat x) = (x : Int) := by decide
      rw [hput, List.map_singleton, hchar r hr]
      exact .same (by omega) (ih hl)
    · have hneg : charInt c < 0 :=
        charInt_neg fun hle => (lead_range hlead).1 (UInt8.le_trans hle (by decide))
      rw [hput]
      exact .apart (by omega) hneg

section Reading

variable {α : Type} (p : Parser α)

theorem Parser.read_prefix (read l : List Int) : read <+: (p.run read l).read := by
  induction l generalizing read with
  | nil => exact List.prefix_refl _
  | cons c l ih =>
    rw [Parser.run]
    cases p.stop read with
    | some result => exact List.prefix_refl _
    | none => exact (List.prefix_append read [c]).trans (ih _)

/-- A parser does the same on both lists if it reads no character that is not ASCII, and else it
does not even read the same. -/
theorem Parser.run_parts {l l' : List Int} (h : Parts l l') {read : List Int}
    (hread : ∀ c ∈ read, c < 0x80) :
    ((∀ c ∈ (p.run read l).read, c < 0x80) → p.run read l' = p.run read l) ∧
      ((p.run read l').read = (p.run read l).read → ∀ c ∈ (p.run read l).read, c < 0x80) := by
  induction h generalizing read with
  | nil => exact ⟨fun _ => rfl, fun _ => hread⟩
  | @same c l l' hc _ ih =>
    rw [Parser.run, Parser.run]
    cases p.stop read with
    | some result => exact ⟨fun _ => rfl, fun _ => hread⟩
    | none => exact ih (List.forall_mem_append.mpr ⟨hread, by simpa using hc⟩)
  | @apart c d l l' hc hd =>
    rw [Parser.run, Parser.run]
    cases p.stop read with
    | some result => exact ⟨fun _ => rfl, fun _ => hread⟩
    | none =>
      have hlist := p.read_prefix (read ++ [c]) l
      have hstream := p.read_prefix (read ++ [d]) l'
      constructor
      · intro hall
        have := hall c (hlist.subset (by simp))
        omega
      · intro heq
        rw [heq] at hstream
        obtain ⟨-, hcd⟩ :=
          List.append_inj' (List.prefix_of_prefix_length_le hlist hstream (by simp)
            |>.eq_of_length (by simp)) rfl
        have : c = d := List.singleton_inj.mp hcd
        omega

end Reading

/-- The characters that the parser reads on the two routes are the same exactly if it stops before
the first one that is not ASCII, or there is none; and then the results are the same. -/
theorem sources_agree_iff {α : Type} (p : Parser α) (lines : List TextLine) :
    ∃ stream list, endProgramming (p.run []) (lines.map TextLine.bytes) = some stream ∧
      parseListAsProgram (p.run []) (lines.map TextLine.bytes) = some list ∧
      (stream.read = list.read ↔ ∀ c ∈ list.read, c < 0x80) ∧
      ((∀ c ∈ list.read, c < 0x80) → stream.result = list.result) := by
  have hparts := parts_encode fun r (hr : r ∈ lineRunes lines) => (lineRunes_text hr).1
  have hnone : ∀ c ∈ ([] : List Int), c < 0x80 := by simp
  obtain ⟨hsame, hread⟩ := p.run_parts hparts hnone
  refine ⟨_, _, by rw [endProgramming, readCallN_stream, Option.map_some],
    by rw [parseListAsProgram, readCallN_list, Option.map_some], ?_, ?_⟩
  · exact ⟨hread, fun h => congrArg Parsed.read (hsame h)⟩
  · exact fun h => congrArg Parsed.result (hsame h)

/-- A line that is not a program, and a line behind it that is not ASCII. -/
def strayAccented : List TextLine :=
  [{ chars := [0x29], text := by decide, more := by decide },
    { chars := [0xe9], text := by decide, more := by decide }]

/-- A parser that stops at a parenthesis does not come to the accented letter. -/
example : let p : Parser Bool :=
  ⟨fun read => if 0x29 ∈ read then some false else none, fun _ => true⟩
    endProgramming (p.run []) (strayAccented.map TextLine.bytes) = some ⟨[0x29], false⟩ ∧
      parseListAsProgram (p.run []) (strayAccented.map TextLine.bytes) = some ⟨[0x29], false⟩ := by
  decide +kernel

/-- The Unicode database on Latin letters, digits and space. -/
def latin : LexEnv where
  ucd x :=
    let letter := (0x41 ≤ x ∧ x ≤ 0x5a) ∨ (0x61 ≤ x ∧ x ≤ 0x7a) ∨ x = 0xe9
    let digit := 0x30 ≤ x ∧ x ≤ 0x39
    some ⟨if digit then some (x - 0x30) else none, x = 0x20 ∨ (0x09 ≤ x ∧ x ≤ 0x0d),
      letter, letter ∨ digit⟩
  strtod _ := none
  language_version := current_version

/-- The tokens of a program, without the states between them. -/
def tokenList (env : LexEnv) (input : List Int) : Option (List Token) :=
  (tokens env input).map (·.map (·.1))

/-- A line that returns the string of one accented letter. -/
def returnAccented : TextLine where
  chars := (ascii "return \"").map UInt8.toNat ++ [0xe9, 0x22, 0x3b]
  text := by decide
  more := by decide

/-- The letter is lost from the string on one of the routes. -/
theorem accented_letter_lost :
    endProgramming (tokenList latin) [returnAccented.bytes] =
      some (some [.tRETURN, .tSTRING [], .char 0x3b, .char EOF]) ∧
      parseListAsProgram (tokenList latin) [returnAccented.bytes] =
        some (some [.tRETURN, .tSTRING [0xc3, 0xa9], .char 0x3b, .char EOF]) := by
  decide +kernel

end Lex
end NuMoo
