import NuMoo.Code.Comments
import NuMoo.Code.Grammar
import NuMoo.Lib.Decimal
import NuMoo.Net.Text

/-!
# Literals

`value_to_literal` of `list.c`, with `string_quote` of `utils.c`, and what the lexer and the grammar
make of its text.

Results:
1. `scanString_quoted`: the two tables of escapes undo each other.
2. `spells_literal`: what is printed of a value, and its tokens.
3. `parsesAs_iff`: a literal is parsed in one way.
-/

namespace NuMoo
namespace Literal

open Net NuMoo.Lex Grammar

/-! ## Printing -/

/-- `error_name` -/
def error_name : ErrCode → Str
  | .E_NONE => ascii "E_NONE"
  | .E_TYPE => ascii "E_TYPE"
  | .E_DIV => ascii "E_DIV"
  | .E_PERM => ascii "E_PERM"
  | .E_PROPNF => ascii "E_PROPNF"
  | .E_VERBNF => ascii "E_VERBNF"
  | .E_VARNF => ascii "E_VARNF"
  | .E_INVIND => ascii "E_INVIND"
  | .E_RECMOVE => ascii "E_RECMOVE"
  | .E_MAXREC => ascii "E_MAXREC"
  | .E_RANGE => ascii "E_RANGE"
  | .E_ARGS => ascii "E_ARGS"
  | .E_NACC => ascii "E_NACC"
  | .E_INVARG => ascii "E_INVARG"
  | .E_QUOTA => ascii "E_QUOTA"
  | .E_FLOAT => ascii "E_FLOAT"

/-- What `string_quote` puts in the stream for a byte. -/
def quoteByte (c : UInt8) : Str :=
  if c = 0x07 then ascii "\\a"
  else if c = 0x08 then ascii "\\b"
  else if c = 0x1b then ascii "\\e"
  else if c = 0x0c then ascii "\\f"
  else if c = 0x0a then ascii "\\n"
  else if c = 0x0d then ascii "\\r"
  else if c = 0x09 then ascii "\\t"
  else if c = 0x0b then ascii "\\v"
  else if c = 0x22 ∨ c = 0x5c then [0x5c, c]
  else [c]

/-- `string_quote` -/
def string_quote (si : Str) : Str := 0x22 :: ((cstr si).flatMap quoteByte ++ [0x22])

/-- What is printed of values that have no literal: `float2str`, and the class and the owner of a
waif. -/
structure PrintEnv where
  float2str : UInt64 → Str
  waif : Nat → Objid × Objid

mutual

/-- `print_to_stream` -/
def print_to_stream (env : PrintEnv) : Var → Str
  | .int num => Decimal.text num
  | .obj obj => 0x23 :: Decimal.text obj
  | .err err => error_name err
  | .float fnum => env.float2str fnum
  | .str str => string_quote str
  | .list list => 0x7b :: (printElements env [] list ++ [0x7d])
  | .waif waif =>
    ascii "[[class = #" ++ Decimal.text (env.waif waif).1 ++ ascii ", owner = #" ++
      Decimal.text (env.waif waif).2 ++ ascii "]]"
  | .clear | .none | .catch _ | .finally _ => ascii ">>Unknown value<<"

/-- The loop of `print_to_stream` over the elements of a list. -/
def printElements (env : PrintEnv) (sep : Str) : List Var → Str
  | [] => []
  | v :: list => sep ++ (print_to_stream env v ++ printElements env (ascii ", ") list)

end

/-- `value_to_literal` -/
def value_to_literal (env : PrintEnv) (v : Var) : Str := print_to_stream env v

/-- A text that a `Stream` can hold, which counts its characters with an `int`. -/
def FitsStream (text : Str) : Prop := text.length < 2 ^ 31

instance (text : Str) : Decidable (FitsStream text) := inferInstanceAs (Decidable (_ < _))

/-! ## Values that have literals -/

/-- The numbers that `Num` and `Objid` have. -/
def Representable (n : Int) : Prop := -2 ^ 63 ≤ n ∧ n < 2 ^ 63

/-- Values that are built from numbers, objects, errors and valid UTF-8 strings. -/
inductive Printable : Var → Prop
  | int {num : Int} : Representable num → Printable (.int num)
  | obj {obj : Objid} : Representable obj → Printable (.obj obj)
  | err (err : ErrCode) : Printable (.err err)
  | str {cs : List Nat} : (∀ r ∈ cs, IsChar r) → Printable (.str (encode cs))
  | list {list : List Var} : (∀ v ∈ list, Printable v) → Printable (.list list)

mutual

/-- The tokens of a literal. -/
def literalTokens : Var → List Token
  | .int num => if num < 0 then [.char 0x2d, .tINTEGER (num64 (-num))] else [.tINTEGER num]
  | .obj obj => [.tOBJECT obj]
  | .err err => [.tERROR err]
  | .str str => [.tSTRING str]
  | .list [] => [.char 0x7b, .char 0x7d]
  | .list (v :: list) => .char 0x7b :: (literalTokens v ++ (moreTokens list ++ [.char 0x7d]))
  | _ => []

/-- The tokens of the elements behind the first one. -/
def moreTokens : List Var → List Token
  | [] => []
  | v :: list => .char 0x2c :: (literalTokens v ++ moreTokens list)

end

mutual

/-- The expression of a literal. -/
def literalExpr : Var → Expr
  | .list list => .list (literalArgs list)
  | v => .var v

def literalArgs : List Var → ArgList
  | [] => .nil
  | v :: list => .cons .normal (literalExpr v) (literalArgs list)

end

/-- The lexer and the grammar take a text for an expression: there are no messages, and up to the
end of the text its tokens are those of the expression. -/
def ParsesAs (env : LexEnv) (penv : ParserEnv) (text : Str) (e : Expr) : Prop :=
  ∃ l toks, parseListAsProgram (tokens env) [text] = some (some l) ∧ (∀ x ∈ l, x.2.messages = []) ∧
    l.map (·.1) = toks ++ [.char EOF] ∧ Derives penv 0 toks (.expr e)

/-! ## The grammar of a literal -/

theorem num64_self {n : Int} (h : Representable n) : num64 n = n := by
  have hmod : n.bmod (2 ^ 64) % 2 ^ 64 = n % 2 ^ 64 := Int.bmod_emod
  have hlo : -2 ^ 63 ≤ n.bmod (2 ^ 64) := Int.le_bmod (by decide)
  have hhi : n.bmod (2 ^ 64) < 2 ^ 63 := Int.bmod_lt (by decide)
  have := h.1
  have := h.2
  rw [num64]
  omega

/-- A sign in front of a number takes back that of the number, also at the least one. -/
theorem num64_neg_neg {n : Int} (h : Representable n) : num64 (-num64 (-n)) = n := by
  have hneg : (-n).bmod (2 ^ 64) % 2 ^ 64 = -n % 2 ^ 64 := Int.bmod_emod
  have hback : (-(-n).bmod (2 ^ 64)).bmod (2 ^ 64) % 2 ^ 64 = -(-n).bmod (2 ^ 64) % 2 ^ 64 :=
    Int.bmod_emod
  have hlo : -2 ^ 63 ≤ (-(-n).bmod (2 ^ 64)).bmod (2 ^ 64) := Int.le_bmod (by decide)
  have hhi : (-(-n).bmod (2 ^ 64)).bmod (2 ^ 64) < 2 ^ 63 := Int.bmod_lt (by decide)
  have := h.1
  have := h.2
  rw [num64, num64]
  omega

variable {env : LexEnv} {penv : ParserEnv} {d : Nat} {list : List Var} {v : Var}

theorem derives_more {toks : List Token} {args : ArgList}
    (h : Derives penv d toks (.neArglist args))
    (hlist : ∀ v ∈ list, Derives penv d (literalTokens v) (.expr (literalExpr v))) :
    Derives penv d (toks ++ moreTokens list) (.neArglist (addArg args (literalArgs list))) := by
  induction list generalizing toks args with
  | nil =>
    rw [moreTokens, literalArgs, addArg_nil, List.append_nil]
    exact h
  | cons v list ih =>
    obtain ⟨hv, hlist⟩ := List.forall_mem_cons.mp hlist
    have hmore := ih (.nextArg h hv) hlist
    rw [addArg_addArg, List.append_assoc, List.cons_append] at hmore
    rw [moreTokens, literalArgs]
    exact hmore

theorem derives_literal (h : Printable v) :
    Derives penv d (literalTokens v) (.expr (literalExpr v)) := by
  induction h with
  | @int num hnum =>
    rw [literalTokens, show literalExpr (.int num) = .var (.int num) from rfl]
    split
    · have hneg : Derives penv d [.char 0x2d, .tINTEGER (num64 (-num))]
          (.expr (Grammar.negate (.var (.int (num64 (-num)))))) :=
        .negate (.constant rfl)
      rw [Grammar.negate, num64_neg_neg hnum] at hneg
      exact hneg
    · exact .constant rfl
  | obj | err | str => exact .constant rfl
  | @list list _ ih =>
    cases list with
    | nil => exact .list (.noArgs d)
    | cons v list =>
      obtain ⟨hv, hlist⟩ := List.forall_mem_cons.mp ih
      rw [literalTokens, ← List.append_assoc]
      exact .list (.args (derives_more (.arg hv) hlist))

/-- Tokens of literals without an operator. -/
def Plain (l : List Token) : Prop := (∀ t ∈ l, Grammar.Literal t) ∧ NoOperator l

theorem Plain.single {t : Token} (ht : Grammar.Literal t) : Plain [t] :=
  ⟨by simpa using ht, List.isChain_singleton t⟩

/-- A comma or a brace may follow. -/
theorem Plain.append {l m : List Token} (hl : Plain l) (hm : Plain m)
    (hlm : (∀ t ∈ m.head?, t ≠ .char 0x2d) ∨ ∀ t ∈ l.getLast?, ¬ Closing t) : Plain (l ++ m) := by
  refine ⟨fun t ht => (List.mem_append.mp ht).elim (hl.1 t) (hm.1 t),
    List.IsChain.append hl.2 hm.2 fun t ht u hu hminus => ?_⟩
  rcases hlm with hhead | hlast
  · exact absurd hminus (hhead u hu)
  · exact hlast t ht

theorem plain_more (hlist : ∀ v ∈ list, Plain (literalTokens v)) :
    Plain (moreTokens list ++ [.char 0x7d]) := by
  have hclose : Plain [.char 0x7d] := .single (by decide)
  have hcomma : Plain [.char 0x2c] := .single (by decide)
  induction list with
  | nil => exact hclose
  | cons v list ih =>
    obtain ⟨hv, hlist⟩ := List.forall_mem_cons.mp hlist
    have hmore := ih hlist
    have hhead : ∀ t ∈ (moreTokens list ++ [Token.char 0x7d]).head?, t ≠ Token.char 0x2d := by
      cases list <;> simp [moreTokens]
    have hrest := hcomma.append (hv.append hmore (.inl hhead)) (.inr (by simp [Closing, constant]))
    rw [moreTokens, List.cons_append, List.append_assoc]
    exact hrest

theorem plain_literal (h : Printable v) : Plain (literalTokens v) := by
  induction h with
  | @int num _ =>
    rw [literalTokens]
    split
    · exact (Plain.single (t := .char 0x2d) (by decide)).append (.single (.inl rfl))
        (.inr (by simp [Closing, constant]))
    · exact .single (.inl rfl)
  | obj | err | str => exact .single (.inl rfl)
  | @list list _ ih =>
    have hopen : Plain [.char 0x7b] := .single (by decide)
    cases list with
    | nil => exact hopen.append (.single (t := .char 0x7d) (by decide)) (.inl (by simp))
    | cons v list =>
      obtain ⟨hv, hlist⟩ := List.forall_mem_cons.mp ih
      have hhead : ∀ t ∈ (moreTokens list ++ [Token.char 0x7d]).head?, t ≠ Token.char 0x2d := by
        cases list <;> simp [moreTokens]
      exact hopen.append (hv.append (plain_more hlist) (.inl hhead))
        (.inr (by simp [Closing, constant]))

/-- The tokens of a literal are those of one expression only. -/
theorem derives_iff (h : Printable v) {e : Expr} :
    Derives penv d (literalTokens v) (.expr e) ↔ e = literalExpr v := by
  refine ⟨fun hd => ?_, fun he => he ▸ derives_literal h⟩
  obtain ⟨hlit, hop⟩ := plain_literal h
  have hread := (hd.read hlit hop).2 []
  have hliteral : Derives penv d (literalTokens v) (.expr (literalExpr v)) := derives_literal h
  have hread' := (hliteral.read hlit hop).2 []
  exact Item.expr.inj (hread.unique hread' trivial).1

/-! ## Quotes -/

/-- The characters of an ASCII text. -/
def asciiChars (s : Str) : List Nat := s.map UInt8.toNat

theorem putUtf_ascii {c : UInt8} (hc : c.toNat < 0x80) : putUtf c.toNat = some [c] := by
  rw [putUtf, if_pos (Nat.le_of_lt_succ hc), UInt8.ofNat_toNat]

theorem encode_ascii {s : Str} (h : ∀ c ∈ s, c.toNat < 0x80) : encode (asciiChars s) = s := by
  induction s with
  | nil => rfl
  | cons c s ih =>
    obtain ⟨hc, hs⟩ := List.forall_mem_cons.mp h
    have htail := ih hs
    rw [asciiChars, List.map_cons, encode_cons, putUtf_ascii hc, Option.getD_some,
      List.singleton_append]
    exact congrArg (c :: ·) htail

/-- The characters that `string_quote` puts in the stream for a character. -/
def quoteChar (r : Nat) : List Nat :=
  if r < 0x80 then asciiChars (quoteByte (UInt8.ofNat r)) else [r]

/-- A character is printed as it is, or behind a backslash as a letter that stands for it. -/
theorem quoteChar_cases (r : Nat) : (quoteChar r = [r] ∧ r ≠ 0x22 ∧ r ≠ 0x5c ∧ r ≠ 0x0a) ∨
    ∃ d, quoteChar r = [0x5c, d] ∧ (0x20 < d ∧ d < 0x80) ∧ escape d = r := by
  by_cases hr : r < 0x80
  · have hall : ∀ r < 0x80, (quoteChar r = [r] ∧ r ≠ 0x22 ∧ r ≠ 0x5c ∧ r ≠ 0x0a) ∨
        (quoteChar r = [0x5c, (quoteChar r).getLastD 0] ∧
          (0x20 < (quoteChar r).getLastD 0 ∧ (quoteChar r).getLastD 0 < 0x80) ∧
          escape ((quoteChar r).getLastD 0 : Nat) = r) := by decide +kernel
    exact (hall r hr).imp_right fun h => ⟨_, h⟩
  · exact .inl ⟨if_neg hr, by omega, by omega, by omega⟩

theorem encode_quoteChar {r : Nat} (h : Encodable r) :
    encode (quoteChar r) = ((putUtf r).getD []).flatMap quoteByte := by
  rcases putUtf_bytes h with ⟨hr, hput⟩ | ⟨hr, c, n, invalid, hlead, hput⟩
  · have hall : (List.range 0x80).all (fun r => (quoteByte (UInt8.ofNat r)).all fun c =>
      decide (c.toNat < 0x80)) = true := rfl
    have hascii := List.all_eq_true.mp hall r (List.mem_range.mpr (Nat.lt_succ_of_le hr))
    rw [quoteChar, if_pos (Nat.lt_succ_of_le hr), hput, List.flatMap_singleton]
    exact encode_ascii fun c hc => decide_eq_true_iff.mp (List.all_eq_true.mp hascii c hc)
  · have hbytes : ∀ d ∈ (putUtf r).getD [], ¬ d ≤ 0x7f := by
      rw [hput]
      refine List.forall_mem_cons.mpr ⟨fun hle => (lead_range hlead).1
        (UInt8.le_trans hle (by decide)), fun d hd => (tailBytes_range hd).1⟩
    have hsame : ∀ d ∈ (putUtf r).getD [], quoteByte d = [d] := by
      intro d hd
      have hne : ∀ x : UInt8, x ≤ 0x7f → d ≠ x := fun x hx he => hbytes d hd (he ▸ hx)
      simp [quoteByte, hne]
    rw [quoteChar, if_neg (by omega), List.flatMap_congr hsame, List.flatMap_singleton']
    simp [encode]

theorem encode_quoted {cs : List Nat} (h : ∀ r ∈ cs, IsChar r) :
    encode (cs.flatMap quoteChar) = (encode cs).flatMap quoteByte := by
  induction cs with
  | nil => rfl
  | cons r cs ih =>
    obtain ⟨hr, hcs⟩ := List.forall_mem_cons.mp h
    rw [List.flatMap_cons, encode_append, encode_cons, List.flatMap_append,
      encode_quoteChar hr.1, ih hcs]

theorem putUtfInt_nat {r : Nat} (h : r ≤ 0x10ffff) : putUtfInt r = putUtf r := by
  have hmod : ((r : Int) % 2 ^ 32).toNat = r := by omega
  rw [putUtfInt, hmod]

theorem addToken_ascii {c : UInt8} (hc : c.toNat < 0x80) (text : Str) :
    addToken text c.toNat = text ++ [c] := by
  rw [addToken, putUtfInt_nat (Nat.le_trans (Nat.le_of_lt hc) (by decide)), putUtf_ascii hc]
  rfl

/-- The values that the lexer has for some characters. -/
def characters (cs : List Nat) : List Int := cs.map fun r : Nat => (r : Int)

theorem characters_cons (r : Nat) (cs : List Nat) :
    characters (r :: cs) = (r : Int) :: characters cs := rfl

theorem characters_append (cs ds : List Nat) :
    characters (cs ++ ds) = characters cs ++ characters ds := List.map_append

theorem eof_cons {c : Int} {rest : List Int} (hc : c ≠ EOF) (heof : EOF ∉ rest) :
    EOF ∉ c :: rest := by
  rw [List.mem_cons, not_or]
  exact ⟨hc.symm, heof⟩

theorem eof_characters (cs : List Nat) {rest : List Int} (heof : EOF ∉ rest) :
    EOF ∉ characters cs ++ rest := by
  rw [List.mem_append, not_or]
  refine ⟨fun hm => ?_, heof⟩
  obtain ⟨r, -, hr⟩ := List.mem_map.mp hm
  exact absurd hr (by simp [EOF])

/-- The lexer takes what is printed of a character for the character. -/
theorem scanString_quoteChar {r : Nat} (h : Encodable r) (input : List Int) (text : Str) :
    scanString (characters (quoteChar r) ++ input) text =
      scanString input (text ++ (putUtf r).getD []) := by
  have htoken : addToken text r = text ++ (putUtf r).getD [] := by rw [addToken, putUtfInt_nat h.1]
  rcases quoteChar_cases r with ⟨hquote, hmark, hslash, hline⟩ | ⟨d, hquote, -, hescape⟩
  · rw [hquote, ← htoken]
    have hother : (r : Int) ≠ 0x22 ∧ ¬ ((r : Int) = 0x0a ∨ (r : Int) = EOF) ∧ (r : Int) ≠ 0x5c := by
      rw [EOF]
      omega
    exact scanString_other hother.1 hother.2.1 hother.2.2 input text
  · rw [hquote, ← htoken, ← hescape]
    rfl

/-- The two tables of escapes undo each other, by induction on the characters. -/
theorem scanString_quoted {cs : List Nat} (h : ∀ r ∈ cs, IsChar r) (rest : List Int) (text : Str) :
    scanString (characters (cs.flatMap quoteChar) ++ 0x22 :: rest) text =
      (text ++ encode cs, false, rest) := by
  induction cs generalizing text with
  | nil =>
    rw [encode_nil, List.append_nil]
    cases rest <;> rfl
  | cons r cs ih =>
    obtain ⟨hr, hcs⟩ := List.forall_mem_cons.mp h
    rw [List.flatMap_cons, characters_append, List.append_assoc, scanString_quoteChar hr.1, ih hcs,
      encode_cons, List.append_assoc]

/-! ## Tokens -/

/-- The lexer takes some tokens from `input` up to `rest`, without a message. -/
def Lexes (env : LexEnv) (input : List Int) (ts : List Token) (rest : List Int) : Prop :=
  ∀ st : LexState, st.input = input → ∃ l st', st'.input = rest ∧ st'.messages = st.messages ∧
    l.map (·.1) = ts ∧
    (∀ x ∈ l, x.2.messages = st.messages) ∧ tokensFrom env st = (tokensFrom env st').map (l ++ ·)

/-- What may follow a literal. -/
def Ends (rest : List Int) : Prop :=
  (listGetch rest).1 = 0x2c ∨ (listGetch rest).1 = 0x7d ∨ (listGetch rest).1 = 0x0a

variable {input rest left : List Int} {ts us : List Token}

theorem Lexes.trans (h : Lexes env input ts left) (h' : Lexes env left us rest) :
    Lexes env input (ts ++ us) rest := by
  intro st hst
  obtain ⟨l, st', hinput, hmessages, rfl, hl, htokens⟩ := h st hst
  obtain ⟨l', st'', hinput', hmessages', rfl, hl', htokens'⟩ := h' st' hinput
  rw [hmessages] at hmessages' hl'
  refine ⟨l ++ l', st'', hinput', hmessages', List.map_append,
    fun x hx => (List.mem_append.mp hx).elim (hl x) (hl' x), ?_⟩
  rw [htokens, htokens', Option.map_map]
  exact congrArg (Option.map · _) (funext fun m => (List.append_assoc l l' m).symm)

/-- One token, that begins with a character which is no space. -/
theorem lexes_token (h : KnowsAscii env) {c : Int} {t : Token} (heof : EOF ∉ c :: rest)
    (hspace : my_isspace env c = false)
    (hc : c ≠ 0x2f) (hend : t.isEnd = false) (htoken : ∀ st : LexState, st.input = rest →
      lexPiece env c st = (t, { st with input := left })) :
    Lexes env (c :: rest) [t] left := by
  intro st hst
  have hpiece : piece env st.input = .token [] c rest := by
    rw [hst, piece_cons hspace fun hn => hc hn.1]
  have htokens := tokensFrom_piece h (hst ▸ heof)
  rw [hpiece] at htokens
  simp only [htoken (st.at [] rest) rfl, hend, Bool.false_eq_true, if_false] at htokens
  refine ⟨[(t, { st.at [] rest with input := left })], { st.at [] rest with input := left }, rfl,
    rfl, rfl, ?_, htokens⟩
  rintro x (_ | ⟨_, ⟨⟩⟩)
  rfl

/-- A space in front of a token changes nothing. -/
theorem Lexes.space (h : KnowsAscii env) (heof : EOF ∉ input) (hlexes : Lexes env input ts rest) :
    Lexes env (0x20 :: input) ts rest := by
  intro st hst
  obtain ⟨l, st', hinput, hmessages, hts, hl, htokens⟩ := hlexes { st with input } rfl
  refine ⟨l, st', hinput, hmessages, hts, hl, htokens ▸ ?_⟩
  have hspace : ∀ c ∈ [0x20], my_isspace env c = true := by simpa using h.space
  have heof' : EOF ∉ st.input := hst ▸ eof_cons (by decide) heof
  have hat : ∀ spaces left : List Int, st.at ([0x20] ++ spaces) left =
      LexState.at { st with input } spaces left := by
    intro spaces left
    rw [LexState.at, lines_append, show lines [0x20] = 0 from rfl, Nat.zero_add]
    rfl
  have hleft := @tokensFrom_piece env { st with input } h heof
  have hright := tokensFrom_piece h heof'
  rw [hst, show (0x20 :: input : List Int) = [0x20] ++ input from rfl,
    piece_append hspace] at hright
  rw [hleft, hright]
  cases piece env input with
  | finish => simp only [hat]
  | comment spaces after => simp only [hat]
  | token spaces c rest => simp only [hat]

/-- The marks in a literal. -/
theorem lexes_mark (h : KnowsAscii env) {x : Nat} (hx : x = 0x2d ∨ x = 0x2c ∨ x = 0x7b ∨ x = 0x7d)
    (heof : EOF ∉ rest) :
    Lexes env ((x : Int) :: rest) [.char x] rest := by
  have hlt : x < 0x80 := by omega
  have hdata : (asciiCharacter x).whiteSpace = false ∧ (asciiCharacter x).decimal.isSome = false ∧
      (asciiCharacter x).xidStart = false := by
    rcases hx with rfl | rfl | rfl | rfl <;> decide
  have hspace := (h.isspace hlt).trans hdata.1
  have hdigit := (h.isdigit hlt).trans hdata.2.1
  have hword := (h.xid_start hlt).trans hdata.2.2
  have hne : (x : Int) ≠ 0x2f ∧ (x : Int) ≠ 0x23 ∧ (x : Int) ≠ 0x2e ∧ (x : Int) ≠ 0x5f ∧
      (x : Int) ≠ 0x22 := by omega
  have hpiece : ∀ st, lexPiece env x st = lexOperator st x :=
    fun st => by simp [lexPiece, lexToken, hne, hdigit, hword]
  have heof' : (x : Int) ≠ EOF := by
    rw [EOF]
    omega
  refine lexes_token h (eof_cons heof' heof) hspace hne.1 ?_ fun st hst => ?_
  · rcases hx with rfl | rfl | rfl | rfl <;> rfl
  · rw [hpiece, ← hst]
    rcases hx with rfl | rfl | rfl | rfl <;> rfl

/-- What behind a literal is looked at. -/
theorem Ends.stops (h : KnowsAscii env) (he : Ends rest) :
    my_isdigit env (listGetch rest).1 = false ∧
      ¬ (my_is_xid_cont env (listGetch rest).1 = true ∨ (listGetch rest).1 = 0x5f) ∧
      (listGetch rest).1 ≠ 0x2e ∧ ¬ ((listGetch rest).1 = 0x65 ∨ (listGetch rest).1 = 0x45) := by
  have hcase : ∀ x : Nat, x = 0x2c ∨ x = 0x7d ∨ x = 0x0a →
      my_isdigit env x = false ∧ ¬ (my_is_xid_cont env x = true ∨ (x : Int) = 0x5f) ∧
      (x : Int) ≠ 0x2e ∧ ¬ ((x : Int) = 0x65 ∨ (x : Int) = 0x45) := by
    intro x hx
    rw [h.isdigit (by omega), h.xid_cont (by omega)]
    rcases hx with rfl | rfl | rfl <;> decide
  rcases he with he | he | he <;> rw [he]
  · exact hcase 0x2c (.inl rfl)
  · exact hcase 0x7d (.inr (.inl rfl))
  · exact hcase 0x0a (.inr (.inr rfl))

theorem digit_bounds {c : UInt8} (hc : Decimal.isDigit c = true) :
    0x30 ≤ c.toNat ∧ c.toNat ≤ 0x39 := by
  simpa [Decimal.isDigit, UInt8.le_iff_toNat_le] using hc

theorem KnowsAscii.digit (h : KnowsAscii env) {c : UInt8} (hc : Decimal.isDigit c = true) :
    my_isdigit env c.toNat = true ∧ my_digitval env c.toNat = c.toNat - 48 ∧
      my_isspace env c.toNat = false := by
  have hbounds := digit_bounds hc
  have hdata := h.data (x := c.toNat) (by omega)
  have hdecimal : (asciiCharacter c.toNat).decimal = some (c.toNat - 48) := if_pos hbounds
  rw [my_isdigit, my_digitval, my_isspace, hdata, Option.bind_some, hdecimal]
  refine ⟨rfl, rfl, decide_eq_false ?_⟩
  omega

theorem num64_step (n d : Int) : num64 (num64 n * 10 + d) = num64 (10 * n + d) := by
  rw [num64, num64, num64, Int.add_bmod, Int.bmod_mul_bmod, ← Int.add_bmod, Int.mul_comm]

/-- The digits of a number are scanned up to the end of the number, by induction on them. -/
theorem scanDigits_digits (h : KnowsAscii env) {l : Str} (hl : ∀ c ∈ l, Decimal.isDigit c = true)
    (hrest : my_isdigit env (listGetch rest).1 = false) (n : Nat) (text : Str) :
    scanDigits env (characters (asciiChars l) ++ rest) (num64 n) text =
      (num64 (l.foldl (fun n c => 10 * n + (c.toNat - 48)) n : Nat), text ++ l, rest) := by
  induction l generalizing n text with
  | nil =>
    rw [List.append_nil]
    cases rest with
    | nil => rfl
    | cons c rest => exact if_neg (by simpa [listGetch] using hrest)
  | cons c l ih =>
    obtain ⟨hc, hl⟩ := List.forall_mem_cons.mp hl
    obtain ⟨hdigit, hval, -⟩ := KnowsAscii.digit h hc
    have hbounds := digit_bounds hc
    have htoken := addToken_ascii (Nat.lt_of_le_of_lt hbounds.2 (by decide)) text
    have hstep : num64 (num64 n * 10 + my_digitval env c.toNat) =
        num64 (10 * n + (c.toNat - 48) : Nat) := by
      rw [hval, num64_step]
      push_cast
      rfl
    have htail := ih hl (10 * n + (c.toNat - 48)) (text ++ [c])
    rw [List.append_assoc, List.singleton_append] at htail
    rw [asciiChars, List.map_cons, characters_cons, List.cons_append, scanDigits,
      if_pos hdigit, hstep, htoken]
    exact htail

/-- The digits of a natural number. -/
theorem scanDigits_natText (h : KnowsAscii env) (hrest : my_isdigit env (listGetch rest).1 = false)
    (n : Nat) :
    scanDigits env (characters (asciiChars (Decimal.natText n)) ++ rest) 0 [] =
      (num64 n, Decimal.natText n, rest) := by
  have hscan := scanDigits_digits h (Decimal.natText_isDigit n) hrest 0 []
  rwa [List.nil_append, show (Decimal.natText n).foldl (fun n c => 10 * n + (c.toNat - 48)) 0 =
    n from Decimal.value_natText n] at hscan

/-- The digits of a number, behind which a literal ends. -/
theorem lexes_natText (h : KnowsAscii env) (heof : EOF ∉ rest) (he : Ends rest) (n : Nat) :
    Lexes env (characters (asciiChars (Decimal.natText n)) ++ rest) [.tINTEGER (num64 n)] rest := by
  obtain ⟨hdigit, -, hdot, hexp⟩ := he.stops h
  obtain ⟨c, l, hcons, hc⟩ := Decimal.natText_cons n
  have hscan := scanDigits_natText h hdigit n
  have heof' := eof_characters (asciiChars (Decimal.natText n)) heof
  have hinput : characters (asciiChars (c :: l)) ++ rest = (c.toNat : Int) ::
      (characters (asciiChars l) ++ rest) := rfl
  rw [hcons, hinput] at hscan heof' ⊢
  obtain ⟨hstart, -, hspace⟩ := KnowsAscii.digit h hc
  have hbounds := digit_bounds hc
  have hobject : (c.toNat : Int) ≠ 0x23 := by omega
  have hslash : (c.toNat : Int) ≠ 0x2f := by omega
  refine lexes_token h heof' hspace hslash rfl fun st hst => ?_
  have hfraction : fraction env (c :: l) rest = some (false, c :: l, rest) :=
    if_neg fun hn => hdot hn.2
  have hexponent : exponent env st (num64 n) false (c :: l) rest =
      (.tINTEGER (num64 n), { st with input := rest }) :=
    if_neg fun hn => hexp hn.2
  rw [lexPiece, if_neg hslash, lexToken, if_neg hobject, if_pos (.inl hstart), hst,
    lexNumber_eq, hscan]
  simp only [hfraction, hexponent]

/-- An object number, behind which a literal ends. -/
theorem lexes_object (h : KnowsAscii env) (heof : EOF ∉ rest) (he : Ends rest) {obj : Objid}
    (hobj : Representable obj) :
    Lexes env (characters (asciiChars (0x23 :: Decimal.text obj)) ++ rest) [.tOBJECT obj] rest := by
  obtain ⟨hdigit, -⟩ := he.stops h
  have hspace : my_isspace env 0x23 = false := h.isspace (x := 0x23) (by decide)
  have hscan := scanDigits_natText h hdigit obj.natAbs
  obtain ⟨c, l, hcons, hc⟩ := Decimal.natText_cons obj.natAbs
  have hstart := (KnowsAscii.digit h hc).1
  have hbounds := digit_bounds hc
  have heof' := eof_characters (asciiChars (Decimal.text obj)) heof
  have hfirst : listGetch (characters (asciiChars (Decimal.natText obj.natAbs)) ++ rest) =
      ((c.toNat : Int), characters (asciiChars l) ++ rest) := by
    rw [hcons]
    rfl
  have hinput : characters (asciiChars (0x23 :: Decimal.text obj)) ++ rest = 0x23 ::
      (characters (asciiChars (Decimal.text obj)) ++ rest) := rfl
  rw [hinput]
  refine lexes_token h (eof_cons (by decide) heof') hspace (by decide) rfl fun st hst => ?_
  have heof'' : EOF ∉ st.input := hst ▸ heof'
  rw [lexPiece, if_neg (by decide), lexToken, if_pos rfl, lexObject_eq env st heof'', hst]
  by_cases hneg : obj < 0
  · have htext : Decimal.text obj = 0x2d :: Decimal.natText obj.natAbs := if_pos hneg
    have hbehind : behindMinus (characters (asciiChars (Decimal.text obj)) ++ rest) =
        characters (asciiChars (Decimal.natText obj.natAbs)) ++ rest := by
      rw [htext]
      rfl
    have hminus : (listGetch (characters (asciiChars (Decimal.text obj)) ++ rest)).1 = 0x2d := by
      rw [htext]
      rfl
    have habs : (obj.natAbs : Int) = -obj := Int.ofNat_natAbs_of_nonpos (Int.le_of_lt hneg)
    have hback := num64_neg_neg hobj
    rw [hbehind, hscan, hfirst, if_pos hstart, if_pos hminus, habs, hback]
  · have htext : Decimal.text obj = Decimal.natText obj.natAbs := if_neg hneg
    have hminus : (c.toNat : Int) ≠ 0x2d := by omega
    have hbehind : behindMinus (characters (asciiChars (Decimal.natText obj.natAbs)) ++ rest) =
        characters (asciiChars (Decimal.natText obj.natAbs)) ++ rest := by
      rw [behindMinus, hfirst, if_neg hminus]
    have habs : (obj.natAbs : Int) = obj := Int.natAbs_of_nonneg (Int.not_lt.mp hneg)
    have hself := num64_self hobj
    rw [htext, hbehind, hscan, hfirst, if_pos hstart, if_neg hminus, habs, hself]

/-- A word, up to the end of its characters, by induction on them. -/
theorem scanId_word (h : KnowsAscii env) {l : Str}
    (hl : ∀ c ∈ l, c.toNat < 0x80 ∧ (asciiCharacter c.toNat).xidContinue = true)
    (hrest : ¬ (my_is_xid_cont env (listGetch rest).1 = true ∨ (listGetch rest).1 = 0x5f))
    (text : Str) :
    scanId env (characters (asciiChars l) ++ rest) text = (text ++ l, rest) := by
  induction l generalizing text with
  | nil =>
    rw [List.append_nil]
    cases rest with
    | nil => rfl
    | cons c rest => exact if_neg hrest
  | cons c l ih =>
    obtain ⟨⟨hc, hword⟩, hl⟩ := List.forall_mem_cons.mp hl
    have htoken := addToken_ascii hc text
    have hcont : my_is_xid_cont env c.toNat = true := (h.xid_cont hc).trans hword
    have htail := ih hl (text ++ [c])
    rw [List.append_assoc, List.singleton_append] at htail
    rw [asciiChars, List.map_cons, characters_cons, List.cons_append, scanId,
      if_pos (.inl hcont), htoken]
    exact htail

/-- The name of an error is made of the characters of words. -/
theorem error_name_ascii (err : ErrCode) :
    ∀ c ∈ error_name err, (0x20 < c.toNat ∧ c.toNat < 0x80) ∧
      (asciiCharacter c.toNat).xidContinue = true := by
  have hall : (error_name err).all (fun c => 0x20 < c.toNat && c.toNat < 0x80 &&
    (asciiCharacter c.toNat).xidContinue) = true := by
    cases err <;> rfl
  intro c hc
  simpa using List.all_eq_true.mp hall c hc

/-- The name of an error is an ASCII word, and it is a keyword. -/
theorem error_name_word (err : ErrCode) : ∃ l version, error_name err = 0x45 :: l ∧
    (∀ c ∈ l, c.toNat < 0x80 ∧ (asciiCharacter c.toNat).xidContinue = true) ∧
      find_keyword (error_name err) = some (version, .tERROR err) := by
  have hhead : ∃ l, error_name err = 0x45 :: l := by
    cases err <;> exact ⟨_, rfl⟩
  obtain ⟨l, hname⟩ := hhead
  have hl : ∀ c ∈ l, c.toNat < 0x80 ∧ (asciiCharacter c.toNat).xidContinue = true := fun c hc =>
    (error_name_ascii err c (hname ▸ List.mem_cons_of_mem _ hc)).imp_left And.right
  have hfind : ∃ version, find_keyword (error_name err) = some (version, .tERROR err) := by
    cases err <;> exact ⟨_, rfl⟩
  obtain ⟨version, hfind⟩ := hfind
  exact ⟨l, version, hname, hl, hfind⟩

/-- An error code, behind which a literal ends. -/
theorem lexes_error (h : KnowsAscii env) (hversion : env.language_version = current_version)
    (heof : EOF ∉ rest) (he : Ends rest)
    (err : ErrCode) :
    Lexes env (characters (asciiChars (error_name err)) ++ rest) [.tERROR err] rest := by
  obtain ⟨-, hword, -⟩ := he.stops h
  obtain ⟨l, version, hname, hl, hfind⟩ := error_name_word err
  have hle : version.num ≤ env.language_version.num := by
    rw [hversion]
    cases version <;> decide
  have hdigit : my_isdigit env 0x45 = false := h.isdigit (x := 0x45) (by decide)
  have hspace : my_isspace env 0x45 = false := h.isspace (x := 0x45) (by decide)
  have hstart : my_is_xid_start env 0x45 = true := h.xid_start (x := 0x45) (by decide)
  have heof' := eof_characters (asciiChars l) heof
  have hinput : characters (asciiChars (0x45 :: l)) ++ rest = 0x45 ::
      (characters (asciiChars l) ++ rest) := rfl
  rw [hname] at hfind ⊢
  rw [hinput]
  refine lexes_token h (eof_cons (by decide) heof') hspace (by decide) rfl fun st hst => ?_
  have hscan : scanId env st.input (addToken [] 0x45) = (0x45 :: l, rest) := by
    rw [hst]
    exact scanId_word h hl hword [0x45]
  have hpiece : lexPiece env 0x45 st = lexWord env st 0x45 := by
    simp [lexPiece, lexToken, hdigit, hstart]
  rw [hpiece, lexWord, hscan]
  simp only [hfind, if_pos hle]

/-- A string. -/
theorem lexes_string (h : KnowsAscii env) (heof : EOF ∉ rest) {cs : List Nat}
    (hcs : ∀ r ∈ cs, IsChar r) :
    Lexes env (0x22 :: (characters (cs.flatMap quoteChar) ++ 0x22 :: rest))
    [.tSTRING (encode cs)] rest := by
  have hdigit : my_isdigit env 0x22 = false := h.isdigit (x := 0x22) (by decide)
  have hspace : my_isspace env 0x22 = false := h.isspace (x := 0x22) (by decide)
  have hstart : my_is_xid_start env 0x22 = false := h.xid_start (x := 0x22) (by decide)
  have heof' := eof_characters (cs.flatMap quoteChar) (eof_cons (c := 0x22) (by decide) heof)
  refine lexes_token h (eof_cons (by decide) heof') hspace (by decide) rfl fun st hst => ?_
  have hscan : scanString st.input [] = (encode cs, false, rest) := by
    rw [hst]
    exact scanString_quoted hcs rest []
  simp [lexPiece, lexToken, hdigit, hstart, hscan]

/-! ## The text of a literal -/

/-- Characters that the lexer takes for some tokens, if a literal ends there. -/
structure Spells (env : LexEnv) (cs : List Nat) (ts : List Token) : Prop where
  text : ∀ r ∈ cs, Encodable r ∧ r ≠ 0 ∧ r ≠ 0x0a
  lexes : ∀ rest, EOF ∉ rest → Ends rest → Lexes env (characters cs ++ rest) ts rest

variable {cs ds : List Nat} {s : Str} {p : PrintEnv}

theorem Spells.append (h : Spells env cs ts) (h' : Spells env ds us)
    (hends : ∀ rest, Ends (characters ds ++ rest)) :
    Spells env (cs ++ ds) (ts ++ us) where
  text r hr := (List.mem_append.mp hr).elim (h.text r) (h'.text r)
  lexes rest heof he := by
    rw [characters_append, List.append_assoc]
    exact (h.lexes _ (eof_characters ds heof) (hends rest)).trans (h'.lexes rest heof he)

/-- A mark may stand in front of anything. -/
theorem Spells.mark (h : KnowsAscii env) {x : Nat} (hx : x = 0x2d ∨ x = 0x2c ∨ x = 0x7b ∨ x = 0x7d)
    (hs : Spells env cs ts) :
    Spells env (x :: cs) (.char x :: ts) where
  text r hr := by
    rcases List.mem_cons.mp hr with rfl | hr
    · rcases hx with rfl | rfl | rfl | rfl <;> decide
    · exact hs.text r hr
  lexes rest heof he := (lexes_mark h hx (eof_characters cs heof)).trans (hs.lexes rest heof he)

theorem Spells.nil : Spells env [] [] where
  text := by simp
  lexes rest _ _ st hst := ⟨[], st, hst, rfl, rfl, by simp, by simp⟩

/-- A space may stand there too. -/
theorem Spells.space (h : KnowsAscii env) (hs : Spells env cs ts) : Spells env (0x20 :: cs) ts where
  text := List.forall_mem_cons.mpr ⟨by decide, hs.text⟩
  lexes rest heof he := (hs.lexes rest heof he).space h (eof_characters cs heof)

/-- An ASCII text is the encoding of its characters. -/
theorem Spells.ascii (hs : ∀ c ∈ s, 0x20 < c.toNat ∧ c.toNat < 0x80)
    (hlexes : ∀ rest, EOF ∉ rest → Ends rest →
      Lexes env (characters (asciiChars s) ++ rest) ts rest) :
    ∃ cs, s = encode cs ∧ Spells env cs ts := by
  refine ⟨asciiChars s, (encode_ascii fun c hc => (hs c hc).2).symm, fun r hr => ?_, hlexes⟩
  obtain ⟨c, hc, rfl⟩ := List.mem_map.mp hr
  have := hs c hc
  exact ⟨⟨by omega, by omega⟩, by omega, by omega⟩

theorem text_bounds (n : Int) : ∀ c ∈ Decimal.text n, 0x20 < c.toNat ∧ c.toNat < 0x80 := by
  intro c hc
  rcases Decimal.mem_text hc with rfl | hdigit
  · decide
  · have := digit_bounds hdigit
    omega

/-- What is printed of a string. -/
theorem spells_string (h : KnowsAscii env) (hcs : ∀ r ∈ cs, IsChar r) :
    ∃ ds, string_quote (encode cs) = encode ds ∧ Spells env ds [.tSTRING (encode cs)] := by
  have hcstr : cstr (encode cs) = encode cs := cstr_plain (encode_nul hcs)
  refine ⟨0x22 :: (cs.flatMap quoteChar ++ [0x22]), ?_, fun r hr => ?_, fun rest heof _ => ?_⟩
  · rw [string_quote, hcstr, encode_cons, encode_append, encode_quoted hcs]
    rfl
  · have hmark : Encodable 0x22 ∧ (0x22 : Nat) ≠ 0 ∧ (0x22 : Nat) ≠ 0x0a := by decide
    rw [List.mem_cons, List.mem_append, List.mem_singleton] at hr
    rcases hr with rfl | hr | rfl
    · exact hmark
    · obtain ⟨c, hc, hr⟩ := List.mem_flatMap.mp hr
      rcases quoteChar_cases c with ⟨hquote, -, -, hline⟩ | ⟨d, hquote, hd, -⟩
      · rw [hquote, List.mem_singleton] at hr
        subst hr
        exact ⟨(hcs r hc).1, (hcs r hc).2, hline⟩
      · rw [hquote, List.mem_cons, List.mem_singleton] at hr
        rcases hr with rfl | rfl
        · decide
        · exact ⟨⟨by omega, by omega⟩, by omega, by omega⟩
    · exact hmark
  · rw [characters_cons, characters_append, List.cons_append, List.append_assoc]
    exact lexes_string h heof hcs

/-- The elements behind the first one, with the brace. -/
theorem spells_more (h : KnowsAscii env)
    (hlist : ∀ v ∈ list, ∃ cs, print_to_stream p v = encode cs ∧ Spells env cs (literalTokens v)) :
    ∃ cs, printElements p (NuMoo.Lex.ascii ", ") list ++ [0x7d] = encode cs ∧
      Spells env cs (moreTokens list ++ [.char 0x7d]) ∧
      ∀ rest, Ends (characters cs ++ rest) := by
  induction list with
  | nil =>
    exact ⟨[0x7d], rfl, Spells.nil.mark h (x := 0x7d) (by decide), fun rest => .inr (.inl rfl)⟩
  | cons v list ih =>
    obtain ⟨⟨cs, hcs, hspells⟩, hlist⟩ := List.forall_mem_cons.mp hlist
    obtain ⟨ds, hds, hspells', hends⟩ := ih hlist
    refine ⟨0x2c :: 0x20 :: (cs ++ ds), ?_, ?_, fun rest => .inl rfl⟩
    · rw [printElements, List.append_assoc, List.append_assoc, hds, hcs, encode_cons,
        encode_cons, encode_append]
      rfl
    · have hspace := ((hspells.append hspells' hends).space h).mark h (x := 0x2c) (by decide)
      rw [moreTokens, List.cons_append, List.append_assoc]
      exact hspace

/-- What is printed of a value, the lexer takes for the tokens of its literal. -/
theorem spells_literal (h : KnowsAscii env) (hversion : env.language_version = current_version)
    (hv : Printable v) :
    ∃ cs, print_to_stream p v = encode cs ∧ Spells env cs (literalTokens v) := by
  induction hv with
  | @int num hnum =>
    refine Spells.ascii (text_bounds num) fun rest heof he => ?_
    rw [literalTokens]
    split
    · next hneg =>
      have habs : (num.natAbs : Int) = -num := Int.ofNat_natAbs_of_nonpos (Int.le_of_lt hneg)
      have htext : print_to_stream p (.int num) = 0x2d :: Decimal.natText num.natAbs := if_pos hneg
      have hdigits := lexes_natText h heof he num.natAbs
      rw [habs] at hdigits
      rw [htext]
      exact (lexes_mark h (x := 0x2d) (by decide) (eof_characters _ heof)).trans hdigits
    · next hneg =>
      have habs : (num.natAbs : Int) = num := Int.natAbs_of_nonneg (Int.not_lt.mp hneg)
      have htext : print_to_stream p (.int num) = Decimal.natText num.natAbs := if_neg hneg
      have hdigits := lexes_natText h heof he num.natAbs
      rw [habs, num64_self hnum] at hdigits
      rw [htext]
      exact hdigits
  | @obj obj hobj =>
    have hbounds : ∀ c ∈ 0x23 :: Decimal.text obj, 0x20 < c.toNat ∧ c.toNat < 0x80 :=
      List.forall_mem_cons.mpr ⟨by decide, text_bounds obj⟩
    exact Spells.ascii hbounds fun rest heof he => lexes_object h heof he hobj
  | err err =>
    have hbounds : ∀ c ∈ error_name err, 0x20 < c.toNat ∧ c.toNat < 0x80 :=
      fun c hc => (error_name_ascii err c hc).1
    exact Spells.ascii hbounds fun rest heof he => lexes_error h hversion heof he err
  | str hcs => exact spells_string h hcs
  | @list list _ ih =>
    cases list with
    | nil => exact ⟨[0x7b, 0x7d], rfl, (Spells.nil.mark h (x := 0x7d) (by decide)).mark h
        (x := 0x7b) (by decide)⟩
    | cons v list =>
      obtain ⟨⟨cs, hcs, hspells⟩, hlist⟩ := List.forall_mem_cons.mp ih
      obtain ⟨ds, hds, hspells', hends⟩ := spells_more h hlist
      refine ⟨0x7b :: (cs ++ ds), ?_, (hspells.append hspells' hends).mark h
        (x := 0x7b) (by decide)⟩
      rw [print_to_stream, printElements, List.nil_append, List.append_assoc, hds, hcs,
        encode_cons, encode_append]
      rfl

/-! ## Parsing a literal -/

/-- No literal is a dot. -/
theorem literal_ne_dot (hv : Printable v) : print_to_stream p v ≠ [0x2e] := by
  cases hv with
  | @int num _ =>
    intro hdot
    have hmem : 0x2e ∈ Decimal.text num :=
      (show Decimal.text num = [0x2e] from hdot) ▸ List.mem_cons_self
    rcases Decimal.mem_text hmem with hc | hc
    · exact absurd hc (by decide)
    · exact absurd hc (by decide)
  | obj => exact fun hdot => absurd (List.cons.inj hdot).1 (by decide)
  | err err =>
    obtain ⟨l, _, hname, -⟩ := error_name_word err
    exact fun hdot => absurd (List.cons.inj (hname.symm.trans hdot)).1 (by decide)
  | str => exact fun hdot => absurd (List.cons.inj hdot).1 (by decide)
  | list => exact fun hdot => absurd (List.cons.inj hdot).1 (by decide)

/-- The tokens of a literal and of the line end behind it. -/
theorem tokens_literal (h : KnowsAscii env) (hversion : env.language_version = current_version)
    (hv : Printable v) :
    ∃ l, parseListAsProgram (tokens env) [value_to_literal p v] = some (some l) ∧
      (∀ x ∈ l, x.2.messages = []) ∧
      l.map (·.1) = literalTokens v ++ [.char EOF] := by
  obtain ⟨cs, hcs, hspells⟩ := spells_literal (p := p) h hversion hv
  have hdot := literal_ne_dot (p := p) hv
  rw [hcs] at hdot
  have hread := readCallN_list [⟨cs, hspells.text, hdot⟩]
  have hline : lineRunes [⟨cs, hspells.text, hdot⟩] = cs ++ [0x0a] := List.append_nil _
  have hspace : ∀ c ∈ [0x0a], my_isspace env c = true := by
    have hnl : my_isspace env 0x0a = true := h.isspace (x := 0x0a) (by decide)
    simpa using hnl
  obtain ⟨l, st', hinput, hmessages, hl, hall, htokens⟩ :=
    hspells.lexes [0x0a] (by decide) (.inr (.inr rfl)) ⟨characters cs ++ [0x0a], 1, [], false⟩ rfl
  have hfinish : piece env st'.input = .finish := by
    rw [hinput, ← List.append_nil [0x0a], piece_append hspace]
    rfl
  have hlast := @tokensFrom_piece env st' h (by rw [hinput]; decide)
  rw [hfinish] at hlast
  simp only at hlast
  refine ⟨l ++ [(.char EOF, st'.at st'.input [])], ?_, fun x hx => ?_, ?_⟩
  · rw [List.map_singleton, show TextLine.bytes ⟨cs, hspells.text, hdot⟩ = encode cs from rfl,
      hline] at hread
    rw [parseListAsProgram, value_to_literal, hcs, hread, Option.map_some]
    rw [hlast] at htokens
    exact congrArg some (by simpa [tokens, tokensFrom, characters] using htokens)
  · rcases List.mem_append.mp hx with hx | hx
    · exact hall x hx
    · rw [List.mem_singleton.mp hx]
      exact hmessages
  · rw [List.map_append, hl]
    rfl

/-- A literal is parsed in one way. -/
theorem parsesAs_iff (h : KnowsAscii env) (hversion : env.language_version = current_version)
    (hv : Printable v) {e : Expr} :
    ParsesAs env penv (value_to_literal p v) e ↔ e = literalExpr v := by
  obtain ⟨l, hparse, hmessages, hl⟩ := tokens_literal (p := p) h hversion hv
  constructor
  · rintro ⟨l', toks, hparse', -, hl', hderives⟩
    obtain rfl := Option.some.inj (Option.some.inj (hparse.symm.trans hparse'))
    obtain rfl := List.append_cancel_right (hl.symm.trans hl')
    exact (derives_iff hv).mp hderives
  · rintro rfl
    exact ⟨l, literalTokens v, hparse, hmessages, hl, derives_literal hv⟩

end Literal
end NuMoo
