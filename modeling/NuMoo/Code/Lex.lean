import NuMoo.Net.UtfCall

/-!
# The lexer

`yylex` of `parser.y` and `find_keyword`. The lexer asks for one character at a time and can put a
few back, so what it has left to read is a list of characters that `EOF` follows for ever. What
the Unicode database says and `strtod` are parameters.
-/

namespace NuMoo
namespace Lex

open Net

/-- `DB_Version` -/
inductive DBVersion where
  | DBV_Prehistory | DBV_Exceptions | DBV_BreakCont | DBV_Float | DBV_BFBugFixed
deriving DecidableEq, Repr

/-- The number of a version. -/
def DBVersion.num : DBVersion → Nat
  | .DBV_Prehistory => 0
  | .DBV_Exceptions => 1
  | .DBV_BreakCont => 2
  | .DBV_Float => 3
  | .DBV_BFBugFixed => 4

/-- `current_version` -/
def current_version : DBVersion := .DBV_BFBugFixed

/-- The tokens of the grammar. -/
inductive Token where
  | char (c : Int)
  | tCHR (chr : Int)
  | tINTEGER (integer : Int)
  | tOBJECT (object : Int)
  | tFLOAT (real : UInt64)
  | tSTRING (string : Str)
  | tID (string : Str)
  | tERROR (error : ErrCode)
  | tIF | tELSE | tELSEIF | tENDIF | tFOR | tIN | tENDFOR | tRETURN | tFORK | tENDFORK
  | tWHILE | tENDWHILE | tTRY | tENDTRY | tEXCEPT | tFINALLY | tANY | tBREAK | tCONTINUE
  | tTO | tARROW | tGE | tLE | tEQ | tNE | tOR | tAND
deriving DecidableEq, Repr

/-- What the lexer uses of `unicode_character_data`. -/
structure CharacterData where
  decimal : Option Nat
  whiteSpace : Bool
  xidStart : Bool
  xidContinue : Bool
deriving DecidableEq, Repr

/-- The Unicode database, the C library's numbers and the version of the language. `strtod` yields
no value where the result is not `IS_REAL`. -/
structure LexEnv where
  ucd : Nat → Option CharacterData
  strtod : Str → Option UInt64
  language_version : DBVersion

/-- `unicode_character_data`: no value beyond `UCS_MAX` is known, and no negative one. -/
def unicode_character_data (env : LexEnv) (x : Int) : Option CharacterData :=
  if 0 ≤ x ∧ x ≤ 0x10ffff then env.ucd x.toNat else none

def my_isdigit (env : LexEnv) (x : Int) : Bool :=
  ((unicode_character_data env x).bind (·.decimal)).isSome
def my_digitval (env : LexEnv) (x : Int) : Nat :=
  ((unicode_character_data env x).bind (·.decimal)).getD 0
/-- A value the database does not know counts as space, unless it is zero. -/
def my_isspace (env : LexEnv) (x : Int) : Bool :=
  match unicode_character_data env x with
  | none => x ≠ 0
  | some ucd => ucd.whiteSpace
def my_is_xid_start (env : LexEnv) (x : Int) : Bool :=
  ((unicode_character_data env x).map (·.xidStart)).getD false
def my_is_xid_cont (env : LexEnv) (x : Int) : Bool :=
  ((unicode_character_data env x).map (·.xidContinue)).getD false

/-- The bytes of an ASCII text. -/
def ascii (s : String) : Str := s.toList.map fun c => UInt8.ofNat c.toNat

/-- The word list of `keywords.gperf`. -/
def keywords : List (Str × DBVersion × Token) := [
  (ascii "if", .DBV_Prehistory, .tIF), (ascii "else", .DBV_Prehistory, .tELSE),
  (ascii "elseif", .DBV_Prehistory, .tELSEIF),
  (ascii "endif", .DBV_Prehistory, .tENDIF), (ascii "for", .DBV_Prehistory, .tFOR),
  (ascii "in", .DBV_Prehistory, .tIN),
  (ascii "endfor", .DBV_Prehistory, .tENDFOR), (ascii "fork", .DBV_Prehistory, .tFORK),
  (ascii "endfork", .DBV_Prehistory, .tENDFORK), (ascii "return", .DBV_Prehistory, .tRETURN),
  (ascii "while", .DBV_Prehistory, .tWHILE), (ascii "endwhile", .DBV_Prehistory, .tENDWHILE),
  (ascii "try", .DBV_Exceptions, .tTRY), (ascii "except", .DBV_Exceptions, .tEXCEPT),
  (ascii "finally", .DBV_Exceptions, .tFINALLY), (ascii "endtry", .DBV_Exceptions, .tENDTRY),
  (ascii "any", .DBV_Exceptions, .tANY), (ascii "break", .DBV_BreakCont, .tBREAK),
  (ascii "continue", .DBV_BreakCont, .tCONTINUE),
  (ascii "e_none", .DBV_Prehistory, .tERROR .E_NONE),
  (ascii "e_type", .DBV_Prehistory, .tERROR .E_TYPE),
  (ascii "e_div", .DBV_Prehistory, .tERROR .E_DIV),
  (ascii "e_perm", .DBV_Prehistory, .tERROR .E_PERM),
  (ascii "e_propnf", .DBV_Prehistory, .tERROR .E_PROPNF),
  (ascii "e_verbnf", .DBV_Prehistory, .tERROR .E_VERBNF),
  (ascii "e_varnf", .DBV_Prehistory, .tERROR .E_VARNF),
  (ascii "e_invind", .DBV_Prehistory, .tERROR .E_INVIND),
  (ascii "e_recmove", .DBV_Prehistory, .tERROR .E_RECMOVE),
  (ascii "e_maxrec", .DBV_Prehistory, .tERROR .E_MAXREC),
  (ascii "e_range", .DBV_Prehistory, .tERROR .E_RANGE),
  (ascii "e_args", .DBV_Prehistory, .tERROR .E_ARGS),
  (ascii "e_nacc", .DBV_Prehistory, .tERROR .E_NACC),
  (ascii "e_invarg", .DBV_Prehistory, .tERROR .E_INVARG),
  (ascii "e_quota", .DBV_Prehistory, .tERROR .E_QUOTA),
  (ascii "e_float", .DBV_Float, .tERROR .E_FLOAT)]

/-- `find_keyword` -/
def find_keyword (word : Str) : Option (DBVersion × Token) :=
  (keywords.find? (·.1 = word.map cmap)).map (·.2)

/-- What `yylex` reads and writes besides its token: the characters still to come, the line number,
the messages of `yyerror` and `warning` with the line of each, and `must_rename_keywords`. -/
structure LexState where
  input : List Int
  lineno : Nat
  messages : List (Nat × Str)
  must_rename_keywords : Bool
deriving DecidableEq, Repr

/-- The input after `lex_ungetc`; after `EOF` the client has nothing but `EOF` to give. -/
def lex_ungetc (c : Int) (input : List Int) : List Int := if c = EOF then input else c :: input

def yyerror (st : LexState) (s : String) : LexState :=
  { st with messages := st.messages ++ [(st.lineno, ascii s)] }

/-- `stream_add_utf` on `token_stream`: what is no character is left out. -/
def addToken (text : Str) (c : Int) : Str := text ++ (putUtfInt c).getD []

/-- `Num` arithmetic, on 64 bits. -/
def num64 (n : Int) : Int := n.bmod (2 ^ 64)

/-- The loop that skips space and counts lines: the first other character and what follows it. -/
def skipSpace (env : LexEnv) : List Int → Nat → Int × List Int × Nat
  | [], lineno => (EOF, [], lineno)
  | c :: input, lineno =>
    let lineno := if c = 0x0a then lineno + 1 else lineno
    if c ≠ EOF ∧ my_isspace env c then skipSpace env input lineno else (c, input, lineno)

/-- The loop over a comment: what follows its end, or `none` at the end of the program. -/
def skipComment : List Int → Option (List Int)
  | [] => none
  | c :: input =>
    if c = 0x2a then
      match input with
      | [] => none
      | d :: input => if d = 0x2f then some input else if d = EOF then none else skipComment input
    else if c = EOF then none
    else skipComment input

/-- The digits of a number: its value, its text and what follows. -/
def scanDigits (env : LexEnv) : List Int → Int → Str → Int × Str × List Int
  | [], n, text => (n, text, [])
  | c :: input, n, text =>
    if my_isdigit env c then scanDigits env input (num64 (n * 10 + my_digitval env c))
    (addToken text c) else (n, text, c :: input)

/-- The rest of an identifier. -/
def scanId (env : LexEnv) : List Int → Str → Str × List Int
  | [], text => (text, [])
  | c :: input, text => if my_is_xid_cont env c ∨ c = 0x5f then scanId env input (addToken text c)
    else (text, c :: input)

/-- The character that a letter after a backslash stands for. -/
def escape (c : Int) : Int :=
  if c = 0x61 then 0x07
  else if c = 0x62 then 0x08
  else if c = 0x65 then 0x1b
  else if c = 0x66 then 0x0c
  else if c = 0x6e then 0x0a
  else if c = 0x72 then 0x0d
  else if c = 0x74 then 0x09
  else if c = 0x76 then 0x0b
  else c

/-- The rest of a string literal: its text, whether its closing quote is missing, and what
follows. -/
def scanString : List Int → Str → Str × Bool × List Int
  | [], text => (text, true, [])
  | c :: input, text =>
    if c = 0x22 then (text, false, input)
    else if c = 0x0a ∨ c = EOF then (text, true, input)
    else if c = 0x5c then
      match input with
      | [] => (text, true, [])
      | c :: input => scanString input (addToken text (escape c))
    else scanString input (addToken text c)

/-- `follow` -/
def follow (expect : Int) (ifyes ifno : Token) (input : List Int) : Token × List Int :=
  let (c, input) := listGetch input
  if c = expect then (ifyes, input) else (ifno, lex_ungetc c input)

/-- The token of an object number, after its `#`. -/
def lexObject (env : LexEnv) (st : LexState) : Token × LexState :=
  let (c, input) := listGetch st.input
  let (negative, c, input) := if c = 0x2d then (true, listGetch input) else (false, c, input)
  if ¬ my_isdigit env c then
    (.char 0, { yyerror st "Malformed object number" with input := lex_ungetc c input })
  else
    let (oid, _, input) := scanDigits env (lex_ungetc c input) 0 []
    (.tOBJECT (if negative then num64 (-oid) else oid), { st with input })

/-- The exponent of a number, after its `e`: its text, or what is left where it has no digit. -/
def lexExponent (env : LexEnv) (input : List Int) (text : Str) :
    Except (List Int) (Str × List Int) :=
  let (c, rest) := listGetch input
  let (text, c, rest) :=
    if c = 0x2b ∨ c = 0x2d then (addToken text c, listGetch rest) else (text, c, rest)
  if ¬ my_isdigit env c then .error (lex_ungetc c rest)
  else
    let (_, text, rest) := scanDigits env (lex_ungetc c rest) 0 text
    .ok (text, rest)

/-- The token of any other character. -/
def lexOperator (st : LexState) (c : Int) : Token × LexState :=
  let follow (expect : Int) (ifyes ifno : Token) : Token × LexState :=
    let (token, input) := follow expect ifyes ifno st.input
    (token, { st with input })
  if c = 0x3e then follow 0x3d .tGE (.char c)
  else if c = 0x3c then follow 0x3d .tLE (.char c)
  else if c = 0x3d then
    let (d, input) := listGetch st.input
    if d = 0x3d then (.tEQ, { st with input }) else follow 0x3e .tARROW (.char c)
  else if c = 0x21 then follow 0x3d .tNE (.char c)
  else if c = 0x7c then follow 0x7c .tOR (.char c)
  else if c = 0x26 then follow 0x26 .tAND (.char c)
  else if c = 0x2e then follow 0x2e .tTO (.char c)
  else if c < 127 then (.char c, st)
  else (.tCHR c, st)

/-- The token of a number that begins with the characters of `input`, or of a dot that begins
none. -/
def lexNumber (env : LexEnv) (st : LexState) (input : List Int) : Token × LexState :=
  let float := env.language_version.num ≥ DBVersion.DBV_Float.num
  let (n, text, rest) := scanDigits env input 0 []
  let (c, after) := listGetch rest
  let fraction : Option (Bool × Str × List Int) :=
    if float ∧ c = 0x2e then
      let (cc, _) := listGetch after
      if my_isdigit env cc then
        let (_, text, rest) := scanDigits env after 0 (addToken text c)
        some (true, text, rest)
      else if text = [] then none
      else if cc ≠ 0x2e then some (true, addToken text c, after)
      else some (false, text, rest)
    else some (false, text, rest)
  match fraction with
  | none => lexOperator { st with input := after } 0x2e
  | some (isFloat, text, rest) =>
    let (c, after) := listGetch rest
    let number (isFloat : Bool) (text : Str) (rest : List Int) : Token × LexState :=
      if isFloat then
        match env.strtod text with
        | some d => (.tFLOAT d, { st with input := rest })
        | none =>
          (.tFLOAT 0, { yyerror st "Floating-point literal out of range" with input := rest })
      else (.tINTEGER n, { st with input := rest })
    if float ∧ (c = 0x65 ∨ c = 0x45) then
      match lexExponent env after (addToken text c) with
      | .error rest =>
        (.char 0, { yyerror st "Malformed floating-point literal" with input := rest })
      | .ok (text, rest) => number true text rest
    else number isFloat text rest

/-- The token of a word: a keyword of this version of the language, or an identifier. -/
def lexWord (env : LexEnv) (st : LexState) (c : Int) : Token × LexState :=
  let (buf, input) := scanId env st.input (addToken [] c)
  let st := { st with input }
  match find_keyword buf with
  | some (version, token) =>
    if version.num ≤ env.language_version.num then (token, st)
    else
      let st := if st.must_rename_keywords then st
        else
          { st with messages := st.messages ++
                      [(st.lineno, ascii "Renaming old use of new keyword: " ++ buf)] }
      (.tID buf, { st with must_rename_keywords := true })
  | none => (.tID buf, st)

/-- The token that begins with the character `c`, which is no space and begins no comment. -/
def lexToken (env : LexEnv) (st : LexState) (c : Int) : Token × LexState :=
  if c = 0x23 then lexObject env st
  else if my_isdigit env c ∨ (c = 0x2e ∧ env.language_version.num ≥ DBVersion.DBV_Float.num) then
    lexNumber env st (c :: st.input)
  else if my_is_xid_start env c ∨ c = 0x5f then lexWord env st c
  else if c = 0x22 then
    let (text, missing, input) := scanString st.input []
    (.tSTRING text, { (if missing then yyerror st "Missing quote" else st) with input })
  else lexOperator st c

/-- `yylex`. The fuel bounds the comments that are skipped. -/
def yylexN (env : LexEnv) : Nat → LexState → Option (Token × LexState)
  | 0, _ => none
  | n + 1, st =>
    let (c, input, lineno) := skipSpace env st.input st.lineno
    let st := { st with input, lineno }
    if c = EOF then some (.char EOF, st)
    else if c = 0x2f then
      let (d, after) := listGetch input
      if d = 0x2a then
        match skipComment after with
        | some input => yylexN env n { st with input }
        | none =>
          some (.char EOF, { yyerror st "End of program while in a comment" with input := [] })
      else some (.char 0x2f, { st with input := lex_ungetc d after })
    else some (lexToken env st c)

def yylex (env : LexEnv) (st : LexState) : Option (Token × LexState) :=
  yylexN env (st.input.length + 1) st

/-- Whether the parser takes a token for the end of the program. -/
def Token.isEnd : Token → Bool
  | .char c => c ≤ 0
  | _ => false

/-- The tokens up to the end of the program, each with the state of the lexer behind it. -/
def tokensN (env : LexEnv) : Nat → LexState → Option (List (Token × LexState))
  | 0, _ => none
  | n + 1, st => do
    let (token, st) ← yylex env st
    if token.isEnd then return [(token, st)]
    return (token, st) :: (← tokensN env n st)

/-- The tokens of a program. -/
def tokens (env : LexEnv) (input : List Int) : Option (List (Token × LexState)) :=
  tokensN env (input.length + 1) ⟨input, 1, [], false⟩

end Lex
end NuMoo
