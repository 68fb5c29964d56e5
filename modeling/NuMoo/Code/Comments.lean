import Mathlib.Data.List.TakeWhile
import NuMoo.Code.Sources

/-!
# Comments

What `yylex` makes of comments, and of the line number. A program is read piece by piece: space, and
behind it a comment or a token.

Results:
1. `skipComment_iff`: the loop over a comment ends behind its first `*/` if an odd number of stars
   is there.
2. `lexPiece_spec`: a token depends on what follows it only so far as the lexer looks.
3. `comments_iff`: which programs are read as though each comment were a space, with the right line
   numbers.
-/

namespace NuMoo
namespace Lex

open Net

/-! ## The end of a comment -/

/-- What follows the first `*/`. -/
def afterTerminator : List Int → Option (List Int)
  | [] => none
  | c :: input =>
    if c = 0x2a ∧ input.head? = some 0x2f then some input.tail else afterTerminator input

/-- Whether the stars directly in front of the slash of the first `*/` are odd in number, counted on
from `run`. There may be no `*/`. -/
def oddStars (run : Nat) : List Int → Bool
  | [] => true
  | c :: input =>
    if c = 0x2a then oddStars (run + 1) input
    else if c = 0x2f ∧ 0 < run then run % 2 = 1
    else oddStars 0 input

/-- The loop over a comment, behind a star or not. -/
def skipFrom (star : Bool) (input : List Int) : Option (List Int) :=
  if star then
    match input with
    | [] => none
    | d :: input => if d = 0x2f then some input else if d = EOF then none else skipComment input
  else skipComment input

/-- What follows the first `*/`, behind a star or not. -/
def afterFrom (star : Bool) (input : List Int) : Option (List Int) :=
  if star ∧ input.head? = some 0x2f then some input.tail else afterTerminator input

variable {input after rest text left : List Int} {c : Int} {n : Nat}

theorem skipComment_star (input : List Int) :
    skipComment (0x2a :: input) = skipFrom true input := by
  cases input <;> rfl

theorem skipComment_other (hstar : c ≠ 0x2a) (hc : c ≠ EOF) :
    skipComment (c :: input) = skipComment input := by
  cases input <;> simp [skipComment, hstar, hc]

theorem skipFrom_cons (star : Bool) (hc : c ≠ EOF) :
    skipFrom star (c :: input) =
      if c = 0x2a then skipFrom (!star) input else if star = true ∧ c = 0x2f then some input
        else skipFrom false input := by
  by_cases hstar : c = 0x2a
  · obtain rfl := hstar
    rw [if_pos rfl]
    cases star with
    | false => exact skipComment_star input
    | true => rfl
  · rw [if_neg hstar]
    cases star with
    | false => exact (skipComment_other hstar hc).trans (by simp [skipFrom])
    | true => simp [skipFrom, hc]

theorem afterFrom_cons (star : Bool) (c : Int) (input : List Int) :
    afterFrom star (c :: input) = if star = true ∧ c = 0x2f then some input
      else afterFrom (c = 0x2a) input := by
  simp [afterFrom, afterTerminator]

/-- The end of a comment is behind some of it. -/
theorem skipFrom_suffix (star : Bool) (h : skipFrom star input = some rest) (heof : EOF ∉ input) :
    ∃ body, input = body ++ rest ∧ body ≠ [] := by
  induction input generalizing star with
  | nil => cases star <;> cases h
  | cons c input ih =>
    rw [List.mem_cons, not_or] at heof
    rw [skipFrom_cons star (Ne.symm heof.1)] at h
    split at h
    · obtain ⟨body, rfl, -⟩ := ih _ h heof.2
      exact ⟨c :: body, rfl, by simp⟩
    · split at h
      · obtain rfl := Option.some.inj h
        exact ⟨[c], rfl, by simp⟩
      · obtain ⟨body, rfl, -⟩ := ih _ h heof.2
        exact ⟨c :: body, rfl, by simp⟩

theorem skipComment_suffix (h : skipComment input = some rest) (heof : EOF ∉ input) :
    ∃ body, input = body ++ rest ∧ body ≠ [] :=
  skipFrom_suffix false h heof

theorem afterTerminator_suffix (h : afterTerminator input = some rest) :
    ∃ body, input = body ++ rest ∧ body ≠ [] := by
  induction input with
  | nil => cases h
  | cons c input ih =>
    rw [afterTerminator] at h
    split at h
    · next hend =>
      cases input with
      | nil => cases hend.2
      | cons d input =>
        obtain rfl := Option.some.inj h
        exact ⟨[c, d], rfl, by simp⟩
    · obtain ⟨body, rfl, -⟩ := ih h
      exact ⟨c :: body, rfl, by simp⟩

theorem not_self_suffix {body : List Int} (hne : body ≠ []) : input ≠ body ++ input := fun h => by
  have hlen := congrArg List.length h
  rw [List.length_append] at hlen
  exact hne (List.length_eq_zero_iff.mp (by omega))

theorem skipFrom_iff (run : Nat) (heof : EOF ∉ input) :
    skipFrom (run % 2 = 1) input = afterFrom (0 < run) input ↔ oddStars run input = true := by
  induction input generalizing run with
  | nil => by_cases hodd : run % 2 = 1 <;> simp [skipFrom, skipComment, afterFrom,
      afterTerminator, oddStars, hodd]
  | cons c input ih =>
    rw [List.mem_cons, not_or] at heof
    obtain ⟨hc, heof⟩ := heof
    have hzero := ih 0 heof
    rw [skipFrom_cons _ (Ne.symm hc), afterFrom_cons, oddStars]
    by_cases hstar : c = 0x2a
    · obtain rfl := hstar
      have hparity : (!decide (run % 2 = 1)) = decide ((run + 1) % 2 = 1) := by
        rw [← decide_not, decide_eq_decide]
        omega
      have hsucc := ih (run + 1) heof
      rw [if_pos rfl, if_neg (by simp), if_pos rfl, hparity]
      simpa using hsucc
    · rw [if_neg hstar, if_neg hstar]
      by_cases hend : c = 0x2f ∧ 0 < run
      · have hafter : (decide (0 < run) = true ∧ c = 0x2f) := ⟨decide_eq_true hend.2, hend.1⟩
        rw [if_pos hend, if_pos hafter]
        -- the comment ends here unless the loop has taken the last star for half of a pair
        by_cases hodd : run % 2 = 1
        · rw [if_pos ⟨decide_eq_true hodd, hend.1⟩]
          simp [hodd]
        · rw [if_neg fun h => hodd (of_decide_eq_true h.1)]
          refine iff_of_false (fun hskip => ?_) (by simp [hodd])
          obtain ⟨body, hbody, hne⟩ := skipFrom_suffix _ hskip heof
          exact not_self_suffix hne hbody
      · have hskip : ¬ (decide (run % 2 = 1) = true ∧ c = 0x2f) := fun h => hend ⟨h.2, by
          have := of_decide_eq_true h.1
          omega⟩
        have hafter : ¬ (decide (0 < run) = true ∧ c = 0x2f) :=
          fun h => hend ⟨h.2, of_decide_eq_true h.1⟩
        rw [if_neg hend, if_neg hskip, if_neg hafter]
        simpa [hstar] using hzero

/-- The loop over a comment goes on behind the first `*/` exactly if the stars there are odd in
number. -/
theorem skipComment_iff (heof : EOF ∉ input) :
    skipComment input = afterTerminator input ↔ oddStars 0 input = true := by
  have h := skipFrom_iff 0 heof
  simpa [skipFrom, afterFrom] using h

/-! ## What the lexer looks at -/

/-- What the Unicode database says about an ASCII character. -/
def asciiCharacter (x : Nat) : CharacterData where
  decimal := if 0x30 ≤ x ∧ x ≤ 0x39 then some (x - 0x30) else none
  whiteSpace := (0x09 ≤ x ∧ x ≤ 0x0d) ∨ x = 0x20
  xidStart := (0x41 ≤ x ∧ x ≤ 0x5a) ∨ (0x61 ≤ x ∧ x ≤ 0x7a)
  xidContinue := (0x41 ≤ x ∧ x ≤ 0x5a) ∨ (0x61 ≤ x ∧ x ≤ 0x7a) ∨ (0x30 ≤ x ∧ x ≤ 0x39) ∨ x = 0x5f

/-- The Unicode database knows the ASCII characters. -/
def KnowsAscii (env : LexEnv) : Prop := ∀ x < 0x80, env.ucd x = some (asciiCharacter x)

variable {env : LexEnv}

theorem KnowsAscii.data (h : KnowsAscii env) {x : Nat} (hx : x < 0x80) :
    unicode_character_data env x = some (asciiCharacter x) := by
  rw [unicode_character_data, if_pos ⟨Int.natCast_nonneg x, by omega⟩]
  exact h x hx

theorem KnowsAscii.isdigit (h : KnowsAscii env) {x : Nat} (hx : x < 0x80) :
    my_isdigit env x = (asciiCharacter x).decimal.isSome := by
  rw [my_isdigit, h.data hx]
  rfl

theorem KnowsAscii.isspace (h : KnowsAscii env) {x : Nat} (hx : x < 0x80) :
    my_isspace env x = (asciiCharacter x).whiteSpace := by
  rw [my_isspace, h.data hx]

theorem KnowsAscii.xid_start (h : KnowsAscii env) {x : Nat} (hx : x < 0x80) :
    my_is_xid_start env x = (asciiCharacter x).xidStart := by
  rw [my_is_xid_start, h.data hx]
  rfl

theorem KnowsAscii.xid_cont (h : KnowsAscii env) {x : Nat} (hx : x < 0x80) :
    my_is_xid_cont env x = (asciiCharacter x).xidContinue := by
  rw [my_is_xid_cont, h.data hx]
  rfl

/-- A text that the lexer cannot tell from another when it looks ahead: it begins with the same
character, or with a space in place of a slash. A second character counts only behind a dot. -/
inductive Looks : List Int → List Int → Prop
  | refl (l : List Int) : Looks l l
  | head {c : Int} {l l' : List Int} (h : c = 0x2e → l.head? = some 0x2e → l'.head? = some 0x2e) :
      Looks (c :: l) (c :: l')
  | slash (l l' : List Int) : Looks (0x2f :: l) (0x20 :: l')

/-- A test that does not tell a slash from a space. -/
theorem Looks.test {l l' : List Int} (h : Looks l l') {p : Int → Prop} (hp : p 0x2f ↔ p 0x20) :
    p (listGetch l).1 ↔ p (listGetch l').1 := by
  cases h with
  | refl => exact Iff.rfl
  | head => exact Iff.rfl
  | slash => exact hp

theorem Looks.append {l l' : List Int} (h : Looks l l') (w : List Int) :
    Looks (w ++ l) (w ++ l') := by
  cases w with
  | nil => exact h
  | cons c w =>
    refine .head fun _ hdot => ?_
    cases w with
    | nil =>
      cases h with
      | refl => exact hdot
      | head => exact hdot
      | slash => cases hdot
    | cons d w => exact hdot

/-- What reading a token makes of the state: it leaves `rest`, and its messages have the line it
began on. -/
structure Result (st : LexState) (r : Token × LexState) (t : Token) (rest : List Int) : Prop where
  token : r.1 = t
  input : r.2.input = rest
  lineno : r.2.lineno = st.lineno
  messages : ∃ m, r.2.messages = st.messages ++ m ∧ ∀ x ∈ m, x.1 = st.lineno

/-- Reading a token takes `w`, whatever is behind it so long as it looks like `rest`. -/
def Takes (f : LexState → Token × LexState) (t : Token) (w rest : List Int) : Prop :=
  ∀ st rest', EOF ∉ rest' → Looks rest rest' → st.input = w ++ rest' → Result st (f st) t rest'

/-- Reading a token from `input` takes some characters of it, none of which is a line end. -/
def TakesSome (f : LexState → Token × LexState) (input : List Int) : Prop :=
  ∃ t w rest, input = w ++ rest ∧ 0x0a ∉ w ∧ Takes f t w rest

theorem Result.same (st : LexState) (t : Token) (rest : List Int) :
    Result st (t, { st with input := rest }) t rest :=
  ⟨rfl, rfl, rfl, [], (List.append_nil _).symm, by simp⟩

theorem Result.of_input {st : LexState} {l rest : List Int} {r : Token × LexState} {t : Token}
    (h : Result { st with input := l } r t rest) : Result st r t rest :=
  ⟨h.token, h.input, h.lineno, h.messages⟩

theorem Result.error (st : LexState) (s : String) (t : Token) (rest : List Int) :
    Result st (t, { yyerror st s with input := rest }) t rest :=
  ⟨rfl, rfl, rfl, [(st.lineno, ascii s)], rfl, by simp⟩

theorem lex_ungetc_getch (heof : EOF ∉ input) :
    lex_ungetc (listGetch input).1 (listGetch input).2 = input := by
  cases input with
  | nil => rfl
  | cons c input =>
    refine if_neg fun hc => heof ?_
    rw [← hc]
    exact List.mem_cons_self

/-! ## The tokens -/

theorem scanDigits_spec (env : LexEnv) (input : List Int) (n : Int) (text : Str) :
    ∃ w rest n' text', input = w ++ rest ∧ (∀ c ∈ w, my_isdigit env c = true) ∧
      my_isdigit env (listGetch rest).1 = false ∧
      ∀ rest', my_isdigit env (listGetch rest').1 = false →
      scanDigits env (w ++ rest') n text = (n', text', rest') := by
  have hstop : ∀ n text rest, my_isdigit env (listGetch rest).1 = false →
      scanDigits env rest n text = (n, text, rest) := by
    intro n text rest hrest
    cases rest with
    | nil => rfl
    | cons c rest => exact if_neg (by simpa [listGetch] using hrest)
  induction input generalizing n text with
  | nil => exact ⟨[], [], n, text, rfl, by simp, rfl, fun rest' h => hstop n text rest' h⟩
  | cons c input ih =>
    by_cases hc : my_isdigit env c = true
    · obtain ⟨w, rest, n', text', rfl, hw, hrest, hscan⟩ :=
        ih (num64 (n * 10 + my_digitval env c)) (addToken text c)
      refine ⟨c :: w, rest, n', text', rfl, List.forall_mem_cons.mpr ⟨hc, hw⟩, hrest,
        fun rest' h => ?_⟩
      rw [List.cons_append, scanDigits, if_pos hc, hscan rest' h]
    · exact ⟨[], c :: input, n, text, rfl, by simp, by simpa [listGetch] using hc,
        fun rest' h => hstop n text rest' h⟩

theorem scanId_spec (env : LexEnv) (input : List Int) (text : Str) :
    ∃ w rest text', input = w ++ rest ∧ (∀ c ∈ w, my_is_xid_cont env c = true ∨ c = 0x5f) ∧
      ¬ (my_is_xid_cont env (listGetch rest).1 = true ∨ (listGetch rest).1 = 0x5f) ∧
      ∀ rest', ¬ (my_is_xid_cont env (listGetch rest').1 = true ∨ (listGetch rest').1 = 0x5f) →
        scanId env (w ++ rest') text = (text', rest') := by
  have hstop : ∀ text rest, ¬ (my_is_xid_cont env (listGetch rest).1 = true ∨
    (listGetch rest).1 = 0x5f) →
      scanId env rest text = (text, rest) := by
    intro text rest hrest
    cases rest with
    | nil => rfl
    | cons c rest => exact if_neg hrest
  induction input generalizing text with
  | nil =>
    have heof : ¬ (my_is_xid_cont env EOF = true ∨ EOF = 0x5f) :=
      not_or.mpr ⟨Bool.false_ne_true, by decide⟩
    exact ⟨[], [], text, rfl, by simp, heof, fun rest' h => hstop text rest' h⟩
  | cons c input ih =>
    by_cases hc : my_is_xid_cont env c = true ∨ c = 0x5f
    · obtain ⟨w, rest, text', rfl, hw, hrest, hscan⟩ := ih (addToken text c)
      refine ⟨c :: w, rest, text', rfl, List.forall_mem_cons.mpr ⟨hc, hw⟩, hrest, fun rest' h => ?_⟩
      rw [List.cons_append, scanId, if_pos hc, hscan rest' h]
    · exact ⟨[], c :: input, text, rfl, by simp, hc, fun rest' h => hstop text rest' h⟩

/-- A character that a token may go on with, which is looked for by itself. -/
def Sought (expect : Int) : Prop := expect ≠ EOF ∧ expect ≠ 0x2f ∧ expect ≠ 0x20 ∧ expect ≠ 0x0a

instance (expect : Int) : Decidable (Sought expect) := inferInstanceAs (Decidable (_ ∧ _))

theorem Looks.sought {l l' : List Int} (h : Looks l l') {expect : Int} (he : Sought expect) :
    (listGetch l).1 = expect ↔ (listGetch l').1 = expect :=
  h.test (p := (· = expect)) (iff_of_false he.2.1.symm he.2.2.1.symm)

/-- A character that is found takes the place in front. -/
theorem cons_of_getch {expect : Int} (he : Sought expect) (h : (listGetch input).1 = expect) :
    input = expect :: (listGetch input).2 := by
  cases input with
  | nil => exact absurd h.symm he.1
  | cons c input =>
    obtain rfl : c = expect := h
    rfl

theorem follow_yes (expect : Int) (ifyes ifno : Token) (input : List Int) :
    follow expect ifyes ifno (expect :: input) = (ifyes, input) := if_pos rfl

theorem follow_no {expect : Int} (ifyes ifno : Token) (heof : EOF ∉ input)
    (h : (listGetch input).1 ≠ expect) :
    follow expect ifyes ifno input = (ifno, input) := by
  rw [follow]
  simp only [h, if_false, lex_ungetc_getch heof]

/-- A token of one character or of two. -/
theorem takesSome_follow {f : LexState → Token × LexState} (expect : Int) (ifyes ifno : Token)
    (he : Sought expect)
    (hf : ∀ st, f st = ((follow expect ifyes ifno st.input).1,
      { st with input := (follow expect ifyes ifno st.input).2 }))
    (input : List Int) : TakesSome f input := by
  by_cases hhead : (listGetch input).1 = expect
  · refine ⟨ifyes, [expect], (listGetch input).2, cons_of_getch he hhead,
      by simpa using he.2.2.2.symm, ?_⟩
    intro st rest' _ _ hst
    rw [hf, hst, List.singleton_append, follow_yes]
    exact .same st ifyes rest'
  · refine ⟨ifno, [], input, rfl, by simp, fun st rest' heof' hlooks hst => ?_⟩
    rw [hf, hst, List.nil_append, follow_no ifyes ifno heof' fun h =>
      hhead ((hlooks.sought he).mpr h)]
    exact .same st ifno rest'

/-- A token of one character. -/
theorem takesSome_char {f : LexState → Token × LexState} {t : Token} (hf : ∀ st, f st = (t, st))
    (input : List Int) :
    TakesSome f input := by
  refine ⟨t, [], input, rfl, by simp, fun st rest' _ _ hst => ?_⟩
  rw [hf]
  exact ⟨rfl, hst, rfl, [], (List.append_nil _).symm, by simp⟩

theorem lexOperator_equals (input : List Int) : TakesSome (lexOperator · 0x3d) input := by
  have heq : Sought 0x3d := by decide
  have harrow : Sought 0x3e := by decide
  have hop : ∀ st, lexOperator st 0x3d =
      if (listGetch st.input).1 = 0x3d then (.tEQ, { st with input := (listGetch st.input).2 })
      else ((follow 0x3e .tARROW (.char 0x3d) st.input).1,
        { st with input := (follow 0x3e .tARROW (.char 0x3d) st.input).2 }) :=
    fun st => rfl
  by_cases hhead : (listGetch input).1 = 0x3d
  · refine ⟨.tEQ, [0x3d], (listGetch input).2, cons_of_getch heq hhead, by decide,
      fun st rest' _ _ hst => ?_⟩
    show Result st (lexOperator st 0x3d) _ rest'
    rw [hop, hst]
    exact .same st .tEQ rest'
  · by_cases hnext : (listGetch input).1 = 0x3e
    · refine ⟨.tARROW, [0x3e], (listGetch input).2, cons_of_getch harrow hnext, by decide,
        fun st rest' _ _ hst => ?_⟩
      show Result st (lexOperator st 0x3d) _ rest'
      rw [hop, hst]
      exact .same st .tARROW rest'
    · refine ⟨.char 0x3d, [], input, rfl, by simp, fun st rest' heof' hlooks hst => ?_⟩
      show Result st (lexOperator st 0x3d) _ rest'
      rw [hop, hst, List.nil_append, if_neg fun h => hhead ((hlooks.sought heq).mpr h),
        follow_no _ _ heof' fun h => hnext ((hlooks.sought harrow).mpr h)]
      exact .same st (.char 0x3d) rest'

theorem lexOperator_spec (c : Int) (input : List Int) : TakesSome (lexOperator · c) input := by
  by_cases h₁ : c = 0x3e
  · exact takesSome_follow 0x3d .tGE (.char c) (by decide)
      (fun st => by simp [lexOperator, h₁]) input
  by_cases h₂ : c = 0x3c
  · exact takesSome_follow 0x3d .tLE (.char c) (by decide)
      (fun st => by simp [lexOperator, h₂]) input
  by_cases h₃ : c = 0x3d
  · rw [h₃]
    exact lexOperator_equals input
  by_cases h₄ : c = 0x21
  · exact takesSome_follow 0x3d .tNE (.char c) (by decide)
      (fun st => by simp [lexOperator, h₄]) input
  by_cases h₅ : c = 0x7c
  · exact takesSome_follow 0x7c .tOR (.char c) (by decide)
      (fun st => by simp [lexOperator, h₅]) input
  by_cases h₆ : c = 0x26
  · exact takesSome_follow 0x26 .tAND (.char c) (by decide)
      (fun st => by simp [lexOperator, h₆]) input
  by_cases h₇ : c = 0x2e
  · exact takesSome_follow 0x2e .tTO (.char c) (by decide)
      (fun st => by simp [lexOperator, h₇]) input
  by_cases h₈ : c < 127
  · exact takesSome_char (t := .char c)
      (fun st => by simp [lexOperator, h₁, h₂, h₃, h₄, h₅, h₆, h₇, h₈]) input
  · exact takesSome_char (t := .tCHR c)
      (fun st => by simp [lexOperator, h₁, h₂, h₃, h₄, h₅, h₆, h₇, h₈]) input

/-! ## Words, object numbers and numbers -/

theorem KnowsAscii.digit_looks (h : KnowsAscii env) {l l' : List Int} (hl : Looks l l') :
    my_isdigit env (listGetch l).1 = my_isdigit env (listGetch l').1 := by
  have hslash : my_isdigit env 0x2f = false := h.isdigit (x := 0x2f) (by decide)
  have hspace : my_isdigit env 0x20 = false := h.isdigit (x := 0x20) (by decide)
  exact Bool.eq_iff_iff.mpr (hl.test (p := fun c => my_isdigit env c = true)
    (by rw [hslash, hspace]))

theorem KnowsAscii.word_looks (h : KnowsAscii env) {l l' : List Int} (hl : Looks l l') :
    my_is_xid_cont env (listGetch l).1 = true ∨ (listGetch l).1 = 0x5f ↔
      my_is_xid_cont env (listGetch l').1 = true ∨ (listGetch l').1 = 0x5f := by
  have hslash : my_is_xid_cont env 0x2f = false := h.xid_cont (x := 0x2f) (by decide)
  have hspace : my_is_xid_cont env 0x20 = false := h.xid_cont (x := 0x20) (by decide)
  exact hl.test (p := fun c => my_is_xid_cont env c = true ∨ c = 0x5f) (by simp [hslash, hspace])

theorem KnowsAscii.line_digit (h : KnowsAscii env) : my_isdigit env 0x0a = false :=
  h.isdigit (x := 0x0a) (by decide)

theorem lexWord_spec (h : KnowsAscii env) (c : Int) (input : List Int) :
    TakesSome (lexWord env · c) input := by
  obtain ⟨w, rest, buf, hsplit, hw, hstop, hscan⟩ := scanId_spec env input (addToken [] c)
  have hline : my_is_xid_cont env 0x0a = false := h.xid_cont (x := 0x0a) (by decide)
  have hnot : 0x0a ∉ w := fun hmem => by simpa [hline] using hw 0x0a hmem
  have hbuf : ∀ rest', Looks rest rest' → scanId env (w ++ rest') (addToken [] c) = (buf, rest') :=
    fun rest' hlooks =>
    hscan rest' fun hn => hstop ((h.word_looks hlooks).mpr hn)
  cases hfind : find_keyword buf with
  | none =>
    refine ⟨.tID buf, w, rest, hsplit, hnot, fun st rest' _ hlooks hst => ?_⟩
    simp only [lexWord, hst, hbuf rest' hlooks, hfind]
    exact .same st (.tID buf) rest'
  | some k =>
    obtain ⟨version, token⟩ := k
    by_cases hversion : version.num ≤ env.language_version.num
    · refine ⟨token, w, rest, hsplit, hnot, fun st rest' _ hlooks hst => ?_⟩
      simp only [lexWord, hst, hbuf rest' hlooks, hfind, if_pos hversion]
      exact .same st token rest'
    · refine ⟨.tID buf, w, rest, hsplit, hnot, fun st rest' _ hlooks hst => ?_⟩
      simp only [lexWord, hst, hbuf rest' hlooks, hfind, if_neg hversion]
      split
      · exact ⟨rfl, rfl, rfl, [], (List.append_nil _).symm, by simp⟩
      · exact ⟨rfl, rfl, rfl, _, rfl, by simp⟩

/-- What is behind the sign of an object number, if there is one. -/
def behindMinus (input : List Int) : List Int :=
  if (listGetch input).1 = 0x2d then (listGetch input).2 else input

theorem eof_getch (heof : EOF ∉ input) : EOF ∉ (listGetch input).2 := by
  cases input with
  | nil => exact heof
  | cons c input => exact fun h => heof (List.mem_cons_of_mem _ h)

theorem lexObject_eq (env : LexEnv) (st : LexState) (heof : EOF ∉ st.input) :
    lexObject env st =
      if my_isdigit env (listGetch (behindMinus st.input)).1 = true then
        (.tOBJECT (if (listGetch st.input).1 = 0x2d then
          num64 (-(scanDigits env (behindMinus st.input) 0 []).1)
          else (scanDigits env (behindMinus st.input) 0 []).1),
          { st with input := (scanDigits env (behindMinus st.input) 0 []).2.2 })
      else
        (.char 0, { yyerror st "Malformed object number" with input := behindMinus st.input }) := by
  have hrest := lex_ungetc_getch (eof_getch heof)
  have hall := lex_ungetc_getch heof
  by_cases hminus : (listGetch st.input).1 = 0x2d
  · have hbehind : behindMinus st.input = (listGetch st.input).2 := if_pos hminus
    simp only [lexObject, hbehind, if_pos hminus, hrest, ite_not, if_true]
  · have hbehind : behindMinus st.input = st.input := if_neg hminus
    simp only [lexObject, hbehind, if_neg hminus, hall, ite_not, Bool.false_eq_true, if_false]

theorem lexObject_signed (h : KnowsAscii env) {sign body : List Int} (heof : EOF ∉ body)
    (hsign : sign = [0x2d] ∨ sign = [] ∧ (listGetch body).1 ≠ 0x2d) :
    TakesSome (lexObject env) (sign ++ body) := by
  obtain ⟨w, rest, oid, text, hsplit, hw, hstop, hscan⟩ := scanDigits_spec env body 0 []
  have hnot : 0x0a ∉ sign ++ w := fun hmem => by
    rcases List.mem_append.mp hmem with hmem | hmem
    · rcases hsign with rfl | ⟨rfl, -⟩
      · simp at hmem
      · cases hmem
    · exact absurd (hw 0x0a hmem) (by simp [h.line_digit])
  have hinput : sign ++ body = (sign ++ w) ++ rest := by rw [List.append_assoc, ← hsplit]
  have hbody : ∀ rest', EOF ∉ rest' → Looks rest rest' → EOF ∉ sign ++ (w ++ rest') ∧
      behindMinus (sign ++ (w ++ rest')) = w ++ rest' ∧
      ((listGetch (sign ++ (w ++ rest'))).1 = 0x2d ↔ sign = [0x2d]) ∧
      my_isdigit env (listGetch (w ++ rest')).1 = my_isdigit env (listGetch body).1 ∧
      scanDigits env (w ++ rest') 0 [] = (oid, text, rest') := by
    intro rest' heof' hlooks
    have hlook : Looks body (w ++ rest') := hsplit ▸ hlooks.append w
    have hw' : EOF ∉ w ++ rest' := by
      rw [hsplit, List.mem_append, not_or] at heof
      rw [List.mem_append, not_or]
      exact ⟨heof.1, heof'⟩
    refine ⟨?_, ?_, ?_, (h.digit_looks hlook).symm, hscan rest' ((h.digit_looks hlooks) ▸ hstop)⟩
    · rcases hsign with rfl | ⟨rfl, -⟩
      · exact fun hmem => (List.mem_cons.mp hmem).elim (by decide) hw'
      · exact hw'
    · rcases hsign with rfl | ⟨rfl, hminus⟩
      · rfl
      · exact if_neg fun hn => hminus ((hlook.sought (by decide)).mpr hn)
    · rcases hsign with rfl | ⟨rfl, hminus⟩
      · exact iff_of_true rfl rfl
      · exact iff_of_false (fun hn => hminus ((hlook.sought (by decide)).mpr hn)) (by simp)
  by_cases hdigit : my_isdigit env (listGetch body).1 = true
  · refine ⟨.tOBJECT (if sign = [0x2d] then num64 (-oid) else oid), sign ++ w, rest, hinput, hnot,
      fun st rest' heof' hlooks hst => ?_⟩
    obtain ⟨hall, hbehind, hminus, hhead, hscan'⟩ := hbody rest' heof' hlooks
    rw [List.append_assoc] at hst
    rw [lexObject_eq env st (hst ▸ hall), hst, hbehind, hhead, if_pos hdigit, hscan']
    simp only [hminus]
    exact .same st _ rest'
  · refine ⟨.char 0, sign ++ w, rest, hinput, hnot, fun st rest' heof' hlooks hst => ?_⟩
    obtain ⟨hall, hbehind, hminus, hhead, hscan'⟩ := hbody rest' heof' hlooks
    have hw' : w = [] := by
      cases w with
      | nil => rfl
      | cons c w => exact absurd (hw c List.mem_cons_self) (by rw [hsplit] at hdigit; exact hdigit)
    rw [List.append_assoc] at hst
    rw [lexObject_eq env st (hst ▸ hall), hst, hbehind, hhead, if_neg hdigit, hw']
    exact .error st _ _ rest'

theorem lexObject_spec (h : KnowsAscii env) (heof : EOF ∉ input) :
    TakesSome (lexObject env) input := by
  by_cases hminus : (listGetch input).1 = 0x2d
  · rw [cons_of_getch (by decide) hminus]
    exact lexObject_signed h (eof_getch heof) (.inl rfl)
  · exact lexObject_signed h heof (.inr ⟨rfl, hminus⟩)

/-- What is behind the sign of an exponent, if there is one. -/
def behindSign (input : List Int) : List Int :=
  if (listGetch input).1 = 0x2b ∨ (listGetch input).1 = 0x2d then (listGetch input).2 else input

/-- The text of the sign of an exponent. -/
def signText (input : List Int) (text : Str) : Str :=
  if (listGetch input).1 = 0x2b ∨ (listGetch input).1 = 0x2d then
    addToken text (listGetch input).1 else text

theorem lexExponent_eq (env : LexEnv) (text : Str) (heof : EOF ∉ input) :
    lexExponent env input text =
      if my_isdigit env (listGetch (behindSign input)).1 = true then
        .ok ((scanDigits env (behindSign input) 0 (signText input text)).2.1,
          (scanDigits env (behindSign input) 0 (signText input text)).2.2)
      else .error (behindSign input) := by
  have hrest := lex_ungetc_getch (eof_getch heof)
  have hall := lex_ungetc_getch heof
  by_cases hsign : (listGetch input).1 = 0x2b ∨ (listGetch input).1 = 0x2d
  · have hbehind : behindSign input = (listGetch input).2 := if_pos hsign
    have htext : signText input text = addToken text (listGetch input).1 := if_pos hsign
    simp only [lexExponent, hbehind, htext, if_pos hsign, hrest, ite_not]
  · have hbehind : behindSign input = input := if_neg hsign
    have htext : signText input text = text := if_neg hsign
    simp only [lexExponent, hbehind, htext, if_neg hsign, hall, ite_not]

/-- What reading an exponent comes to. -/
def exponentResult (o : Option Str) (rest : List Int) : Except (List Int) (Str × List Int) :=
  match o with
  | some text => .ok (text, rest)
  | none => .error rest

theorem lexExponent_spec (h : KnowsAscii env) (heof : EOF ∉ input) (text : Str) :
    ∃ o w rest, input = w ++ rest ∧ 0x0a ∉ w ∧ ∀ rest', EOF ∉ rest' → Looks rest rest' →
      lexExponent env (w ++ rest') text = exponentResult o rest' := by
  have hplus : Sought 0x2b := by decide
  have hminus : Sought 0x2d := by decide
  obtain ⟨sign, body, hsign, hline, hsigned⟩ : ∃ sign body, input = sign ++ body ∧ 0x0a ∉ sign ∧
      ∀ body', Looks body body' → behindSign (sign ++ body') = body' ∧
      signText (sign ++ body') text = signText input text := by
    by_cases hs : (listGetch input).1 = 0x2b ∨ (listGetch input).1 = 0x2d
    · have hcons : input = (listGetch input).1 :: (listGetch input).2 := by
        rcases hs with hs | hs
        · rw [hs]
          exact cons_of_getch hplus hs
        · rw [hs]
          exact cons_of_getch hminus hs
      refine ⟨[(listGetch input).1], (listGetch input).2, hcons, ?_, fun body' _ => ⟨if_pos hs, ?_⟩⟩
      · rcases hs with hs | hs <;> simp [hs]
      · exact (if_pos hs).trans (if_pos hs).symm
    · refine ⟨[], input, rfl, by simp, fun body' hlooks => ?_⟩
      have hs' : ¬ ((listGetch body').1 = 0x2b ∨ (listGetch body').1 = 0x2d) := fun hn =>
        hs (hn.imp (hlooks.sought hplus).mpr (hlooks.sought hminus).mpr)
      exact ⟨if_neg hs', (if_neg hs').trans (if_neg hs).symm⟩
  obtain ⟨w, rest, n, text', hsplit, hw, hstop, hscan⟩ :=
    scanDigits_spec env body 0 (signText input text)
  have hinput : input = (sign ++ w) ++ rest := by rw [List.append_assoc, ← hsplit, ← hsign]
  have hnot : 0x0a ∉ sign ++ w := fun hmem => by
    rcases List.mem_append.mp hmem with hmem | hmem
    · exact hline hmem
    · exact absurd (hw 0x0a hmem) (by simp [h.line_digit])
  have hstep : ∀ rest', EOF ∉ rest' → Looks rest rest' →
      lexExponent env ((sign ++ w) ++ rest') text =
      if my_isdigit env (listGetch body).1 = true then .ok (text', rest')
      else .error (w ++ rest') := by
    intro rest' heof' hlooks
    have hlook : Looks body (w ++ rest') := hsplit ▸ hlooks.append w
    obtain ⟨hbehind, htext⟩ := hsigned _ hlook
    have hall : EOF ∉ sign ++ (w ++ rest') := by
      rw [hinput, List.mem_append, not_or] at heof
      rw [← List.append_assoc, List.mem_append, not_or]
      exact ⟨heof.1, heof'⟩
    rw [List.append_assoc, lexExponent_eq env text hall, hbehind, htext,
      hscan rest' ((h.digit_looks hlooks) ▸ hstop),
      ← h.digit_looks hlook]
  by_cases hdigit : my_isdigit env (listGetch body).1 = true
  · exact ⟨some text', sign ++ w, rest, hinput, hnot, fun rest' heof' hlooks =>
      (hstep rest' heof' hlooks).trans (if_pos hdigit)⟩
  · refine ⟨none, sign ++ w, rest, hinput, hnot, fun rest' heof' hlooks =>
      (hstep rest' heof' hlooks).trans ?_⟩
    have hw' : w = [] := by
      cases w with
      | nil => rfl
      | cons c w => exact absurd (hw c List.mem_cons_self) (by rw [hsplit] at hdigit; exact hdigit)
    rw [if_neg hdigit, hw']
    rfl

/-- Whether the language has floating-point numbers. -/
def hasFloat (env : LexEnv) : Prop := env.language_version.num ≥ DBVersion.DBV_Float.num

instance (env : LexEnv) : Decidable (hasFloat env) := inferInstanceAs (Decidable (_ ≥ _))

/-- The part of a number behind its first digits: whether it is a float so far, its text and what
follows, or `none` where a dot is no part of a number. -/
def fraction (env : LexEnv) (text : Str) (rest : List Int) : Option (Bool × Str × List Int) :=
  if hasFloat env ∧ (listGetch rest).1 = 0x2e then
    if my_isdigit env (listGetch (listGetch rest).2).1 then
      some (true, (scanDigits env (listGetch rest).2 0 (addToken text (listGetch rest).1)).2.1,
        (scanDigits env (listGetch rest).2 0 (addToken text (listGetch rest).1)).2.2)
    else if text = [] then none
    else if (listGetch (listGetch rest).2).1 ≠ 0x2e then
      some (true, addToken text (listGetch rest).1, (listGetch rest).2)
    else some (false, text, rest)
  else some (false, text, rest)

/-- The token of a number, once its text is known. -/
def numberToken (env : LexEnv) (st : LexState) (n : Int) (isFloat : Bool) (text : Str)
    (rest : List Int) : Token × LexState :=
  if isFloat then
    match env.strtod text with
    | some d => (.tFLOAT d, { st with input := rest })
    | none => (.tFLOAT 0, { yyerror st "Floating-point literal out of range" with input := rest })
  else (.tINTEGER n, { st with input := rest })

/-- The end of a number: its exponent, if it has one. -/
def exponent (env : LexEnv) (st : LexState) (n : Int) (isFloat : Bool) (text : Str)
    (rest : List Int) : Token × LexState :=
  if hasFloat env ∧ ((listGetch rest).1 = 0x65 ∨ (listGetch rest).1 = 0x45) then
    match lexExponent env (listGetch rest).2 (addToken text (listGetch rest).1) with
    | .error rest => (.char 0, { yyerror st "Malformed floating-point literal" with input := rest })
    | .ok (text, rest) => numberToken env st n true text rest
  else numberToken env st n isFloat text rest

theorem lexNumber_eq (env : LexEnv) (st : LexState) (input : List Int) :
    lexNumber env st input =
      match fraction env (scanDigits env input 0 []).2.1 (scanDigits env input 0 []).2.2 with
      | none => lexOperator { st with input := (listGetch (scanDigits env input 0 []).2.2).2 } 0x2e
      | some (isFloat, text, rest) =>
        exponent env st (scanDigits env input 0 []).1 isFloat text rest := by
  rfl

theorem dot_sought : Sought 0x2e := by decide

/-- A dot behind a dot is seen. -/
theorem Looks.dot {l l' : List Int} (h : Looks (0x2e :: l) (0x2e :: l'))
    (hl : (listGetch l).1 = 0x2e) : (listGetch l').1 = 0x2e := by
  cases h with
  | refl => exact hl
  | head h =>
    have hhead := h rfl (by rw [cons_of_getch dot_sought hl]; rfl)
    cases l' with
    | nil => cases hhead
    | cons c l' => exact Option.some.inj hhead

/-- A dot is no part of a number only where no digit is next to it; otherwise something is taken,
perhaps nothing. -/
theorem fraction_spec (h : KnowsAscii env) (input : List Int) (text : Str) :
    (∃ after, input = 0x2e :: after ∧ ∀ after', Looks after after' →
      fraction env text (0x2e :: after') = none) ∨
      ∃ isFloat text' w rest, input = w ++ rest ∧ 0x0a ∉ w ∧
        (text = [] → hasFloat env ∧ (listGetch input).1 = 0x2e → w ≠ []) ∧
        ∀ rest', EOF ∉ rest' → Looks rest rest' → fraction env text (w ++ rest') =
          some (isFloat, text', rest') := by
  by_cases hdot : hasFloat env ∧ (listGetch input).1 = 0x2e
  · obtain ⟨hfloat, hdot⟩ := hdot
    obtain ⟨after, hafter⟩ : ∃ after, input = 0x2e :: after := ⟨_, cons_of_getch dot_sought hdot⟩
    -- behind a dot the next character tells a number from the range sign
    have hstep : ∀ after', fraction env text (0x2e :: after') =
        if my_isdigit env (listGetch after').1 then
          some (true, (scanDigits env after' 0 (addToken text 0x2e)).2.1,
            (scanDigits env after' 0 (addToken text 0x2e)).2.2)
        else if text = [] then none
        else if (listGetch after').1 ≠ 0x2e then some (true, addToken text 0x2e, after')
        else some (false, text, 0x2e :: after') := fun after' => if_pos ⟨hfloat, rfl⟩
    by_cases hdigit : my_isdigit env (listGetch after).1 = true
    · obtain ⟨w, rest, n, text', hsplit, hw, hstop, hscan⟩ :=
        scanDigits_spec env after 0 (addToken text 0x2e)
      have hnot : 0x0a ∉ 0x2e :: w := fun hmem => by
        rcases List.mem_cons.mp hmem with hmem | hmem
        · exact absurd hmem (by decide)
        · exact absurd (hw 0x0a hmem) (by simp [h.line_digit])
      refine .inr ⟨true, text', 0x2e :: w, rest, by rw [hafter, hsplit, List.cons_append], hnot,
        by simp, fun rest' _ hlooks => ?_⟩
      have hhead : my_isdigit env (listGetch (w ++ rest')).1 = true := by
        rw [← h.digit_looks (hlooks.append w), ← hsplit]
        exact hdigit
      rw [List.cons_append, hstep, if_pos hhead, hscan rest' ((h.digit_looks hlooks) ▸ hstop)]
    · have hnodigit : ∀ {after'}, Looks after after' →
          ¬ my_isdigit env (listGetch after').1 = true := fun hlooks => by
        rwa [← h.digit_looks hlooks]
      by_cases htext : text = []
      · exact .inl ⟨after, hafter, fun after' hlooks => by
          rw [hstep, if_neg (hnodigit hlooks), if_pos htext]⟩
      · by_cases hnext : (listGetch after).1 = 0x2e
        · refine .inr ⟨false, text, [], input, rfl, by simp, fun hn => absurd hn htext,
            fun rest' _ hlooks => ?_⟩
          obtain ⟨after', hafter'⟩ : ∃ after', rest' = 0x2e :: after' :=
            ⟨_, cons_of_getch dot_sought ((hlooks.sought dot_sought).mp hdot)⟩
          rw [hafter, hafter'] at hlooks
          have hnext' : (listGetch after').1 = 0x2e := hlooks.dot hnext
          have hnodigit' : ¬ my_isdigit env (listGetch after').1 = true := by
            rw [hnext', ← hnext]
            exact hdigit
          rw [List.nil_append, hafter', hstep, if_neg hnodigit', if_neg htext,
            if_neg (not_not.mpr hnext')]
        · refine .inr ⟨true, addToken text 0x2e, [0x2e], after, hafter, by decide, by simp,
            fun rest' _ hlooks => ?_⟩
          rw [List.singleton_append, hstep, if_neg (hnodigit hlooks), if_neg htext,
            if_pos fun hn => hnext ((hlooks.sought dot_sought).mpr hn)]
  · refine .inr ⟨false, text, [], input, rfl, by simp, fun _ hn => absurd hn hdot,
      fun rest' _ hlooks => ?_⟩
    exact if_neg fun hn => hdot (hn.imp_right (hlooks.sought dot_sought).mpr)

theorem numberToken_spec (env : LexEnv) (n : Int) (isFloat : Bool) (text : Str) :
    ∃ t, ∀ st rest, Result st (numberToken env st n isFloat text rest) t rest := by
  cases isFloat with
  | false => exact ⟨.tINTEGER n, fun st rest => .same st _ rest⟩
  | true =>
    cases hreal : env.strtod text with
    | none =>
      exact ⟨.tFLOAT 0,
        fun st rest => by simp only [numberToken, hreal, if_true]; exact .error st _ _ rest⟩
    | some d =>
      exact ⟨.tFLOAT d,
        fun st rest => by simp only [numberToken, hreal, if_true]; exact .same st _ rest⟩

theorem exponent_spec (h : KnowsAscii env) (heof : EOF ∉ input) (n : Int)
    (isFloat : Bool) (text : Str) :
    ∃ t w rest, input = w ++ rest ∧ 0x0a ∉ w ∧ ∀ st rest', EOF ∉ rest' → Looks rest rest' →
      Result st (exponent env st n isFloat text (w ++ rest')) t rest' := by
  have hlow : Sought 0x65 := by decide
  have hup : Sought 0x45 := by decide
  by_cases he : hasFloat env ∧ ((listGetch input).1 = 0x65 ∨ (listGetch input).1 = 0x45)
  · obtain ⟨c, body, hcons, hline, hc⟩ : ∃ c body, input = c :: body ∧ c ≠ 0x0a ∧
        (c = 0x65 ∨ c = 0x45) := by
      rcases he.2 with hc | hc
      · exact ⟨_, _, cons_of_getch hlow hc, by decide, .inl rfl⟩
      · exact ⟨_, _, cons_of_getch hup hc, by decide, .inr rfl⟩
    have hbody : EOF ∉ body := fun hm => heof (hcons ▸ List.mem_cons_of_mem _ hm)
    obtain ⟨o, w, rest, hsplit, hnot, hexp⟩ := lexExponent_spec h hbody (addToken text c)
    have hstep : ∀ st rest', EOF ∉ rest' → Looks rest rest' →
        exponent env st n isFloat text (c :: w ++ rest') =
        match exponentResult o rest' with
        | .error rest =>
          (.char 0, { yyerror st "Malformed floating-point literal" with input := rest })
        | .ok (text, rest) => numberToken env st n true text rest := by
      intro st rest' heof' hlooks
      rw [exponent, List.cons_append, if_pos ⟨he.1, hc⟩, ← hexp rest' heof' hlooks]
      rfl
    have hline' : 0x0a ∉ c :: w := by
      rw [List.mem_cons, not_or]
      exact ⟨hline.symm, hnot⟩
    have hinput : input = c :: w ++ rest := by rw [hcons, hsplit, List.cons_append]
    cases o with
    | none =>
      refine ⟨.char 0, c :: w, rest, hinput, hline', fun st rest' heof' hlooks => ?_⟩
      rw [hstep st rest' heof' hlooks]
      exact .error st _ _ rest'
    | some text' =>
      obtain ⟨t, ht⟩ := numberToken_spec env n true text'
      refine ⟨t, c :: w, rest, hinput, hline', fun st rest' heof' hlooks => ?_⟩
      rw [hstep st rest' heof' hlooks]
      exact ht st rest'
  · obtain ⟨t, ht⟩ := numberToken_spec env n isFloat text
    refine ⟨t, [], input, rfl, by simp, fun st rest' _ hlooks => ?_⟩
    have he' : ¬ (hasFloat env ∧ ((listGetch rest').1 = 0x65 ∨ (listGetch rest').1 = 0x45)) :=
      fun hn =>
      he (hn.imp_right fun h => h.imp (hlooks.sought hlow).mpr (hlooks.sought hup).mpr)
    rw [exponent, List.nil_append, if_neg he']
    exact ht st rest'

/-- A number, or a dot in a language with floating-point numbers. -/
theorem lexNumber_spec (h : KnowsAscii env) {c : Int}
    (hc : my_isdigit env c = true ∨ c = 0x2e ∧ hasFloat env)
    (heof : EOF ∉ c :: input) : TakesSome (fun st => lexNumber env st (c :: st.input)) input := by
  obtain ⟨w₀, rest₀, n, text, hsplit₀, hw₀, hstop₀, hscan₀⟩ := scanDigits_spec env (c :: input) 0 []
  have hline₀ : 0x0a ∉ w₀ := fun hmem => absurd (hw₀ 0x0a hmem) (by simp [h.line_digit])
  have heof₀ : EOF ∉ rest₀ := fun hm => heof (hsplit₀ ▸ List.mem_append_right _ hm)
  have hnumber : ∀ st rest', Looks rest₀ rest' → lexNumber env st (w₀ ++ rest') =
      match fraction env text rest' with
      | none => lexOperator { st with input := (listGetch rest').2 } 0x2e
      | some (isFloat, text, rest) => exponent env st n isFloat text rest := by
    intro st rest' hlooks
    rw [lexNumber_eq, hscan₀ rest' ((h.digit_looks hlooks) ▸ hstop₀)]
  -- the first character is taken in any case
  have hfirst : w₀ = [] → text = [] ∧ hasFloat env ∧ rest₀ = 0x2e :: input := by
    rintro rfl
    have hrest : rest₀ = c :: input := hsplit₀.symm
    rcases hc with hc | ⟨rfl, hfloat⟩
    · rw [hrest] at hstop₀
      exact absurd hc (by simpa [listGetch] using hstop₀)
    · have hnone := hscan₀ rest₀ hstop₀
      have hdot : my_isdigit env 0x2e = false := h.isdigit (x := 0x2e) (by decide)
      rw [hrest, List.nil_append, scanDigits, if_neg (by simp [hdot])] at hnone
      exact ⟨(congrArg (·.2.1) hnone).symm, hfloat, hrest⟩
  have hwhole : ∀ (t : Token) (w rest : List Int), c :: input = w ++ rest → w ≠ [] → 0x0a ∉ w →
      (∀ st rest', EOF ∉ rest' → Looks rest rest' →
        Result st (lexNumber env st (w ++ rest')) t rest') →
      TakesSome (fun st => lexNumber env st (c :: st.input)) input := by
    intro t w rest hsplit hne hline hresult
    cases w with
    | nil => exact absurd rfl hne
    | cons d w =>
      obtain ⟨rfl, hinput⟩ := List.cons.inj hsplit
      refine ⟨t, w, rest, hinput, fun hm => hline (List.mem_cons_of_mem _ hm),
        fun st rest' heof' hlooks hst => ?_⟩
      show Result st (lexNumber env st (c :: st.input)) t rest'
      rw [hst]
      exact hresult st rest' heof' hlooks
  rcases fraction_spec h rest₀ text with ⟨after, hafter, hnone⟩ | ⟨isFloat, text', w₁, rest₁,
    hsplit₁, hline₁, hne₁, hsome⟩
  · obtain ⟨t, w₁, rest₁, hsplit₁, hline₁, htakes⟩ := lexOperator_spec 0x2e after
    refine hwhole t (w₀ ++ 0x2e :: w₁) rest₁ ?_ (by simp) ?_ fun st rest' heof' hlooks => ?_
    · rw [hsplit₀, hafter, hsplit₁, List.append_assoc, List.cons_append]
    · rw [List.mem_append, List.mem_cons, not_or, not_or]
      exact ⟨hline₀, by decide, hline₁⟩
    · have hlook : Looks after (w₁ ++ rest') := hsplit₁ ▸ hlooks.append w₁
      have hdot : Looks rest₀ (0x2e :: (w₁ ++ rest')) := by
        rw [hafter]
        exact hlook.append [0x2e]
      rw [List.append_assoc, List.cons_append, hnumber st _ hdot, hnone _ hlook]
      exact .of_input (htakes _ rest' heof' hlooks rfl)
  · have heof₁ : EOF ∉ rest₁ := fun hm => heof₀ (hsplit₁ ▸ List.mem_append_right _ hm)
    obtain ⟨t, w₂, rest₂, hsplit₂, hline₂, hresult⟩ := exponent_spec h heof₁ n isFloat text'
    refine hwhole t (w₀ ++ (w₁ ++ w₂)) rest₂ ?_ ?_ ?_ fun st rest' heof' hlooks => ?_
    · rw [hsplit₀, hsplit₁, hsplit₂]
      simp only [List.append_assoc]
    · intro hnil
      obtain ⟨hw₀, hw₁⟩ := List.append_eq_nil_iff.mp hnil
      obtain ⟨htext, hfloat, hrest⟩ := hfirst hw₀
      exact hne₁ htext ⟨hfloat, by rw [hrest]; rfl⟩ (List.append_eq_nil_iff.mp hw₁).1
    · rw [List.mem_append, List.mem_append, not_or, not_or]
      exact ⟨hline₀, hline₁, hline₂⟩
    · have hlook₁ : Looks rest₁ (w₂ ++ rest') := hsplit₂ ▸ hlooks.append w₂
      have hlook₀ : Looks rest₀ (w₁ ++ (w₂ ++ rest')) := hsplit₁ ▸ hlook₁.append w₁
      have heof₂ : EOF ∉ w₂ ++ rest' := by
        rw [hsplit₂, List.mem_append, not_or] at heof₁
        rw [List.mem_append, not_or]
        exact ⟨heof₁.1, heof'⟩
      rw [List.append_assoc, List.append_assoc, hnumber st _ hlook₀, hsome _ heof₂ hlook₁]
      exact hresult st rest' heof' hlooks

/-! ## Strings, and any token -/

theorem Looks.nil {l : List Int} (h : Looks [] l) : l = [] := by
  cases h
  rfl

theorem scanString_other (hquote : c ≠ 0x22) (hend : ¬ (c = 0x0a ∨ c = EOF)) (hslash : c ≠ 0x5c)
    (input : List Int) (text : Str) :
    scanString (c :: input) text = scanString input (addToken text c) := by
  cases input <;> simp [scanString, hquote, hend, hslash]

theorem scanString_spec (heof : EOF ∉ input) (text : Str) :
    ∃ text' missing w rest, input = w ++ rest ∧ ∀ rest', Looks rest rest' →
      scanString (w ++ rest') text = (text', missing, rest') := by
  fun_induction scanString input text with
  | case1 text => exact ⟨text, true, [], [], rfl, fun rest' h => by rw [h.nil]; rfl⟩
  | case2 input text =>
    exact ⟨text, false, [0x22], input, rfl, fun rest' _ => by cases rest' <;> rfl⟩
  | case3 c input text hquote hend =>
    have hc : c = 0x0a := hend.resolve_right fun h => heof (by rw [h]; exact List.mem_cons_self)
    rw [hc]
    exact ⟨text, true, [0x0a], input, rfl, fun rest' _ => by cases rest' <;> rfl⟩
  | case4 text => exact ⟨text, true, [0x5c], [], rfl, fun rest' h => by rw [h.nil]; rfl⟩
  | case5 text c input _ _ ih =>
    have htail : EOF ∉ input := fun h => heof (List.mem_cons_of_mem _ (List.mem_cons_of_mem _ h))
    obtain ⟨text', missing, w, rest, rfl, hscan⟩ := ih htail
    exact ⟨text', missing, 0x5c :: c :: w, rest, rfl, fun rest' h => hscan rest' h⟩
  | case6 c input text hquote hend hslash ih =>
    obtain ⟨text', missing, w, rest, rfl, hscan⟩ := ih fun h => heof (List.mem_cons_of_mem _ h)
    refine ⟨text', missing, c :: w, rest, rfl, fun rest' h => ?_⟩
    rw [List.cons_append, scanString_other hquote hend hslash, hscan rest' h]

/-- What a token takes, behind its first character. Only a string takes a line end. -/
def TakesToken (f : LexState → Token × LexState) (c : Int) (input : List Int) (t : Token)
    (w rest : List Int) : Prop :=
  input = w ++ rest ∧ (0x0a ∈ w → c = 0x22) ∧ Takes f t w rest

theorem TakesSome.token {f g : LexState → Token × LexState} (h : TakesSome f input)
    (hfg : ∀ st, g st = f st) (c : Int) :
    ∃ t w rest, TakesToken g c input t w rest := by
  obtain ⟨t, w, rest, hsplit, hline, htakes⟩ := h
  refine ⟨t, w, rest, hsplit, fun hm => absurd hm hline, fun st rest' heof' hlooks hst => ?_⟩
  rw [hfg]
  exact htakes st rest' heof' hlooks hst

/-- The token that begins with a character which is no space: a slash that begins no comment, or any
other. -/
def lexPiece (env : LexEnv) (c : Int) (st : LexState) : Token × LexState :=
  if c = 0x2f then (.char 0x2f, st) else lexToken env st c

theorem lexPiece_spec (h : KnowsAscii env) (heof : EOF ∉ c :: input) :
    ∃ t w rest, TakesToken (lexPiece env c) c input t w rest := by
  have htail : EOF ∉ input := fun hm => heof (List.mem_cons_of_mem _ hm)
  by_cases hslash : c = 0x2f
  · exact (takesSome_char (f := fun st => (.char 0x2f, st)) (fun st => rfl) input).token
      (fun st => if_pos hslash) c
  have hpiece : ∀ st, lexPiece env c st = lexToken env st c := fun st => if_neg hslash
  by_cases hobject : c = 0x23
  · exact (lexObject_spec h htail).token (fun st => (hpiece st).trans (if_pos hobject)) c
  by_cases hnumber : my_isdigit env c = true ∨ (c = 0x2e ∧ hasFloat env)
  · exact (lexNumber_spec h hnumber heof).token
      (fun st => by rw [hpiece, lexToken, if_neg hobject]; exact if_pos hnumber) c
  by_cases hword : my_is_xid_start env c = true ∨ c = 0x5f
  · refine (lexWord_spec h c input).token (fun st => ?_) c
    rw [hpiece, lexToken, if_neg hobject]
    exact (if_neg hnumber).trans (if_pos hword)
  by_cases hquote : c = 0x22
  · have hstring : ∀ st, lexPiece env c st = (.tSTRING (scanString st.input []).1,
        { (if (scanString st.input []).2.1 then yyerror st "Missing quote"
            else st) with input := (scanString st.input []).2.2 }) := by
      intro st
      rw [hpiece, lexToken, if_neg hobject]
      exact (if_neg hnumber).trans ((if_neg hword).trans (if_pos hquote))
    obtain ⟨text, missing, w, rest, hsplit, hscan⟩ := scanString_spec htail []
    refine ⟨.tSTRING text, w, rest, hsplit, fun _ => hquote, fun st rest' _ hlooks hst => ?_⟩
    rw [hstring, hst, hscan rest' hlooks]
    cases missing with
    | true => exact .error st _ _ rest'
    | false => exact .same st _ rest'
  · refine (lexOperator_spec c input).token (fun st => ?_) c
    rw [hpiece, lexToken, if_neg hobject]
    exact (if_neg hnumber).trans ((if_neg hword).trans (if_neg hquote))

/-! ## Pieces of a program -/

/-- The pieces of a program: what is left of it is space, or begins with a comment or with a token,
behind space. -/
inductive Piece where
  | finish
  | comment (spaces after : List Int)
  | token (spaces : List Int) (c : Int) (rest : List Int)
deriving DecidableEq, Repr

/-- The first piece. -/
def piece (env : LexEnv) (input : List Int) : Piece :=
  match input.dropWhile (my_isspace env) with
  | [] => .finish
  | c :: rest =>
    if c = 0x2f ∧ (listGetch rest).1 = 0x2a then .comment (input.takeWhile (my_isspace env))
      (listGetch rest).2
    else .token (input.takeWhile (my_isspace env)) c rest

/-- The line ends in a text. -/
def lines (l : List Int) : Nat := l.count 0x0a

/-- The state in front of the first piece, where it is behind some space. -/
def LexState.at (st : LexState) (spaces rest : List Int) : LexState :=
  { st with input := rest, lineno := st.lineno + lines spaces }

theorem skipSpace_eq (h : KnowsAscii env) (heof : EOF ∉ input) (lineno : Nat) :
    skipSpace env input lineno =
      ((listGetch (input.dropWhile (my_isspace env))).1,
        (listGetch (input.dropWhile (my_isspace env))).2,
        lineno + lines (input.takeWhile (my_isspace env))) := by
  have hline : my_isspace env 0x0a = true := h.isspace (x := 0x0a) (by decide)
  induction input generalizing lineno with
  | nil => rfl
  | cons c input ih =>
    rw [List.mem_cons, not_or] at heof
    by_cases hc : my_isspace env c = true
    · rw [skipSpace, if_pos ⟨Ne.symm heof.1, hc⟩, ih heof.2, List.dropWhile_cons_of_pos hc,
        List.takeWhile_cons_of_pos hc]
      by_cases hnl : c = 0x0a
      · simp [hnl, lines]
        omega
      · simp [hnl, lines]
    · have hnl : c ≠ 0x0a := by
        rintro rfl
        exact hc hline
      rw [skipSpace, if_neg fun hn => hc hn.2, List.dropWhile_cons_of_neg hc,
        List.takeWhile_cons_of_neg hc, if_neg hnl]
      rfl

/-- `yylex`, piece by piece. -/
theorem yylexN_piece (h : KnowsAscii env) (st : LexState) (heof : EOF ∉ st.input) (n : Nat) :
    yylexN env (n + 1) st =
      match piece env st.input with
      | .finish => some (.char EOF, st.at st.input [])
      | .comment spaces after =>
        match skipComment after with
        | some rest => yylexN env n (st.at spaces rest)
        | none => some (.char EOF, yyerror (st.at spaces []) "End of program while in a comment")
      | .token spaces c rest => some (lexPiece env c (st.at spaces rest)) := by
  have hsplit := List.takeWhile_append_dropWhile (p := my_isspace env) (l := st.input)
  rw [yylexN]
  simp only [skipSpace_eq h heof, piece]
  cases hrest : st.input.dropWhile (my_isspace env) with
  | nil =>
    rw [hrest, List.append_nil] at hsplit
    simp only [listGetch, if_true, hsplit]
    rfl
  | cons c rest =>
    have heof' : EOF ∉ c :: rest := fun hm => heof (hsplit ▸ List.mem_append_right _ (hrest ▸ hm))
    have hc : c ≠ EOF := by
      rintro rfl
      exact heof' List.mem_cons_self
    have hunget := lex_ungetc_getch fun hm => heof' (List.mem_cons_of_mem c hm)
    have hgetch : listGetch (c :: rest) = (c, rest) := rfl
    simp only [hgetch, if_neg hc]
    by_cases hslash : c = 0x2f
    · by_cases hstar : (listGetch rest).1 = 0x2a
      · simp only [hslash, hstar, and_self, if_true]
        cases skipComment (listGetch rest).2 with
        | none => rfl
        | some left => rfl
      · simp only [hslash, hstar, and_false, if_true, if_false, lexPiece, hunget]
        rfl
    · simp only [hslash, false_and, if_false, lexPiece]
      rfl

/-- The token that begins with `c`, and what it leaves of the text behind `c`. -/
def pieceToken (env : LexEnv) (c : Int) (rest : List Int) : Token × List Int :=
  let (t, st) := lexPiece env c ⟨rest, 1, [], false⟩
  (t, st.input)

theorem piece_split (env : LexEnv) (input : List Int) :
    input.takeWhile (my_isspace env) ++ input.dropWhile (my_isspace env) = input ∧
      ∀ c ∈ input.takeWhile (my_isspace env), my_isspace env c = true :=
  ⟨List.takeWhile_append_dropWhile, fun _ => List.mem_takeWhile_imp⟩

theorem piece_comment {spaces : List Int} (hp : piece env input = .comment spaces after) :
    input = spaces ++ 0x2f :: 0x2a :: after ∧ ∀ c ∈ spaces, my_isspace env c = true := by
  obtain ⟨hsplit, hspaces⟩ := piece_split env input
  rw [piece] at hp
  split at hp
  · cases hp
  · next c rest hrest =>
    split at hp
    · next hstart =>
      simp only [Piece.comment.injEq] at hp
      obtain ⟨rfl, rfl⟩ := hp
      have hcons := cons_of_getch (by decide) hstart.2
      rw [hrest, hstart.1, hcons] at hsplit
      exact ⟨hsplit.symm, hspaces⟩
    · cases hp

theorem piece_token {spaces : List Int} (hp : piece env input = .token spaces c rest) :
    input = spaces ++ c :: rest ∧ (∀ c ∈ spaces, my_isspace env c = true) ∧
      my_isspace env c = false ∧
      ¬ (c = 0x2f ∧ (listGetch rest).1 = 0x2a) := by
  obtain ⟨hsplit, hspaces⟩ := piece_split env input
  rw [piece] at hp
  split at hp
  · cases hp
  · next d rest' hrest =>
    split at hp
    · cases hp
    · next hstart =>
      simp only [Piece.token.injEq] at hp
      obtain ⟨rfl, rfl, rfl⟩ := hp
      rw [hrest] at hsplit
      have hhead := List.head?_dropWhile_not (my_isspace env) input
      rw [hrest] at hhead
      exact ⟨hsplit.symm, hspaces, by simpa using hhead, hstart⟩

/-- A token is taken the same way whatever the state besides the input. -/
theorem pieceToken_spec (h : KnowsAscii env) (heof : EOF ∉ c :: rest) {t : Token}
    (ht : pieceToken env c rest = (t, left)) :
    ∃ w, TakesToken (lexPiece env c) c rest t w left := by
  obtain ⟨t', w, left', hsplit, hline, htakes⟩ := lexPiece_spec h heof
  have heof' : EOF ∉ left' :=
    fun hm => heof (List.mem_cons_of_mem _ (hsplit ▸ List.mem_append_right _ hm))
  have hresult := htakes ⟨rest, 1, [], false⟩ left' heof' (.refl left') hsplit
  simp only [pieceToken, Prod.mk.injEq] at ht
  obtain rfl := ht.1.symm.trans hresult.token
  obtain rfl := ht.2.symm.trans hresult.input
  exact ⟨w, hsplit, hline, htakes⟩

/-! ## A whole program -/

/-- The inputs at which pieces are found, if `skip` says where each comment ends. -/
inductive Reaches (env : LexEnv) (skip : List Int → Option (List Int)) : List Int → List Int → Prop
  | refl (input : List Int) : Reaches env skip input input
  | comment {input spaces after rest input' : List Int} : piece env input = .comment spaces after →
      skip after = some rest →
      Reaches env skip rest input' → Reaches env skip input input'
  | token {input spaces rest left input' : List Int} {c : Int} {t : Token} :
      piece env input = .token spaces c rest →
      pieceToken env c rest = (t, left) → t.isEnd = false → Reaches env skip left input' →
      Reaches env skip input input'

/-- The line ends that are read with a piece and not counted. -/
def lost (env : LexEnv) (skip : List Int → Option (List Int)) (input : List Int) : Nat :=
  match piece env input with
  | .finish => 0
  | .comment _ after => lines after - lines ((skip after).getD [])
  | .token _ c rest => lines rest - lines (pieceToken env c rest).2

/-- A program with each comment that ends replaced by a space. -/
def blankN (env : LexEnv) : Nat → List Int → List Int
  | 0, input => input
  | n + 1, input =>
    match piece env input with
    | .finish => input
    | .comment spaces after =>
      match afterTerminator after with
      | some rest => spaces ++ 0x20 :: blankN env n rest
      | none => input
    | .token spaces c rest =>
      let (t, left) := pieceToken env c rest
      if t.isEnd then input else spaces ++ c ::
        (rest.take (rest.length - left.length) ++ blankN env n left)

def blank (env : LexEnv) (text : List Int) : List Int := blankN env (text.length + 1) text

/-- A state is behind another by what has been read, and its line number has missed `d` line ends of
that. -/
def Behind (before st : LexState) (d : Nat) : Prop :=
  ∃ consumed, before.input = consumed ++ st.input ∧ st.lineno + d = before.lineno + lines consumed

/-- The messages of each token have the line number of the state behind it. -/
def Messages (before : LexState) : List (Token × LexState) → Prop
  | [] => True
  | (_, st) :: l =>
    (∃ m, st.messages = before.messages ++ m ∧ ∀ x ∈ m, x.1 = st.lineno) ∧ Messages st l

/-- The line number at each token, and in each message, is the one at the start and the line ends
read since. -/
def Numbered (before : LexState) (l : List (Token × LexState)) : Prop :=
  (∀ x ∈ l, Behind before x.2 0) ∧ Messages before l

/-- Comments are skipped exactly: wherever a comment begins, the lexer goes on behind its first
`*/`, or finds that it has none; the tokens are those of the program with spaces for its comments;
and the line numbers are right. -/
structure SkipsComments (env : LexEnv) (text : List Int) : Prop where
  resumes : ∀ input, Reaches env skipComment text input →
    ∀ spaces after, piece env input = .comment spaces after →
    skipComment after = afterTerminator after
  sameTokens : tokenList env text = tokenList env (blank env text)
  lineNumbers : ∃ l, tokens env text = some l ∧ Numbered ⟨text, 1, [], false⟩ l

/-- In each comment the stars in front of the slash of its first `*/` are odd in number, or there is
no `*/`; and no comment and no string has a line end in it. -/
def PlainComments (env : LexEnv) (text : List Int) : Prop :=
  ∀ input, Reaches env afterTerminator text input →
    lost env afterTerminator input = 0 ∧ ∀ spaces after, piece env input = .comment spaces after →
    oddStars 0 after = true

variable {skip : List Int → Option (List Int)} {st st' before : LexState}
    {l : List (Token × LexState)} {t : Token}
  {spaces input' : List Int} {d e : Nat}

/-! ## The lexer piece by piece -/

theorem comment_after (hp : piece env input = .comment spaces after) (heof : EOF ∉ input) :
    EOF ∉ after := by
  rw [(piece_comment hp).1, List.mem_append, List.mem_cons, List.mem_cons, not_or,
    not_or, not_or] at heof
  exact heof.2.2.2

/-- What is behind a comment is shorter. -/
theorem comment_rest {body : List Int} (hp : piece env input = .comment spaces (body ++ rest))
    (heof : EOF ∉ input) :
    EOF ∉ rest ∧ rest.length < input.length := by
  refine ⟨fun hm => comment_after hp heof (List.mem_append_right _ hm), ?_⟩
  rw [(piece_comment hp).1]
  simp only [List.length_append, List.length_cons]
  omega

/-- So is what is behind a token. -/
theorem token_rest {w : List Int} (hp : piece env input = .token spaces c (w ++ left))
    (heof : EOF ∉ input) :
    EOF ∉ left ∧ left.length < input.length := by
  have hinput := (piece_token hp).1
  refine ⟨fun hm => heof ?_, ?_⟩
  · rw [hinput]
    exact List.mem_append_right _ (List.mem_cons_of_mem _ (List.mem_append_right _ hm))
  · rw [hinput]
    simp only [List.length_append, List.length_cons]
    omega

theorem token_eof (hp : piece env input = .token spaces c rest) (heof : EOF ∉ input) :
    EOF ∉ c :: rest := fun hm =>
  heof ((piece_token hp).1 ▸ List.mem_append_right _ hm)

theorem yylexN_total (h : KnowsAscii env) (st : LexState) (heof : EOF ∉ st.input) :
    ∃ r, ∀ n, st.input.length < n → yylexN env n st = some r := by
  obtain ⟨k, hk⟩ : ∃ k, st.input.length = k := ⟨_, rfl⟩
  induction k using Nat.strongRecOn generalizing st with
  | ind k ih =>
    have hstep : ∀ r, (∀ n, st.input.length ≤ n → yylexN env (n + 1) st = some r) →
        ∃ r, ∀ n, st.input.length < n → yylexN env n st = some r := fun r hr => ⟨r, fun n hn => by
      obtain ⟨m, rfl⟩ := Nat.exists_eq_add_of_lt hn
      exact hr _ (by omega)⟩
    cases hp : piece env st.input with
    | finish => exact hstep _ fun n _ => by rw [yylexN_piece h st heof, hp]
    | token spaces c rest => exact hstep _ fun n _ => by rw [yylexN_piece h st heof, hp]
    | comment spaces after =>
      cases hskip : skipComment after with
      | none =>
        refine hstep (.char EOF, yyerror (st.at spaces []) "End of program while in a comment")
          fun n _ => ?_
        rw [yylexN_piece h st heof, hp]
        simp only [hskip]
      | some rest =>
        obtain ⟨body, rfl, -⟩ := skipComment_suffix hskip (comment_after hp heof)
        obtain ⟨hrest, hlen⟩ := comment_rest hp heof
        obtain ⟨r, hr⟩ := ih rest.length (hk ▸ hlen) (st.at spaces rest) hrest rfl
        refine hstep r fun n hn => ?_
        rw [yylexN_piece h st heof, hp]
        simp only [hskip]
        exact hr n (hlen.trans_le hn)

/-- `yylex` by the first piece. -/
theorem yylex_piece (h : KnowsAscii env) (heof : EOF ∉ st.input) :
    yylex env st =
      match piece env st.input with
      | .finish => some (.char EOF, st.at st.input [])
      | .comment spaces after =>
        match skipComment after with
        | some rest => yylex env (st.at spaces rest)
        | none => some (.char EOF, yyerror (st.at spaces []) "End of program while in a comment")
      | .token spaces c rest => some (lexPiece env c (st.at spaces rest)) := by
  rw [yylex, yylexN_piece h st heof]
  cases hp : piece env st.input with
  | finish => rfl
  | token spaces c rest => rfl
  | comment spaces after =>
    cases hskip : skipComment after with
    | none => simp only [hskip]
    | some rest =>
      obtain ⟨body, rfl, -⟩ := skipComment_suffix hskip (comment_after hp heof)
      obtain ⟨hrest, hlen⟩ := comment_rest hp heof
      obtain ⟨r, hr⟩ := yylexN_total h (st.at spaces rest) hrest
      simp only [hskip]
      rw [yylex, hr _ hlen]
      exact (hr _ (Nat.lt_succ_self _)).symm

/-- The tokens from a state on. -/
def tokensFrom (env : LexEnv) (st : LexState) : Option (List (Token × LexState)) :=
  tokensN env (st.input.length + 1) st

/-- The first token and the tokens behind it, for any piece that is no comment. -/
theorem tokensN_step (n : Nat) (hlex : yylex env st = some (t, st')) :
    tokensN env (n + 1) st = if t.isEnd then some [(t, st')]
      else (tokensN env n st').map ((t, st') :: ·) := by
  rw [tokensN, hlex]
  cases hend : t.isEnd with
  | true => simp [hend]
  | false =>
    cases hrest : tokensN env n st' <;> simp [hend, hrest]

/-- A call of `yylex` takes something, unless it is the last. -/
theorem yylex_length (h : KnowsAscii env) (heof : EOF ∉ st.input)
    (hlex : yylex env st = some (t, st')) :
    EOF ∉ st'.input ∧ (t.isEnd = false → st'.input.length < st.input.length) := by
  obtain ⟨k, hk⟩ : ∃ k, st.input.length = k := ⟨_, rfl⟩
  induction k using Nat.strongRecOn generalizing st with
  | ind k ih =>
    rw [yylex_piece h heof] at hlex
    cases hp : piece env st.input with
    | finish =>
      simp only [hp, Option.some.injEq, Prod.mk.injEq] at hlex
      obtain ⟨rfl, rfl⟩ := hlex
      exact ⟨List.not_mem_nil, nofun⟩
    | comment spaces after =>
      simp only [hp] at hlex
      cases hskip : skipComment after with
      | none =>
        simp only [hskip, Option.some.injEq, Prod.mk.injEq] at hlex
        obtain ⟨rfl, rfl⟩ := hlex
        exact ⟨List.not_mem_nil, nofun⟩
      | some rest =>
        obtain ⟨body, rfl, -⟩ := skipComment_suffix hskip (comment_after hp heof)
        obtain ⟨hrest, hlen⟩ := comment_rest hp heof
        simp only [hskip] at hlex
        obtain ⟨heof', hlt⟩ := ih rest.length (hk ▸ hlen) hrest hlex rfl
        exact ⟨heof', fun ht => (hlt ht).trans hlen⟩
    | token spaces c rest =>
      simp only [hp, Option.some.injEq] at hlex
      obtain ⟨t', w, left, rfl, -, htakes⟩ := lexPiece_spec h (token_eof hp heof)
      obtain ⟨hleft, hlen⟩ := token_rest hp heof
      have hresult := htakes (st.at spaces (w ++ left)) left hleft (.refl left) rfl
      rw [hlex] at hresult
      have hinput : st'.input = left := hresult.input
      rw [hinput]
      exact ⟨hleft, fun _ => hlen⟩

theorem tokensN_total (h : KnowsAscii env) (heof : EOF ∉ st.input) :
    ∃ l, ∀ n, st.input.length < n → tokensN env n st = some l := by
  obtain ⟨k, hk⟩ : ∃ k, st.input.length = k := ⟨_, rfl⟩
  induction k using Nat.strongRecOn generalizing st with
  | ind k ih =>
    obtain ⟨⟨t, st'⟩, hr⟩ := yylexN_total h st heof
    have hlex : yylex env st = some (t, st') := hr _ (Nat.lt_succ_self _)
    obtain ⟨heof', hlt⟩ := yylex_length h heof hlex
    cases hend : t.isEnd with
    | true =>
      refine ⟨[(t, st')], fun n hn => ?_⟩
      obtain ⟨m, rfl⟩ := Nat.exists_eq_add_of_lt hn
      rw [tokensN_step _ hlex, if_pos hend]
    | false =>
      obtain ⟨l, hl⟩ := ih st'.input.length (hk ▸ hlt hend) heof' rfl
      refine ⟨(t, st') :: l, fun n hn => ?_⟩
      obtain ⟨m, rfl⟩ := Nat.exists_eq_add_of_lt hn
      rw [tokensN_step _ hlex, if_neg (by simp [hend]), hl _ (by have := hlt hend; omega)]
      rfl

theorem tokensFrom_step (h : KnowsAscii env) (heof : EOF ∉ st.input)
    (hlex : yylex env st = some (t, st')) :
    tokensFrom env st = if t.isEnd then some [(t, st')]
      else (tokensFrom env st').map ((t, st') :: ·) := by
  rw [tokensFrom, tokensN_step _ hlex]
  obtain ⟨heof', hlt⟩ := yylex_length h heof hlex
  obtain ⟨l, hl⟩ := tokensN_total h heof'
  cases hend : t.isEnd with
  | true => rfl
  | false => rw [if_neg Bool.false_ne_true, if_neg Bool.false_ne_true, tokensFrom, hl _ (hlt hend),
      hl _ (Nat.lt_succ_self _)]

/-- The tokens by the first piece. -/
theorem tokensFrom_piece (h : KnowsAscii env) (heof : EOF ∉ st.input) :
    tokensFrom env st =
      match piece env st.input with
      | .finish => some [(.char EOF, st.at st.input [])]
      | .comment spaces after =>
        match skipComment after with
        | some rest => tokensFrom env (st.at spaces rest)
        | none => some [(.char EOF, yyerror (st.at spaces []) "End of program while in a comment")]
      | .token spaces c rest =>
        if (lexPiece env c (st.at spaces rest)).1.isEnd then
          some [lexPiece env c (st.at spaces rest)]
        else (tokensFrom env (lexPiece env c (st.at spaces rest)).2).map
          (lexPiece env c (st.at spaces rest) :: ·) := by
  have hpiece := yylex_piece h heof
  cases hp : piece env st.input with
  | finish =>
    rw [hp] at hpiece
    exact tokensFrom_step h heof hpiece
  | token spaces c rest =>
    rw [hp] at hpiece
    exact tokensFrom_step h heof hpiece
  | comment spaces after =>
    rw [hp] at hpiece
    cases hskip : skipComment after with
    | none =>
      simp only [hskip] at hpiece ⊢
      exact tokensFrom_step h heof hpiece
    | some rest =>
      obtain ⟨body, rfl, -⟩ := skipComment_suffix hskip (comment_after hp heof)
      obtain ⟨hrest, -⟩ := comment_rest hp heof
      obtain ⟨⟨t, st'⟩, hr⟩ := yylexN_total h (st.at spaces rest) hrest
      have hlex : yylex env (st.at spaces rest) = some (t, st') := hr _ (Nat.lt_succ_self _)
      simp only [hskip] at hpiece ⊢
      rw [tokensFrom_step h heof (hpiece.trans hlex), tokensFrom_step h hrest hlex]

/-! ## Line numbers -/

theorem lines_append (l m : List Int) : lines (l ++ m) = lines l + lines m := List.count_append

/-- What has been read and what has been missed add up. -/
theorem Behind.trans {st₀ st₁ st₂ : LexState} (h₁ : Behind st₀ st₁ d) (h₂ : Behind st₁ st₂ e) :
    Behind st₀ st₂ (d + e) := by
  obtain ⟨x, hx, hlx⟩ := h₁
  obtain ⟨y, hy, hly⟩ := h₂
  refine ⟨x ++ y, by rw [hx, hy, List.append_assoc], ?_⟩
  rw [lines_append]
  omega

theorem Behind.unique (h₁ : Behind before st d) (h₂ : Behind before st e) : d = e := by
  obtain ⟨x, hx, hlx⟩ := h₁
  obtain ⟨y, hy, hly⟩ := h₂
  obtain rfl := List.append_cancel_right (hx.symm.trans hy)
  omega

/-- The reached inputs are the first one and those reached from behind the first piece. -/
theorem reaches_iff {P : List Int → Prop} : (∀ input', Reaches env skip input input' → P input') ↔
    P input ∧ match piece env input with
      | .finish => True
      | .comment _ after =>
        ∀ rest, skip after = some rest → ∀ input', Reaches env skip rest input' → P input'
      | .token _ c rest => (pieceToken env c rest).1.isEnd = false →
        ∀ input', Reaches env skip (pieceToken env c rest).2 input' → P input' := by
  constructor
  · intro hall
    refine ⟨hall input (.refl input), ?_⟩
    cases hp : piece env input with
    | finish => trivial
    | comment spaces after => exact fun rest hskip input' hr => hall input' (.comment hp hskip hr)
    | token spaces c rest => exact fun hend input' hr => hall input' (.token hp rfl hend hr)
  · rintro ⟨hfirst, hrest⟩ input' hr
    cases hr with
    | refl => exact hfirst
    | comment hp hskip hr =>
      rw [hp] at hrest
      exact hrest _ hskip input' hr
    | token hp ht hend hr =>
      rw [hp] at hrest
      simp only [ht] at hrest
      exact hrest hend input' hr

/-- Where `e` line ends have been missed at first, none have been missed later only if `e` is
zero. -/
theorem behind_all (hne : l ≠ []) (hall : ∀ x ∈ l, ∃ d, Behind st x.2 d) (h : Behind before st e) :
    (∀ x ∈ l, ∃ d, Behind before x.2 d) ∧ ((∀ x ∈ l, Behind before x.2 0) ↔
      e = 0 ∧ ∀ x ∈ l, Behind st x.2 0) := by
  refine ⟨fun x hx => ?_, fun hzero => ?_, fun ⟨he, hzero⟩ x hx => ?_⟩
  · obtain ⟨d, hd⟩ := hall x hx
    exact ⟨e + d, h.trans hd⟩
  · have hsum : ∀ x ∈ l, e = 0 ∧ Behind st x.2 0 := fun x hx => by
      obtain ⟨d, hd⟩ := hall x hx
      have hed := (h.trans hd).unique (hzero x hx)
      obtain ⟨rfl, rfl⟩ := Nat.add_eq_zero_iff.mp hed
      exact ⟨rfl, hd⟩
    obtain ⟨x, hx⟩ := List.exists_mem_of_ne_nil l hne
    exact ⟨(hsum x hx).1, fun y hy => (hsum y hy).2⟩
  · rw [he] at h
    exact h.trans (hzero x hx)

theorem Messages.congr {before' : LexState} (hm : Messages before l)
    (he : before.messages = before'.messages) :
    Messages before' l := by
  cases l with
  | nil => trivial
  | cons x l => exact ⟨he ▸ hm.1, hm.2⟩

theorem behind_comment {body : List Int}
    (hp : piece env st.input = .comment spaces (body ++ rest)) :
    Behind st (st.at spaces rest) (lines body) := by
  refine ⟨spaces ++ 0x2f :: 0x2a :: body, ?_, ?_⟩
  · rw [(piece_comment hp).1]
    simp [LexState.at]
  · have hstart : lines (0x2f :: 0x2a :: body) = lines body := by simp [lines]
    rw [lines_append, hstart]
    exact Nat.add_assoc _ _ _

theorem behind_token (h : KnowsAscii env) {w : List Int}
    (hp : piece env st.input = .token spaces c (w ++ left))
    (hinput : st'.input = left) (hlineno : st'.lineno = (st.at spaces (w ++ left)).lineno) :
    Behind st st' (lines w) := by
  obtain ⟨hsplit, -, hspace, -⟩ := piece_token hp
  have hc : c ≠ 0x0a := by
    rintro rfl
    have hline : my_isspace env 0x0a = true := h.isspace (x := 0x0a) (by decide)
    rw [hline] at hspace
    cases hspace
  refine ⟨spaces ++ c :: w, by rw [hsplit, hinput, List.append_assoc, List.cons_append], ?_⟩
  have hcons : lines (c :: w) = lines w := by simp [lines, hc]
  rw [lines_append, hcons, hlineno]
  exact Nat.add_assoc _ _ _

/-- What has been missed at each token is what was missed at the pieces before it. -/
theorem tokensFrom_lines (h : KnowsAscii env) (st : LexState) (heof : EOF ∉ st.input) :
    ∃ l, tokensFrom env st = some l ∧ l ≠ [] ∧ Messages st l ∧ (∀ x ∈ l, ∃ d, Behind st x.2 d) ∧
      ((∀ x ∈ l, Behind st x.2 0) ↔ ∀ input', Reaches env skipComment st.input input' →
        lost env skipComment input' = 0) := by
  obtain ⟨k, hk⟩ : ∃ k, st.input.length = k := ⟨_, rfl⟩
  -- by induction on what is left to read: each piece is read in full, and the tail is shorter
  induction k using Nat.strongRecOn generalizing st with
  | ind k ih =>
    have hlast : ∀ {r : Token × LexState} {d : Nat}, Behind st r.2 d →
        (∀ x ∈ [r], ∃ d, Behind st x.2 d) ∧
        ((∀ x ∈ [r], Behind st x.2 0) ↔ d = 0) := fun hb =>
      ⟨by simpa using ⟨_, hb⟩, by simpa using ⟨fun h0 => hb.unique h0, fun h0 => h0 ▸ hb⟩⟩
    rw [tokensFrom_piece h heof, reaches_iff]
    cases hp : piece env st.input with
    | finish =>
      have hb : Behind st (st.at st.input []) 0 := ⟨st.input, by simp [LexState.at], rfl⟩
      have hlost : lost env skipComment st.input = 0 := by rw [lost, hp]
      have hm : Messages st [(.char EOF, st.at st.input [])] :=
        ⟨⟨[], (List.append_nil _).symm, by simp⟩, trivial⟩
      refine ⟨[(.char EOF, st.at st.input [])], rfl, by simp, hm, (hlast hb).1,
        (hlast hb).2.trans ?_⟩
      exact iff_of_true rfl ⟨hlost, trivial⟩
    | comment spaces after =>
      cases hskip : skipComment after with
      | none =>
        have hp' : piece env st.input = .comment spaces (after ++ []) := by rw [List.append_nil, hp]
        have hb : Behind st (yyerror (st.at spaces []) "End of program while in a comment")
            (lines after) := behind_comment hp'
        have hlost : lost env skipComment st.input = lines after := by
          rw [lost, hp]
          simp [hskip, lines]
        have hm :
            Messages st
              [(.char EOF, yyerror (st.at spaces []) "End of program while in a comment")] :=
          ⟨⟨_, rfl, by simp [yyerror]⟩, trivial⟩
        simp only [hskip]
        refine ⟨_, rfl, by simp, hm, (hlast hb).1, (hlast hb).2.trans ?_⟩
        simp [hlost]
      | some rest =>
        obtain ⟨body, rfl, -⟩ := skipComment_suffix hskip (comment_after hp heof)
        obtain ⟨hrest, hlen⟩ := comment_rest hp heof
        obtain ⟨l, hl, hne, hm, hall, hiff⟩ :=
          ih rest.length (hk ▸ hlen) (st.at spaces rest) hrest rfl
        -- the line ends inside the comment are behind for good
        obtain ⟨hall', hiff'⟩ := behind_all hne hall (behind_comment hp)
        have hlost : lost env skipComment st.input = lines body := by
          rw [lost, hp]
          simp [hskip, lines_append]
        simp only [hskip]
        refine ⟨l, hl, hne, hm.congr rfl, hall', hiff'.trans ?_⟩
        rw [hlost, hiff]
        simp [LexState.at]
    | token spaces c rest =>
      obtain ⟨t, left, ht⟩ : ∃ t left, pieceToken env c rest = (t, left) := ⟨_, _, rfl⟩
      obtain ⟨w, rfl, -, htakes⟩ := pieceToken_spec h (token_eof hp heof) ht
      obtain ⟨hleft, hlen⟩ := token_rest hp heof
      have hlost : lost env skipComment st.input = lines w := by
        rw [lost, hp]
        simp [ht, lines_append]
      have hresult := htakes (st.at spaces (w ++ left)) left hleft (.refl left) rfl
      simp only [ht]
      generalize lexPiece env c (st.at spaces (w ++ left)) = r at hresult ⊢
      obtain ⟨t', st'⟩ := r
      obtain rfl : t' = t := hresult.token
      obtain rfl : st'.input = left := hresult.input
      have hb : Behind st st' (lines w) := behind_token h hp rfl hresult.lineno
      have hm : ∃ m, st'.messages = st.messages ++ m ∧ ∀ x ∈ m, x.1 = st'.lineno := by
        obtain ⟨m, hm, hall⟩ := hresult.messages
        exact ⟨m, hm, fun x hx => (hall x hx).trans hresult.lineno.symm⟩
      cases hend : t'.isEnd with
      | true =>
        refine ⟨[(t', st')], rfl, by simp, ⟨hm, trivial⟩, (hlast hb).1, (hlast hb).2.trans ?_⟩
        rw [hlost]
        exact (and_iff_left nofun).symm
      | false =>
        obtain ⟨l, hl, hne, hms, hall, hiff⟩ := ih st'.input.length (hk ▸ hlen) st' hleft rfl
        obtain ⟨hall', hiff'⟩ := behind_all hne hall hb
        have hcons : (∀ x ∈ (t', st') :: l, Behind st x.2 0) ↔
            lines w = 0 ∧ ∀ x ∈ l, Behind st' x.2 0 := by
          rw [List.forall_mem_cons, hiff']
          exact ⟨And.right, fun hz => ⟨(hlast hb).2.mpr hz.1 _ (List.mem_singleton_self _), hz⟩⟩
        have hlist : tokensFrom env st' = some l := hl
        refine ⟨(t', st') :: l, by simp [hlist], by simp, ⟨hm, hms⟩,
          List.forall_mem_cons.mpr ⟨⟨_, hb⟩, hall'⟩, hcons.trans ?_⟩
        rw [hlost, hiff]
        exact and_congr_right fun _ => ⟨fun hr _ => hr, fun hr => hr rfl⟩

/-! ## A space for a comment -/

theorem piece_append {s : List Int} (hs : ∀ c ∈ s, my_isspace env c = true) (input : List Int) :
    piece env (s ++ input) =
      match piece env input with
      | .finish => .finish
      | .comment spaces after => .comment (s ++ spaces) after
      | .token spaces c rest => .token (s ++ spaces) c rest := by
  rw [piece, piece, List.dropWhile_append_of_pos hs, List.takeWhile_append_of_pos hs]
  cases input.dropWhile (my_isspace env) with
  | nil => rfl
  | cons c rest => by_cases hstart : c = 0x2f ∧ (listGetch rest).1 = 0x2a <;> simp [hstart]

theorem piece_cons (hspace : my_isspace env c = false)
    (hstart : ¬ (c = 0x2f ∧ (listGetch rest).1 = 0x2a)) :
    piece env (c :: rest) = .token [] c rest := by
  have hc : ¬ my_isspace env c = true := by simp [hspace]
  rw [piece, List.dropWhile_cons_of_neg hc, List.takeWhile_cons_of_neg hc]
  exact if_neg hstart

theorem head_getch {x : Int} (hx : x ≠ EOF) : input.head? = some x ↔ (listGetch input).1 = x := by
  cases input with
  | nil => exact iff_of_false nofun hx.symm
  | cons c input => exact Option.some_inj

/-- What a token takes of the text behind its first character. -/
theorem take_token (w left : List Int) :
    (w ++ left).take ((w ++ left).length - left.length) = w := by
  rw [List.length_append, Nat.add_sub_cancel, List.take_left]

theorem blankN_token (n : Nat) {w : List Int} (hp : piece env input = .token spaces c (w ++ left))
    (ht : pieceToken env c (w ++ left) = (t, left)) :
    blankN env (n + 1) input = if t.isEnd then input else spaces ++ c ::
      (w ++ blankN env n left) := by
  rw [blankN, hp]
  simp only [ht, take_token]

/-- With the comments gone, the lexer sees nothing else when it looks ahead. -/
theorem looks_blankN (h : KnowsAscii env) (heof : EOF ∉ input) (n : Nat) :
    Looks input (blankN env n input) := by
  induction n generalizing input with
  | zero => exact .refl input
  | succ n ih =>
    cases hp : piece env input with
    | finish =>
      rw [blankN, hp]
      exact .refl input
    | comment spaces after =>
      rw [blankN, hp]
      cases hafter : afterTerminator after with
      | none =>
        simp only [hafter]
        exact .refl input
      | some rest =>
        simp only [hafter]
        obtain ⟨hsplit, hspaces⟩ := piece_comment hp
        rw [hsplit]
        cases spaces with
        | nil => exact .slash _ _
        | cons s spaces =>
          refine .head fun hdot => ?_
          have hspace : my_isspace env 0x2e = false := h.isspace (x := 0x2e) (by decide)
          have hs := hspaces s List.mem_cons_self
          rw [hdot, hspace] at hs
          cases hs
    | token spaces c rest =>
      obtain ⟨t, left, ht⟩ : ∃ t left, pieceToken env c rest = (t, left) := ⟨_, _, rfl⟩
      obtain ⟨w, rfl, -, -⟩ := pieceToken_spec h (token_eof hp heof) ht
      obtain ⟨hleft, -⟩ := token_rest hp heof
      have hlook := (ih hleft).append w
      rw [blankN_token n hp ht]
      split
      · exact .refl input
      · rw [(piece_token hp).1]
        refine Looks.append (.head fun _ hdot => ?_) spaces
        rw [head_getch (by decide)] at hdot ⊢
        exact (hlook.sought dot_sought).mp hdot

theorem eof_blankN (h : KnowsAscii env) (heof : EOF ∉ input) (n : Nat) :
    EOF ∉ blankN env n input := by
  induction n generalizing input with
  | zero => exact heof
  | succ n ih =>
    cases hp : piece env input with
    | finish =>
      rw [blankN, hp]
      exact heof
    | comment spaces after =>
      rw [blankN, hp]
      cases hafter : afterTerminator after with
      | none =>
        simp only [hafter]
        exact heof
      | some rest =>
        obtain ⟨body, rfl, -⟩ := afterTerminator_suffix hafter
        simp only [hafter]
        have hrest := ih (comment_rest hp heof).1
        rw [(piece_comment hp).1, List.mem_append, not_or] at heof
        rw [List.mem_append, List.mem_cons, not_or, not_or]
        exact ⟨heof.1, by decide, hrest⟩
    | token spaces c rest =>
      obtain ⟨t, left, ht⟩ : ∃ t left, pieceToken env c rest = (t, left) := ⟨_, _, rfl⟩
      obtain ⟨w, rfl, -, -⟩ := pieceToken_spec h (token_eof hp heof) ht
      have hleft := ih (token_rest hp heof).1
      rw [blankN_token n hp ht]
      split
      · exact heof
      · rw [(piece_token hp).1] at heof
        simp only [List.mem_append, List.mem_cons, not_or] at heof ⊢
        exact ⟨heof.1, heof.2.1, heof.2.2.1, hleft⟩

theorem KnowsAscii.space (h : KnowsAscii env) : my_isspace env 0x20 = true :=
  h.isspace (x := 0x20) (by decide)

/-- A token and the tokens behind it, whatever looks the same behind it. -/
theorem tokensFrom_token (h : KnowsAscii env) (heof : EOF ∉ st.input) {w : List Int}
    (hp : piece env st.input = .token spaces c (w ++ rest))
    (htakes : Takes (lexPiece env c) t w left) (hlooks : Looks left rest) :
    ∃ st', st'.input = rest ∧ tokensFrom env st = if t.isEnd then some [(t, st')]
      else (tokensFrom env st').map ((t, st') :: ·) := by
  have hrest := (token_rest hp heof).1
  have hresult := htakes (st.at spaces (w ++ rest)) rest hrest hlooks rfl
  rw [tokensFrom_piece h heof, hp]
  simp only
  generalize lexPiece env c (st.at spaces (w ++ rest)) = r at hresult ⊢
  obtain ⟨t', st'⟩ := r
  obtain rfl : t' = t := hresult.token
  exact ⟨st', hresult.input, rfl⟩

/-- A program with its comments replaced has the same tokens, if the lexer finds where they end. -/
theorem tokensFrom_blankN (h : KnowsAscii env) (n : Nat) (s : List Int) {st : LexState}
    (st' : LexState) (heof : EOF ∉ st.input) (heof' : EOF ∉ st'.input)
    (hn : st.input.length < n)
    (hresumes : ∀ input, Reaches env skipComment st.input input →
      ∀ spaces after, piece env input = .comment spaces after →
      skipComment after = afterTerminator after)
    (hs : ∀ c ∈ s, my_isspace env c = true) (hst' : st'.input = s ++ blankN env n st.input) :
    (tokensFrom env st).map (·.map (·.1)) = (tokensFrom env st').map (·.map (·.1)) := by
  induction n generalizing st st' s with
  | zero => exact absurd hn (Nat.not_lt_zero _)
  | succ n ih =>
    cases hp : piece env st.input with
    | finish =>
      rw [blankN, hp] at hst'
      rw [tokensFrom_piece h heof, hp, tokensFrom_piece h heof', hst', piece_append hs, hp]
      rfl
    | comment spaces after =>
      have hskip := hresumes st.input (.refl _) spaces after hp
      rw [blankN, hp] at hst'
      cases hafter : afterTerminator after with
      | none =>
        simp only [hafter] at hst'
        rw [tokensFrom_piece h heof, hp, tokensFrom_piece h heof', hst', piece_append hs, hp]
        simp only [hskip, hafter]
        rfl
      | some rest =>
        simp only [hafter] at hst'
        rw [tokensFrom_piece h heof, hp]
        simp only [hskip, hafter]
        obtain ⟨body, rfl, -⟩ := afterTerminator_suffix hafter
        obtain ⟨hrest, hlen⟩ := comment_rest hp heof
        refine ih (s ++ (spaces ++ [0x20])) st' hrest heof' (hlen.trans_le (Nat.lt_succ_iff.mp hn))
          (fun input hr => hresumes input (.comment hp (hskip.trans hafter) hr)) ?_ ?_
        · simp only [List.mem_append, List.mem_singleton]
          rintro c (hc | hc | rfl)
          · exact hs c hc
          · exact (piece_comment hp).2 c hc
          · exact h.space
        · rw [hst']
          simp [LexState.at]
    | token spaces c rest =>
      obtain ⟨t, left, ht⟩ : ∃ t left, pieceToken env c rest = (t, left) := ⟨_, _, rfl⟩
      obtain ⟨w, rfl, -, htakes⟩ := pieceToken_spec h (token_eof hp heof) ht
      obtain ⟨hleft, hlen⟩ := token_rest hp heof
      obtain ⟨hsplit, hspaces, hspace, hstart⟩ := piece_token hp
      have hall : ∀ c ∈ s ++ spaces, my_isspace env c = true :=
        fun c hc => (List.mem_append.mp hc).elim (hs c) (hspaces c)
      -- behind the token is what was there before, or that with its comments replaced
      have hpiece : ∀ {X : List Int}, Looks left X →
          piece env (s ++ (spaces ++ c :: (w ++ X))) = .token (s ++ spaces) c (w ++ X) := by
        intro X hlooks
        have hstart' : ¬ (c = 0x2f ∧ (listGetch (w ++ X)).1 = 0x2a) := fun hn =>
          hstart ⟨hn.1, ((hlooks.append w).sought (by decide)).mpr hn.2⟩
        rw [← List.append_assoc, piece_append hall, piece_cons hspace hstart']
        simp only [List.append_nil]
      obtain ⟨st₁, hst₁, htokens⟩ := tokensFrom_token h heof hp htakes (.refl left)
      rw [blankN_token n hp ht] at hst'
      rw [htokens]
      cases hend : t.isEnd with
      | true =>
        rw [if_pos hend, hsplit] at hst'
        obtain ⟨st₂, -, htokens'⟩ :=
          tokensFrom_token h heof' (hst' ▸ hpiece (.refl left)) htakes (.refl left)
        rw [htokens', hend]
        rfl
      | false =>
        rw [hend, if_neg Bool.false_ne_true] at hst'
        have hlooks := looks_blankN h hleft n
        obtain ⟨st₂, hst₂, htokens'⟩ :=
          tokensFrom_token h heof' (hst' ▸ hpiece hlooks) htakes hlooks
        have hrest := ih [] st₂ (hst₁ ▸ hleft) (hst₂ ▸ eof_blankN h hleft n)
          (hst₁ ▸ hlen.trans_le (Nat.lt_succ_iff.mp hn))
            (fun input hr => hresumes input (.token hp ht hend (hst₁ ▸ hr))) (by simp)
            (by rw [hst₂, hst₁, List.nil_append])
        have hcons : ∀ (x : LexState) (o : Option (List (Token × LexState))),
            (o.map ((t, x) :: ·)).map (·.map (·.1)) = (o.map (·.map (·.1))).map (t :: ·) :=
              fun x o => by cases o <;> rfl
        rw [htokens', hend, if_neg Bool.false_ne_true, if_neg Bool.false_ne_true,
          hcons, hcons, hrest]

/-! ## The end of each comment -/

theorem Reaches.eof (h : KnowsAscii env) (hskip : ∀ after rest, EOF ∉ after →
    skip after = some rest → ∃ body, after = body ++ rest)
    (hr : Reaches env skip text input) (heof : EOF ∉ text) : EOF ∉ input := by
  induction hr with
  | refl => exact heof
  | comment hp hafter hr ih =>
    obtain ⟨body, rfl⟩ := hskip _ _ (comment_after hp heof) hafter
    exact ih (comment_rest hp heof).1
  | token hp ht _ hr ih =>
    obtain ⟨w, rfl, -⟩ := pieceToken_spec h (token_eof hp heof) ht
    exact ih (token_rest hp heof).1

/-- Two ways to find the end of a comment reach the same inputs, if they agree at those that one of
them reaches. -/
theorem Reaches.change {skip' : List Int → Option (List Int)} (hr : Reaches env skip' text input)
    (hagree : ∀ input, Reaches env skip text input →
      ∀ spaces after, piece env input = .comment spaces after →
      skip after = skip' after) : Reaches env skip text input := by
  induction hr with
  | refl input => exact .refl input
  | comment hp hafter _ ih =>
    have hskip := (hagree _ (.refl _) _ _ hp).trans hafter
    exact .comment hp hskip (ih fun input hr => hagree input (.comment hp hskip hr))
  | token hp ht hend _ ih =>
    exact .token hp ht hend (ih fun input hr => hagree input (.token hp ht hend hr))

theorem lost_congr {skip' : List Int → Option (List Int)}
    (hagree : ∀ spaces after, piece env input = .comment spaces after → skip after = skip' after) :
    lost env skip input = lost env skip' input := by
  rw [lost, lost]
  cases hp : piece env input with
  | finish => rfl
  | comment spaces after => simp only [hagree spaces after hp]
  | token spaces c rest => rfl

/-- Where the line numbers are right, no line end is missed. -/
theorem numbered_lost (h : KnowsAscii env) (heof : EOF ∉ text)
    (hn : ∃ l, tokens env text = some l ∧ Numbered ⟨text, 1, [], false⟩ l) :
    ∀ input, Reaches env skipComment text input → lost env skipComment input = 0 := by
  obtain ⟨l', hl', hnumbered, -⟩ := hn
  obtain ⟨l, hl, -, -, -, hiff⟩ := tokensFrom_lines h ⟨text, 1, [], false⟩ heof
  obtain rfl := Option.some.inj (hl.symm.trans hl')
  exact hiff.mp hnumbered

/-- A program is read as though each comment were a space, with the right line numbers, exactly if
in each comment an odd number of stars is in front of the slash that ends it, and no line end is in
a comment or a string. -/
theorem comments_iff (h : KnowsAscii env) (heof : EOF ∉ text) :
    SkipsComments env text ↔ PlainComments env text := by
  have hsuffix : ∀ after rest : List Int, afterTerminator after = some rest →
      ∃ body, after = body ++ rest := fun after rest ha => by
    obtain ⟨body, hbody, -⟩ := afterTerminator_suffix ha
    exact ⟨body, hbody⟩
  constructor
  · rintro ⟨hresumes, -, hnumbered⟩
    intro input hr
    have hr' := hr.change hresumes
    refine ⟨(lost_congr (hresumes input hr')).symm.trans (numbered_lost h heof hnumbered input hr'),
      fun spaces after hp => ?_⟩
    have hinput := hr.eof h (fun after rest _ => hsuffix after rest) heof
    exact (skipComment_iff (comment_after hp hinput)).mp (hresumes input hr' spaces after hp)
  · intro hplain
    have hagree : ∀ input, Reaches env afterTerminator text input →
        ∀ spaces after, piece env input = .comment spaces after →
        afterTerminator after = skipComment after := fun input hr spaces after hp =>
      ((skipComment_iff
        (comment_after hp (hr.eof h (fun after rest _ => hsuffix after rest) heof))).mpr
        ((hplain input hr).2 spaces after hp)).symm
    have hresumes : ∀ input, Reaches env skipComment text input →
        ∀ spaces after, piece env input = .comment spaces after →
        skipComment after = afterTerminator after := fun input hr spaces after hp =>
      (hagree input (hr.change hagree) spaces after hp).symm
    refine ⟨hresumes, ?_, ?_⟩
    · exact tokensFrom_blankN h (text.length + 1) [] ⟨blank env text, 1, [], false⟩
        heof (eof_blankN h heof _) (Nat.lt_succ_self _) hresumes (by simp) rfl
    · obtain ⟨l, hl, -, hm, -, hiff⟩ := tokensFrom_lines h ⟨text, 1, [], false⟩ heof
      refine ⟨l, hl, hiff.mpr fun input hr => ?_, hm⟩
      exact (lost_congr (hresumes input hr)).trans (hplain input (hr.change hagree)).1

/-- The Unicode database on the ASCII characters only. -/
def asciiEnv : LexEnv where
  ucd x := if x < 0x80 then some (asciiCharacter x) else none
  strtod _ := none
  language_version := current_version

theorem asciiEnv_knows : KnowsAscii asciiEnv := fun _ hx => if_pos hx

/-- The characters of an ASCII text. -/
def chars (s : String) : List Int := (ascii s).map fun b => (b.toNat : Int)

/-- Whether the comments and strings of a text are plain, piece by piece. -/
def plainN (env : LexEnv) : Nat → List Int → Bool
  | 0, _ => false
  | n + 1, input =>
    lost env afterTerminator input == 0 &&
      match piece env input with
      | .finish => true
      | .comment _ after => oddStars 0 after && (afterTerminator after).all (plainN env n)
      | .token _ c rest => (pieceToken env c rest).1.isEnd || plainN env n (pieceToken env c rest).2

theorem plainComments_of_plainN {n : Nat} (h : plainN env n text = true) :
    PlainComments env text := by
  intro input hr
  induction hr generalizing n with
  | refl input =>
    cases n with
    | zero => cases h
    | succ n =>
      rw [plainN, Bool.and_eq_true, beq_iff_eq] at h
      refine ⟨h.1, fun spaces after hp => ?_⟩
      have hcomment := h.2
      rw [hp] at hcomment
      exact (Bool.and_eq_true_iff.mp hcomment).1
  | comment hp hafter _ ih =>
    cases n with
    | zero => cases h
    | succ n =>
      rw [plainN, Bool.and_eq_true, hp] at h
      have hrest := (Bool.and_eq_true_iff.mp h.2).2
      rw [hafter] at hrest
      exact ih hrest
  | token hp ht hend _ ih =>
    cases n with
    | zero => cases h
    | succ n =>
      rw [plainN, Bool.and_eq_true, hp] at h
      have hrest := h.2
      dsimp only at hrest
      rw [ht, hend, Bool.false_or] at hrest
      exact ih hrest

theorem comments_iff_plain : SkipsComments asciiEnv (chars "/* a */1;") := by
  have heof : EOF ∉ chars "/* a */1;" := by decide
  have hplain : plainN asciiEnv 4 (chars "/* a */1;") = true := by decide +kernel
  exact (comments_iff asciiEnv_knows heof).mpr (plainComments_of_plainN hplain)

/-- The loop runs past `*/` behind an even number of stars, and it counts no line end. -/
theorem terminator_missed : ¬ SkipsComments asciiEnv (chars "/***/1;") ∧
    ¬ SkipsComments asciiEnv (0x2f :: 0x2a :: 0x0a :: chars "*/1;") := by
  refine ⟨fun h => ?_, fun h => ?_⟩
  · have hskip := h.resumes _ (.refl _) [] (chars "**/1;") (by decide)
    exact absurd hskip (by decide)
  · have hlost := numbered_lost asciiEnv_knows (by decide) h.lineNumbers _ (.refl _)
    exact absurd hlost (by decide)

end Lex
end NuMoo
