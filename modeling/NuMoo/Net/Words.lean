import Mathlib.Data.List.TakeWhile
import NuMoo.Code.Value

/-!
# Words of a line

`parse_into_words` of `parse_cmd.c`, which cuts a line into words in the buffer that holds it. A
byte that is written over before it has been read would be lost; such a write has no value here.

Results:
1. `copyWord_spec`, `skipBlanks_spec`: what the loops leave written, stale and unread.
2. `parseIntoWords_spec`: the words of the grammar, and no byte is written over unread.
-/

namespace NuMoo
namespace Net

def chQuote : UInt8 := 34
def chBackslash : UInt8 := 92
def chBlank : UInt8 := 32

/-! ## The tokeniser -/

/-- The buffer with the two pointers into it. `seen` is a ghost: how many bytes have been read. -/
structure Scanner where
  mem : Str
  input : Nat
  ptr : Nat
  seen : Nat
deriving DecidableEq, Repr

namespace Scanner

/-- `*input` -/
def peek (s : Scanner) : Option (UInt8 × Scanner) :=
  (s.mem[s.input]?).map fun c => (c, { s with seen := max s.seen (s.input + 1) })

/-- `input++` -/
def advance (s : Scanner) : Scanner := { s with input := s.input + 1 }

/-- `*(ptr++) = c`, where the byte and all before it have been read. -/
def put (c : UInt8) (s : Scanner) : Option Scanner :=
  if s.ptr < s.seen then some { s with mem := s.mem.set s.ptr c, ptr := s.ptr + 1 } else none

end Scanner

/-- `while (*input == ' ')`; the fuel is the memory. -/
def skipBlanks : Nat → Scanner → Option Scanner
  | 0, _ => none
  | n + 1, s => do
    let (c, s) ← s.peek
    if c = chBlank then skipBlanks n s.advance else some s

/-- The loop that copies a word over what has been read. -/
def copyWord : Nat → Bool → Scanner → Option (Bool × Scanner)
  | 0, _, _ => none
  | n + 1, inQuotes, s => do
    let (c, s) ← s.peek
    if c = 0 ∨ (inQuotes = false ∧ c = chBlank) then some (inQuotes, s)
    else
      let s := s.advance
      if c = chQuote then copyWord n (!inQuotes) s
      else if c = chBackslash then
        let (d, s) ← s.peek
        if d = 0 then copyWord n inQuotes s
        else
          let s ← s.advance.put d
          copyWord n inQuotes s
      else
        let s ← s.put c
        copyWord n inQuotes s

/-- The loop over the words; `words` are their places. -/
def wordsLoop (fuel : Nat) : Nat → Bool → List Nat → Scanner → Option (List Nat × Scanner)
  | 0, _, _, _ => none
  | n + 1, inQuotes, words, s => do
    let (c, s) ← s.peek
    if c = 0 then some (words, s)
    else
      let (inQuotes', t) ← copyWord fuel inQuotes s
      let t ← skipBlanks fuel t
      let t ← t.put 0
      wordsLoop fuel n inQuotes' (words ++ [s.ptr]) t

/-- `parse_into_words`: the places of the words, and the buffer with them. -/
def parseIntoWords (input : Str) : Option (List Nat × Str) := do
  let fuel := input.length + 2
  let s ← skipBlanks fuel { mem := input ++ [0], input := 0, ptr := 0, seen := 0 }
  let (words, s) ← wordsLoop fuel fuel false [] s
  return (words, s.mem)

/-- The words that the pointers stand for. -/
def argvOf (r : List Nat × Str) : List Str := r.1.map fun p => cstr (r.2.drop p)

/-- `parse_into_wordlist`; the elements of the list are strings. -/
def parseIntoWordlist (command : Str) : Option (List Str) := (parseIntoWords command).map argvOf

/-! ## The grammar -/

/-- What the bytes of a line are for the grammar. -/
inductive Item where
  /-- a space that separates -/
  | sep
  /-- a quote, or a backslash with nothing behind it -/
  | mark
  | lit (c : UInt8)
deriving DecidableEq, Repr

/-- The bytes of a line, read within quotes or outside. -/
def items : Bool → Str → List Item
  | _, [] => []
  | quoted, c :: s =>
    if c = chQuote then .mark :: items (!quoted) s
    else if c = chBackslash then
      match s with
      | [] => [.mark]
      | d :: s => .lit d :: items quoted s
    else if quoted = false ∧ c = chBlank then .sep :: items quoted s
    else .lit c :: items quoted s

/-- What is left of a word without its quotes. -/
def lits (word : List Item) : Str := word.filterMap fun
  | .lit c => some c
  | _ => none

/-- The words of a line. -/
def words (s : Str) : List Str := (((items false s).splitOn .sep).filter (· ≠ [])).map lits

/-! ## The buffer -/

/-- What has been written, what has been read since and is stale, and what the input pointer stands
at. -/
structure Scanner.At (s : Scanner) (w g r : Str) : Prop where
  mem : s.mem = w ++ g ++ r
  ptr : s.ptr = w.length
  input : s.input = w.length + g.length
  seen : s.input ≤ s.seen

variable {s : Scanner} {w g r t line : Str} {c x : UInt8} {q : Bool} {n : Nat}

namespace Scanner

/-- A byte is read. -/
theorem At.peek (h : s.At w g (c :: r)) :
    ∃ s', s.peek = some (c, s') ∧ s'.At w g (c :: r) ∧ s'.input < s'.seen ∧ s'.mem = s.mem ∧
      s'.ptr = s.ptr := by
  have hc : s.mem[s.input]? = some c := by
    rw [h.mem, h.input, ← List.length_append, List.getElem?_append_right (le_refl _), Nat.sub_self]
    rfl
  refine ⟨{ s with seen := max s.seen (s.input + 1) }, ?_, ⟨h.mem, h.ptr, h.input, ?_⟩,
    ?_, rfl, rfl⟩
  · rw [Scanner.peek, hc, Option.map_some]
  · exact le_trans h.seen (le_max_left _ _)
  · exact Nat.lt_of_succ_le (le_max_right _ _)

theorem At.advance (h : s.At w g (c :: r)) (hseen : s.input < s.seen) :
    s.advance.At w (g ++ [c]) r where
  mem := by
    show s.mem = _
    rw [h.mem]
    simp
  ptr := h.ptr
  input := by
    show s.input + 1 = _
    rw [h.input, List.length_append, List.length_singleton, Nat.add_assoc]
  seen := hseen

/-- A stale byte is written over. -/
theorem At.put (h : s.At w (x :: g) r) (c : UInt8) :
    ∃ s', s.put c = some s' ∧ s'.At (w ++ [c]) g r ∧ s'.seen = s.seen ∧ s'.input = s.input := by
  have hinput := h.input
  rw [List.length_cons] at hinput
  have hlt : s.ptr < s.seen := by
    have hseen := h.seen
    rw [h.ptr]
    omega
  refine ⟨{ s with mem := s.mem.set s.ptr c, ptr := s.ptr + 1 }, ?_, ⟨?_, ?_, ?_, h.seen⟩, rfl, rfl⟩
  · rw [Scanner.put, if_pos hlt]
  · show s.mem.set s.ptr c = _
    rw [h.mem, h.ptr, List.append_assoc, List.set_append_right _ _ (le_refl _), Nat.sub_self]
    simp
  · show s.ptr + 1 = _
    rw [h.ptr, List.length_append, List.length_singleton]
  · show s.input = _
    rw [hinput, List.length_append, List.length_singleton]
    omega

/-- What the input pointer stands at, when nothing is left but the NUL. -/
theorem At.last (h : s.At w g [0]) : s.mem[s.input]? = some 0 := by
  rw [h.mem, h.input, ← List.length_append, List.getElem?_append_right (le_refl _), Nat.sub_self]
  rfl

/-- The last word is ended, over a stale byte or over the NUL that has been read. -/
theorem At.close (h : s.At w g [0]) (hseen : s.input < s.seen) :
    ∃ s' v, s.put 0 = some s' ∧ s'.mem = w ++ [0] ++ v ∧ s'.mem[s'.input]? = some 0 := by
  cases g with
  | nil =>
    have hptr : s.ptr = s.input := by rw [h.ptr, h.input, List.length_nil, Nat.add_zero]
    have hmem : s.mem.set s.ptr 0 = w ++ [0] := by
      rw [h.mem, h.ptr, List.append_nil, List.set_append_right _ _ (le_refl _), Nat.sub_self]
      rfl
    refine ⟨{ s with mem := s.mem.set s.ptr 0, ptr := s.ptr + 1 }, [], ?_, ?_, ?_⟩
    · rw [Scanner.put, if_pos (hptr ▸ hseen)]
    · rw [List.append_nil]
      exact hmem
    · show (s.mem.set s.ptr 0)[s.input]? = some 0
      rw [hmem, ← hptr, h.ptr, List.getElem?_append_right (le_refl _), Nat.sub_self]
      rfl
  | cons x g =>
    obtain ⟨s', hput, hs', -, hinput⟩ := h.put 0
    exact ⟨s', g ++ [0], hput, by rw [hs'.mem, List.append_assoc], hs'.last⟩

end Scanner

/-! ## The words -/

/-- The front word of a line, whether its end is within quotes, and what follows. -/
def takeWord : Bool → Str → Str × Bool × Str
  | q, [] => ([], q, [])
  | q, c :: line =>
    if q = false ∧ c = chBlank then ([], q, c :: line)
    else if c = chQuote then takeWord (!q) line
    else if c = chBackslash then
      match line with
      | [] => ([], q, [])
      | d :: line => (d :: (takeWord q line).1, (takeWord q line).2)
    else (c :: (takeWord q line).1, (takeWord q line).2)

theorem takeWord_cons (q : Bool) (c : UInt8) (line : Str) : takeWord q (c :: line) =
    if q = false ∧ c = chBlank then ([], q, c :: line)
    else if c = chQuote then takeWord (!q) line
    else if c = chBackslash then
      match line with
      | [] => ([], q, [])
      | d :: line => (d :: (takeWord q line).1, (takeWord q line).2)
    else (c :: (takeWord q line).1, (takeWord q line).2) := by
  cases line <;> rfl

theorem items_cons (q : Bool) (c : UInt8) (line : Str) : items q (c :: line) =
    if c = chQuote then .mark :: items (!q) line
    else if c = chBackslash then
      match line with
      | [] => [.mark]
      | d :: line => .lit d :: items q line
    else if q = false ∧ c = chBlank then .sep :: items q line
    else .lit c :: items q line := by
  cases line <;> rfl

theorem takeWord_blank (line : Str) :
    takeWord false (chBlank :: line) = ([], false, chBlank :: line) := by
  rw [takeWord_cons]
  exact if_pos ⟨rfl, rfl⟩

theorem takeWord_plain {c : UInt8} (hb : c ≠ chBlank) (hq : c ≠ chQuote) (hbs : c ≠ chBackslash)
    (q : Bool) (line : Str) :
    takeWord q (c :: line) = (c :: (takeWord q line).1, (takeWord q line).2) := by
  rw [takeWord_cons]
  rw [if_neg fun h => hb h.2, if_neg hq, if_neg hbs]

theorem items_blank (line : Str) : items false (chBlank :: line) = .sep :: items false line := by
  rw [items_cons]
  rw [if_neg (by decide), if_neg (by decide), if_pos ⟨rfl, rfl⟩]

theorem items_quote (q : Bool) (line : Str) :
    items q (chQuote :: line) = .mark :: items (!q) line := by
  rw [items_cons]
  rw [if_pos rfl]

theorem items_last (q : Bool) : items q [chBackslash] = [.mark] := by cases q <;> rfl

theorem items_escape (q : Bool) (c : UInt8) (line : Str) :
    items q (chBackslash :: c :: line) = .lit c :: items q line := by
  rw [items_cons]
  rw [if_neg (by decide), if_pos rfl]

theorem items_lit (hb : ¬ (q = false ∧ c = chBlank)) (hq : c ≠ chQuote)
    (hbs : c ≠ chBackslash) (line : Str) :
    items q (c :: line) = .lit c :: items q line := by
  rw [items_cons]
  rw [if_neg hq, if_neg hbs, if_neg hb]

/-- The bytes of the front word for the grammar. -/
theorem takeWord_items (q : Bool) (line : Str) :
    ∃ word, items q line = word ++ items (takeWord q line).2.1 (takeWord q line).2.2 ∧ .sep ∉ word ∧
      lits word = (takeWord q line).1 ∧
      (line ≠ [] → ¬ (q = false ∧ line.head? = some chBlank) → word ≠ []) := by
  fun_induction takeWord q line with
  | case1 q => exact ⟨[], rfl, List.not_mem_nil, rfl, fun h => absurd rfl h⟩
  | case2 q c line h =>
    exact ⟨[], rfl, List.not_mem_nil, rfl, fun _ hb => absurd ⟨h.1, congrArg some h.2⟩ hb⟩
  | case3 q line hb ih =>
    obtain ⟨word, hitems, hsep, hlits, -⟩ := ih
    refine ⟨.mark :: word, ?_, ?_, hlits, fun _ _ => List.cons_ne_nil _ _⟩
    · rw [items_quote, hitems, List.cons_append]
    · simpa using hsep
  | case4 q hb hq =>
    exact ⟨[.mark], by rw [items_last]; rfl, by simp, rfl, fun _ _ => List.cons_ne_nil _ _⟩
  | case5 q d line hb hq ih =>
    obtain ⟨word, hitems, hsep, hlits, -⟩ := ih
    refine ⟨.lit d :: word, ?_, by simpa using hsep, congrArg (d :: ·) hlits,
      fun _ _ => List.cons_ne_nil _ _⟩
    rw [items_escape, hitems, List.cons_append]
  | case6 q c line hb hq hbs ih =>
    obtain ⟨word, hitems, hsep, hlits, -⟩ := ih
    refine ⟨.lit c :: word, ?_, by simpa using hsep, congrArg (c :: ·) hlits,
      fun _ _ => List.cons_ne_nil _ _⟩
    rw [items_lit hb hq hbs, hitems, List.cons_append]

/-- The front word ends with the line or before a space outside quotes. -/
theorem takeWord_rest (q : Bool) (line : Str) :
    (takeWord q line).2.2 = [] ∨ ((takeWord q line).2.1 = false ∧
      (takeWord q line).2.2.head? = some chBlank) := by
  fun_induction takeWord q line with
  | case1 q => exact .inl rfl
  | case2 q c line h => exact .inr ⟨h.1, congrArg some h.2⟩
  | case3 q line hb ih => exact ih
  | case4 q hb hq => exact .inl rfl
  | case5 q d line hb hq ih => exact ih
  | case6 q c line hb hq hbs ih => exact ih

theorem takeWord_suffix (q : Bool) (line : Str) : (takeWord q line).2.2 <:+ line := by
  fun_induction takeWord q line with
  | case1 q => exact List.suffix_rfl
  | case2 q c line h => exact List.suffix_rfl
  | case3 q line hb ih => exact ih.trans (List.suffix_cons _ _)
  | case4 q hb hq => exact List.nil_suffix
  | case5 q d line hb hq ih => exact ih.trans ((List.suffix_cons _ _).trans (List.suffix_cons _ _))
  | case6 q c line hb hq hbs ih => exact ih.trans (List.suffix_cons _ _)

theorem takeWord_subset (q : Bool) (line : Str) : ∀ x ∈ (takeWord q line).1, x ∈ line := by
  fun_induction takeWord q line with
  | case1 q => nofun
  | case2 q c line h => nofun
  | case3 q line hb ih => exact fun x hx => List.mem_cons_of_mem _ (ih x hx)
  | case4 q hb hq => nofun
  | case5 q d line hb hq ih =>
    intro x hx
    rcases List.mem_cons.mp hx with rfl | hx
    · exact List.mem_cons_of_mem _ List.mem_cons_self
    · exact List.mem_cons_of_mem _ (List.mem_cons_of_mem _ (ih x hx))
  | case6 q c line hb hq hbs ih =>
    intro x hx
    rcases List.mem_cons.mp hx with rfl | hx
    · exact List.mem_cons_self
    · exact List.mem_cons_of_mem _ (ih x hx)

/-- A line that does not begin with a space begins with a word. -/
theorem takeWord_shorter (hne : line ≠ []) (hfront : line.head? ≠ some chBlank) :
    (takeWord false line).2.2.length < line.length := by
  refine lt_of_le_of_ne (takeWord_suffix false line).length_le fun hlen => ?_
  have heq := (takeWord_suffix false line).eq_of_length hlen
  rcases takeWord_rest false line with h | ⟨-, h⟩
  · exact hne (heq.symm.trans h)
  · exact hfront (heq ▸ h)

theorem words_nil : words [] = [] := rfl

theorem words_blank (line : Str) : words (chBlank :: line) = words line := by
  have hsplit : (Item.sep :: items false line).splitOn .sep = [] ::
      (items false line).splitOn .sep :=
    List.splitOnP_append_cons_of_forall_mem (p := fun c => c == Item.sep)
      (List.forall_mem_nil _) .sep (beq_self_eq_true _) _
  rw [words, items_blank, hsplit]
  rfl

theorem words_dropBlanks (line : Str) : words (line.dropWhile (· = chBlank)) = words line := by
  induction line with
  | nil => rfl
  | cons c line ih =>
    by_cases hc : c = chBlank
    · subst hc
      have hdrop : (chBlank :: line).dropWhile (· = chBlank) = line.dropWhile (· = chBlank) :=
        List.dropWhile_cons_of_pos (by simp)
      rw [hdrop, words_blank, ih]
    · rw [List.dropWhile_cons_of_neg (by simpa using hc)]

theorem dropBlanks_front (line : Str) : (line.dropWhile (· = chBlank)).head? ≠ some chBlank := by
  intro h
  have hnot := List.head?_dropWhile_not (· = chBlank) line
  rw [h] at hnot
  exact absurd hnot (by decide)

/-- The front word is the first. -/
theorem words_eq (hne : line ≠ []) (hfront : line.head? ≠ some chBlank) :
    words line = (takeWord false line).1 :: words (takeWord false line).2.2 := by
  obtain ⟨word, hitems, hsep, hlits, hword⟩ := takeWord_items false line
  have hword := hword hne fun h => hfront h.2
  have hmem : ∀ i ∈ word, (i == Item.sep) = false :=
    fun i hi => beq_eq_false_iff_ne.mpr fun h => hsep (h ▸ hi)
  have hkeep : ∀ l, (word :: l).filter (· ≠ []) = word :: l.filter (· ≠ []) :=
    fun l => List.filter_cons_of_pos (decide_eq_true hword)
  rcases takeWord_rest false line with hrest | ⟨hq, hrest⟩
  · rw [hrest] at hitems ⊢
    have hsplit : (items false line).splitOn .sep = [word] := by
      have hnil : ∀ b, items b [] = [] := fun _ => rfl
      rw [hitems, hnil, List.append_nil]
      exact List.splitOnP_eq_singleton hmem
    rw [words, hsplit, hkeep, List.map_cons, hlits]
    rfl
  · obtain ⟨r, hr⟩ := List.head?_eq_some_iff.mp hrest
    rw [hq, hr] at hitems
    have hsplit : (items false line).splitOn .sep = word :: (items false r).splitOn .sep := by
      rw [hitems, items_blank]
      exact List.splitOnP_append_cons_of_forall_mem (p := fun c => c == Item.sep) hmem .sep
        (beq_self_eq_true _) _
    rw [words, hsplit, hkeep, List.map_cons, hlits, hr, words_blank]
    rfl

/-! ## The tokeniser meets the grammar -/

/-- A byte that has been read is stale, so the bytes behind what is written are not empty. -/
theorem stale (g : Str) (c : UInt8) : ∃ x g', g ++ [c] = x :: g' :=
  List.exists_cons_of_ne_nil (List.append_ne_nil_of_right_ne_nil g (List.cons_ne_nil c []))

/-- The loop within a word writes the front word over what it has read. -/
theorem copyWord_spec (q : Bool) (line : Str) (h0 : 0 ∉ line) (h : s.At w g (line ++ [0]))
    (hn : line.length < n) :
    ∃ t g', copyWord n q s = some ((takeWord q line).2.1, t) ∧
      t.At (w ++ (takeWord q line).1) g' ((takeWord q line).2.2 ++ [0]) ∧
      t.input < t.seen := by
  -- by the cases of a word: space, quote, backslash at the end, backslash, any other byte
  fun_induction takeWord q line generalizing s w g n with
  | case1 q =>
    obtain ⟨n, rfl⟩ := Nat.exists_eq_add_one_of_ne_zero (Nat.ne_zero_of_lt hn)
    obtain ⟨t, hpeek, ht, hseen, -⟩ := h.peek
    refine ⟨t, g, ?_, by simpa using ht, hseen⟩
    simp [copyWord, hpeek]
  | case2 q c line hb =>
    obtain ⟨n, rfl⟩ := Nat.exists_eq_add_one_of_ne_zero (Nat.ne_zero_of_lt hn)
    obtain ⟨t, hpeek, ht, hseen, -⟩ := h.peek
    refine ⟨t, g, ?_, by simpa using ht, hseen⟩
    simp [copyWord, hpeek, hb]
  | case3 q line hb ih =>
    obtain ⟨n, rfl⟩ := Nat.exists_eq_add_one_of_ne_zero (Nat.ne_zero_of_lt hn)
    obtain ⟨t, hpeek, ht, hseen, -⟩ := h.peek
    obtain ⟨u, g', hcopy, hu⟩ :=
      ih (fun hm => h0 (List.mem_cons_of_mem _ hm)) (ht.advance hseen) (Nat.lt_of_succ_lt_succ hn)
    refine ⟨u, g', ?_, hu⟩
    rw [copyWord, hpeek, ← hcopy]
    simp only [Option.bind_eq_bind, Option.bind_some]
    rw [if_neg (not_or.mpr ⟨by decide, hb⟩), if_pos trivial]
  | case4 q hb hq =>
    obtain ⟨n, rfl⟩ := Nat.exists_eq_add_one_of_ne_zero (Nat.ne_zero_of_lt hn)
    obtain ⟨t, hpeek, ht, hseen, -⟩ := h.peek
    obtain ⟨n, rfl⟩ :=
      Nat.exists_eq_add_one_of_ne_zero (Nat.ne_zero_of_lt (Nat.lt_of_succ_lt_succ hn))
    obtain ⟨u, hpeek', hu, hseen', -⟩ := (ht.advance hseen).peek
    obtain ⟨v, hpeek'', hv, hseen'', -⟩ := hu.peek
    refine ⟨v, g ++ [chBackslash], ?_, by simpa using hv, hseen''⟩
    rw [copyWord, hpeek]
    simp only [Option.bind_eq_bind, Option.bind_some]
    rw [if_neg (not_or.mpr ⟨by decide, hb⟩), if_neg hq, if_pos trivial, hpeek',
      Option.bind_some, if_pos rfl]
    simp [copyWord, hpeek'']
  | case5 q d line hb hq ih =>
    obtain ⟨n, rfl⟩ := Nat.exists_eq_add_one_of_ne_zero (Nat.ne_zero_of_lt hn)
    have hd : d ≠ 0 := fun hd => h0 (hd ▸ List.mem_cons_of_mem _ List.mem_cons_self)
    obtain ⟨t, hpeek, ht, hseen, -⟩ := h.peek
    obtain ⟨u, hpeek', hu, hseen', -⟩ := (ht.advance hseen).peek
    obtain ⟨x, g', hg⟩ := stale (g ++ [chBackslash]) d
    obtain ⟨v, hput, hv, -⟩ := (hg ▸ hu.advance hseen').put d
    obtain ⟨z, g'', hcopy, hz, hzs⟩ :=
      ih (fun hm => h0 (List.mem_cons_of_mem _ (List.mem_cons_of_mem _ hm))) hv
      (Nat.lt_of_succ_lt (Nat.lt_of_succ_lt_succ hn))
    refine ⟨z, g'', ?_, by simpa using hz, hzs⟩
    rw [copyWord, hpeek, ← hcopy]
    simp only [Option.bind_eq_bind, Option.bind_some]
    rw [if_neg (not_or.mpr ⟨by decide, hb⟩), if_neg hq, if_pos trivial, hpeek', Option.bind_some,
      if_neg hd, hput, Option.bind_some]
  | case6 q c line hb hq hbs ih =>
    obtain ⟨n, rfl⟩ := Nat.exists_eq_add_one_of_ne_zero (Nat.ne_zero_of_lt hn)
    have hc : c ≠ 0 := fun hc => h0 (hc ▸ List.mem_cons_self)
    obtain ⟨t, hpeek, ht, hseen, -⟩ := h.peek
    obtain ⟨x, g', hg⟩ := stale g c
    obtain ⟨v, hput, hv, -⟩ := (hg ▸ ht.advance hseen).put c
    obtain ⟨z, g'', hcopy, hz, hzs⟩ :=
      ih (fun hm => h0 (List.mem_cons_of_mem _ hm)) hv (Nat.lt_of_succ_lt_succ hn)
    refine ⟨z, g'', ?_, by simpa using hz, hzs⟩
    rw [copyWord, hpeek, ← hcopy]
    simp only [Option.bind_eq_bind, Option.bind_some]
    rw [if_neg (not_or.mpr ⟨hc, hb⟩), if_neg hq, if_neg hbs, hput, Option.bind_some]

/-- The blanks behind a word become stale. -/
theorem skipBlanks_spec (line : Str) (h : s.At w g (line ++ [0])) (hn : line.length < n) :
    ∃ t g', skipBlanks n s = some t ∧ t.At w g' (line.dropWhile (· = chBlank) ++ [0]) ∧
      t.input < t.seen ∧
      (line.head? = some chBlank → g' ≠ []) ∧ (g ≠ [] → g' ≠ []) := by
  induction line generalizing s g n with
  | nil =>
    obtain ⟨n, rfl⟩ := Nat.exists_eq_add_one_of_ne_zero (Nat.ne_zero_of_lt hn)
    obtain ⟨t, hpeek, ht, hseen, -⟩ := h.peek
    refine ⟨t, g, ?_, ht, hseen, nofun, id⟩
    have h0 : (0 : UInt8) ≠ chBlank := by decide
    rw [skipBlanks, hpeek]
    simp only [Option.bind_eq_bind, Option.bind_some]
    rw [if_neg h0]
  | cons c line ih =>
    obtain ⟨n, rfl⟩ := Nat.exists_eq_add_one_of_ne_zero (Nat.ne_zero_of_lt hn)
    obtain ⟨t, hpeek, ht, hseen, -⟩ := h.peek
    by_cases hc : c = chBlank
    · obtain ⟨u, g', hskip, hu, huseen, -, hg'⟩ := ih (ht.advance hseen) (Nat.lt_of_succ_lt_succ hn)
      have hne : g' ≠ [] := hg' (List.append_ne_nil_of_right_ne_nil g (List.cons_ne_nil c []))
      refine ⟨u, g', ?_, ?_, huseen, fun _ => hne, fun _ => hne⟩
      · rw [skipBlanks, hpeek, ← hskip]
        exact if_pos hc
      · rwa [List.dropWhile_cons_of_pos (by simpa using hc)]
    · refine ⟨t, g, ?_, ?_, hseen, fun hb => absurd (Option.some.inj hb) hc, id⟩
      · rw [skipBlanks, hpeek]
        exact if_neg hc
      · rwa [List.dropWhile_cons_of_neg (by simpa using hc)]

/-- The places `ps` of the words `us` in what has been written. -/
structure Places (ps : List Nat) (w : Str) (us : List Str) : Prop where
  words : ps.map (fun p => cstr (w.drop p)) = us
  ends : ∀ p ∈ ps, 0 ∈ w.drop p

variable {ps : List Nat} {us : List Str}

theorem Places.append (h : Places ps w us) (v : Str) : Places ps (w ++ v) us := by
  have hdrop : ∀ p ∈ ps, (w ++ v).drop p = w.drop p ++ v := by
    intro p hp
    have hlen : p < w.length := by
      by_contra hlen
      have hend := h.ends p hp
      rw [List.drop_eq_nil_of_le (Nat.le_of_not_lt hlen)] at hend
      exact List.not_mem_nil hend
    rw [List.drop_append_of_le_length (Nat.le_of_lt hlen)]
  constructor
  · rw [← h.words]
    refine List.map_congr_left fun p hp => ?_
    rw [hdrop p hp, cstr_ends (h.ends p hp)]
  · intro p hp
    rw [hdrop p hp]
    exact List.mem_append_left _ (h.ends p hp)

/-- One more word has been written, with its NUL. -/
theorem Places.add (h : Places ps w us) {word : Str} (h0 : 0 ∉ word) :
    Places (ps ++ [w.length]) (w ++ word ++ [0]) (us ++ [word]) := by
  have hlater : Places ps (w ++ word ++ [0]) us := (h.append word).append [0]
  have hword : (w ++ word ++ [0]).drop w.length = word ++ [0] := by
    rw [List.append_assoc, List.drop_left]
  constructor
  · rw [List.map_append, hlater.words, List.map_singleton, hword, cstr_word h0]
  · intro p hp
    rcases List.mem_append.mp hp with hp | hp
    · exact hlater.ends p hp
    · rw [List.mem_singleton.mp hp, hword]
      exact List.mem_append_right _ List.mem_cons_self

/-- The loop ends where the input does. -/
theorem wordsLoop_end (fuel : Nat) (q : Bool) (hend : s.mem[s.input]? = some 0)
    (hp : Places ps s.mem us) (hn : 0 < n) :
    ∃ ps' t, wordsLoop fuel n q ps s = some (ps', t) ∧ Places ps' t.mem us := by
  obtain ⟨n, rfl⟩ := Nat.exists_eq_add_one_of_ne_zero (Nat.ne_zero_of_lt hn)
  refine ⟨ps, { s with seen := max s.seen (s.input + 1) }, ?_, hp⟩
  rw [wordsLoop, Scanner.peek, hend]
  rfl

theorem wordsLoop_spec (line : Str) {fuel : Nat} (h0 : 0 ∉ line) (h : s.At w g (line ++ [0]))
    (hfront : line.head? ≠ some chBlank)
    (hp : Places ps w us) (hfuel : line.length < fuel) (hn : line.length < n) :
    ∃ ps' t, wordsLoop fuel n false ps s = some (ps', t) ∧ Places ps' t.mem (us ++ words line) := by
  -- by induction on what is left of the line, since every word takes at least one byte of it
  induction hlen : line.length using Nat.strong_induction_on generalizing line s w g ps us n with
  | _ k ih =>
    subst hlen
    cases line with
    | nil =>
      have hmem : Places ps s.mem us := by
        rw [h.mem]
        exact (hp.append g).append _
      rw [words_nil, List.append_nil]
      exact wordsLoop_end fuel false h.last hmem hn
    | cons c line =>
      obtain ⟨n, rfl⟩ := Nat.exists_eq_add_one_of_ne_zero (Nat.ne_zero_of_lt hn)
      have hc : c ≠ 0 := fun hc => h0 (hc ▸ List.mem_cons_self)
      have hword : 0 ∉ (takeWord false (c :: line)).1 := fun hm => h0 (takeWord_subset false _ 0 hm)
      have hsuffix := takeWord_suffix false (c :: line)
      have hshorter := takeWord_shorter (List.cons_ne_nil c line) hfront
      have hends := takeWord_rest false (c :: line)
      rw [words_eq (List.cons_ne_nil c line) hfront]
      obtain ⟨s₁, hpeek, h₁, -⟩ := h.peek
      obtain ⟨s₂, g₂, hcopy, h₂, -⟩ := copyWord_spec false (c :: line) h0 h₁ hfuel
      obtain ⟨s₃, g₃, hskip, h₃, hseen, hblank, -⟩ := skipBlanks_spec _ h₂ (hshorter.trans hfuel)
      generalize hrest : (takeWord false (c :: line)).2.2 = rest at *
      generalize hw : (takeWord false (c :: line)).1 = word at *
      generalize hq : (takeWord false (c :: line)).2.1 = q at *
      have hptr : s₁.ptr = w.length := h₁.ptr
      have hloop : ∀ s₄, s₃.put 0 = some s₄ → wordsLoop fuel (n + 1) false ps s =
          wordsLoop fuel n q (ps ++ [w.length]) s₄ := by
        intro s₄ hput
        rw [wordsLoop, hpeek, ← hptr]
        simp only [Option.bind_eq_bind, Option.bind_some]
        rw [if_neg hc, hcopy, Option.bind_some, hskip, Option.bind_some, hput, Option.bind_some]
      have hadd : us ++ word :: words rest = us ++ [word] ++ words rest := by
        rw [List.append_assoc, List.singleton_append]
      have hp' := hp.add hword
      have hn' : rest.length < n := lt_of_lt_of_le hshorter (Nat.le_of_lt_succ hn)
      rw [hadd]
      rcases hends with rfl | ⟨rfl, hb⟩
      · obtain ⟨s₄, v, hput, hmem, hend⟩ := h₃.close hseen
        rw [hloop s₄ hput, words_nil, List.append_nil]
        exact wordsLoop_end fuel q hend (hmem ▸ hp'.append v) (Nat.zero_lt_of_lt hn')
      · obtain ⟨x, g₄, rfl⟩ := List.exists_cons_of_ne_nil (hblank hb)
        obtain ⟨s₄, hput, h₄, -⟩ := h₃.put 0
        have hle : (rest.dropWhile (· = chBlank)).length ≤ rest.length :=
          (List.dropWhile_suffix _).length_le
        rw [hloop s₄ hput, ← words_dropBlanks rest]
        exact ih _ (lt_of_le_of_lt hle hshorter) _ (fun hm =>
          h0 (hsuffix.subset ((List.dropWhile_suffix _).subset hm))) h₄ (dropBlanks_front rest)
          hp' (lt_of_le_of_lt hle (hshorter.trans hfuel)) (lt_of_le_of_lt hle hn') rfl

/-- The words of the grammar are found, and nothing is written over unread. -/
theorem parseIntoWords_spec (h0 : 0 ∉ line) :
    ∃ r, parseIntoWords line = some r ∧ argvOf r = words line := by
  have hstart : Scanner.At ⟨line ++ [0], 0, 0, 0⟩ [] [] (line ++ [0]) := ⟨rfl, rfl, rfl, le_refl 0⟩
  have hfuel : line.length < line.length + 2 := Nat.lt_add_of_pos_right Nat.two_pos
  obtain ⟨s, g, hskip, hs, -⟩ := skipBlanks_spec line hstart hfuel
  have hle : (line.dropWhile (· = chBlank)).length ≤ line.length :=
    (List.dropWhile_suffix _).length_le
  have hnone : Places [] [] [] := ⟨rfl, nofun⟩
  obtain ⟨ps, t, hloop, hps⟩ :=
    wordsLoop_spec _ (fun hm => h0 ((List.dropWhile_suffix _).subset hm)) hs (dropBlanks_front line)
    hnone (lt_of_le_of_lt hle hfuel) (lt_of_le_of_lt hle hfuel)
  refine ⟨(ps, t.mem), ?_, ?_⟩
  · rw [parseIntoWords]
    simp only [Option.bind_eq_bind]
    rw [hskip, Option.bind_some, hloop, Option.bind_some]
    rfl
  · rw [argvOf, hps.words, List.nil_append, words_dropBlanks]

end Net
end NuMoo
