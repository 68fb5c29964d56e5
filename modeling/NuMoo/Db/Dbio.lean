import NuMoo.Code.Lex
import NuMoo.Lib.Decimal
import NuMoo.Lib.Reader

/-!
# The text of the database file

`db_io.c`: numbers, strings and values, as the dump writes them and as the load reads them back. A
string stands on a line of its own; a newline or a carriage return in it is written as a NUL and a
letter. The reader takes strings in pieces of the size of its buffer.

A reader fails where the source goes on with what a variable or a buffer held before.

Results:
1. `dbioReadNum_spec`, `dbioReadString_spec`: numbers and strings.
2. `scanf_format`, `scanf_num`: formats.
3. `dbioReadVar_spec`: values.
-/

namespace NuMoo

open Decimal

/-- A value of type `Num` or `Objid`. -/
def IsNum (n : Int) : Prop := -2 ^ 63 ≤ n ∧ n < 2 ^ 63

/-- A value of type `int`. -/
def IsInt (n : Int) : Prop := -2 ^ 31 ≤ n ∧ n < 2 ^ 31

/-- A number stored into a variable of type `int`. -/
def toInt (n : Int) : Int := n.bmod (2 ^ 32)

/-- The error codes in the order of their numbers. -/
def ErrCode.all : List ErrCode :=
  [.E_NONE, .E_TYPE, .E_DIV, .E_PERM, .E_PROPNF, .E_VERBNF, .E_VARNF, .E_INVIND, .E_RECMOVE,
    .E_MAXREC, .E_RANGE,
    .E_ARGS, .E_NACC, .E_INVARG, .E_QUOTA, .E_FLOAT]

/-- The number of an error code. -/
def ErrCode.num (e : ErrCode) : Nat := ErrCode.all.idxOf e

/-- `v.err` after a number was stored into `v.num`. -/
def ErrCode.ofNum (n : Int) : Option ErrCode := ErrCode.all[(n % 2 ^ 32).toNat]?

/-- `var_type`, without the flag for types that have external data. -/
inductive VarType where
  | TYPE_INT | TYPE_OBJ | TYPE_STR | TYPE_ERR | TYPE_LIST | TYPE_CLEAR | TYPE_NONE
  | TYPE_CATCH | TYPE_FINALLY
  | TYPE_FLOAT | TYPE_WAIF
deriving DecidableEq, Repr

/-- The types in the order of their numbers. -/
def VarType.all : List VarType :=
  [.TYPE_INT, .TYPE_OBJ, .TYPE_STR, .TYPE_ERR, .TYPE_LIST, .TYPE_CLEAR, .TYPE_NONE,
    .TYPE_CATCH, .TYPE_FINALLY,
    .TYPE_FLOAT, .TYPE_WAIF]

/-- The number of a type. -/
def VarType.num (t : VarType) : Nat := VarType.all.idxOf t

/-- The type with a number. -/
def VarType.ofNum (n : Int) : Option VarType := if 0 ≤ n then VarType.all[n.toNat]? else none

/-- `TYPE_ANY` -/
def TYPE_ANY : Int := -1

/-- What `db_io.c` leaves to others: `printf` and `strtod` for floating-point numbers, and
`waif.c`. -/
structure DbioEnv where
  printFloat : UInt64 → Str
  strtod : Str → UInt64
  writeWaif : Nat → Str
  readWaif : Reader UInt8 Nat

/-! ## Output -/

/-- `dbio_write_num` -/
def dbioWriteNum (n : Int) : Str := text n ++ [0x0a]

/-- `dbio_write_objid` -/
def dbioWriteObjid (oid : Objid) : Str := dbioWriteNum oid

/-- `dbio_write_string` -/
def dbioWriteString : Str → Str
  | [] => [0x0a]
  | c :: s =>
    if c = 0 then [0x0a]
    else if c = 0x0a then 0 :: 0x6e :: dbioWriteString s
    else if c = 0x0d then 0 :: 0x72 :: dbioWriteString s
    else c :: dbioWriteString s

section Values

variable (env : DbioEnv)

mutual

/-- `dbio_write_var` -/
def dbioWriteVar : Var → Str
  | .clear => dbioWriteNum VarType.TYPE_CLEAR.num
  | .none => dbioWriteNum VarType.TYPE_NONE.num
  | .str s => dbioWriteNum VarType.TYPE_STR.num ++ dbioWriteString s
  | .obj n => dbioWriteNum VarType.TYPE_OBJ.num ++ dbioWriteNum n
  | .err e => dbioWriteNum VarType.TYPE_ERR.num ++ dbioWriteNum e.num
  | .int n => dbioWriteNum VarType.TYPE_INT.num ++ dbioWriteNum n
  | .catch n => dbioWriteNum VarType.TYPE_CATCH.num ++ dbioWriteNum n
  | .finally n => dbioWriteNum VarType.TYPE_FINALLY.num ++ dbioWriteNum n
  | .float bits => dbioWriteNum VarType.TYPE_FLOAT.num ++ (env.printFloat bits ++ [0x0a])
  | .list vs => dbioWriteNum VarType.TYPE_LIST.num ++ (dbioWriteNum vs.length ++ dbioWriteVars vs)
  | .waif a => dbioWriteNum VarType.TYPE_WAIF.num ++ env.writeWaif a

/-- The elements of a list. -/
def dbioWriteVars : List Var → Str
  | [] => []
  | v :: vs => dbioWriteVar v ++ dbioWriteVars vs

end

end Values

/-! ## Input -/

/-- The value of a number in the range of `long long`, as `strtoll` bounds it. -/
def boundNum (n : Int) : Int := max (-2 ^ 63) (min n (2 ^ 63 - 1))

/-- `strtoll` for base 10; a text without a number counts as zero. -/
def strtoll (s : Str) : Int := boundNum ((scan (s.dropWhile isSpace)).1.getD 0)

/-- What the format of `scanf` is made of; `num` is `%ld` and `unsigned` is `%u`. -/
inductive Directive where
  | space
  | lit (c : UInt8)
  | num
  | unsigned
deriving DecidableEq, Repr

/-- A format that has no conversions. -/
def format (s : Str) : List Directive := s.map fun c => if isSpace c then .space else .lit c

/-- A number as `%u` stores it. -/
def storeUnsigned (n : Int) : Int := if n.natAbs < 2 ^ 64 then n % 2 ^ 32 else 2 ^ 32 - 1

/-- The numbers that `scanf` assigns, and what it leaves of the input. -/
def scanf : List Directive → Str → List Int × Str
  | [], inp => ([], inp)
  | .space :: ds, inp => scanf ds (inp.dropWhile isSpace)
  | .lit _ :: _, [] => ([], [])
  | .lit c :: ds, b :: inp => if b = c then scanf ds inp else ([], b :: inp)
  | .num :: ds, inp =>
    match scan (inp.dropWhile isSpace) with
    | (none, inp) => ([], inp)
    | (some n, inp) => (boundNum n :: (scanf ds inp).1, (scanf ds inp).2)
  | .unsigned :: ds, inp =>
    match scan (inp.dropWhile isSpace) with
    | (none, inp) => ([], inp)
    | (some n, inp) => (storeUnsigned n :: (scanf ds inp).1, (scanf ds inp).2)

/-- `dbio_scanf` -/
def dbioScanf (ds : List Directive) : Reader UInt8 (List Int) := fun inp => some (scanf ds inp)

/-- `fgets` with room for so many characters and the NUL; nothing is stored at the end of the
file. -/
def fgets (room : Nat) : Reader UInt8 Str :=
  fun inp => if inp = [] then none else some (go room inp)
where
  go : Nat → Str → Str × Str
    | 0, inp => ([], inp)
    | _ + 1, [] => ([], [])
    | n + 1, c :: inp => if c = 0x0a then ([0x0a], inp) else (c :: (go n inp).1, (go n inp).2)

/-- `dbio_read_num` -/
def dbioReadNum : Reader UInt8 Int := do
  let s ← fgets 21
  return strtoll s

/-- `dbio_read_objid` -/
def dbioReadObjid : Reader UInt8 Objid := dbioReadNum

/-- The loop of `dbio_read_line`, with room for so many more characters: the characters that it
stores, and whether it ran out of room. -/
def readChars : Nat → Str → Option ((Str × Bool) × Str)
  | 0, inp => some (([], true), inp)
  | _ + 1, [] => some (([], false), [])
  | n + 1, c :: inp =>
    if c = 0x0a then some (([0x0a], false), inp)
    else if c = 0 then
      match inp with
      | [] => none
      | e :: inp =>
        if e = 0x6e then (readChars n inp).map fun r => ((0x0a :: r.1.1, r.1.2), r.2)
        else if e = 0x72 then (readChars n inp).map fun r => ((0x0d :: r.1.1, r.1.2), r.2)
        else none
    else (readChars n inp).map fun r => ((c :: r.1.1, r.1.2), r.2)

/-- `dbio_read_line` for a buffer of size `n`, with its result 1 as `true` and 0 as `false`. -/
def dbioReadLine (n : Nat) : Reader UInt8 (Str × Bool) :=
  fun inp => if inp = [] then none else readChars (n - 1) inp

/-- The loop of `dbio_read_string`. -/
def readString : Nat → Reader UInt8 Str
  | 0 => failure
  | n + 1 => do
    let (buffer, full) ← dbioReadLine 1024
    if buffer.length = 1023 ∧ full then
      let s ← readString n
      return buffer ++ s
    else return if buffer.getLast? = some 0x0a then buffer.dropLast else buffer

/-- `dbio_read_string` and `dbio_read_string_intern`, which yield the same text. -/
def dbioReadString : Reader UInt8 Str := fun inp => readString (inp.length + 1) inp

section Values

variable (env : DbioEnv)

/-- The `switch` of `dbio_read_var`, with a reader for the elements of lists. -/
def readVarOf (element : Reader UInt8 Var) : Option VarType → Reader UInt8 Var
  | some .TYPE_CLEAR => return .clear
  | some .TYPE_NONE => return .none
  | some .TYPE_STR => return .str (← dbioReadString)
  | some .TYPE_OBJ => return .obj (← dbioReadNum)
  | some .TYPE_ERR => do
    let num ← dbioReadNum
    match ErrCode.ofNum num with
    | some e => return .err e
    | none => failure
  | some .TYPE_INT => return .int (← dbioReadNum)
  | some .TYPE_CATCH => return .catch (← dbioReadNum)
  | some .TYPE_FINALLY => return .finally (← dbioReadNum)
  | some .TYPE_FLOAT => return .float (env.strtod (← fgets 39))
  | some .TYPE_LIST => do
    let l ← dbioReadNum
    if toInt l < 0 then failure
    else return .list (← Reader.many element (toInt l).toNat)
  | some .TYPE_WAIF => return .waif (← env.readWaif)
  | none => return .int 0

variable (dbio_input_version : Nat)

/-- `dbio_read_var`, to a depth of `n` lists. -/
def readVar : Nat → Reader UInt8 Var
  | 0 => failure
  | n + 1 => do
    let l ← dbioReadNum
    let l : Int := if toInt l = TYPE_ANY ∧ dbio_input_version =
      Lex.DBVersion.DBV_Prehistory.num then VarType.TYPE_NONE.num else toInt l
    readVarOf env (readVar n) (VarType.ofNum l)

/-- `dbio_read_var` -/
def dbioReadVar : Reader UInt8 Var := fun inp => readVar env dbio_input_version inp.length inp

end Values

/-! ## Numbers -/

theorem boundNum_eq {n : Int} (h : IsNum n) : boundNum n = n := by
  rw [boundNum, Int.min_eq_left (Int.le_sub_one_of_lt h.2), Int.max_eq_right h.1]

theorem toInt_eq {n : Int} (h : IsInt n) : toInt n = n := by
  rw [toInt, Int.bmod_eq_of_le] <;> have := h.1 <;> have := h.2 <;> omega

theorem IsInt.isNum {n : Int} (h : IsInt n) : IsNum n := by
  have := h.1
  have := h.2
  constructor <;> omega

theorem fgets_go_line {room : Nat} {l : Str} (hl : 0x0a ∉ l) (h : l.length < room) (rest : Str) :
    fgets.go room (l ++ 0x0a :: rest) = (l ++ [0x0a], rest) := by
  induction l generalizing room with
  | nil =>
    cases room with
    | zero => exact absurd h (Nat.not_lt_zero _)
    | succ n => rfl
  | cons c l ih =>
    obtain ⟨hc, hl⟩ := not_or.mp (mt List.mem_cons.mpr hl)
    cases room with
    | zero => exact absurd h (Nat.not_lt_zero _)
    | succ n =>
      rw [List.cons_append, fgets.go, if_neg (Ne.symm hc), ih hl (Nat.lt_of_succ_lt_succ h)]
      rfl

/-- One line, which fits. -/
theorem fgets_spec {room : Nat} {l : Str} (hl : 0x0a ∉ l) (h : l.length < room) :
    Reads (fgets room) (l ++ [0x0a]) (· = l ++ [0x0a]) := by
  intro rest
  refine ⟨_, ?_, rfl⟩
  have hne : l ++ [0x0a] ++ rest ≠ [] := by simp
  rw [fgets, if_neg hne, List.append_assoc, List.singleton_append, fgets_go_line hl h]

theorem ends_newline (rest : Str) : Ends (0x0a :: rest) := by
  rintro c ⟨⟩
  decide

theorem newline_not_mem_text (n : Int) : 0x0a ∉ text n := by
  intro h
  rcases mem_text h with h | h <;> exact absurd h (by decide)

theorem strtoll_text {n : Int} (h : IsNum n) : strtoll (text n ++ [0x0a]) = n := by
  rw [strtoll, dropWhile_isSpace_text, scan_text n (ends_newline []),
    Option.getD_some, boundNum_eq h]

theorem dbioReadNum_spec {n : Int} (h : IsNum n) : Reads dbioReadNum (dbioWriteNum n) (· = n) := by
  have habs : n.natAbs < 10 ^ 19 := by
    have := h.1
    have := h.2
    omega
  have hlen := length_text_le (by decide) habs
  refine (fgets_spec (newline_not_mem_text n) (Nat.lt_succ_of_le hlen)).map ?_
  rintro s rfl
  exact strtoll_text h

/-! ## Formats -/

/-- The text does not start with white space. -/
def Starts (l : Str) : Prop := l.dropWhile isSpace = l

theorem starts_cons {c : UInt8} (h : isSpace c = false) (l : Str) : Starts (c :: l) :=
  List.dropWhile_cons_of_neg (by rw [h]; decide)

theorem starts_text (n : Int) (rest : Str) : Starts (text n ++ rest) :=
  dropWhile_isSpace_text n rest

/-- No two blanks stand together, and none stands at the end. -/
def tight : Str → Bool
  | [] => true
  | [c] => !isSpace c
  | c :: d :: s => (!isSpace c || !isSpace d) && tight (d :: s)

theorem scanf_space (ds : List Directive) (inp : Str) :
    scanf (.space :: ds) inp = scanf ds (inp.dropWhile isSpace) := rfl

theorem scanf_lit (c : UInt8) (ds : List Directive) (inp : Str) :
    scanf (.lit c :: ds) (c :: inp) = scanf ds inp := if_pos rfl

/-- A format matches itself. -/
theorem scanf_format {s : Str} (h : tight s = true) (ds : List Directive) (rest : Str) :
    scanf (format s ++ ds) (s ++ rest) = scanf ds rest := by
  induction s with
  | nil => rfl
  | cons c s ih =>
    have htail : tight s = true := by
      cases s with
      | nil => rfl
      | cons d s => exact (Bool.and_eq_true_iff.mp h).2
    unfold format at ih ⊢
    rw [List.map_cons, List.cons_append, List.cons_append]
    split
    · next hc =>
      -- a blank, and the character after it is none
      have hstart : Starts (s ++ rest) := by
        cases s with
        | nil =>
          rw [tight, hc] at h
          cases h
        | cons d s =>
          rw [tight, hc] at h
          exact starts_cons (by simpa using (Bool.and_eq_true_iff.mp h).1) _
      rw [scanf_space, List.dropWhile_cons_of_pos hc, hstart]
      exact ih htail
    · rw [scanf_lit]
      exact ih htail

theorem scanf_newline {rest : Str} (h : Starts rest) (ds : List Directive) :
    scanf (.space :: ds) (0x0a :: rest) = scanf ds rest := by
  rw [scanf_space, List.dropWhile_cons_of_pos (by decide), h]

theorem scanf_blank {rest : Str} (h : Starts rest) (ds : List Directive) :
    scanf (.space :: ds) (0x20 :: rest) = scanf ds rest := by
  rw [scanf_space, List.dropWhile_cons_of_pos (by decide), h]

theorem scanf_num {n : Int} (h : IsNum n) {rest : Str} (he : Ends rest) (ds : List Directive) :
    scanf (.num :: ds) (text n ++ rest) = (n :: (scanf ds rest).1, (scanf ds rest).2) := by
  have hscan : scan ((text n ++ rest).dropWhile isSpace) = (some n, rest) := by
    rw [starts_text, scan_text n he]
  simp only [scanf, hscan, boundNum_eq h]

theorem scanf_unsigned {n : Int} (h0 : 0 ≤ n) (h : n < 2 ^ 32) {rest : Str} (he : Ends rest)
    (ds : List Directive) :
    scanf (.unsigned :: ds) (text n ++ rest) = (n :: (scanf ds rest).1, (scanf ds rest).2) := by
  have hlt : n.natAbs < 2 ^ 64 := by omega
  rw [scanf, starts_text, scan_text n he]
  dsimp only
  rw [storeUnsigned, if_pos hlt, Int.emod_eq_of_lt h0 h]

/-! ## Strings -/

/-- What `dbio_read_line` finds at the front of a string that was written: all of it and the end of
the line, or as much as there is room for. -/
theorem readChars_write {s : Str} (hs : 0 ∉ s) (n : Nat) (rest : Str) :
    readChars n (dbioWriteString s ++ rest) =
      if s.length < n then some ((s ++ [0x0a], false), rest)
      else some ((s.take n, true), dbioWriteString (s.drop n) ++ rest) := by
  induction n generalizing s with
  | zero => rfl
  | succ n ih =>
    cases s with
    | nil => rfl
    | cons c s =>
      obtain ⟨hc, hs⟩ := not_or.mp (mt List.mem_cons.mpr hs)
      have ih := ih hs
      have hlt : (c :: s).length < n + 1 ↔ s.length < n := Nat.succ_lt_succ_iff
      -- one turn of the loop: the pieces of the rest with `c` in front
      have hturn : readChars (n + 1) (dbioWriteString (c :: s) ++ rest) =
          (readChars n (dbioWriteString s ++ rest)).map fun r => ((c :: r.1.1, r.1.2), r.2) := by
        rw [dbioWriteString, if_neg (Ne.symm hc)]
        split
        · next h => rw [h]; rfl
        · split
          · next h => rw [h]; rfl
          · next h _ =>
            rw [List.cons_append, readChars.eq_def]
            dsimp only
            rw [if_neg h, if_neg (Ne.symm hc)]
      rw [hturn, ih]
      by_cases h : s.length < n
      · rw [if_pos h, if_pos (hlt.mpr h)]
        rfl
      · rw [if_neg h, if_neg fun h' => h (hlt.mp h')]
        rfl

theorem dbioWriteString_ne_nil (s : Str) : dbioWriteString s ≠ [] := by
  cases s with
  | nil => exact List.cons_ne_nil _ _
  | cons c s =>
    unfold dbioWriteString
    split
    · exact List.cons_ne_nil _ _
    · split
      · exact List.cons_ne_nil _ _
      · split <;> exact List.cons_ne_nil _ _

theorem dbioReadLine_write (s : Str) (n : Nat) (rest : Str) :
    dbioReadLine n (dbioWriteString s ++ rest) = readChars (n - 1) (dbioWriteString s ++ rest) :=
  if_neg fun h => dbioWriteString_ne_nil s (List.append_eq_nil_iff.mp h).1

theorem readString_spec {n : Nat} {s : Str} (hs : 0 ∉ s) (hn : s.length < n) (rest : Str) :
    readString n (dbioWriteString s ++ rest) = some (s, rest) := by
  induction n generalizing s with
  | zero => exact absurd hn (Nat.not_lt_zero _)
  | succ n ih =>
    have hline := (dbioReadLine_write s 1024 rest).trans (readChars_write hs 1023 rest)
    unfold readString
    by_cases h : s.length < 1023
    · rw [if_pos h] at hline
      rw [Reader.bind_eq hline]
      dsimp only
      rw [if_neg fun h => Bool.false_ne_true h.2, List.getLast?_concat, if_pos rfl,
        List.dropLast_concat]
      rfl
    · -- the buffer is full, and the rest of the string follows
      rw [if_neg h] at hline
      have hlen : (s.take 1023).length = 1023 := by
        rw [List.length_take]
        exact Nat.min_eq_left (Nat.le_of_not_lt h)
      have hdrop : (s.drop 1023).length < n := by
        rw [List.length_drop]
        omega
      have hrest := ih (fun hm => hs (List.mem_of_mem_drop hm)) hdrop
      rw [Reader.bind_eq hline]
      dsimp only
      rw [if_pos ⟨hlen, rfl⟩, Reader.bind_eq hrest]
      exact congrArg (fun t => some (t, rest)) (List.take_append_drop 1023 s)

theorem length_le_dbioWriteString {s : Str} (hs : 0 ∉ s) :
    s.length ≤ (dbioWriteString s).length := by
  induction s with
  | nil => exact Nat.zero_le _
  | cons c s ih =>
    obtain ⟨hc, hs⟩ := not_or.mp (mt List.mem_cons.mpr hs)
    have ih := ih hs
    unfold dbioWriteString
    rw [if_neg (Ne.symm hc)]
    split
    · exact Nat.le_succ_of_le (Nat.succ_le_succ ih)
    · split
      · exact Nat.le_succ_of_le (Nat.succ_le_succ ih)
      · exact Nat.succ_le_succ ih

theorem dbioReadString_spec {s : Str} (hs : 0 ∉ s) :
    Reads dbioReadString (dbioWriteString s) (· = s) := by
  intro rest
  refine ⟨s, readString_spec hs ?_ rest, rfl⟩
  rw [List.length_append]
  exact Nat.lt_succ_of_le (Nat.le_add_right_of_le (length_le_dbioWriteString hs))

/-! ## Values -/

/-- A value with its numbers in the ranges of their types and its strings without a NUL, and no
floating-point number and no waif in it. -/
inductive Var.Storable : Var → Prop
  | int {n : Int} : IsNum n → Storable (.int n)
  | obj {n : Objid} : IsNum n → Storable (.obj n)
  | str {s : Str} : 0 ∉ s → Storable (.str s)
  | err (e : ErrCode) : Storable (.err e)
  | list {vs : List Var} : IsInt vs.length → (∀ v ∈ vs, Storable v) → Storable (.list vs)
  | clear : Storable .clear
  | none : Storable .none
  | catch {n : Int} : IsNum n → Storable (.catch n)
  | finally {n : Int} : IsNum n → Storable (.finally n)

variable {env : DbioEnv} {dbio_input_version : Nat}

theorem dbioWriteVars_eq (vs : List Var) :
    dbioWriteVars env vs = vs.flatMap (dbioWriteVar env) := by
  induction vs with
  | nil => rfl
  | cons v vs ih => rw [dbioWriteVars, ih, List.flatMap_cons]

theorem VarType.isInt_num (t : VarType) : IsInt t.num := by cases t <;> exact ⟨by decide, by decide⟩

theorem VarType.ofNum_num (t : VarType) : VarType.ofNum t.num = some t := by cases t <;> rfl

theorem ErrCode.ofNum_num (e : ErrCode) : ErrCode.ofNum e.num = some e := by cases e <;> rfl

theorem ErrCode.isNum_num (e : ErrCode) : IsNum e.num := by cases e <;> exact ⟨by decide, by decide⟩

/-- The type of a value is read first, and decides how its data are read. -/
theorem readVar_typed {n : Nat} (t : VarType) {w : Str} {P : Var → Prop}
    (h : Reads (readVarOf env (readVar env dbio_input_version n) (some t)) w P) :
    Reads (readVar env dbio_input_version (n + 1)) (dbioWriteNum t.num ++ w) P := by
  refine (dbioReadNum_spec t.isInt_num.isNum).bind ?_
  rintro l rfl
  have hany : ¬ ((t.num : Int) = TYPE_ANY ∧ dbio_input_version =
    Lex.DBVersion.DBV_Prehistory.num) := fun h =>
    absurd h.1 (Int.ne_of_gt (Int.lt_of_lt_of_le (by decide : TYPE_ANY < 0) (Int.natCast_nonneg _)))
  dsimp only
  rw [toInt_eq t.isInt_num, if_neg hany, t.ofNum_num]
  exact h

theorem length_dbioWriteNum_pos (n : Int) : 0 < (dbioWriteNum n).length := by
  rw [dbioWriteNum, List.length_append]
  exact Nat.lt_add_left _ Nat.zero_lt_one

/-- The depth that the length of a text allows is enough, as the type alone takes a character. -/
theorem readVar_deep {v : Var} {t : VarType} {w : Str}
    (hw : dbioWriteVar env v = dbioWriteNum t.num ++ w)
    (h : ∀ n, w.length ≤ n →
      Reads (readVarOf env (readVar env dbio_input_version n) (some t)) w (· = v)) (n : Nat)
    (hn : (dbioWriteVar env v).length ≤ n) :
    Reads (readVar env dbio_input_version n) (dbioWriteVar env v) (· = v) := by
  have hpos := length_dbioWriteNum_pos t.num
  rw [hw] at hn ⊢
  rw [List.length_append] at hn
  obtain ⟨n, rfl⟩ := Nat.exists_eq_succ_of_ne_zero (n := n) (by omega)
  exact readVar_typed t (h n (by omega))

theorem forall₂_eq {α : Type} {l l' : List α} (h : List.Forall₂ (fun x y => y = x) l l') :
    l' = l := by
  induction h with
  | nil => rfl
  | cons h _ ih => rw [h, ih]

theorem length_le_flatMap {α β : Type} {f : α → List β} {l : List α} {a : α} (h : a ∈ l) :
    (f a).length ≤ (l.flatMap f).length := by
  obtain ⟨s, t, rfl⟩ := List.append_of_mem h
  rw [List.flatMap_append, List.flatMap_cons, List.length_append, List.length_append]
  exact Nat.le_add_left_of_le (Nat.le_add_right _ _)

theorem readVar_spec {v : Var} (h : v.Storable) : ∀ n, (dbioWriteVar env v).length ≤ n →
    Reads (readVar env dbio_input_version n) (dbioWriteVar env v) (· = v) := by
  induction h with
  | int h => exact readVar_deep rfl fun _ _ => (dbioReadNum_spec h).map fun _ hn => congrArg _ hn
  | obj h => exact readVar_deep rfl fun _ _ => (dbioReadNum_spec h).map fun _ hn => congrArg _ hn
  | str h => exact readVar_deep rfl fun _ _ => (dbioReadString_spec h).map fun _ hs => congrArg _ hs
  | «catch» h => exact readVar_deep rfl fun _ _ =>
    (dbioReadNum_spec h).map fun _ hn => congrArg _ hn
  | «finally» h => exact readVar_deep rfl fun _ _ =>
    (dbioReadNum_spec h).map fun _ hn => congrArg _ hn
  | clear => exact readVar_deep (t := .TYPE_CLEAR) (List.append_nil _).symm fun _ _ => .pure rfl
  | none => exact readVar_deep (t := .TYPE_NONE) (List.append_nil _).symm fun _ _ => .pure rfl
  | err e =>
    refine readVar_deep rfl fun _ _ => (dbioReadNum_spec e.isNum_num).bind_nil ?_
    rintro _ rfl
    rw [e.ofNum_num]
    exact .pure rfl
  | @list vs hlen _ ih =>
    refine readVar_deep rfl fun n hn => (dbioReadNum_spec hlen.isNum).bind ?_
    rintro _ rfl
    rw [List.length_append, dbioWriteVars_eq] at hn
    have helems := Reads.many (l := vs) fun v hv =>
      ih v hv n ((length_le_flatMap hv).trans (Nat.le_trans (Nat.le_add_left _ _) hn))
    rw [toInt_eq hlen, if_neg (Int.not_lt.mpr (Int.natCast_nonneg _)), Int.toNat_natCast,
      dbioWriteVars_eq]
    exact helems.map fun _ hl => congrArg _ (forall₂_eq hl)

theorem dbioReadVar_spec {v : Var} (h : v.Storable) :
    Reads (dbioReadVar env dbio_input_version) (dbioWriteVar env v) (· = v) := by
  intro rest
  refine readVar_spec h _ ?_ rest
  rw [List.length_append]
  exact Nat.le_add_right _ _

end NuMoo
