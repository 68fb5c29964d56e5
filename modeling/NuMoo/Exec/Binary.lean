import Mathlib.Data.List.TakeWhile
import NuMoo.Code.Value
import NuMoo.Db.Properties

/-!
# Binary strings

`raw_bytes_to_binary` and `binary_to_raw_bytes` of `utils.c`, and the built-in functions
`decode_binary` and `encode_binary` of `list.c`. A read behind the end of a string and a write
outside a list have no value.

Results:
1. `binaryToRawBytes_raw`: the bytes of a binary string are those that it was made of.
2. `binaryToRawBytes_accepts`: which strings have bytes.
3. `decodeBytes_encode`: the values of `decode_binary` stand for the bytes.
4. `binaryExact_iff`: all of it, but for strings with control characters as digits.
-/

namespace NuMoo

def chTilde : UInt8 := 126

/-- A digit of `%02x`. -/
def hexDigit (n : UInt8) : UInt8 := if n < 10 then 48 + n else 87 + n

/-- One turn of the loop of `raw_bytes_to_binary`. -/
def escapeByte (c : UInt8) : Str :=
  if 32 ≤ c ∧ c < 126 then [c] else [chTilde, hexDigit (c / 16), hexDigit (c % 16)]

/-- `raw_bytes_to_binary` -/
def rawBytesToBinary (buffer : Str) : Str := buffer.flatMap escapeByte

/-- What `binary_to_raw_bytes` takes a byte for, as a digit. -/
def digitValue (c : UInt8) : Option UInt8 :=
  -- the | 0x20 changes upper case to lower case
  let c := c ||| 0x20
  if 48 ≤ c ∧ c ≤ 57 then some (c - 48) else if 97 ≤ c ∧ c ≤ 102 then some (c - 97 + 10) else none

/-- The loop of `binary_to_raw_bytes` over the digits of an escape; the inner `none` is the return
of 0. -/
def readDigits : Nat → UInt8 → Str → Option (Option (UInt8 × Str))
  | 0, cc, ptr => some (some (cc, ptr))
  | _ + 1, _, [] => none
  | n + 1, cc, c :: ptr =>
    match digitValue c with
    | some d => readDigits n ((cc <<< 4) + d) ptr
    | none => some none

/-- The loop of `binary_to_raw_bytes` over what `ptr` points to. -/
def readBinary : Nat → Str → Str → Option (Option Str)
  | 0, _, _ => none
  | _ + 1, _, [] => none
  | n + 1, s, c :: ptr =>
    if c = 0 then some (some s)
    else if c ≠ chTilde then readBinary n (s ++ [c]) ptr
    else
      match readDigits 2 0 ptr with
      | none => none
      | some none => some none
      | some (some (cc, ptr)) => readBinary n (s ++ [cc]) ptr

/-- `binary_to_raw_bytes` -/
def binaryToRawBytes (binary : Str) : Option (Option Str) :=
  readBinary (binary.length + 1) [] (binary ++ [0])

/-- `isgraph` -/
def isgraph (c : UInt8) : Bool := 33 ≤ c && c ≤ 126

/-- The bytes that `decode_binary` puts into strings. -/
def inText (c : UInt8) : Bool := isgraph c || c = 32 || c = 9

/-- The loop of `bf_decode_binary` that counts the pieces. -/
def countPieces : Nat → Bool → Str → Nat
  | count, _, [] => count
  | count, inString, c :: bytes =>
    if inText c then countPieces (if inString then count else count + 1) true bytes
      else countPieces (count + 1) false bytes

/-- `r.v.list[count] = v` -/
def setPiece (r : List (Option Var)) (count : Nat) (v : Var) : Option (List (Option Var)) :=
  if 1 ≤ count ∧ count ≤ r.length then some (r.set (count - 1) (some v)) else none

/-- The loop of `bf_decode_binary` that builds the pieces, and the last string behind it. -/
def buildPieces : Str → Nat → Bool → Str → List (Option Var) → Option (List (Option Var))
  | [], count, inString, s, r => if inString then setPiece r count (.str s) else some r
  | c :: bytes, count, inString, s, r =>
    if inText c then buildPieces bytes count true (s ++ [c]) r
    else if inString then
      (setPiece r count (.str s)).bind fun r =>
        (setPiece r (count + 1) (.int c.toNat)).bind fun r =>
        buildPieces bytes (count + 2) false [] r
    else (setPiece r count (.int c.toNat)).bind fun r => buildPieces bytes (count + 1) false s r

/-- What `bf_decode_binary` makes of the bytes; an element that was not set has no value. -/
def decodeBytes (fully : Bool) (bytes : Str) : Option (List Var) :=
  if fully then some (bytes.map fun c => .int c.toNat)
  else (buildPieces bytes 1 false [] (List.replicate (countPieces 0 false bytes) none)).bind
    fun r => r.mapM id

/-- `bf_decode_binary` -/
def bfDecodeBinary : List Var → Option (Except ErrCode Var)
  | .str binary :: rest => (binaryToRawBytes binary).bind fun
    | none => some (.error .E_INVARG)
    | some bytes => (decodeBytes (rest.head?.any isTrue) bytes).map fun r => .ok (.list r)
  | _ => none

mutual

/-- `encode_binary`, where `none` is its result 0. -/
def encodeBinary (s : Str) : Var → Option Str
  | .int n => if n < 0 ∨ n ≥ 256 then none else some (s ++ [UInt8.ofNat n.toNat])
  | .str t => some (s ++ cstr t)
  | .list vs => encodeBinaries s vs
  | _ => none

def encodeBinaries (s : Str) : List Var → Option Str
  | [] => some s
  | v :: vs => (encodeBinary s v).bind fun s => encodeBinaries s vs

end

/-- `bf_encode_binary` -/
def bfEncodeBinary (arglist : List Var) : Except ErrCode Var :=
  match encodeBinary [] (.list arglist) with
  | some bytes => .ok (.str (rawBytesToBinary bytes))
  | none => .error .E_INVARG

/-! ## Escapes -/

def isxdigit (c : UInt8) : Bool := (48 ≤ c && c ≤ 57) || (65 ≤ c && c ≤ 70) || (97 ≤ c && c ≤ 102)

/-- A control character that the code takes for one of the digits 0 to 9. -/
def isControlDigit (c : UInt8) : Bool := 16 ≤ c && c ≤ 25

/-- Each tilde, scanning left to right, is followed by two digits. -/
def Escaped (digit : UInt8 → Bool) : Str → Prop
  | [] => True
  | c :: t =>
    if c ≠ chTilde then Escaped digit t
    else
      match t with
      | a :: b :: t => digit a = true ∧ digit b = true ∧ Escaped digit t
      | _ => False

variable {b t s ptr : Str} {c : UInt8} {n : Nat} {digit : UInt8 → Bool}

/-- A property of the bytes, checked for each. -/
theorem forall_byte {P : UInt8 → Prop} (h : ∀ n < 256, P (UInt8.ofNat n)) (c : UInt8) : P c := by
  have hc := h c.toNat c.toNat_lt
  rwa [UInt8.ofNat_toNat] at hc

set_option maxRecDepth 4000 in
theorem digitValue_isSome (c : UInt8) :
    (digitValue c).isSome = (isxdigit c || isControlDigit c) := by
  refine forall_byte (P := fun c => (digitValue c).isSome = (isxdigit c || isControlDigit c)) ?_ c
  decide

set_option maxRecDepth 4000 in
/-- The two digits of an escape are read back. -/
theorem digitValue_hexDigit (c : UInt8) : digitValue (hexDigit (c / 16)) = some (c / 16) ∧
    digitValue (hexDigit (c % 16)) = some (c % 16) ∧
    ((((0 : UInt8) <<< 4) + c / 16) <<< 4) + c % 16 = c := by
  refine forall_byte (P := fun c => digitValue (hexDigit (c / 16)) = some (c / 16) ∧
    digitValue (hexDigit (c % 16)) = some (c % 16) ∧
    ((((0 : UInt8) <<< 4) + c / 16) <<< 4) + c % 16 = c) ?_ c
  decide

set_option maxRecDepth 4000 in
theorem isxdigit_hexDigit (c : UInt8) :
    isxdigit (hexDigit (c / 16)) = true ∧ isxdigit (hexDigit (c % 16)) = true := by
  refine forall_byte (P := fun c => isxdigit (hexDigit (c / 16)) = true ∧
    isxdigit (hexDigit (c % 16)) = true) ?_ c
  decide

theorem escaped_cons_ne (h : c ≠ chTilde) (t : Str) : Escaped digit (c :: t) ↔ Escaped digit t := by
  rw [Escaped.eq_def]
  dsimp only
  rw [if_pos h]

theorem escaped_tilde (a b : UInt8) (t : Str) :
    Escaped digit (chTilde :: a :: b :: t) ↔ digit a = true ∧ digit b = true ∧ Escaped digit t := by
  rw [Escaped.eq_def]
  dsimp only
  rw [if_neg (not_not_intro rfl)]

theorem Escaped.mono {digit' : UInt8 → Bool} (h : ∀ c, digit c = true → digit' c = true)
    (ht : Escaped digit t) : Escaped digit' t := by
  fun_induction Escaped digit t with
  | case1 => trivial
  | case2 c t hc ih => exact (escaped_cons_ne hc t).mpr (ih ht)
  | case3 c hc a b t ih =>
    obtain rfl := not_not.mp hc
    exact (escaped_tilde a b t).mpr ⟨h a ht.1, h b ht.2.1, ih ht.2.2⟩
  | case4 => exact ht.elim

/-- The digits that the code reads. -/
def readsDigit (c : UInt8) : Bool := isxdigit c || isControlDigit c

theorem digitValue_none (h : readsDigit c = false) : digitValue c = none := by
  have hsome : (digitValue c).isSome = false := (digitValue_isSome c).trans h
  simpa using hsome

theorem digitValue_some (h : readsDigit c = true) : ∃ d, digitValue c = some d :=
  Option.isSome_iff_exists.mp ((digitValue_isSome c).trans h)

/-- The code reads a string to its end, or to an escape that it does not take. -/
theorem readBinary_spec (h0 : 0 ∉ t) (hn : t.length < n) :
    ∃ r, readBinary n s (t ++ [0]) = some r ∧ (r.isSome = true ↔ Escaped readsDigit t) := by
  have hend : digitValue 0 = none := by decide
  fun_induction Escaped readsDigit t generalizing s n with
  | case1 =>
    obtain ⟨n, rfl⟩ := Nat.exists_eq_add_one_of_ne_zero (Nat.ne_zero_of_lt hn)
    exact ⟨some s, rfl, by simp⟩
  | case2 c t hc ih =>
    obtain ⟨n, rfl⟩ := Nat.exists_eq_add_one_of_ne_zero (Nat.ne_zero_of_lt hn)
    obtain ⟨hc0, ht0⟩ := not_or.mp (mt List.mem_cons.mpr h0)
    obtain ⟨r, hr, hiff⟩ := ih (s := s ++ [c]) ht0 (Nat.lt_of_succ_lt_succ hn)
    refine ⟨r, ?_, hiff⟩
    rw [List.cons_append, readBinary, if_neg (Ne.symm hc0), if_pos hc, hr]
  | case3 c hc a b t ih =>
    obtain ⟨n, rfl⟩ := Nat.exists_eq_add_one_of_ne_zero (Nat.ne_zero_of_lt hn)
    obtain rfl := not_not.mp hc
    rw [List.cons_append, readBinary, if_neg (by decide), if_neg hc]
    cases ha : readsDigit a with
    | false =>
      refine ⟨none, ?_, by simp⟩
      rw [List.cons_append, readDigits, digitValue_none ha]
    | true =>
      obtain ⟨d, hd⟩ := digitValue_some ha
      cases hb : readsDigit b with
      | false =>
        refine ⟨none, ?_, by simp⟩
        rw [List.cons_append, readDigits, hd]
        dsimp only
        rw [List.cons_append, readDigits, digitValue_none hb]
      | true =>
        obtain ⟨e, he⟩ := digitValue_some hb
        -- both digits are read, and reading goes on behind them
        have ht0 : 0 ∉ t :=
          fun h => h0 (List.mem_cons_of_mem _ (List.mem_cons_of_mem _ (List.mem_cons_of_mem _ h)))
        have hn' : t.length < n := Nat.lt_of_succ_lt (Nat.lt_of_succ_lt (Nat.lt_of_succ_lt_succ hn))
        obtain ⟨r, hr, hiff⟩ := ih (s := s ++ [(((0 : UInt8) <<< 4) + d) <<< 4 + e]) ht0 hn'
        refine ⟨r, ?_, by simp [hiff]⟩
        rw [List.cons_append, readDigits, hd]
        dsimp only
        rw [List.cons_append, readDigits, he]
        exact hr
  | case4 c t hc hshort =>
    obtain ⟨n, rfl⟩ := Nat.exists_eq_add_one_of_ne_zero (Nat.ne_zero_of_lt hn)
    obtain rfl := not_not.mp hc
    refine ⟨none, ?_, by simp⟩
    rw [List.cons_append, readBinary, if_neg (by decide), if_neg hc]
    cases t with
    | nil => rfl
    | cons a t =>
      obtain rfl : t = [] := by
        cases t with
        | nil => rfl
        | cons b t => exact absurd rfl (hshort a b t)
      rw [List.cons_append, readDigits]
      cases digitValue a with
      | none => rfl
      | some d =>
        dsimp only
        rw [List.nil_append, readDigits, hend]

theorem binaryToRawBytes_accepts (h0 : 0 ∉ t) :
    ∃ r, binaryToRawBytes t = some r ∧ (r.isSome = true ↔ Escaped readsDigit t) :=
  readBinary_spec h0 (Nat.lt_succ_self _)

/-! ## Bytes to a string and back -/

/-- A byte stands for itself or is escaped. -/
theorem escapeByte_eq (c : UInt8) :
    escapeByte c = [c] ∧ c ≠ 0 ∧ c ≠ chTilde ∨ escapeByte c = [chTilde, hexDigit (c / 16),
      hexDigit (c % 16)] := by
  unfold escapeByte
  split
  · rename_i h
    exact .inl ⟨rfl, fun h0 => absurd h.1 (by rw [h0]; decide), UInt8.ne_of_lt h.2⟩
  · exact .inr rfl

theorem rawBytesToBinary_cons (c : UInt8) (b : Str) :
    rawBytesToBinary (c :: b) = escapeByte c ++ rawBytesToBinary b := rfl

theorem rawBytesToBinary_escaped (b : Str) : Escaped isxdigit (rawBytesToBinary b) := by
  induction b with
  | nil => trivial
  | cons c b ih =>
    rw [rawBytesToBinary_cons]
    rcases escapeByte_eq c with ⟨h, -, hne⟩ | h
    · rw [h]
      exact (escaped_cons_ne hne _).mpr ih
    · rw [h]
      exact (escaped_tilde _ _ _).mpr ⟨(isxdigit_hexDigit c).1, (isxdigit_hexDigit c).2, ih⟩

set_option maxRecDepth 4000 in
theorem hexDigit_range (c : UInt8) : (32 ≤ hexDigit (c / 16) ∧ hexDigit (c / 16) ≤ 125) ∧
    32 ≤ hexDigit (c % 16) ∧ hexDigit (c % 16) ≤ 125 := by
  refine forall_byte (P := fun c => (32 ≤ hexDigit (c / 16) ∧ hexDigit (c / 16) ≤ 125) ∧
    32 ≤ hexDigit (c % 16) ∧ hexDigit (c % 16) ≤ 125) ?_ c
  decide

theorem escapeByte_range (c : UInt8) : ∀ x ∈ escapeByte c, x = chTilde ∨ 32 ≤ x ∧ x ≤ 125 := by
  obtain ⟨hhigh, hlow⟩ := hexDigit_range c
  unfold escapeByte
  split
  · rename_i h
    have hle : c ≤ 125 :=
      UInt8.le_iff_toNat_le.mpr (Nat.le_of_lt_succ (UInt8.lt_iff_toNat_lt.mp h.2))
    simpa using .inr ⟨h.1, hle⟩
  · simpa using ⟨.inr hhigh, .inr hlow⟩

theorem rawBytesToBinary_range (b : Str) :
    ∀ x ∈ rawBytesToBinary b, x = chTilde ∨ 32 ≤ x ∧ x ≤ 125 := by
  intro x hx
  obtain ⟨c, -, hc⟩ := List.mem_flatMap.mp hx
  exact escapeByte_range c x hc

theorem readBinary_raw (b : Str) (hn : (rawBytesToBinary b).length < n) :
    readBinary n s (rawBytesToBinary b ++ [0]) = some (some (s ++ b)) := by
  induction b generalizing s n with
  | nil =>
    obtain ⟨n, rfl⟩ := Nat.exists_eq_add_one_of_ne_zero (Nat.ne_zero_of_lt hn)
    rw [List.append_nil]
    rfl
  | cons c b ih =>
    obtain ⟨n, rfl⟩ := Nat.exists_eq_add_one_of_ne_zero (Nat.ne_zero_of_lt hn)
    rw [rawBytesToBinary_cons] at hn ⊢
    have hsplit : s ++ c :: b = s ++ [c] ++ b := by rw [List.append_assoc, List.singleton_append]
    rcases escapeByte_eq c with ⟨h, hc0, hne⟩ | h
    · rw [h] at hn ⊢
      rw [hsplit, ← ih (Nat.lt_of_succ_lt_succ hn), List.singleton_append, List.cons_append,
        readBinary, if_neg hc0, if_pos hne]
    · obtain ⟨hhigh, hlow, hbyte⟩ := digitValue_hexDigit c
      rw [h] at hn ⊢
      have hdigits : ∀ ptr, readDigits 2 0 (hexDigit (c / 16) :: hexDigit (c % 16) :: ptr) =
          some (some (c, ptr)) := by
        intro ptr
        simp only [readDigits, hhigh, hlow, hbyte]
      have hn' : (rawBytesToBinary b).length < n :=
        Nat.lt_of_succ_lt (Nat.lt_of_succ_lt (Nat.lt_of_succ_lt_succ hn))
      rw [hsplit, ← ih hn', List.cons_append, List.cons_append, readBinary, if_neg (by decide),
        if_neg (not_not_intro rfl)]
      simp only [List.cons_append, List.nil_append, hdigits]

/-- The bytes are got back. -/
theorem binaryToRawBytes_raw (b : Str) : binaryToRawBytes (rawBytesToBinary b) = some (some b) :=
  readBinary_raw b (Nat.lt_succ_self _)

/-! ## Pieces -/

/-- The string that is being built, when it ends here. -/
def closed (inString : Bool) (s : Str) : List Var := if inString then [.str s] else []

/-- The pieces of the bytes, behind a string that has begun. -/
def pieces : Str → Bool → Str → List Var
  | [], inString, s => closed inString s
  | c :: bytes, inString, s =>
    if inText c then pieces bytes true (s ++ [c]) else closed inString s ++ .int c.toNat ::
      pieces bytes false []

variable {bytes : Str} {inString : Bool} {done : List Var}

/-- The first pass counts what the second builds. -/
theorem countPieces_eq (count : Nat) (inString : Bool) (bytes s : Str) :
    countPieces count inString bytes + (closed inString s).length = count +
      (pieces bytes inString s).length := by
  induction bytes generalizing count inString s with
  | nil => rfl
  | cons c bytes ih =>
    rw [countPieces, pieces]
    split
    · have htrue := ih (if inString then count else count + 1) true (s ++ [c])
      cases inString with
      | true => exact htrue
      | false =>
        simp only [closed, if_true, List.length_singleton] at htrue ⊢
        simp only [Bool.false_eq_true, if_false, List.length_nil] at htrue ⊢
        omega
    · have hfalse := ih (count + 1) false []
      rw [List.length_append, List.length_cons]
      simp only [closed, Bool.false_eq_true, if_false, List.length_nil] at hfalse
      omega

theorem setPiece_append (done : List Var) (v : Var) (k : Nat) :
    setPiece (done.map some ++ List.replicate (k + 1) none) (done.length + 1) v =
      some ((done ++ [v]).map some ++ List.replicate k none) := by
  have hlen : 1 ≤ done.length + 1 ∧ done.length + 1 ≤
      (done.map some ++ List.replicate (k + 1) none).length := by
    simp only [List.length_append, List.length_map, List.length_replicate]
    omega
  rw [setPiece, if_pos hlen, Nat.add_sub_cancel]
  simp [List.replicate_succ]

/-- Each piece is put into the next element. -/
theorem buildPieces_eq (bytes : Str) (inString : Bool) (s : Str) (hs : inString = false → s = [])
    (done : List Var) :
    buildPieces bytes (done.length + 1) inString s (done.map some ++
      List.replicate (pieces bytes inString s).length none) =
      some ((done ++ pieces bytes inString s).map some) := by
  induction bytes generalizing inString s done with
  | nil =>
    cases inString with
    | true =>
      have hset := setPiece_append done (.str s) 0
      rw [List.replicate_zero, List.append_nil] at hset
      exact hset
    | false => simp [buildPieces, pieces, closed]
  | cons c bytes ih =>
    rw [buildPieces, pieces]
    split
    · exact ih true (s ++ [c]) nofun done
    · have hrest := ih false [] (fun _ => rfl)
      cases inString with
      | true =>
        have hlen : (closed true s ++ .int c.toNat :: pieces bytes false []).length =
            (pieces bytes false []).length + 1 + 1 := by
          rw [List.length_append, List.length_cons, closed, if_pos rfl, List.length_singleton]
          omega
        have hstr := setPiece_append done (.str s) ((pieces bytes false []).length + 1)
        have hint :=
          setPiece_append (done ++ [.str s]) (.int c.toNat) (pieces bytes false []).length
        have hrest := hrest (done ++ [.str s] ++ [.int c.toNat])
        simp only [List.length_append, List.length_singleton] at hint hrest
        rw [hlen, if_pos rfl, hstr, Option.bind_some, hint, Option.bind_some, hrest]
        simp [closed]
      | false =>
        obtain rfl := hs rfl
        have hlen : (closed false [] ++ .int c.toNat :: pieces bytes false []).length =
            (pieces bytes false []).length + 1 := rfl
        have hint := setPiece_append done (.int c.toNat) (pieces bytes false []).length
        have hrest := hrest (done ++ [.int c.toNat])
        simp only [List.length_append, List.length_singleton] at hrest
        rw [hlen, if_neg Bool.false_ne_true, hint, Option.bind_some, hrest]
        simp [closed]

theorem mapM_id_some (l : List Var) : (l.map some).mapM id = some l := by
  induction l with
  | nil => rfl
  | cons v l ih =>
    rw [List.map_cons, List.mapM_cons, ih]
    rfl

theorem encodeBinaries_append (out : Str) (l l' : List Var) :
    encodeBinaries out (l ++ l') = (encodeBinaries out l).bind fun out =>
      encodeBinaries out l' := by
  induction l generalizing out with
  | nil => rfl
  | cons v l ih =>
    rw [List.cons_append, encodeBinaries, encodeBinaries, Option.bind_assoc]
    exact congrArg _ (funext ih)

/-- A byte is its number. -/
theorem encodeBinary_byte (out : Str) (c : UInt8) :
    encodeBinary out (.int c.toNat) = some (out ++ [c]) := by
  have hlt := c.toNat_lt
  rw [encodeBinary, if_neg (by omega), Int.toNat_natCast, UInt8.ofNat_toNat]

/-- A string of the pieces has no NUL in it. -/
theorem cstr_inText (h : ∀ c ∈ s, inText c = true) : cstr s = s :=
  List.takeWhile_eq_self_iff.mpr fun c hc => decide_eq_true fun h0 =>
    absurd (h c hc) (by rw [h0]; decide)

theorem encodeBinaries_closed (out : Str) (inString : Bool) (h : ∀ c ∈ s, inText c = true)
    (hs : inString = false → s = []) :
    encodeBinaries out (closed inString s) = some (out ++ s) := by
  cases inString with
  | true =>
    show (encodeBinary out (.str s)).bind some = _
    rw [encodeBinary, cstr_inText h]
    rfl
  | false =>
    rw [hs rfl, List.append_nil]
    rfl

/-- The pieces stand for the bytes. -/
theorem encodeBinaries_pieces (bytes : Str) (inString : Bool) (s out : Str)
    (h : ∀ c ∈ s, inText c = true) (hs : inString = false → s = []) :
    encodeBinaries out (pieces bytes inString s) = some (out ++ s ++ bytes) := by
  induction bytes generalizing inString s out with
  | nil => rw [pieces, encodeBinaries_closed out inString h hs, List.append_nil]
  | cons c bytes ih =>
    rw [pieces]
    split
    · rename_i hc
      have htext : ∀ x ∈ s ++ [c], inText x = true := fun x hx =>
        (List.mem_append.mp hx).elim (h x) fun hx => List.mem_singleton.mp hx ▸ hc
      rw [ih true (s ++ [c]) out htext nofun]
      simp
    · rw [encodeBinaries_append, encodeBinaries_closed out inString h hs, Option.bind_some,
        encodeBinaries, encodeBinary_byte,
        Option.bind_some, ih false [] _ (List.forall_mem_nil _) fun _ => rfl]
      simp

theorem encodeBinaries_ints (bytes out : Str) :
    encodeBinaries out (bytes.map fun c => .int c.toNat) = some (out ++ bytes) := by
  induction bytes generalizing out with
  | nil => rw [List.append_nil]; rfl
  | cons c bytes ih =>
    rw [List.map_cons, encodeBinaries, encodeBinary_byte, Option.bind_some, ih, List.append_assoc,
      List.singleton_append]

/-- The values of either form stand for the bytes. -/
theorem decodeBytes_encode (fully : Bool) (bytes : Str) :
    ∃ l, decodeBytes fully bytes = some l ∧ encodeBinary [] (.list [.list l]) = some bytes := by
  have hencode : ∀ l, encodeBinaries [] l = some bytes →
      encodeBinary [] (.list [.list l]) = some bytes := by
    intro l hl
    rw [encodeBinary, encodeBinaries, encodeBinary, hl]
    rfl
  cases fully with
  | true => exact ⟨_, rfl, hencode _ (encodeBinaries_ints bytes [])⟩
  | false =>
    have hcount := countPieces_eq 0 false bytes []
    have hbuild := buildPieces_eq bytes false [] (fun _ => rfl) []
    have hpieces := encodeBinaries_pieces bytes false [] [] (List.forall_mem_nil _) fun _ => rfl
    refine ⟨pieces bytes false [], ?_, hencode _ hpieces⟩
    rw [closed, if_neg Bool.false_ne_true, List.length_nil, Nat.add_zero, Nat.zero_add] at hcount
    rw [decodeBytes, if_neg Bool.false_ne_true, hcount]
    simp only [List.map_nil, List.nil_append, List.length_nil, Nat.zero_add] at hbuild
    rw [hbuild, Option.bind_some, mapM_id_some]

/-! ## The result -/

/-- What holds of binary strings: `b` is got back from a string of printable characters and escapes,
`t` has bytes iff its escapes have hexadecimal digits, and the values that stand for them are
encoded again. -/
structure BinaryExact (b t : Str) : Prop where
  printable : Escaped isxdigit (rawBytesToBinary b) ∧ ∀ c ∈ rawBytesToBinary b, c = chTilde ∨
    32 ≤ c ∧ c ≤ 125
  back : binaryToRawBytes (rawBytesToBinary b) = some (some b)
  accepts : ∃ r, binaryToRawBytes t = some r ∧ (r = none ↔ ¬ Escaped isxdigit t)
  encodes : ∀ bytes, binaryToRawBytes t = some (some bytes) → ∀ rest, ∃ l,
    bfDecodeBinary (.str t :: rest) = some (.ok (.list l)) ∧
    bfEncodeBinary [.list l] = .ok (.str (rawBytesToBinary bytes))

theorem encodes_again {bytes : Str} (h : binaryToRawBytes t = some (some bytes))
    (rest : List Var) : ∃ l,
    bfDecodeBinary (.str t :: rest) = some (.ok (.list l)) ∧
      bfEncodeBinary [.list l] = .ok (.str (rawBytesToBinary bytes)) := by
  obtain ⟨l, hdecode, hencode⟩ := decodeBytes_encode (rest.head?.any isTrue) bytes
  refine ⟨l, ?_, ?_⟩
  · rw [bfDecodeBinary, h, Option.bind_some]
    dsimp only
    rw [hdecode, Option.map_some]
  · rw [bfEncodeBinary, hencode]

/-- A string is read as it should be unless all its escapes have digits that the code reads, but not
all of them are hexadecimal. -/
theorem binaryExact_iff (b : Str) (h0 : 0 ∉ t) :
    BinaryExact b t ↔ ¬ (Escaped readsDigit t ∧ ¬ Escaped isxdigit t) := by
  obtain ⟨r, hr, hreads⟩ := binaryToRawBytes_accepts h0
  have hmono : Escaped isxdigit t → Escaped readsDigit t :=
    Escaped.mono fun c hc => by rw [readsDigit, hc, Bool.true_or]
  have hnone : r = none ↔ ¬ Escaped readsDigit t := by rw [← hreads, Option.not_isSome_iff_eq_none]
  constructor
  · rintro h ⟨hlenient, hbad⟩
    obtain ⟨r', hr', hiff⟩ := h.accepts
    obtain rfl := Option.some.inj (hr.symm.trans hr')
    exact hnone.mp (hiff.mpr hbad) hlenient
  · intro h
    refine ⟨⟨rawBytesToBinary_escaped b, rawBytesToBinary_range b⟩,
      binaryToRawBytes_raw b, ⟨r, hr, ?_⟩,
      fun bytes hbytes rest => encodes_again hbytes rest⟩
    rw [hnone]
    exact not_congr ⟨fun hlenient => not_not.mp fun hbad => h ⟨hlenient, hbad⟩, hmono⟩

theorem binaryExact_line : BinaryExact [0, 126, 255] [97, 126, 48, 65] := by
  have hline : Escaped isxdigit [97, 126, 48, 65] :=
    (escaped_cons_ne (by decide) _).mpr ((escaped_tilde 48 65 []).mpr ⟨by decide,
      by decide, trivial⟩)
  exact (binaryExact_iff _ (by decide)).mpr fun h => h.2 hline

/-- The character 17 is read as the digit 1. -/
theorem not_binaryExact : ¬ BinaryExact [] [126, 17, 49] := by
  intro h
  obtain ⟨r, hr, hiff⟩ := h.accepts
  have hread : binaryToRawBytes [126, 17, 49] = some (some [17]) := by decide
  have hbad : ¬ Escaped isxdigit [126, 17, 49] :=
    fun h => absurd ((escaped_tilde 17 49 []).mp h).1 (by decide)
  rw [hiff.mpr hbad, hread] at hr
  cases hr

end NuMoo
