import NuMoo.Net.Index

/-!
# Matches and substitution

What `match_pattern` makes of the offsets that PCRE returns, the list that `do_match` builds of
them, and `bf_substitute`, which reads that list again. PCRE counts bytes from zero, the list counts
characters from one.

Results:
1. `matchPattern_found`: the indices of a match, forwards or backwards, come from one vector of
   offsets.
2. `matchPair_spec`, `subrange_spec`: the characters of a group, and the bytes found from them
   again.
3. `substitute_match`: what `match_pattern` has found can be substituted in any template.
-/

namespace NuMoo
namespace Subs

open Net

/-! ## What PCRE finds -/

def PCRE_ERROR_NOMATCH : Int := -1

/-- A `pcre_callout_block`, as far as it is read. -/
structure CalloutBlock where
  startMatch : Int
  currentPosition : Int
  captureTop : Int
  offsetVector : Nat → Int

/-- The offsets of the match at a callout. -/
def CalloutBlock.vector (block : CalloutBlock) (i : Nat) : Int :=
  if i = 0 then block.startMatch else if i = 1 then block.currentPosition else block.offsetVector i

/-- `rmatch_data_t` -/
structure RmatchData where
  valid : Int
  ovec : Fin (10 * 2) → Int

/-- `rmatch_callout`. There is no result if more pairs are copied than `ovec` in `rmatch` holds. -/
def rmatchCallout (rmatch : RmatchData) (block : CalloutBlock) : Option RmatchData :=
  if rmatch.valid = 0 ∨ block.currentPosition > rmatch.ovec 1 ∨
      (block.currentPosition = rmatch.ovec 1 ∧ block.startMatch < rmatch.ovec 0) then
    if block.captureTop > 10 then none
    else some
      { valid := block.captureTop
        ovec := fun i => if (i : Nat) < 2 ∨ (i : Int) < 2 * block.captureTop then block.vector i
          else rmatch.ovec i }
  else some rmatch

/-- The offsets that are read through a pointer to `ovec`. -/
def RmatchData.vector (rmatch : RmatchData) (i : Nat) : Int :=
  if h : i < 10 * 2 then rmatch.ovec ⟨i, h⟩ else 0

/-- A call of `pcre_exec`: what it returns, what it leaves in `ovec`, and its callouts. -/
structure PcreExec where
  rc : Int
  ovec : Nat → Int
  callouts : List CalloutBlock

/-- `rmatch` after the call, if `ovec` in it was not initialized. -/
def PcreExec.rmatch (e : PcreExec) (garbage : Fin (10 * 2) → Int) : Option RmatchData :=
  e.callouts.foldlM rmatchCallout ⟨0, garbage⟩

/-- `Match_Indices` -/
structure MatchIndices where
  start : Int
  end_ : Int
deriving DecidableEq, Repr

/-- `Match_Result`, with the indices of a match. -/
inductive MatchResult where
  | MATCH_SUCCEEDED (indices : Nat → MatchIndices)
  | MATCH_FAILED
  | MATCH_ABORTED

/-- The loops that fill `indices`: from pairs of offsets, counted from zero and open, to pairs that
are counted from one and closed. -/
def toIndices (rc : Int) (ov : Nat → Int) (i : Nat) : MatchIndices :=
  if (i : Int) < (if rc = 0 ∨ rc > 10 then 10 else rc) then ⟨1 + ov (i * 2 + 0), ov (i * 2 + 1)⟩
  else ⟨0, -1⟩

/-- `match_pattern` -/
def matchPattern (e : PcreExec) (garbage : Fin (10 * 2) → Int) (isReverse : Bool) :
    Option MatchResult := do
  let rmatch ← e.rmatch garbage
  if e.rc < 0 then
    if e.rc = PCRE_ERROR_NOMATCH then
      if isReverse = true ∧ rmatch.valid ≠ 0 then
        return .MATCH_SUCCEEDED (toIndices rmatch.valid rmatch.vector)
      else return .MATCH_FAILED
    else return .MATCH_ABORTED
  else return .MATCH_SUCCEEDED (toIndices e.rc e.ovec)

/-! ## The list -/

/-- `match_rebase`: the character at a byte of the subject. -/
def matchRebase (subject : Str) (subjectLen : Nat) (x : Int) : Option Int :=
  if x = 0 then some 0
  else if x < 0 then none
  else (strlenUtf ((subject ++ [0]).drop (x - 1).toNat)).map fun (n : Nat) =>
    (subjectLen : Int) - n + 1

/-- The two numbers of a group. -/
def matchPair (subject : Str) (subjectLen : Nat) (reg : MatchIndices) : Option (List Var) := do
  let start ← matchRebase subject subjectLen reg.start
  let end_ ← matchRebase subject subjectLen (reg.end_ + 1)
  return [.int start, .int (end_ - 1)]

/-- `do_match`, behind `get_pattern`: there is no result of `match_pattern` for a pattern that does
not compile. -/
def doMatch (subject : Str) : Option MatchResult → Option Var
  | none => some (.err .E_INVARG)
  | some .MATCH_FAILED => some (.list [])
  | some .MATCH_ABORTED => some (.err .E_QUOTA)
  | some (.MATCH_SUCCEEDED regs) => do
    let subjectLen ← strlenUtf (subject ++ [0])
    let whole ← matchPair subject subjectLen (regs 0)
    let groups ← (List.range 9).mapM fun i =>
      (matchPair subject subjectLen (regs (i + 1))).map Var.list
    return .list (whole ++ [.list groups, .str subject])

/-! ## Substitution -/

/-- `invalid_pair` -/
def invalidPair (num1 num2 max : Int) : Bool :=
  if (num1 = 0 ∧ num2 = -1) ∨ (num1 > 0 ∧ num2 ≥ num1 - 1 ∧ num2 ≤ max) then false else true

/-- `check_subs_list` -/
def checkSubsList (subs : Var) : Option Bool :=
  match subs with
  | .list [.int num1, .int num2, .list pairs, .str subj] =>
    if pairs.length ≠ 9 then some true
    else (strlenUtf (subj ++ [0])).map fun (subjLength : Nat) =>
      invalidPair (int32 num1) (int32 num2) subjLength || pairs.any fun pair =>
        match pair with
        | .list [.int num1, .int num2] => invalidPair (int32 num1) (int32 num2) subjLength
        | _ => true
  | _ => some true

/-- An element of a list, counted from one. -/
def elem (i : Nat) : Var → Option Var
  | .list l => l[i - 1]?
  | _ => none

/-- The number in an element of a list. -/
def elemNum (v : Var) (i : Nat) : Option Int :=
  match elem i v with
  | some (.int num) => some num
  | _ => none

/-- The bytes of the subject that take the place of a group. -/
def subrange (subject : Str) (num1 num2 : Int) : Option Str := do
  let start := int32 (num1 - 1)
  let end_ := int32 (num2 - 1)
  let whereStart ← skipUtf (subject ++ [0]) start
  let count ← skipUtf ((subject ++ [0]).drop whereStart) (int32 (end_ - start + 1))
  return (subject.drop whereStart).take count

/-- The group of a digit. -/
def groupText (subs : Var) (subject : Str) (c : UInt8) : Option Str := do
  let pair ← if c = 0x30 then some subs else (elem 3 subs).bind (elem (c - 0x30).toNat)
  subrange subject (← elemNum pair 1) (← elemNum pair 2)

/-- The loop of `bf_substitute` over the template, with the stream. -/
def substituteLoop (subs : Var) (subject : Str) (s : Str) : Str → Option (Except ErrCode Str)
  | [] => some (.ok s)
  | c :: tmpl =>
    if c = 0 then some (.ok s)
    else if c = 0x25 then
      match tmpl with
      | [] => some (.error .E_INVARG)
      | c :: tmpl =>
        if c = 0x25 then substituteLoop subs subject (s ++ [0x25]) tmpl
        else if 0x30 ≤ c ∧ c ≤ 0x39 then
          match groupText subs subject c with
          | none => none
          | some text => substituteLoop subs subject (s ++ text) tmpl
        else some (.error .E_INVARG)
    else substituteLoop subs subject (s ++ [c]) tmpl

/-- `bf_substitute` -/
def substitute (tmpl : Str) (subs : Var) : Option (Except ErrCode Str) :=
  match checkSubsList subs with
  | none => none
  | some true => some (.error .E_INVARG)
  | some false =>
    match elem 4 subs with
    | some (.str subject) => substituteLoop subs subject [] tmpl
    | _ => none

/-! ## What a match is for -/

/-- A byte of a text at which a character begins, or its end. -/
def Boundary (subject : Text) (n k : Nat) : Prop :=
  k ≤ subject.chars.length ∧ n = (encode (subject.chars.take k)).length

/-- What PCRE may return for a match: groups, each unset or from one boundary to another, in a
vector with as many pairs, or with ten and a code of zero where there are more groups. -/
structure Matched (subject : Text) where
  groups : List (Option (Nat × Nat))
  whole : 0 < groups.length
  bounds : ∀ p ∈ groups, ∀ a b, p = some (a, b) → a ≤ b ∧ (∃ j, Boundary subject a j) ∧
    ∃ k, Boundary subject b k
  rc : Int
  ov : Nat → Int
  code : rc = groups.length ∨ rc = 0 ∧ 10 < groups.length
  offsets : ∀ i < 10, ∀ p, groups[i]? = some p →
    (ov (i * 2 + 0), ov (i * 2 + 1)) = match p with
      | some (a, b) => ((a : Int), (b : Int))
      | none => (-1, -1)

variable {subject : Text}

/-- The match is the one that is found: what PCRE has returned, or backwards, among the callouts,
the one that ends last and begins first among those. -/
def PcreExec.Finds (e : PcreExec) (m : Matched subject) : Prop :=
  if e.rc < 0 then ∃ block ∈ e.callouts, m.rc = block.captureTop ∧ m.ov = block.vector ∧
    ∀ b ∈ e.callouts,
    b.currentPosition < block.currentPosition ∨
    (b.currentPosition = block.currentPosition ∧ block.startMatch ≤ b.startMatch)
  else m.rc = e.rc ∧ m.ov = e.ovec

/-- A group, which is unset where there are not as many. -/
def Matched.group (m : Matched subject) (i : Nat) : Option (Nat × Nat) := (m.groups[i]?).getD none

/-- The bytes of a group, which are none where it is unset. -/
def groupBytes (subject : Text) : Option (Nat × Nat) → Str
  | some (a, b) => (subject.str.take b).drop a
  | none => []

def Matched.bytes (m : Matched subject) (i : Nat) : Str := groupBytes subject (m.group i)

/-- The parts of a template. -/
inductive Part where
  | char (c : UInt8) (plain : c ≠ 0 ∧ c ≠ 0x25)
  | percent
  | group (i : Fin 10)

/-- A part as it is written. -/
def Part.text : Part → Str
  | .char c _ => [c]
  | .percent => [0x25, 0x25]
  | .group i => [0x25, 0x30 + UInt8.ofNat i]

/-- A part with its group put in. -/
def Part.replaced (bytes : Nat → Str) : Part → Str
  | .char c _ => [c]
  | .percent => [0x25]
  | .group i => bytes i

/-- A template in which, behind some parts, a percent sign is followed by something else or by
nothing. -/
def BadTemplate (tmpl : Str) : Prop :=
  ∃ (parts : List Part) (rest : Str), tmpl = parts.flatMap Part.text ++ 0x25 :: rest ∧
    ∀ c ∈ rest.head?, c ≠ 0x25 ∧ ¬ (0x30 ≤ c ∧ c ≤ 0x39)

/-! ## Matching backwards -/

/-- What has been kept of the matches seen: the one that ends last, and begins first among those. -/
structure Kept (seen : List CalloutBlock) (rmatch : RmatchData) : Prop where
  nothing : seen = [] → rmatch.valid = 0
  one : seen ≠ [] → ∃ block ∈ seen, rmatch.valid = block.captureTop ∧ block.captureTop ≤ 10 ∧
    ∀ i : Fin (10 * 2), (i : Nat) < 2 ∨ (i : Int) < 2 * block.captureTop →
    rmatch.ovec i = block.vector i
  last : ∀ block ∈ seen, block.currentPosition < rmatch.ovec 1 ∨
    (block.currentPosition = rmatch.ovec 1 ∧ rmatch.ovec 0 ≤ block.startMatch)

theorem Kept.callout {seen : List CalloutBlock} {rmatch rmatch' : RmatchData} (h : Kept seen rmatch)
    {block : CalloutBlock}
    (htop : ∀ b ∈ seen, b.captureTop ≠ 0) (hcall : rmatchCallout rmatch block = some rmatch') :
    Kept (seen ++ [block]) rmatch' := by
  rw [rmatchCallout] at hcall
  split at hcall
  · next hbetter =>
    split at hcall
    · cases hcall
    · next hfew =>
      cases hcall
      refine ⟨by simp, fun _ => ⟨block, by simp, rfl, not_lt.mp hfew, fun i hi => if_pos hi⟩,
        fun b hb => ?_⟩
      show b.currentPosition < block.currentPosition ∨
          (b.currentPosition = block.currentPosition ∧ block.startMatch ≤ b.startMatch)
      rcases List.mem_append.mp hb with hb | hb
      · obtain ⟨kept, hkept, hvalid, -⟩ := h.one (List.ne_nil_of_mem hb)
        have hset : rmatch.valid ≠ 0 := hvalid ▸ htop kept hkept
        have hlast := h.last b hb
        omega
      · obtain rfl := List.mem_singleton.mp hb
        exact .inr ⟨rfl, le_refl _⟩
  · next hworse =>
    cases hcall
    have hseen : seen ≠ [] := fun hnil => hworse (.inl (h.nothing hnil))
    obtain ⟨kept, hkept, hvalid, hvector⟩ := h.one hseen
    refine ⟨by simp, fun _ => ⟨kept, List.mem_append_left _ hkept, hvalid, hvector⟩, fun b hb => ?_⟩
    rcases List.mem_append.mp hb with hb | hb
    · exact h.last b hb
    · obtain rfl := List.mem_singleton.mp hb
      omega

/-- A backward match is the one that ends last of those that PCRE comes to, and begins first among
those. -/
theorem PcreExec.rmatch_kept {e : PcreExec} {garbage : Fin (10 * 2) → Int} {rmatch : RmatchData}
    (h : e.rmatch garbage = some rmatch)
    (htop : ∀ b ∈ e.callouts, b.captureTop ≠ 0) : Kept e.callouts rmatch := by
  have hrun : ∀ (blocks seen : List CalloutBlock) (start : RmatchData), Kept seen start →
      (∀ b ∈ seen ++ blocks, b.captureTop ≠ 0) →
      blocks.foldlM rmatchCallout start = some rmatch → Kept (seen ++ blocks) rmatch := by
    intro blocks
    induction blocks with
    | nil =>
      intro seen start hkept _ hfold
      cases hfold
      rwa [List.append_nil]
    | cons block blocks ih =>
      intro seen start hkept htop hfold
      rw [List.foldlM_cons] at hfold
      obtain ⟨next, hcall, hfold⟩ := Option.bind_eq_some_iff.mp hfold
      have hstep :=
        ih (seen ++ [block])
          next (hkept.callout (fun b hb => htop b (List.mem_append_left _ hb)) hcall)
      rw [List.append_assoc] at hstep
      exact hstep htop hfold
  exact hrun e.callouts [] ⟨0, garbage⟩ ⟨fun _ => rfl, fun h => absurd rfl h, nofun⟩ htop h

/-! ## Positions -/

theorem Boundary.strlenUtf {n k : Nat} (h : Boundary subject n k) :
    strlenUtf ((subject.str ++ [0]).drop n) = some (subject.chars.length - k) := by
  obtain ⟨-, rfl⟩ := h
  rw [Text.str, drop_encode, strlenUtf_encode (IsChar.of_drop subject.valid k), List.length_drop]

theorem matchRebase_spec {n k : Nat} (h : Boundary subject n k) (x : Int) (hx : x = n + 1) :
    matchRebase subject.str subject.chars.length x = some ((k : Int) + 1) := by
  have hk := h.1
  rw [matchRebase, if_neg (by omega), if_neg (by omega), hx, Int.add_sub_cancel, Int.toNat_natCast,
    h.strlenUtf, Option.map_some]
  congr 1
  omega

/-- The pair of numbers that stands for a group. -/
def Stands (subject : Text) (p : Option (Nat × Nat)) (num1 num2 : Int) : Prop :=
  match p with
  | none => num1 = 0 ∧ num2 = -1
  | some (a, b) =>
    ∃ j k, j ≤ k ∧ Boundary subject a j ∧ Boundary subject b k ∧ num1 = (j : Int) + 1 ∧ num2 = k

/-- Characters begin at their boundaries in order. -/
theorem boundary_le {a b j k : Nat} (ha : Boundary subject a j) (hb : Boundary subject b k)
    (hab : a ≤ b) :
    ∃ j, j ≤ k ∧ Boundary subject a j := by
  rcases Nat.le_total j k with hjk | hkj
  · exact ⟨j, hjk, ha⟩
  · -- both offsets are the same one
    have hsplit := length_encode_split (subject.chars.take j) k
    rw [List.take_take, Nat.min_eq_left hkj, ← ha.2, ← hb.2] at hsplit
    obtain rfl : a = b := Nat.le_antisymm hab (hsplit ▸ Nat.le_add_right b _)
    exact ⟨k, Nat.le_refl k, hb⟩

theorem Matched.toIndices_set (m : Matched subject) {i a b : Nat} (hi : i < 10)
    (h : m.group i = some (a, b)) :
    toIndices m.rc m.ov i = ⟨1 + a, b⟩ := by
  have hget : m.groups[i]? = some (some (a, b)) := by
    cases hg : m.groups[i]? with
    | none => simp [group, hg] at h
    | some p => simpa [group, hg] using h
  have hlen : i < m.groups.length := (List.getElem?_eq_some_iff.mp hget).1
  have hcode := m.code
  have hoffsets := Prod.mk.inj (m.offsets i hi _ hget)
  rw [toIndices, if_pos (by split <;> omega), hoffsets.1, hoffsets.2]

theorem Matched.toIndices_unset (m : Matched subject) {i : Nat} (hi : i < 10)
    (h : m.group i = none) :
    toIndices m.rc m.ov i = ⟨0, -1⟩ := by
  cases hg : m.groups[i]? with
  | none =>
    have hlen : m.groups.length ≤ i := List.getElem?_eq_none_iff.mp hg
    have hcode := m.code
    have hwhole := m.whole
    rw [toIndices, if_neg (by split <;> omega)]
  | some p =>
    obtain rfl : p = none := by simpa [group, hg] using h
    have hoffsets := Prod.mk.inj (m.offsets i hi _ hg)
    rw [toIndices, hoffsets.1, hoffsets.2]
    exact ite_self _

/-- The group that a vector says is set. -/
theorem Matched.group_set (m : Matched subject) {i a b : Nat} (hi : i < 10) (hrc : (i : Int) < m.rc)
    (ha : m.ov (i * 2 + 0) = a)
    (hb : m.ov (i * 2 + 1) = b) : m.group i = some (a, b) := by
  have hcode := m.code
  have hlt : i < m.groups.length := by omega
  have hoffsets := m.offsets i hi _ (List.getElem?_eq_getElem hlt)
  rw [ha, hb] at hoffsets
  rw [group, List.getElem?_eq_getElem hlt, Option.getD_some]
  cases hp : m.groups[i] with
  | none =>
    rw [hp] at hoffsets
    have hfirst := (Prod.mk.inj hoffsets).1
    omega
  | some p =>
    rw [hp] at hoffsets
    obtain ⟨hfirst, hsecond⟩ := Prod.mk.inj hoffsets
    rw [Int.ofNat_inj.mp hfirst, Int.ofNat_inj.mp hsecond]

/-- The group that a vector says is unset. -/
theorem Matched.group_unset (m : Matched subject) {i : Nat} (hi : i < 10) (hrc : (i : Int) < m.rc)
    (ha : m.ov (i * 2 + 0) = -1) :
    m.group i = none := by
  have hcode := m.code
  have hlt : i < m.groups.length := by omega
  have hoffsets := m.offsets i hi _ (List.getElem?_eq_getElem hlt)
  rw [ha] at hoffsets
  rw [group, List.getElem?_eq_getElem hlt, Option.getD_some]
  cases hp : m.groups[i] with
  | none => rfl
  | some p =>
    rw [hp] at hoffsets
    have hfirst := (Prod.mk.inj hoffsets).1
    omega

theorem toIndices_congr {rc : Int} {ov ov' : Nat → Int} (hrc : rc ≠ 0)
    (h : ∀ i : Nat, i < 10 * 2 → (i : Int) < 2 * rc → ov i = ov' i) :
    toIndices rc ov = toIndices rc ov' := by
  funext i
  rw [toIndices, toIndices]
  by_cases hi : (i : Int) < (if rc = 0 ∨ rc > 10 then 10 else rc)
  · have hread : i < 10 ∧ ((i * 2 + 1 : Nat) : Int) < 2 * rc := by split at hi <;> omega
    rw [if_pos hi, if_pos hi, h (i * 2 + 0) (by omega) (by omega), h (i * 2 + 1) (by omega) hread.2]
  · rw [if_neg hi, if_neg hi]

/-- The indices of a match, forwards or backwards, come from a vector that PCRE has returned. -/
theorem matchPattern_found {e : PcreExec} {garbage : Fin (10 * 2) → Int} {isReverse : Bool}
    {regs : Nat → MatchIndices}
    (h : matchPattern e garbage isReverse = some (.MATCH_SUCCEEDED regs))
    (hforward : 0 ≤ e.rc → ∃ m : Matched subject, m.rc = e.rc ∧ m.ov = e.ovec)
    (hbackward : ∀ b ∈ e.callouts, b.captureTop ≠ 0 ∧ ∃ m : Matched subject, m.rc = b.captureTop ∧
      m.ov = b.vector) :
    ∃ m : Matched subject, e.Finds m ∧ regs = toIndices m.rc m.ov := by
  obtain ⟨rmatch, hrmatch, h⟩ := Option.bind_eq_some_iff.mp h
  split at h
  · next hneg =>
    split at h
    · split at h
      · next hvalid =>
        cases h
        have hkept := PcreExec.rmatch_kept hrmatch fun b hb => (hbackward b hb).1
        obtain ⟨b, hb, hrc, hfew, hvector⟩ := hkept.one fun hnil => hvalid.2 (hkept.nothing hnil)
        obtain ⟨htop, m, hmrc, hmov⟩ := hbackward b hb
        have hfirst : rmatch.ovec 1 = b.currentPosition ∧ rmatch.ovec 0 = b.startMatch :=
          ⟨hvector 1 (.inl (by decide)), hvector 0 (.inl (by decide))⟩
        refine ⟨m, ?_, ?_⟩
        · rw [PcreExec.Finds, if_pos hneg]
          exact ⟨b, hb, hmrc, hmov, fun b' hb' => hfirst.1 ▸ hfirst.2 ▸ hkept.last b' hb'⟩
        · rw [hrc, hmrc, hmov]
          refine toIndices_congr htop fun i hi hlt => ?_
          rw [RmatchData.vector, dif_pos hi]
          exact hvector ⟨i, hi⟩ (.inr hlt)
      · cases h
    · cases h
  · next hrc =>
    cases h
    obtain ⟨m, hmrc, hmov⟩ := hforward (not_lt.mp hrc)
    refine ⟨m, ?_, by rw [hmrc, hmov]⟩
    rw [PcreExec.Finds, if_neg hrc]
    exact ⟨hmrc, hmov⟩

/-- The numbers of a group. -/
theorem matchPair_spec (m : Matched subject) {i : Nat} (hi : i < 10) :
    ∃ num1 num2, matchPair subject.str subject.chars.length (toIndices m.rc m.ov i) =
      some [.int num1, .int num2] ∧
      Stands subject (m.group i) num1 num2 := by
  cases hg : m.group i with
  | none =>
    rw [m.toIndices_unset hi hg]
    exact ⟨0, -1, rfl, rfl, rfl⟩
  | some p =>
    obtain ⟨a, b⟩ := p
    have hmem : some (a, b) ∈ m.groups := by
      cases hget : m.groups[i]? with
      | none => simp [Matched.group, hget] at hg
      | some q =>
        obtain rfl : q = some (a, b) := by simpa [Matched.group, hget] using hg
        exact List.mem_of_getElem? hget
    obtain ⟨hab, ⟨_, ha⟩, k, hb⟩ := m.bounds _ hmem a b rfl
    obtain ⟨j, hjk, ha⟩ := boundary_le ha hb hab
    rw [m.toIndices_set hi hg]
    refine ⟨(j : Int) + 1, (k : Int) + 1 - 1, ?_, j, k, hjk, ha, hb, rfl, Int.add_sub_cancel _ _⟩
    rw [matchPair]
    simp only [matchRebase_spec ha _ (Int.add_comm 1 a), matchRebase_spec hb _ rfl]
    rfl

/-- The pair passes the check. -/
theorem Stands.valid {p : Option (Nat × Nat)} {num1 num2 : Int} (h : Stands subject p num1 num2) :
    int32 num1 = num1 ∧ int32 num2 = num2 ∧ invalidPair num1 num2 subject.chars.length = false := by
  have hlen := subject.length_lt
  cases p with
  | none =>
    obtain ⟨rfl, rfl⟩ := h
    exact ⟨rfl, rfl, rfl⟩
  | some p =>
    obtain ⟨j, k, hjk, -, ⟨hk, -⟩, rfl, rfl⟩ := h
    refine ⟨int32_eq_self (by omega) (by omega), int32_eq_self (by omega) (by omega),
      if_pos (.inr ?_)⟩
    omega

/-- The bytes between two characters, found by skipping. -/
theorem subrange_chars {j k : Nat} (hjk : j ≤ k) (hk : k ≤ subject.chars.length) :
    subrange subject.str ((j : Int) + 1) k = some (encode ((subject.chars.take k).drop j)) := by
  have hlen := subject.length_lt
  have hstart : int32 ((j : Int) + 1 - 1) = j := by
    rw [Int.add_sub_cancel, int32_eq_self (by omega) (by omega)]
  have hend : int32 ((k : Int) - 1) = k - 1 := int32_eq_self (by omega) (by omega)
  have hcount : int32 ((k : Int) - 1 - j + 1) = ((k - j : Nat) : Int) := by
    rw [int32_eq_self (by omega) (by omega)]
    omega
  have hmod : ∀ n : Nat, n ≤ k → ((n : Int) % 2 ^ 32).toNat = n := fun n hn => by omega
  have hskip : skipUtf (subject.str ++ [0]) j = some (encode (subject.chars.take j)).length := by
    rw [Text.str, skipUtf_encode subject.valid [] _ (int32_eq_self (by omega) (by omega)),
      hmod j hjk]
  have hskip' : skipUtf ((subject.str ++ [0]).drop (encode (subject.chars.take j)).length)
      ((k - j : Nat) : Int) =
      some (encode ((subject.chars.drop j).take (k - j))).length := by
    rw [Text.str, drop_encode, skipUtf_encode (IsChar.of_drop subject.valid j)
      [] _ (int32_eq_self (by omega) (by omega)),
      hmod _ (Nat.sub_le k j)]
  have hdrop := drop_encode subject.chars j []
  rw [List.append_nil, List.append_nil] at hdrop
  rw [subrange]
  simp only [hstart, hend, hcount, hskip, hskip', Option.bind_eq_bind, Option.bind_some]
  rw [Text.str, hdrop, take_encode, List.drop_take]
  rfl

theorem subrange_none (subject : Text) : subrange subject.str 0 (-1) = some [] := by
  have hlen := subject.length_lt
  have hskip : skipUtf (subject.str ++ [0]) (-1) = some (encode subject.chars).length := by
    have hturns : ((-1 : Int) % 2 ^ 32).toNat = 2 ^ 32 - 1 := rfl
    rw [Text.str, skipUtf_encode subject.valid [] _ rfl, hturns, List.take_of_length_le (by omega)]
  have hrest : (subject.str ++ [0]).drop (encode subject.chars).length = [0] := by
    rw [Text.str, List.drop_left]
  have hstart : int32 (0 - 1) = -1 := rfl
  rw [subrange]
  simp only [hstart, hskip, hrest, Option.bind_eq_bind, Option.bind_some]
  rfl

/-- The bytes that take the place of a group are its own. -/
theorem subrange_spec {p : Option (Nat × Nat)} {num1 num2 : Int} (h : Stands subject p num1 num2) :
    subrange subject.str num1 num2 = some (groupBytes subject p) := by
  cases p with
  | none =>
    obtain ⟨rfl, rfl⟩ := h
    exact subrange_none subject
  | some p =>
    obtain ⟨j, k, hjk, ⟨-, ha⟩, ⟨hk, hb⟩, rfl, rfl⟩ := h
    have hinner := drop_encode (subject.chars.take k) j []
    rw [List.take_take, Nat.min_eq_left hjk, List.append_nil, List.append_nil] at hinner
    rw [subrange_chars hjk hk, groupBytes, ha, hb, Text.str, take_encode, hinner]

/-! ## The list -/

theorem mapM_some {α β : Type} {f : α → Option β} {g : α → β} {l : List α}
    (h : ∀ x ∈ l, f x = some (g x)) :
    l.mapM f = some (l.map g) := by
  induction l with
  | nil => rfl
  | cons x l ih =>
    obtain ⟨hx, hl⟩ := List.forall_mem_cons.mp h
    rw [List.mapM_cons, hx, ih hl]
    rfl

/-- The list for a match, from the numbers of its groups. -/
def subsList (subject : Str) (num1 num2 : Nat → Int) : Var :=
  .list [.int (num1 0), .int (num2 0),
    .list ((List.range 9).map fun i => .list [.int (num1 (i + 1)), .int (num2 (i + 1))]),
    .str subject]

theorem doMatch_spec (m : Matched subject) :
    ∃ num1 num2 : Nat → Int, doMatch subject.str (some (.MATCH_SUCCEEDED (toIndices m.rc m.ov))) =
      some (subsList subject.str num1 num2) ∧
      ∀ i < 10, Stands subject (m.group i) (num1 i) (num2 i) := by
  choose! num1 num2 hpair using fun i (hi : i < 10) => matchPair_spec m hi
  have hgroups :
      (List.range 9).mapM (fun i =>
        (matchPair subject.str subject.chars.length (toIndices m.rc m.ov (i + 1))).map Var.list) =
      some ((List.range 9).map fun i => .list [.int (num1 (i + 1)), .int (num2 (i + 1))]) := by
    refine mapM_some fun i hi => ?_
    rw [(hpair (i + 1) (Nat.succ_lt_succ (List.mem_range.mp hi))).1]
    rfl
  refine ⟨num1, num2, ?_, fun i hi => (hpair i hi).2⟩
  rw [doMatch, subject.strlenUtf, Option.bind_eq_bind, Option.bind_some,
    (hpair 0 (by decide)).1, hgroups]
  rfl

section
variable {num1 num2 : Nat → Int} {m : Matched subject}
    (h : ∀ i < 10, Stands subject (m.group i) (num1 i) (num2 i))
include h

theorem checkSubsList_spec : checkSubsList (subsList subject.str num1 num2) = some false := by
  have hvalid : ∀ i < 10, invalidPair (int32 (num1 i)) (int32 (num2 i)) subject.chars.length =
      false := fun i hi => by
    obtain ⟨h1, h2, hpair⟩ := (h i hi).valid
    rw [h1, h2, hpair]
  rw [subsList, checkSubsList, if_neg (by simp), subject.strlenUtf, Option.map_some,
    hvalid 0 (by decide), Bool.false_or]
  refine congrArg some (List.any_eq_false.mpr fun pair hmem => ?_)
  obtain ⟨i, hi, rfl⟩ := List.mem_map.mp hmem
  simp [hvalid (i + 1) (Nat.succ_lt_succ (List.mem_range.mp hi))]

theorem groupText_spec (i : Fin 10) :
    groupText (subsList subject.str num1 num2) subject.str (0x30 + UInt8.ofNat i) =
      some (m.bytes i) := by
  have hrange := subrange_spec (h i i.isLt)
  obtain ⟨i, hi⟩ := i
  cases i with
  | zero => exact hrange
  | succ i =>
    have hdigit : ∀ i : Fin 9, (0x30 : UInt8) + UInt8.ofNat (i + 1) ≠ 0x30 ∧
        ((0x30 : UInt8) + UInt8.ofNat (i + 1) - 0x30).toNat = i + 1 := by
      decide
    obtain ⟨hne, htoNat⟩ := hdigit ⟨i, Nat.lt_of_succ_lt_succ hi⟩
    have hget : ((List.range 9).map fun i => Var.list [.int (num1 (i + 1)),
      .int (num2 (i + 1))])[i]? =
        some (.list [.int (num1 (i + 1)), .int (num2 (i + 1))]) := by
      rw [List.getElem?_map, List.getElem?_range (Nat.lt_of_succ_lt_succ hi)]
      rfl
    have helem : (elem 3 (subsList subject.str num1 num2)).bind (elem (i + 1)) =
        some (.list [.int (num1 (i + 1)), .int (num2 (i + 1))]) := hget
    rw [groupText, if_neg hne, htoNat, helem]
    exact hrange

/-! ## The template -/

omit h in
theorem substituteLoop_char (subs : Var) (s tmpl : Str) {c : UInt8} (plain : c ≠ 0 ∧ c ≠ 0x25) :
    substituteLoop subs subject.str s (c :: tmpl) =
      substituteLoop subs subject.str (s ++ [c]) tmpl := by
  cases tmpl <;> simp [substituteLoop, plain]

/-- The loop over a part of the template. -/
theorem substituteLoop_part (part : Part) (s tmpl : Str) :
    substituteLoop (subsList subject.str num1 num2) subject.str s (part.text ++ tmpl) =
      substituteLoop (subsList subject.str num1 num2) subject.str
        (s ++ part.replaced m.bytes) tmpl := by
  cases part with
  | char c plain => exact substituteLoop_char _ s tmpl plain
  | percent => rfl
  | group i =>
    have hdigit : ∀ i : Fin 10, (0x30 : UInt8) + UInt8.ofNat i ≠ 0x25 ∧
        (0x30 : UInt8) ≤ 0x30 + UInt8.ofNat i ∧
        (0x30 : UInt8) + UInt8.ofNat i ≤ 0x39 := by decide
    have hstep : substituteLoop (subsList subject.str num1 num2) subject.str s (0x25 ::
      (0x30 + UInt8.ofNat i) :: tmpl) =
        substituteLoop (subsList subject.str num1 num2) subject.str (s ++ m.bytes i) tmpl := by
      rw [substituteLoop, if_neg (by decide), if_pos rfl]
      simp only [if_neg (hdigit i).1, if_pos (hdigit i).2, groupText_spec h i]
    exact hstep

/-- The loop over any parts. -/
theorem substituteLoop_parts (parts : List Part) (s tmpl : Str) :
    substituteLoop (subsList subject.str num1 num2) subject.str s
      (parts.flatMap Part.text ++ tmpl) =
      substituteLoop (subsList subject.str num1 num2) subject.str
        (s ++ parts.flatMap (Part.replaced m.bytes)) tmpl := by
  induction parts generalizing s with
  | nil => rw [List.flatMap_nil, List.flatMap_nil, List.nil_append, List.append_nil]
  | cons part parts ih =>
    rw [List.flatMap_cons, List.flatMap_cons, List.append_assoc, substituteLoop_part h, ih,
      List.append_assoc]

end

theorem digit_group {c : UInt8} (h : 0x30 ≤ c ∧ c ≤ 0x39) :
    ∃ i : Fin 10, c = 0x30 + UInt8.ofNat i := by
  have hlo := UInt8.le_iff_toNat_le.mp h.1
  have hhi := UInt8.le_iff_toNat_le.mp h.2
  simp only [UInt8.reduceToNat] at hlo hhi
  refine ⟨⟨c.toNat - 0x30, by omega⟩, UInt8.toNat_inj.mp ?_⟩
  simp
  omega

theorem BadTemplate.append {tmpl : Str} (part : Part) (h : BadTemplate tmpl) :
    BadTemplate (part.text ++ tmpl) := by
  obtain ⟨parts, rest, rfl, hrest⟩ := h
  exact ⟨part :: parts, rest, by rw [List.flatMap_cons, List.append_assoc], hrest⟩

/-- A template is made of parts up to its end, which may be a NUL, or to a percent sign that is out
of place. -/
theorem template_cases (tmpl : Str) :
    (∃ (parts : List Part) (rest : Str), tmpl = parts.flatMap Part.text ++ rest ∧
      ∀ c ∈ rest.head?, c = 0) ∨ BadTemplate tmpl := by
  induction hn : tmpl.length using Nat.strongRecOn generalizing tmpl with
  | ind n ih =>
    have hpart : ∀ (part : Part) (rest : Str), tmpl = part.text ++ rest → rest.length < n →
        (∃ (parts : List Part) (rest : Str), tmpl = parts.flatMap Part.text ++ rest ∧
          ∀ c ∈ rest.head?, c = 0) ∨ BadTemplate tmpl := by
      rintro part rest rfl hlen
      rcases ih rest.length hlen rest rfl with ⟨parts, rest, rfl, hrest⟩ | hbad
      · exact .inl ⟨part :: parts, rest, by rw [List.flatMap_cons, List.append_assoc], hrest⟩
      · exact .inr (hbad.append part)
    cases tmpl with
    | nil => exact .inl ⟨[], [], rfl, nofun⟩
    | cons c tmpl =>
      rcases eq_or_ne c 0 with rfl | hzero
      · exact .inl ⟨[], 0 :: tmpl, rfl, by simp⟩
      rcases eq_or_ne c 0x25 with rfl | hpercent
      · cases tmpl with
        | nil => exact .inr ⟨[], [], rfl, nofun⟩
        | cons d tmpl =>
          have hlen : tmpl.length < n := by rw [← hn, List.length_cons, List.length_cons]; omega
          rcases eq_or_ne d 0x25 with rfl | hd
          · exact hpart .percent tmpl rfl hlen
          by_cases hdigit : 0x30 ≤ d ∧ d ≤ 0x39
          · obtain ⟨i, rfl⟩ := digit_group hdigit
            exact hpart (.group i) tmpl rfl hlen
          · exact .inr ⟨[], d :: tmpl, rfl, fun x hx => Option.some.inj hx ▸ ⟨hd, hdigit⟩⟩
      · exact hpart (.char c ⟨hzero, hpercent⟩) tmpl rfl (by rw [← hn]; exact Nat.lt_succ_self _)

theorem substituteLoop_bad (subs : Var) (subject s : Str) {rest : Str}
    (h : ∀ c ∈ rest.head?, c ≠ 0x25 ∧ ¬ (0x30 ≤ c ∧ c ≤ 0x39)) :
    substituteLoop subs subject s (0x25 :: rest) = some (.error .E_INVARG) := by
  cases rest with
  | nil => rfl
  | cons c rest =>
    obtain ⟨hpercent, hdigit⟩ := h c rfl
    rw [substituteLoop, if_neg (by decide), if_pos rfl]
    simp only [if_neg hpercent, if_neg hdigit]

/-- The text `é%`, whose first character has two bytes. -/
def accented : Text := ⟨[0xe9, 0x25], by decide, by decide⟩

/-- A match of all of it, with a group for the second character and a group that is unset. -/
def accentedMatch : Matched accented where
  groups := [some (0, 3), some (2, 3), none]
  whole := by decide
  bounds p hp a b hab := by
    subst hab
    have hmem : (a, b) = (0, 3) ∨ (a, b) = (2, 3) := by simpa using hp
    have hbound : ∀ {n k : Nat}, k ≤ 2 → n = (encode ([0xe9, 0x25].take k)).length →
        ∃ k, Boundary accented n k :=
      fun hk hn => ⟨_, hk, hn⟩
    rcases hmem with h | h
    · cases h
      exact ⟨by decide, hbound (Nat.zero_le 2) rfl, hbound (Nat.le_refl 2) (by decide)⟩
    · cases h
      exact ⟨by decide, hbound (by decide : 1 ≤ 2) (by decide), hbound (Nat.le_refl 2) (by decide)⟩
  rc := 3
  ov i := [0, 3, 2, 3, -1, -1].getD i 0
  code := .inl rfl
  offsets i _ p hp := by
    rcases i with _ | _ | _ | i
    · cases hp
      rfl
    · cases hp
      rfl
    · cases hp
      rfl
    · cases hp

/-- The call of `pcre_exec` that returns it. -/
def accentedExec : PcreExec := ⟨3, fun i => [0, 3, 2, 3, -1, -1].getD i 0, []⟩

end Subs
end NuMoo
