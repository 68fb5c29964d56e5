import NuMoo.Net.Codec

/-!
# The decoder behind `getch`

`get_utf_call` of `utf.c`, which asks a client for one `int` at a time and keeps a byte it has read
too far in `state`. Its range test is on a signed `int`, so a value below 0x80, and `EOF`, continue
a sequence just as a byte from 0x80 on does.

Results:
1. `readCallN_feeds`: only the values that the client delivers matter.
2. `readCall_spec`: against repeated `get_utf` on the same bytes, no more characters are read, and
   the same ones exactly when no sequence breaks off at such a value (`Unbroken`).
-/

namespace NuMoo
namespace Net

/-- `EOF` -/
def EOF : Int := -1

section Client

variable {σ : Type} (getch : σ → Int × σ)

/-- `GET_CONT`, `n` times: the value, or the `int` in `cc` that continues nothing. -/
def getContsCall : Nat → Int → σ → Except (Int × σ) (Int × σ)
  | 0, v, data => .ok (v, data)
  | n + 1, v, data =>
    let (c, data) := getch data
    if c - 0x80 > 0x3f then .error (c, data) else getContsCall n (v * 64 + (c - 0x80)) data

/-- A sequence of `n` more bytes: the character, the new `state` and the client's data. -/
def getSequenceCall (n : Nat) (v : Int) (invalid : Int → Bool) (data : σ) : Int × Int × σ :=
  match getContsCall getch n v data with
  | .ok (v, data) => (if invalid v then INVALID_RUNE else v, -1, data)
  | .error (cc, data) => (INVALID_RUNE, cc, data)

/-- `get_utf_call` from the first byte `c` on. -/
def getUtfFrom (c : Int) (data : σ) : Int × Int × σ :=
  if c ≤ 0x7f then (c, -1, data)
  else if c ≤ 0xbf then (INVALID_RUNE, -1, data)
  else if c ≤ 0xdf then getSequenceCall getch 1 (c.toNat &&& 0x1f : Nat) (fun v => v ≤ 0x7f) data
  else if c ≤ 0xef then
    getSequenceCall getch 2 (c.toNat &&& 0x0f : Nat)
      (fun v => v ≤ 0x7ff || (v ≥ 0xd800 && v ≤ 0xdfff)) data
  else if c ≤ 0xf7 then getSequenceCall getch 3 (c.toNat &&& 0x07 : Nat)
    (fun v => v ≤ 0xffff || v > 0x10ffff) data
  else (INVALID_RUNE, -1, data)

/-- `get_utf_call`: the character or `EOF`, the new `state` and the client's data. -/
def getUtfCall (state : Int) (data : σ) : Int × Int × σ :=
  if state ≠ -1 then getUtfFrom getch state data
  else
    let (c, data) := getch data
    if c = EOF then (EOF, state, data) else getUtfFrom getch c data

/-- `get_utf_call` until it returns `EOF`: the characters before it. -/
def readCallN : Nat → Int → σ → Option (List Int)
  | 0, _, _ => none
  | n + 1, state, data =>
    let (c, state, data) := getUtfCall getch state data
    if c = EOF then some [] else (readCallN n state data).map (c :: ·)

/-- The data of a client after `n` calls of `getch`. -/
def afterCalls : Nat → σ → σ
  | 0, data => data
  | n + 1, data => afterCalls n (getch data).2

/-- The client delivers the values `l`, and from then on `EOF`. -/
def Feeds (data : σ) (l : List Int) : Prop :=
  ∀ n, (getch (afterCalls getch n data)).1 = l.getD n EOF

variable {getch} {data : σ} {l : List Int} {c : Int}

theorem Feeds.head (h : Feeds getch data (c :: l)) : (getch data).1 = c := h 0

theorem Feeds.tail (h : Feeds getch data (c :: l)) : Feeds getch (getch data).2 l :=
  fun n => h (n + 1)

theorem Feeds.eof (h : Feeds getch data []) : (getch data).1 = EOF := h 0

theorem Feeds.after_eof (h : Feeds getch data []) : Feeds getch (getch data).2 [] :=
  fun n => h (n + 1)

end Client

/-- The client whose data are the values still to come. -/
def listGetch : List Int → Int × List Int
  | [] => (EOF, [])
  | c :: l => (c, l)

theorem listGetch_feeds (l : List Int) : Feeds listGetch l l := by
  intro n
  induction n generalizing l with
  | zero => cases l <;> rfl
  | succ n ih =>
    cases l with
    | nil => exact ih []
    | cons c l => exact ih l

section Simulation

variable {σ : Type} {getch : σ → Int × σ} {data : σ} {l : List Int}

/-- One call of `getch` is one value off the list. -/
theorem Feeds.step (h : Feeds getch data l) :
    (getch data).1 = (listGetch l).1 ∧ Feeds getch (getch data).2 (listGetch l).2 := by
  cases l with
  | nil => exact ⟨h.eof, h.after_eof⟩
  | cons c l => exact ⟨h.head, h.tail⟩

/-- A client that goes along with a list feeds it. -/
theorem Feeds.of_step {R : σ → List Int → Prop}
    (hstep : ∀ data l, R data l → (getch data).1 = (listGetch l).1 ∧
      R (getch data).2 (listGetch l).2) (h : R data l) :
    Feeds getch data l := by
  intro n
  induction n generalizing data l with
  | zero =>
    rw [afterCalls, (hstep _ _ h).1]
    cases l <;> rfl
  | succ n ih =>
    have hn := ih (hstep _ _ h).2
    cases l with
    | nil => exact hn
    | cons c l => exact hn

theorem getContsCall_feeds (n : Nat) (v : Int) (h : Feeds getch data l) :
    (∃ w d q, getContsCall getch n v data = .ok (w, d) ∧ getContsCall listGetch n v l = .ok (w, q) ∧
      Feeds getch d q) ∨
      ∃ c d q, getContsCall getch n v data = .error (c, d) ∧
      getContsCall listGetch n v l = .error (c, q) ∧ Feeds getch d q := by
  induction n generalizing v data l with
  | zero => exact .inl ⟨v, data, l, rfl, rfl, h⟩
  | succ n ih =>
    obtain ⟨hc, hd⟩ := h.step
    simp only [getContsCall, hc]
    split
    · exact .inr ⟨_, _, _, rfl, rfl, hd⟩
    · exact ih _ hd

theorem getSequenceCall_feeds (n : Nat) (v : Int) (invalid : Int → Bool) (h : Feeds getch data l) :
    ∃ c state d q, getSequenceCall getch n v invalid data = (c, state, d) ∧
      getSequenceCall listGetch n v invalid l = (c, state, q) ∧ Feeds getch d q := by
  rcases getContsCall_feeds n v h with ⟨w, d, q, h₁, h₂, hq⟩ | ⟨c, d, q, h₁, h₂, hq⟩
  · exact ⟨_, _, d, q, by rw [getSequenceCall, h₁], by rw [getSequenceCall, h₂], hq⟩
  · exact ⟨_, _, d, q, by rw [getSequenceCall, h₁], by rw [getSequenceCall, h₂], hq⟩

theorem getUtfFrom_feeds (c : Int) (h : Feeds getch data l) :
    ∃ r state d q, getUtfFrom getch c data = (r, state, d) ∧
      getUtfFrom listGetch c l = (r, state, q) ∧ Feeds getch d q := by
  unfold getUtfFrom
  by_cases h₁ : c ≤ 0x7f
  · exact ⟨_, _, _, _, if_pos h₁, if_pos h₁, h⟩
  · rw [if_neg h₁, if_neg h₁]
    split
    · exact ⟨_, _, _, _, rfl, rfl, h⟩
    · split
      · exact getSequenceCall_feeds _ _ _ h
      · split
        · exact getSequenceCall_feeds _ _ _ h
        · split
          · exact getSequenceCall_feeds _ _ _ h
          · exact ⟨_, _, _, _, rfl, rfl, h⟩

theorem getUtfCall_feeds (state : Int) (h : Feeds getch data l) :
    ∃ r state' d q, getUtfCall getch state data = (r, state', d) ∧
      getUtfCall listGetch state l = (r, state', q) ∧ Feeds getch d q := by
  unfold getUtfCall
  by_cases hs : state ≠ -1
  · simp only [if_pos hs]
    exact getUtfFrom_feeds state h
  · obtain ⟨hc, hd⟩ := h.step
    simp only [if_neg hs, hc]
    split
    · exact ⟨_, _, _, _, rfl, rfl, hd⟩
    · exact getUtfFrom_feeds _ hd

/-- Only the values that the client delivers matter. -/
theorem readCallN_feeds (n : Nat) (state : Int) (h : Feeds getch data l) :
    readCallN getch n state data = readCallN listGetch n state l := by
  induction n generalizing state data l with
  | zero => rfl
  | succ n ih =>
    obtain ⟨r, state', d, q, h₁, h₂, hq⟩ := getUtfCall_feeds state h
    simp only [readCallN, h₁, h₂, ih state' hq]

end Simulation

/-! ## Bytes -/

/-- A byte as the `int` a client delivers. -/
def byteInt (c : UInt8) : Int := c.toNat

/-- Repeated `get_utf` on the string `s`, up to its NUL. -/
def stringRunes (s : Str) : List Int :=
  ((scan (s ++ [0])).getD ([], [])).1.map fun o => (o.getD INVALID_RUNE : Nat)

/-- The bits `w` that a sequence of `n` more bytes holds where the input ends, `j` bytes too early,
and with which the value it is given is out of its range. -/
def CutOff (n j w : Nat) : Prop :=
  match n, j with
  | 1, 1 => w ≤ 4
  | 2, 2 => w ≤ 2
  | 2, 1 => w ≤ 34 ∨ (867 ≤ w ∧ w ≤ 898)
  | 3, 3 => w ≤ 2 ∨ 7 ≤ w
  | 3, 2 => w ≤ 18 ∨ 275 ≤ w
  | 3, 1 => w ≤ 1026 ∨ 17411 ≤ w
  | _, _ => False

/-- A sequence of `n` more bytes, `j` of them still to come, with the bits `w` so far: no byte below
0x80 stands in it, and if the input ends inside it then with bits that are `CutOff`. -/
def Continued (n : Nat) : Nat → Nat → Str → Prop
  | 0, _, _ => True
  | j + 1, w, [] => CutOff n (j + 1) w
  | j + 1, w, c :: p => if c ≤ 0x7f then False else if c ≤ 0xbf then
    Continued n j ((w <<< 6) + (c - 0x80).toNat) p else True

/-- Every sequence that a byte of the string begins is `Continued`. -/
def Unbroken : Str → Prop
  | [] => True
  | c :: p => (match lead c with | none => True | some (n, v, _) => Continued n n v p) ∧ Unbroken p

variable {p p' s t : Str} {c : UInt8} {n v r : Nat} {invalid : Nat → Bool}

@[simp] theorem stringRunes_nil : stringRunes [] = [] := rfl

/-- A byte that is not the NUL is read by one step of `get_utf`, and the rest by the others. -/
theorem stringRunes_cons {o : Option Nat} (hs : 0 ∉ c :: s) {s' : Str}
    (h : getRune (c :: s ++ [0]) = some (o, s' ++ [0]))
    (hs' : 0 ∉ s') :
    stringRunes (c :: s) = ((o.getD INVALID_RUNE : Nat) : Int) :: stringRunes s' := by
  obtain ⟨l, hl, _⟩ := scan_string hs' []
  obtain ⟨l₀, hl₀, _⟩ := scan_string hs []
  have hne := getRune_ne_zero (fun he => hs (by simp [he])) h
  have hcons := scanN_cons h hne hl
  have heq : l₀ = o :: l := by
    have h₁ := scanN_of_le hl₀ (Nat.le_max_left _ ((s' ++ [0]).length + 1))
    have h₂ := scanN_of_le hcons (Nat.le_max_right (c :: s ++ [0]).length _)
    rw [h₂] at h₁
    exact (congrArg Prod.fst (Option.some.inj h₁)).symm
  rw [stringRunes, hl₀, heq, stringRunes, hl]
  rfl

/-- A byte that continues nothing is a character of its own. -/
theorem stringRunes_single (hs : 0 ∉ c :: s) (hl : lead c = none) :
    stringRunes (c :: s) = (byteRune c : Int) :: stringRunes s := by
  have hg : getRune (c :: s ++ [0]) = some (if c ≤ 0x7f then some c.toNat else none, s ++ [0]) := by
    rw [List.cons_append, getRune, hl]
  rw [stringRunes_cons hs hg fun h => hs (List.mem_cons_of_mem _ h)]
  unfold byteRune
  split
  · rfl
  · rfl

theorem stringRunes_append (hx : ∀ c ∈ p, lead c = none) (hs : 0 ∉ p ++ s) :
    stringRunes (p ++ s) = p.map (fun c => (byteRune c : Int)) ++ stringRunes s := by
  induction p with
  | nil => rfl
  | cons c p ih =>
    obtain ⟨hc, hp⟩ := List.forall_mem_cons.mp hx
    have h := stringRunes_single (s := p ++ s) hs hc
    rw [ih hp fun h => hs (List.mem_cons_of_mem _ h)] at h
    exact h

theorem lead_none_of_le (h : c ≤ 0xbf) : lead c = none := if_pos h

theorem Unbroken.of_append (h : Unbroken (p ++ s)) : Unbroken s := by
  induction p with
  | nil => exact h
  | cons c p ih => exact ih h.2

theorem unbroken_append (hx : ∀ c ∈ p, lead c = none) : Unbroken (p ++ s) ↔ Unbroken s := by
  refine ⟨Unbroken.of_append, fun h => ?_⟩
  induction p with
  | nil => exact h
  | cons c p ih =>
    obtain ⟨hc, hp⟩ := List.forall_mem_cons.mp hx
    exact ⟨by rw [hc]; trivial, ih hp⟩

/-- The value of `j` values `EOF` after the bits `w`. -/
def eofValue : Nat → Int → Int
  | 0, w => w
  | j + 1, w => eofValue j (w * 64 + (EOF - 0x80))

theorem eofValue_one (w : Int) : eofValue 1 w = w * 64 - 129 := rfl

theorem eofValue_two (w : Int) : eofValue 2 w = (w * 64 - 129) * 64 - 129 := rfl

theorem eofValue_three (w : Int) : eofValue 3 w = ((w * 64 - 129) * 64 - 129) * 64 - 129 := rfl

theorem getContsCall_nil (j : Nat) (w : Int) :
    getContsCall listGetch j w [] = .ok (eofValue j w, []) := by
  induction j generalizing w with
  | zero => rfl
  | succ j ih => exact ih _

/-- Whatever is asked for, the client loses bytes below 0xc0 only, and one more where it finds
another. -/
theorem getContsCall_bytes (n : Nat) (v : Int) (p : Str) :
    ∃ x q, p = x ++ q ∧ (∀ c ∈ x, c ≤ 0xbf) ∧
      ((∃ w, getContsCall listGetch n v (p.map byteInt) = .ok (w, q.map byteInt)) ∨
        ∃ d q', q = d :: q' ∧ 0xbf < d ∧ getContsCall listGetch n v (p.map byteInt) =
          .error (byteInt d, q'.map byteInt)) := by
  induction n generalizing v p with
  | zero => exact ⟨[], p, rfl, by simp, .inl ⟨v, rfl⟩⟩
  | succ n ih =>
    cases p with
    | nil => exact ⟨[], [], rfl, by simp, .inl ⟨_, getContsCall_nil (n + 1) v⟩⟩
    | cons c p =>
      have hstep : getContsCall listGetch (n + 1) v ((c :: p).map byteInt) =
          if byteInt c - 0x80 > 0x3f then .error (byteInt c, p.map byteInt)
          else getContsCall listGetch n (v * 64 + (byteInt c - 0x80)) (p.map byteInt) := rfl
      by_cases hc : c ≤ 0xbf
      · have hle : c.toNat ≤ 0xbf := UInt8.le_iff_toNat_le.mp hc
        rw [hstep, if_neg (by unfold byteInt; omega)]
        obtain ⟨x, q, rfl, hx, hq⟩ := ih (v * 64 + (byteInt c - 0x80)) p
        exact ⟨c :: x, q, rfl, List.forall_mem_cons.mpr ⟨hc, hx⟩, hq⟩
      · have hlt : 0xbf < c.toNat := UInt8.lt_iff_toNat_lt.mp (UInt8.not_le.mp hc)
        rw [hstep, if_pos (by unfold byteInt; omega)]
        exact ⟨[], c :: p, rfl, by simp, .inr ⟨c, p, rfl, UInt8.not_le.mp hc, rfl⟩⟩

/-- A sequence on both sides: it is complete; another character begins inside it; a byte below 0x80
stands in it; or the input ends inside it. -/
inductive Sequence (n₀ : Nat) (n v : Nat) (p : Str) : Prop
  | complete (m q : Str) (w : Nat) : p = m ++ q → (∀ c ∈ m, c ≤ 0xbf) →
      getConts n v (p ++ [0]) = some (some w, q ++ [0]) →
      getContsCall listGetch n v (p.map byteInt) = .ok ((w : Int), q.map byteInt) →
      Continued n₀ n v p → Sequence n₀ n v p
  | broken (m : Str) (d : UInt8) (q : Str) : p = m ++ d :: q → (∀ c ∈ m, c ≤ 0xbf) → 0xbf < d →
      getConts n v (p ++ [0]) = some (none, d :: q ++ [0]) →
      getContsCall listGetch n v (p.map byteInt) = .error (byteInt d, q.map byteInt) →
      Continued n₀ n v p → Sequence n₀ n v p
  | swallowed (m : Str) (d : UInt8) (x q : Str) : p = m ++ d :: x ++ q →
      (∀ c ∈ m ++ d :: x, c ≤ 0xbf) →
      getConts n v (p ++ [0]) = some (none, d :: x ++ q ++ [0]) →
      ((∃ w, getContsCall listGetch n v (p.map byteInt) = .ok (w, q.map byteInt)) ∨
        ∃ d q', q = d :: q' ∧ 0xbf < d ∧ getContsCall listGetch n v (p.map byteInt) =
          .error (byteInt d, q'.map byteInt)) →
      ¬ Continued n₀ n v p → Sequence n₀ n v p
  | cut (j w : Nat) : (∀ c ∈ p, c ≤ 0xbf) → 1 ≤ j → j ≤ n → w < (v + 1) * 64 ^ (n - j) →
      getConts n v (p ++ [0]) = some (none, [0]) → getContsCall listGetch n v (p.map byteInt) =
        .ok (eofValue j w, []) →
      (Continued n₀ n v p ↔ CutOff n₀ j w) → Sequence n₀ n v p

theorem sequence_cases (n₀ n v : Nat) (p : Str) : Sequence n₀ n v p := by
  induction n generalizing v p with
  | zero => exact .complete [] p v rfl (by simp) rfl rfl trivial
  | succ n ih =>
    cases p with
    | nil =>
      exact .cut (n + 1) v (by simp) (by omega) (Nat.le_refl _) (by simp) (if_pos (by decide))
        (getContsCall_nil (n + 1) v) .rfl
    | cons c p =>
      have hstep : getContsCall listGetch (n + 1) v ((c :: p).map byteInt) =
          if byteInt c - 0x80 > 0x3f then .error (byteInt c, p.map byteInt)
          else getContsCall listGetch n (v * 64 + (byteInt c - 0x80)) (p.map byteInt) := rfl
      by_cases hlo : c ≤ 0x7f
      · -- the signed test lets the byte through, the unsigned one does not
        have hle : c.toNat ≤ 0x7f := UInt8.le_iff_toNat_le.mp hlo
        have hsub : c - 0x80 > 0x3f := by
          rw [gt_iff_lt, UInt8.lt_iff_toNat_lt, UInt8.toNat_sub]
          show 63 < (256 - 128 + c.toNat) % 256
          omega
        obtain ⟨x, q, rfl, hx, hq⟩ := getContsCall_bytes n (v * 64 + (byteInt c - 0x80)) p
        refine .swallowed [] c x q rfl (List.forall_mem_cons.mpr
          ⟨UInt8.le_trans hlo (by decide), hx⟩) ?_ ?_ ?_
        · rw [List.cons_append, getConts, if_pos hsub]
          rfl
        · rw [hstep, if_neg (by unfold byteInt; omega)]
          exact hq
        · rw [Continued, if_pos hlo]
          exact id
      · by_cases hhi : c ≤ 0xbf
        · have hle : c.toNat ≤ 0xbf := UInt8.le_iff_toNat_le.mp hhi
          have hlt : 0x7f < c.toNat := UInt8.lt_iff_toNat_lt.mp (UInt8.not_le.mp hlo)
          have hnat : (c - 0x80).toNat = c.toNat - 128 := by
            rw [UInt8.toNat_sub]
            show (256 - 128 + c.toNat) % 256 = _
            omega
          have hsub : ¬ c - 0x80 > 0x3f := by
            rw [gt_iff_lt, UInt8.lt_iff_toNat_lt, hnat]
            show ¬ 63 < _
            omega
          have hval : ((((v <<< 6) + (c - 0x80).toNat : Nat)) : Int) = (v : Int) * 64 +
              (byteInt c - 0x80) := by
            rw [hnat, Nat.shiftLeft_eq]
            unfold byteInt
            omega
          have hconts : getConts (n + 1) v (c :: p ++ [0]) =
              getConts n ((v <<< 6) + (c - 0x80).toNat) (p ++ [0]) := by
            rw [List.cons_append, getConts, if_neg hsub]
          have hcall : getContsCall listGetch (n + 1) v ((c :: p).map byteInt) =
              getContsCall listGetch n ((v <<< 6) + (c - 0x80).toNat : Nat) (p.map byteInt) := by
            rw [hstep, if_neg (by unfold byteInt; omega), hval]
          have hcont : Continued n₀ (n + 1) v (c :: p) =
              Continued n₀ n ((v <<< 6) + (c - 0x80).toNat) p := by
            rw [Continued, if_neg hlo, if_pos hhi]
          -- a continuation byte: both readers take it, and what follows decides
          cases ih ((v <<< 6) + (c - 0x80).toNat) p with
          | complete m q w hp hm h₁ h₂ h₃ =>
            exact .complete (c :: m) q w (by rw [hp]; rfl) (List.forall_mem_cons.mpr ⟨hhi, hm⟩)
              (hconts.trans h₁) (hcall.trans h₂)
              (hcont ▸ h₃)
          | broken m d q hp hm hd h₁ h₂ h₃ =>
            exact .broken (c :: m) d q (by rw [hp]; rfl) (List.forall_mem_cons.mpr ⟨hhi, hm⟩) hd
              (hconts.trans h₁) (hcall.trans h₂)
              (hcont ▸ h₃)
          | swallowed m d x q hp hm h₁ h₂ h₃ =>
            exact .swallowed (c :: m) d x q (by rw [hp]; rfl) (List.forall_mem_cons.mpr ⟨hhi, hm⟩)
              (hconts.trans h₁)
              (by rw [hcall]; exact h₂) (hcont ▸ h₃)
          | cut j w hp hj hjn hw h₁ h₂ h₃ =>
            refine .cut j w (List.forall_mem_cons.mpr ⟨hhi, hp⟩) hj (by omega) ?_ (hconts.trans h₁)
              (hcall.trans h₂) (hcont ▸ h₃)
            calc w < ((v <<< 6) + (c - 0x80).toNat + 1) * 64 ^ (n - j) := hw
              _ ≤ ((v + 1) * 64) * 64 ^ (n - j) :=
                Nat.mul_le_mul_right _ (by rw [hnat, Nat.shiftLeft_eq]; omega)
              _ = (v + 1) * 64 ^ (n + 1 - j) := by
                rw [Nat.mul_assoc, ← Nat.pow_succ', show n + 1 - j = (n - j).succ by omega]
        · have hlt : 0xbf < c.toNat := UInt8.lt_iff_toNat_lt.mp (UInt8.not_le.mp hhi)
          have hsub : c - 0x80 > 0x3f := by
            rw [gt_iff_lt, UInt8.lt_iff_toNat_lt, UInt8.toNat_sub]
            have := c.toNat_lt
            show 63 < (256 - 128 + c.toNat) % 256
            omega
          refine .broken [] c p rfl (by simp) (UInt8.not_le.mp hhi) ?_ ?_ ?_
          · rw [List.cons_append, getConts, if_pos hsub]
          · rw [hstep, if_pos (by unfold byteInt; omega)]
          · rw [Continued, if_neg hlo, if_neg hhi]
            trivial

theorem byteInt_bounds (c : UInt8) :
    (byteInt c ≤ 0x7f ↔ c ≤ 0x7f) ∧ (byteInt c ≤ 0xbf ↔ c ≤ 0xbf) ∧ (byteInt c ≤ 0xdf ↔ c ≤ 0xdf) ∧
      (byteInt c ≤ 0xef ↔ c ≤ 0xef) ∧
      (byteInt c ≤ 0xf7 ↔ c ≤ 0xf7) := by
  have hint : ∀ d : UInt8, byteInt c ≤ (d.toNat : Int) ↔ c ≤ d := fun d => by
    rw [UInt8.le_iff_toNat_le, byteInt]
    omega
  exact ⟨hint 0x7f, hint 0xbf, hint 0xdf, hint 0xef, hint 0xf7⟩

/-- What both decoders do with a byte that begins a sequence, the range test of `get_utf_call`
included. -/
theorem getUtfFrom_lead (hl : lead c = some (n, v, invalid)) :
    ∃ invalidInt : Int → Bool, (∀ l, getUtfFrom listGetch (byteInt c) l =
      getSequenceCall listGetch n v invalidInt l) ∧
      (∀ w : Nat, invalidInt w = invalid w) ∧ (∀ w, invalidInt w = false → 0x7f < w) ∧
      (∀ j w, 1 ≤ j → j ≤ n → w < (v + 1) * 64 ^ (n - j) →
        (invalidInt (eofValue j w) = true ↔ CutOff n j w)) := by
  obtain ⟨h7f, hbf, hdf, hef, hf7⟩ := byteInt_bounds c
  have hand : ∀ m : Nat, (byteInt c).toNat &&& m = c.toNat &&& m := fun m => rfl
  unfold lead at hl
  split at hl
  · simp at hl
  · next h₀ =>
    have hlt : ¬ c ≤ 0x7f := fun h => h₀ (UInt8.le_trans h (by decide))
    split at hl
    · next h₁ =>
      simp only [Option.some.injEq, Prod.mk.injEq] at hl
      obtain ⟨rfl, rfl, rfl⟩ := hl
      refine ⟨fun v => v ≤ 0x7f, fun l => ?_, fun w => ?_, fun w hw => ?_, fun j w hj hjn hw => ?_⟩
      · simp only [getUtfFrom, h7f, hbf, hdf, if_neg hlt, if_neg h₀, if_pos h₁, hand,
          UInt8.toNat_and]
        rfl
      · exact decide_eq_decide.mpr (by omega)
      · simpa using hw
      · obtain rfl : j = 1 := by omega
        rw [decide_eq_true_eq, eofValue_one, CutOff]
        omega
    · next h₁ =>
      split at hl
      · next h₂ =>
        simp only [Option.some.injEq, Prod.mk.injEq] at hl
        obtain ⟨rfl, rfl, rfl⟩ := hl
        have h15 : (c &&& 0x0f).toNat ≤ 15 := by rw [UInt8.toNat_and]; exact Nat.and_le_right
        refine ⟨fun v => v ≤ 0x7ff || (v ≥ 0xd800 && v ≤ 0xdfff), fun l => ?_, fun w => ?_,
          fun w hw => ?_, fun j w hj hjn hw => ?_⟩
        · simp only [getUtfFrom, h7f, hbf, hdf, hef, if_neg hlt, if_neg h₀, if_neg h₁, if_pos h₂,
            hand, UInt8.toNat_and]
          rfl
        · simp only [← Bool.decide_and, ← Bool.decide_or]
          exact decide_eq_decide.mpr (by omega)
        · simp only [Bool.or_eq_false_iff, decide_eq_false_iff_not] at hw
          omega
        · obtain rfl | rfl : j = 1 ∨ j = 2 := by omega
          all_goals
            simp only [Bool.or_eq_true, Bool.and_eq_true, decide_eq_true_eq]
            simp only [eofValue_one, eofValue_two, CutOff]
            simp only [Nat.reduceSub, Nat.reducePow] at hw
            omega
      · next h₂ =>
        split at hl
        · next h₃ =>
          simp only [Option.some.injEq, Prod.mk.injEq] at hl
          obtain ⟨rfl, rfl, rfl⟩ := hl
          refine ⟨fun v => v ≤ 0xffff || v > 0x10ffff, fun l => ?_, fun w => ?_, fun w hw => ?_,
            fun j w hj hjn hw => ?_⟩
          · simp only [getUtfFrom, h7f, hbf, hdf, hef, hf7, if_neg hlt, if_neg h₀, if_neg h₁,
              if_neg h₂, if_pos h₃, hand, UInt8.toNat_and]
            rfl
          · simp only [← Bool.decide_or]
            exact decide_eq_decide.mpr (by omega)
          · simp only [Bool.or_eq_false_iff, decide_eq_false_iff_not] at hw
            omega
          · obtain rfl | rfl | rfl : j = 1 ∨ j = 2 ∨ j = 3 := by omega
            all_goals
              simp only [Bool.or_eq_true, decide_eq_true_eq]
              simp only [eofValue_one, eofValue_two, eofValue_three, CutOff]
              omega
        · simp at hl

/-- A byte that begins no sequence is a character by itself to `get_utf_call`, too. -/
theorem getUtfFrom_single (hl : lead c = none) (l : List Int) :
    getUtfFrom listGetch (byteInt c) l = ((byteRune c : Int), -1, l) := by
  obtain ⟨h₁, h₂, h₃, h₄, h₅⟩ := byteInt_bounds c
  unfold lead at hl
  unfold getUtfFrom byteRune
  simp only [h₁, h₂, h₃, h₄, h₅]
  by_cases hc : c ≤ 0x7f
  · rw [if_pos hc, if_pos hc]
    rfl
  · rw [if_neg hc, if_neg hc]
    split
    · rfl
    · next hb =>
      rw [if_neg hb] at hl
      split
      · next hd => simp [hd] at hl
      · next hd =>
        rw [if_neg hd] at hl
        split
        · next he => simp [he] at hl
        · next he =>
          rw [if_neg he] at hl
          split
          · next hf => simp [hf] at hl
          · rfl

/-- What `state` and the client's data still hold: the string `s`, whose first byte may be in
`state`. -/
inductive Pending : Int → List Int → Str → Prop
  | clean (s : Str) : Pending (-1) (s.map byteInt) s
  | pushed (d : UInt8) (s : Str) : 0xbf < d → Pending (byteInt d) (s.map byteInt) (d :: s)

theorem byteInt_ne_eof (c : UInt8) : byteInt c ≠ -1 := by
  unfold byteInt
  omega

theorem Pending.call {state : Int} {l : List Int} (h : Pending state l (c :: s)) :
    getUtfCall listGetch state l = getUtfFrom listGetch (byteInt c) (s.map byteInt) := by
  cases h with
  | clean =>
    rw [getUtfCall, if_neg (by simp)]
    exact if_neg (byteInt_ne_eof c)
  | pushed => exact if_pos (byteInt_ne_eof c)

theorem Pending.call_nil {state : Int} {l : List Int} (h : Pending state l []) :
    getUtfCall listGetch state l = (EOF, -1, []) := by
  cases h
  rfl

/-- One step of `get_utf_call` on a string of `n + 1` bytes at most. -/
theorem readCallN_step {state state' : Int} {l l' : List Int} {r : Int}
    (h : getUtfCall listGetch state l = (r, state', l'))
    (hr : r ≠ EOF) {out : List Int} (ho : readCallN listGetch n state' l' = some out) :
    readCallN listGetch (n + 1) state l = some (r :: out) := by
  simp only [readCallN, h, if_neg hr, ho, Option.map_some]

/-- The value of a cut off sequence is never U+FFFD by itself. -/
theorem eofValue_ne_invalid {j w : Nat} (hj : 1 ≤ j) (hn : j ≤ 3) :
    eofValue j w ≠ (INVALID_RUNE : Nat) := by
  rw [show ((INVALID_RUNE : Nat) : Int) = 65533 from rfl]
  obtain rfl | rfl | rfl : j = 1 ∨ j = 2 ∨ j = 3 := by omega
  · rw [eofValue_one]
    omega
  · rw [eofValue_two]
    omega
  · rw [eofValue_three]
    omega

theorem lead_le (hl : lead c = some (n, v, invalid)) : n ≤ 3 := by
  unfold lead at hl
  split at hl
  · simp at hl
  · split at hl
    · simp only [Option.some.injEq, Prod.mk.injEq] at hl
      omega
    · split at hl
      · simp only [Option.some.injEq, Prod.mk.injEq] at hl
        omega
      · split at hl
        · simp only [Option.some.injEq, Prod.mk.injEq] at hl
          omega
        · simp at hl

theorem getSequenceCall_ok {w : Int} {l l' : List Int}
    (h : getContsCall listGetch n v l = .ok (w, l')) (f : Int → Bool) :
    getSequenceCall listGetch n v f l = (if f w then ((INVALID_RUNE : Nat) : Int)
      else w, -1, l') := by
  rw [getSequenceCall, h]

theorem getSequenceCall_error {d : Int} {l l' : List Int}
    (h : getContsCall listGetch n v l = .error (d, l')) (f : Int → Bool) :
    getSequenceCall listGetch n v f l = (((INVALID_RUNE : Nat) : Int), d, l') := by
  rw [getSequenceCall, h]

theorem stringRunes_lead {o : Option Nat} (hs : 0 ∉ c :: p)
    (hl : lead c = some (n, v, invalid)) {q : Str}
    (h : getConts n v (p ++ [0]) = some (o, q ++ [0])) (hq : 0 ∉ q) :
    stringRunes (c :: p) = (((o.filter (!invalid ·)).getD INVALID_RUNE : Nat) : Int) ::
      stringRunes q := by
  refine stringRunes_cons hs ?_ hq
  rw [List.cons_append, getRune, hl]
  simp only [h, Option.map_some]

theorem unbroken_cons (hl : lead c = some (n, v, invalid)) :
    Unbroken (c :: p) ↔ Continued n n v p ∧ Unbroken p := by
  rw [Unbroken, hl]

/-- Against repeated `get_utf`, no more characters are read, and the same ones exactly when nothing
breaks off where the signed test does not see it. -/
theorem readCall_spec {state : Int} {l : List Int} (hs : 0 ∉ s) (hp : Pending state l s)
    (hn : s.length ≤ n) :
    ∃ out, readCallN listGetch (n + 1) state l = some out ∧ out.length ≤ (stringRunes s).length ∧
      (out = stringRunes s ↔ Unbroken s) := by
  induction n generalizing s state l with
  | zero =>
    obtain rfl : s = [] := List.length_eq_zero_iff.mp (by omega)
    exact ⟨[], by rw [readCallN, hp.call_nil]; rfl, Nat.le_refl _, by simp [Unbroken]⟩
  | succ n ih =>
    cases s with
    | nil => exact ⟨[], by rw [readCallN, hp.call_nil]; rfl, Nat.le_refl _, by simp [Unbroken]⟩
    | cons c p =>
      rw [List.length_cons] at hn
      have h0 : ∀ {x q : Str}, p = x ++ q → 0 ∉ q := fun {x q} hq h => hs (by simp [hq, h])
      have nonneg : ∀ k : Nat, (k : Int) ≠ EOF := fun k => by unfold EOF; omega
      -- the run after a call that leaves the string `q`
      have next : ∀ {x q : Str} {r state' : Int} {l' : List Int}, getUtfCall listGetch state l =
          (r, state', l') → r ≠ EOF →
          p = x ++ q → Pending state' l' q → ∃ out, readCallN listGetch (n + 1 + 1) state l =
            some (r :: out) ∧
            out.length ≤ (stringRunes q).length ∧ (out = stringRunes q ↔ Unbroken q) := by
        intro x q r state' l' hcall hr hq hpend
        obtain ⟨out, ho, hlen, heq⟩ :=
          ih (h0 hq) hpend (by rw [hq, List.length_append] at hn; omega)
        exact ⟨out, readCallN_step hcall hr ho, hlen, heq⟩
      cases hl : lead c with
      | none =>
        obtain ⟨out, ho, hlen, heq⟩ :=
          next (x := []) (hp.call.trans (getUtfFrom_single hl _)) (nonneg _) rfl (.clean p)
        refine ⟨_, ho, ?_, ?_⟩
        · rw [stringRunes_single hs hl]
          exact Nat.succ_le_succ hlen
        · rw [stringRunes_single hs hl, List.cons_eq_cons, heq, Unbroken, hl]
          exact ⟨fun h => ⟨trivial, h.2⟩, fun h => ⟨rfl, h.2⟩⟩
      | some d =>
        obtain ⟨n₀, v, invalid⟩ := d
        obtain ⟨f, hfrom, hf, hvalid, hcut⟩ := getUtfFrom_lead hl
        have hcall := hp.call.trans (hfrom (p.map byteInt))
        have hval : ∀ w : Int, (if f w then ((INVALID_RUNE : Nat) : Int) else w) ≠ EOF :=
          fun w => by
          split
          · exact nonneg _
          · next hw =>
            have := hvalid w (by simpa using hw)
            unfold EOF
            omega
        rw [unbroken_cons hl]
        cases sequence_cases n₀ n₀ v p with
        | complete m q w hpq hm h₁ h₂ h₃ =>
          obtain ⟨out, ho, hlen, heq⟩ :=
            next (hcall.trans (getSequenceCall_ok h₂ f)) (hval w) hpq (.clean q)
          have hrune : (((some w).filter (!invalid ·)).getD INVALID_RUNE : Int) = if f w then
              ((INVALID_RUNE : Nat) : Int) else w := by
            rw [hf w]
            cases hi : invalid w <;> simp [Option.filter, hi]
          have hruns := stringRunes_lead hs hl h₁ (h0 hpq)
          refine ⟨_, ho, ?_, ?_⟩
          · rw [hruns]
            exact Nat.succ_le_succ hlen
          · rw [hruns, hrune, List.cons_eq_cons, heq, hpq,
              unbroken_append fun c hc => lead_none_of_le (hm c hc), ← hpq]
            exact ⟨fun h => ⟨h₃, h.2⟩, fun h => ⟨rfl, h.2⟩⟩
        | broken m d q hpq hm hd h₁ h₂ h₃ =>
          obtain ⟨out, ho, hlen, heq⟩ :=
            next (hcall.trans (getSequenceCall_error h₂ f)) (nonneg INVALID_RUNE) hpq
              (.pushed d q hd)
          have hruns := stringRunes_lead hs hl h₁ (h0 hpq)
          refine ⟨_, ho, ?_, ?_⟩
          · rw [hruns]
            exact Nat.succ_le_succ hlen
          · rw [hruns, List.cons_eq_cons, heq, hpq, unbroken_append fun c hc =>
              lead_none_of_le (hm c hc), ← hpq]
            exact ⟨fun h => ⟨h₃, h.2⟩, fun h => ⟨rfl, h.2⟩⟩
        | swallowed m d x q hpq hm h₁ h₂ h₃ =>
          have hdx : ∀ c ∈ d :: x, lead c = none :=
            fun c hc => lead_none_of_le (hm c (List.mem_append_right m hc))
          have hq₀ : p = m ++ (d :: x ++ q) := by rw [hpq, List.append_assoc]
          have hruns := stringRunes_lead hs hl h₁ (h0 hq₀)
          rw [stringRunes_append hdx (h0 hq₀)] at hruns
          obtain ⟨r, out, ho, hlen⟩ : ∃ r out, readCallN listGetch (n + 1 + 1) state l =
              some (r :: out) ∧
              out.length ≤ (stringRunes q).length := by
            rcases h₂ with ⟨w, h₂⟩ | ⟨e, q', rfl, he, h₂⟩
            · obtain ⟨out, ho, hlen, _⟩ :=
                next (hcall.trans (getSequenceCall_ok h₂ f)) (hval w) hpq (.clean q)
              exact ⟨_, out, ho, hlen⟩
            · obtain ⟨out, ho, hlen, _⟩ := next (hcall.trans (getSequenceCall_error h₂ f))
                (nonneg INVALID_RUNE) hpq (.pushed e q' he)
              exact ⟨_, out, ho, hlen⟩
          have hlt : (r :: out).length < (stringRunes (c :: p)).length := by
            simp only [hruns, List.length_cons, List.length_append, List.length_map]
            omega
          exact ⟨_, ho, Nat.le_of_lt hlt, fun h => absurd (congrArg List.length h)
            (Nat.ne_of_lt hlt), fun h => absurd h.1 h₃⟩
        | cut j w hpc hj hjn hw h₁ h₂ h₃ =>
          have hpq : p = p ++ [] := (List.append_nil p).symm
          obtain ⟨out, ho, hlen, _⟩ :=
            next (hcall.trans (getSequenceCall_ok h₂ f)) (hval _) hpq (.clean [])
          obtain rfl : out = [] := List.length_eq_zero_iff.mp (by simpa using hlen)
          have hruns := stringRunes_lead (q := []) hs hl h₁ (by simp)
          have hub : Unbroken p := by
            rw [hpq]
            exact (unbroken_append fun c hc => lead_none_of_le (hpc c hc)).mpr trivial
          refine ⟨_, ho, by rw [hruns]; exact Nat.le_refl _, ?_⟩
          rw [hruns, h₃, ← hcut j w hj hjn hw, stringRunes_nil, List.cons_eq_cons]
          constructor
          · intro h
            refine ⟨?_, hub⟩
            by_contra hi
            rw [if_neg hi] at h
            exact eofValue_ne_invalid hj (Nat.le_trans hjn (lead_le hl)) h.1
          · intro h
            exact ⟨if_pos h.1, rfl⟩

/-- Reading a string through `get_utf_call`, from any client that delivers its bytes, gives the
characters of repeated `get_utf` exactly if the string is `Unbroken`. -/
theorem readCall_eq_iff {σ : Type} {getch : σ → Int × σ} {data : σ} (hs : 0 ∉ s)
    (hfeed : Feeds getch data (s.map byteInt)) :
    readCallN getch (s.length + 1) (-1) data = some (stringRunes s) ↔ Unbroken s := by
  obtain ⟨out, ho, _, heq⟩ := readCall_spec hs (.clean s) (Nat.le_refl s.length)
  rw [readCallN_feeds _ _ hfeed, ho, Option.some.injEq, heq]

/-- The letter that breaks off a sequence is lost in it, where the comment has it read again. -/
theorem readCall_letter_swallowed :
    readCallN listGetch 3 (-1) ([0xc3, 0x41].map byteInt) = some [0x81] ∧
      stringRunes [0xc3, 0x41] = [0xfffd, 0x41] := by
  decide

theorem readCall_eq_iff_accented :
    readCallN listGetch 3 (-1) ([0xc3, 0xa9].map byteInt) = some (stringRunes [0xc3, 0xa9]) :=
  (readCall_eq_iff (s := [0xc3, 0xa9]) (by decide) (listGetch_feeds _)).mpr
    ⟨by simp [lead, Continued], by simp [Unbroken, lead]⟩

end Net
end NuMoo
