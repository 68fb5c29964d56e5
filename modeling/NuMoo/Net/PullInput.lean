import NuMoo.Net.Utf

/-!
# Reading lines from the network

`pull_input` of `net_multi.c` on a connection that is not binary. What it is for: the lines
of the characters that the bytes stand for. It keeps the bytes of a sequence that is not
complete for the next read, but then it forgets as many bytes at the end of that read.

Results:
1. `pullInput_lines_iff`: the lines do not depend on how the bytes are cut into reads, and are
   the lines of the characters, exactly when no line ends after the first byte of a longer
   sequence; reads none of which ends inside a sequence always yield the lines of the characters.
2. `pullInput_cut`: a letter of two bytes that is cut in two loses the line end after it.
-/

namespace NuMoo
namespace Net

/-- The fields of `nhandle` for input. -/
structure NHandle where
  input : Str
  excessUtf : Str
  lastInputWasCR : Bool
deriving DecidableEq, Repr

/-- The size of the buffer of `pull_input`. -/
def bufferSize : Nat := 1024

namespace NHandle

/-- The handle of a new connection. -/
def create : NHandle := { input := [], excessUtf := [], lastInputWasCR := false }

/-- What `pull_input` does with a character, and the line that it passes to
`server_receive_line`. -/
def receiveChar (character : Nat → Bool) (h : NHandle) (c : Nat) : NHandle × Option Str :=
  if myIsPrintable character c then ({ h with input := streamAddUtf h.input c }, none)
  else if c = 0x08 ∨ c = 0x7f then ({ h with input := streamDeleteUtf h.input }, none)
  else if c = 0x0d ∨ (c = 0x0a ∧ !h.lastInputWasCR) then ({ h with input := [] }, some h.input)
  else (h, none)

/-- One turn of the loop of `pull_input`. -/
def receive (character : Nat → Bool) (h : NHandle) (c : Nat) : NHandle × Option Str :=
  ({ (h.receiveChar character c).1 with lastInputWasCR := c = 0x0d }, (h.receiveChar character c).2)

/-- The loop of `pull_input` over the bytes up to `end`, which yields the lines and the bytes left.
The fuel is the number of bytes. -/
def pullLoop (character : Nat → Bool) : Nat → NHandle → Str → NHandle × List Str × Str
  | 0, h, p => (h, [], p)
  | _ + 1, h, [] => (h, [], [])
  | n + 1, h, c :: p =>
    if clearanceUtf c ≤ (c :: p).length then
      match getUtf (c :: p) with
      | none => (h, [], c :: p)
      | some (r, p) =>
        let next := h.receive character r
        let rest := pullLoop character n next.1 p
        (rest.1, next.2.toList ++ rest.2.1, rest.2.2)
    else (h, [], c :: p)

/-- `pull_input` after a read of `data`. The bytes that were kept come first in the buffer, and the
loop ends after as many bytes as were read. -/
def pullInput (character : Nat → Bool) (h : NHandle) (data : Str) : NHandle × List Str :=
  let buffer := h.excessUtf ++ data
  let result := pullLoop character data.length h (buffer.take data.length)
  ({ result.1 with excessUtf := result.2.2 }, result.2.1)

/-- The lines of successive reads. -/
def pullAll (character : Nat → Bool) (h : NHandle) : List Str → List Str
  | [] => []
  | data :: reads =>
    (h.pullInput character data).2 ++ (h.pullInput character data).1.pullAll character reads

/-- Successive reads that are not empty and fit into the buffer. -/
def Reads (character : Nat → Bool) (h : NHandle) : List Str → Prop
  | [] => True
  | data :: reads =>
    data ≠ [] ∧ h.excessUtf.length + data.length ≤ bufferSize ∧
      (h.pullInput character data).1.Reads character reads

end NHandle

/-! ## The lines of a text -/

/-- The line so far, and whether the last character was a carriage return. -/
structure LineState where
  line : List Nat
  cr : Bool

/-- A character of a text: it is added, deletes the one before, ends the line, or is dropped. -/
def LineState.step (character : Nat → Bool) (s : LineState) (c : Nat) :
    LineState × Option (List Nat) :=
  if myIsPrintable character c then ({ line := s.line ++ [c], cr := c = 0x0d }, none)
  else if c = 0x08 ∨ c = 0x7f then ({ line := s.line.dropLast, cr := c = 0x0d }, none)
  else if c = 0x0d ∨ (c = 0x0a ∧ !s.cr) then ({ line := [], cr := c = 0x0d }, some s.line)
  else ({ line := s.line, cr := c = 0x0d }, none)

/-- The lines of a text, and what is left after the last line end. -/
def LineState.run (character : Nat → Bool) (s : LineState) : List Nat → LineState × List (List Nat)
  | [] => (s, [])
  | c :: l => (((s.step character c).1.run character l).1, (s.step character c).2.toList ++
    ((s.step character c).1.run character l).2)

/-- The lines that a stream of bytes stands for. -/
def linesOf (character : Nat → Bool) (s : Str) : List Str :=
  ((LineState.run character { line := [], cr := false } (decode s)).2).map encode

namespace LineState

variable {character : Nat → Bool} {s : LineState} {l m : List Nat} {r : Nat}

theorem run_append (character : Nat → Bool) (s : LineState) (l m : List Nat) :
    s.run character (l ++ m) =
      (((s.run character l).1.run character m).1, (s.run character l).2 ++
        ((s.run character l).1.run character m).2) := by
  induction l generalizing s with
  | nil => rfl
  | cons c l ih =>
    rw [List.cons_append, run, run, ih]
    simp

theorem endsLine_not_printable (h : EndsLine r) : myIsPrintable character r = false := by
  rcases h with rfl | rfl <;> rfl

theorem step_none (h : ¬ EndsLine r) : (s.step character r).2 = none := by
  unfold step
  split
  · rfl
  · split
    · rfl
    · split
      · next hr => exact absurd (hr.elim .inr fun hr => .inl hr.1) h
      · rfl

theorem step_cr (s : LineState) (r : Nat) : (s.step character r).1.cr = decide (r = 0x0d) := by
  unfold step
  split
  · rfl
  · split
    · rfl
    · split <;> rfl

theorem run_none (h : ∀ r ∈ l, ¬ EndsLine r) : (s.run character l).2 = [] := by
  induction l generalizing s with
  | nil => rfl
  | cons c l ih =>
    rw [run, step_none (h c List.mem_cons_self), ih fun r hr => h r (List.mem_cons_of_mem _ hr)]
    rfl

/-- The first line end ends a line, unless it is a line feed after a carriage return. -/
theorem run_some (hs : s.cr = false) (h : ∃ r ∈ l, EndsLine r) : (s.run character l).2 ≠ [] := by
  induction l generalizing s with
  | nil => simp at h
  | cons c l ih =>
    by_cases hc : EndsLine c
    · have hstep : (s.step character c).2 = some s.line := by
        unfold step
        rw [endsLine_not_printable hc]
        rcases hc with rfl | rfl <;> simp [hs]
      rw [run, hstep]
      simp
    · have hcr : (s.step character c).1.cr = false := by
        rw [step_cr]
        exact decide_eq_false fun he => hc (.inr he)
      rw [List.exists_mem_cons_iff] at h
      rw [run, step_none hc]
      exact ih hcr (h.resolve_left hc)

end LineState

/-! ## Reads -/

/-- The line of a handle holds the characters of the line so far. -/
structure Holds (h : NHandle) (s : LineState) : Prop where
  input : h.input = encode s.line
  cr : h.lastInputWasCR = s.cr
  encodable : ∀ r ∈ s.line, Encodable r

variable {character : Nat → Bool} {h : NHandle} {s : LineState} {r n : Nat} {p q : Str}

theorem create_holds : Holds NHandle.create { line := [], cr := false } := ⟨rfl, rfl, by simp⟩

theorem printable_encodable (hp : myIsPrintable character r = true) (hr : r ≤ 0x10ffff) :
    Encodable r := by
  refine ⟨hr, fun hs => ?_⟩
  have h9 : r ≠ 9 := by omega
  rw [myIsPrintable, if_neg h9, if_pos (.inr hs)] at hp
  simp at hp

theorem receive_spec (hh : Holds h s) (hr : r ≤ 0x10ffff) :
    Holds (h.receive character r).1 (s.step character r).1 ∧
      (h.receive character r).2 = (s.step character r).2.map encode ∧
      (h.receive character r).1.excessUtf = h.excessUtf := by
  unfold NHandle.receive NHandle.receiveChar LineState.step
  by_cases hp : myIsPrintable character r = true
  · rw [if_pos hp, if_pos hp]
    refine ⟨⟨?_, rfl, fun x hx => ?_⟩, rfl, rfl⟩
    · dsimp only
      rw [hh.input, encode_concat]
    · rcases List.mem_append.mp hx with hx | hx
      · exact hh.encodable x hx
      · obtain rfl := List.mem_singleton.mp hx
        exact printable_encodable hp hr
  · rw [if_neg hp, if_neg hp]
    by_cases hd : r = 0x08 ∨ r = 0x7f
    · rw [if_pos hd, if_pos hd]
      refine ⟨⟨?_, rfl, fun x hx => hh.encodable x (List.dropLast_subset _ hx)⟩, rfl, rfl⟩
      dsimp only
      rw [hh.input, streamDeleteUtf_encode hh.encodable]
    · rw [if_neg hd, if_neg hd, hh.cr]
      split
      · exact ⟨⟨rfl, rfl, by simp⟩, by simp [hh.input], rfl⟩
      · exact ⟨⟨hh.input, rfl, hh.encodable⟩, rfl, rfl⟩

/-- Bytes that are characters of their own are taken one by one. -/
theorem pullLoop_append (hh : Holds h s) (hp : ∀ c ∈ p, clearanceUtf c = 1) (q : Str) (n : Nat) :
    ∃ h', Holds h' (s.run character (p.map byteRune)).1 ∧ h'.excessUtf = h.excessUtf ∧
      h.pullLoop character (p.length + n) (p ++ q) =
        ((h'.pullLoop character n q).1, (s.run character (p.map byteRune)).2.map encode ++
          (h'.pullLoop character n q).2.1,
          (h'.pullLoop character n q).2.2) := by
  induction p generalizing h s with
  | nil => exact ⟨h, hh, rfl, by simp [LineState.run]⟩
  | cons c p ih =>
    have hc : clearanceUtf c = 1 := hp c List.mem_cons_self
    have hg := getUtf_single hc (p ++ q)
    obtain ⟨m, _, _, _, hr⟩ := getUtf_some hg
    obtain ⟨hstep, hline, hex⟩ := receive_spec hh hr
    obtain ⟨h', hh', hex', he⟩ := ih hstep fun d hd => hp d (List.mem_cons_of_mem _ hd)
    refine ⟨h', hh', hex'.trans hex, ?_⟩
    have hlen : clearanceUtf c ≤ (c :: (p ++ q)).length := by rw [hc]; simp
    rw [List.length_cons, Nat.add_right_comm, List.cons_append, NHandle.pullLoop, if_pos hlen, hg]
    dsimp only
    rw [he, hline, List.map_cons, LineState.run]
    simp [Option.toList_map]

theorem receive_none (hr : ¬ EndsLine r) : (h.receive character r).2 = none := by
  unfold NHandle.receive NHandle.receiveChar
  dsimp only
  split
  · rfl
  · split
    · rfl
    · split
      · next hc => exact absurd (hc.elim .inr fun hc => .inl hc.1) hr
      · rfl

/-- Bytes without a line end yield no line, and leave bytes without one. -/
theorem pullLoop_none (n : Nat) (h : NHandle) (hp : ∀ c ∈ p, isLineEnd c = false) :
    (h.pullLoop character n p).2.1 = [] ∧
      (∀ c ∈ (h.pullLoop character n p).2.2, isLineEnd c = false) := by
  induction n generalizing h p with
  | zero => exact ⟨rfl, hp⟩
  | succ n ih =>
    cases p with
    | nil => exact ⟨rfl, hp⟩
    | cons c p =>
      rw [NHandle.pullLoop]
      split
      · cases hg : getUtf (c :: p) with
        | none => exact ⟨rfl, hp⟩
        | some d =>
          obtain ⟨r, p'⟩ := d
          obtain ⟨m, rfl, _, hr, _⟩ := getUtf_some hg
          have hnl : ¬ EndsLine r := by
            rw [hr, hp c List.mem_cons_self]
            simp
          obtain ⟨hl, hp'⟩ :=
            ih (h.receive character r).1 fun d (hd : d ∈ p') => hp d (by simp [hd])
          dsimp only
          rw [receive_none hnl, hl]
          exact ⟨rfl, hp'⟩
      · exact ⟨rfl, hp⟩

/-- Reads without a line end, after bytes that were kept without one, yield no line. -/
theorem pullAll_none {reads : List Str} (hx : ∀ c ∈ h.excessUtf, isLineEnd c = false)
    (hr : ∀ data ∈ reads, ∀ c ∈ data, isLineEnd c = false) : h.pullAll character reads = [] := by
  induction reads generalizing h with
  | nil => rfl
  | cons data reads ih =>
    have hb : ∀ c ∈ (h.excessUtf ++ data).take data.length, isLineEnd c = false := by
      intro c hc
      rcases List.mem_append.mp (List.mem_of_mem_take hc) with hc | hc
      · exact hx c hc
      · exact hr data List.mem_cons_self c hc
    obtain ⟨hl, hp⟩ := pullLoop_none data.length h hb
    rw [NHandle.pullAll, NHandle.pullInput]
    dsimp only
    rw [hl]
    exact ih hp fun d hd => hr d (List.mem_cons_of_mem _ hd)

/-- A stream in which no line ends after the first byte of a longer sequence. -/
def EndsEarly (s : Str) : Prop := s.Pairwise fun c d => clearanceUtf c ≠ 1 → isLineEnd d = false

/-- Such a stream is bytes that are characters of their own, and then bytes without a line end. -/
theorem endsEarly_split {s : Str} (h : EndsEarly s) :
    ∃ p q, s = p ++ q ∧ (∀ c ∈ p, clearanceUtf c = 1) ∧ ∀ c ∈ q, isLineEnd c = false := by
  induction s with
  | nil => exact ⟨[], [], rfl, by simp, by simp⟩
  | cons c s ih =>
    obtain ⟨hc, hs⟩ := List.pairwise_cons.mp h
    by_cases h1 : clearanceUtf c = 1
    · obtain ⟨p, q, rfl, hp, hq⟩ := ih hs
      exact ⟨c :: p, q, rfl, List.forall_mem_cons.mpr ⟨h1, hp⟩, hq⟩
    · refine ⟨[], c :: s, rfl, by simp, List.forall_mem_cons.mpr ⟨?_, fun d hd => hc d hd h1⟩⟩
      by_contra he
      exact h1 (clearanceUtf_of_lineEnd (by simpa using he))

theorem run_decode_none {q : Str} (hq : ∀ c ∈ q, isLineEnd c = false) :
    (s.run character (decode q)).2 = [] := by
  refine LineState.run_none fun r hr hend => ?_
  obtain ⟨c, hc, he⟩ := (decode_lineEnd q).mp ⟨r, hr, hend⟩
  rw [hq c hc] at he
  simp at he

/-- A read of bytes that are characters of their own keeps none. -/
theorem pullInput_single (hh : Holds h s) (hx : h.excessUtf = []) {data : Str}
    (hp : ∀ c ∈ data, clearanceUtf c = 1) :
    ∃ h', Holds h' (s.run character (data.map byteRune)).1 ∧ h'.excessUtf = [] ∧
      h.pullInput character data = (h', (s.run character (data.map byteRune)).2.map encode) := by
  obtain ⟨h', hh', _, he⟩ := pullLoop_append hh hp [] 0
  rw [Nat.add_zero, List.append_nil] at he
  refine ⟨{ h' with excessUtf := [] }, ⟨hh'.input, hh'.cr, hh'.encodable⟩, rfl, ?_⟩
  rw [NHandle.pullInput]
  dsimp only
  rw [hx, List.nil_append, List.take_length, he]
  simp [NHandle.pullLoop]

/-- Bytes at whose end no sequence is cut off are all taken. -/
theorem pullLoop_whole (hh : Holds h s) (hp : Whole p) (hn : p.length ≤ n) :
    ∃ h', Holds h' (s.run character (decode p)).1 ∧
      h.pullLoop character n p = (h', (s.run character (decode p)).2.map encode, []) := by
  induction hp generalizing h s n with
  | nil => exact ⟨h, hh, by cases n <;> rfl⟩
  | @cons c p p' r hlen hg _ ih =>
    obtain ⟨m, hm, _, _, hr⟩ := getUtf_some hg
    obtain ⟨hstep, hline, _⟩ : Holds (h.receive character r).1 (s.step character r).1 ∧
        (h.receive character r).2 = (s.step character r).2.map encode ∧ _ := receive_spec hh hr
    cases n with
    | zero => simp at hn
    | succ n =>
      have hn' : p'.length ≤ n := by
        have := getUtf_length hg
        rw [List.length_cons] at hn
        omega
      obtain ⟨h', hh', he⟩ := ih hstep hn'
      rw [decode_cons hg, LineState.run, NHandle.pullLoop, if_pos hlen, hg]
      dsimp only
      rw [he, hline]
      exact ⟨h', hh', by simp [Option.toList_map]⟩

/-- Reads none of which ends inside a sequence. -/
theorem pullAll_whole {reads : List Str} (hh : Holds h s) (hx : h.excessUtf = [])
    (hr : ∀ data ∈ reads, Whole data) :
    h.pullAll character reads = (s.run character (decode reads.flatten)).2.map encode := by
  induction reads generalizing h s with
  | nil => rfl
  | cons data reads ih =>
    obtain ⟨hdata, hreads⟩ := List.forall_mem_cons.mp hr
    obtain ⟨h', hh', he⟩ : ∃ h', Holds h' (s.run character (decode data)).1 ∧
        h.pullLoop character data.length data =
          (h', (s.run character (decode data)).2.map encode, []) :=
      pullLoop_whole hh hdata (Nat.le_refl _)
    have hread : h.pullInput character data =
        ({ h' with excessUtf := [] }, (s.run character (decode data)).2.map encode) := by
      rw [NHandle.pullInput]
      dsimp only
      rw [hx, List.nil_append, List.take_length, he]
    rw [NHandle.pullAll, hread, List.flatten_cons, hdata.decode, LineState.run_append,
      List.map_append]
    exact congrArg (_ ++ ·) (ih ⟨hh'.input, hh'.cr, hh'.encodable⟩ rfl hreads)

/-- Reads of bytes that are characters of their own, and then of bytes without a line end. -/
theorem pullAll_early {reads : List Str} (hh : Holds h s) (hx : h.excessUtf = []) {p q : Str}
    (hf : reads.flatten = p ++ q) (hp : ∀ c ∈ p, clearanceUtf c = 1)
    (hq : ∀ c ∈ q, isLineEnd c = false) :
    h.pullAll character reads = (s.run character (decode (p ++ q))).2.map encode := by
  induction reads generalizing h s p with
  | nil =>
    rw [← hf]
    rfl
  | cons data reads ih =>
    rw [List.flatten_cons] at hf
    rw [NHandle.pullAll]
    rcases List.append_eq_append_iff.mp hf with ⟨p₂, rfl, hrest⟩ | ⟨q₁, rfl, rfl⟩
    · -- the read ends before the first longer sequence
      have hdata : ∀ c ∈ data, clearanceUtf c = 1 := fun c hc => hp c (List.mem_append_left _ hc)
      obtain ⟨h', hh', hx', he⟩ := pullInput_single hh hx hdata
      have hih := ih hh' hx' hrest fun c hc => hp c (List.mem_append_right _ hc)
      rw [he, hih, List.append_assoc, decode_append hdata, LineState.run_append, List.map_append]
    · -- the first longer sequence begins in this read
      obtain ⟨h', hh', _, he⟩ := pullLoop_append hh hp q₁ q₁.length
      obtain ⟨hl, hrest⟩ := pullLoop_none q₁.length h' fun c hc => hq c (List.mem_append_left _ hc)
      have hread : h.pullInput character (p ++ q₁) =
          ({ (h'.pullLoop character q₁.length q₁).1 with
              excessUtf := (h'.pullLoop character q₁.length q₁).2.2 },
            (s.run character (p.map byteRune)).2.map encode) := by
        rw [NHandle.pullInput]
        dsimp only
        rw [hx, List.nil_append, List.take_length, List.length_append, he, hl, List.append_nil]
      rw [hread, decode_append hp, LineState.run_append, run_decode_none hq, List.append_nil]
      dsimp only
      rw [pullAll_none hrest fun d hd c hc =>
        hq c (List.mem_append_right _ (List.mem_flatten.mpr ⟨d, hd, hc⟩)),
        List.append_nil]

/-- Single bytes, which are characters of their own. -/
theorem pullAll_singles (hh : Holds h s) (hx : h.excessUtf = []) (hp : ∀ c ∈ p, clearanceUtf c = 1)
    (reads : List Str) :
    ∃ h' : NHandle, h'.excessUtf = [] ∧
      h.pullAll character (p.map (fun c => [c]) ++ reads) =
        (s.run character (p.map byteRune)).2.map encode ++ h'.pullAll character reads := by
  induction p generalizing h s with
  | nil => exact ⟨h, hx, by simp [LineState.run]⟩
  | cons c p ih =>
    obtain ⟨h₁, hh₁, hx₁, he⟩ := pullInput_single hh hx
      (List.forall_mem_singleton.mpr (hp c List.mem_cons_self))
    obtain ⟨h', hx', hih⟩ := ih hh₁ hx₁ fun d hd => hp d (List.mem_cons_of_mem _ hd)
    refine ⟨h', hx', ?_⟩
    rw [List.map_cons, List.cons_append, NHandle.pullAll, he, hih]
    simp [LineState.run, ← List.append_assoc]

/-- After the first byte of a longer sequence, single bytes yield nothing. -/
theorem pullAll_stuck {c : UInt8} (hc : clearanceUtf c ≠ 1) (hx : h.excessUtf = [c]) (q : Str) :
    h.pullAll character (q.map fun d => [d]) = [] := by
  induction q generalizing h with
  | nil => rfl
  | cons d q ih =>
    have hgt : ¬ clearanceUtf c ≤ 1 := fun hle => hc (Nat.le_antisymm hle (clearanceUtf_pos c))
    have hread : h.pullInput character [d] = ({ h with excessUtf := [c] }, []) := by
      simp [NHandle.pullInput, hx, NHandle.pullLoop, hgt]
    rw [List.map_cons, NHandle.pullAll, hread]
    exact ih rfl

/-- Single bytes fit into the buffer. -/
theorem reads_singles (hx : h.excessUtf.length ≤ 1) (q : Str) :
    h.Reads character (q.map fun d => [d]) := by
  induction q generalizing h with
  | nil => trivial
  | cons d q ih =>
    refine ⟨by simp, by simp only [List.length_singleton, bufferSize]; omega, ih ?_⟩
    -- one byte is taken or left
    have hlen : ∀ (h : NHandle) (p : Str), p.length ≤ 1 →
        (h.pullLoop character 1 p).2.2.length ≤ 1 := by
      intro h p hp
      cases p with
      | nil => simp [NHandle.pullLoop]
      | cons c p =>
        obtain rfl : p = [] := List.length_eq_zero_iff.mp (by simpa using hp)
        rw [NHandle.pullLoop]
        split
        · cases hg : getUtf [c] with
          | none => simp
          | some d =>
            obtain ⟨r, p'⟩ := d
            have := getUtf_length hg
            simp only [NHandle.pullLoop]
            simpa using Nat.le_succ_of_le this
        · simp
    exact hlen h _ (by simp)

/-- Any other stream has a first byte of a longer sequence, and a line end after it. -/
theorem not_endsEarly_split {s : Str} (h : ¬ EndsEarly s) :
    ∃ p c q, s = p ++ c :: q ∧ (∀ c ∈ p, clearanceUtf c = 1) ∧ clearanceUtf c ≠ 1 ∧
      ∃ d ∈ q, isLineEnd d = true := by
  induction s with
  | nil => exact absurd List.Pairwise.nil h
  | cons c s ih =>
    by_cases hc : clearanceUtf c = 1
    · have hs : ¬ EndsEarly s :=
        fun hs => h (List.pairwise_cons.mpr ⟨fun _ _ hne => absurd hc hne, hs⟩)
      obtain ⟨p, c', q, rfl, hp, hrest⟩ := ih hs
      exact ⟨c :: p, c', q, rfl, List.forall_mem_cons.mpr ⟨hc, hp⟩, hrest⟩
    · refine ⟨[], c, s, rfl, by simp, hc, ?_⟩
      by_contra hno
      have hnone : ∀ d ∈ s, isLineEnd d = false := fun d hd => by
        by_contra he
        exact hno ⟨d, hd, by simpa using he⟩
      exact h (List.pairwise_cons.mpr ⟨fun d hd _ => hnone d hd,
        List.pairwise_of_forall_mem_list fun _ _ d hd _ => hnone d hd⟩)

/-- A line end after the first byte of a longer sequence ends a line. -/
theorem run_decode_some {c : UInt8} {q : Str} (hc : clearanceUtf c ≠ 1)
    (hq : ∃ d ∈ q, isLineEnd d = true) :
    (s.run character (decode (c :: q))).2 ≠ [] := by
  obtain ⟨r, hr, hend⟩ :=
    (decode_lineEnd (c :: q)).mpr (hq.imp fun d hd => ⟨List.mem_cons_of_mem _ hd.1, hd.2⟩)
  cases hg : getUtf (c :: q) with
  | none =>
    rw [decode_none hg] at hr
    simp at hr
  | some d =>
    obtain ⟨x, q'⟩ := d
    obtain ⟨_, _, _, hx, _⟩ := getUtf_some hg
    have hnx : ¬ EndsLine x := fun he => hc (clearanceUtf_of_lineEnd (hx.mp he))
    rw [decode_cons hg] at hr ⊢
    have hmem : r ∈ decode q' := (List.mem_cons.mp hr).resolve_left fun he => hnx (he ▸ hend)
    have hcr : (s.step character x).1.cr = false := by
      rw [LineState.step_cr]
      exact decide_eq_false fun he => hnx (.inr he)
    rw [LineState.run, LineState.step_none hnx]
    exact LineState.run_some hcr ⟨r, hmem, hend⟩

/-- The lines that `pull_input` passes on are those of the stream, however it is cut into reads, if
and only if no line ends after the first byte of a longer sequence. They are those of any stream
when no read ends inside a sequence. -/
theorem pullInput_lines_iff (character : Nat → Bool) (stream : Str) :
    ((∀ reads : List Str, reads.flatten = stream → NHandle.create.Reads character reads →
      NHandle.create.pullAll character reads = linesOf character stream) ↔ EndsEarly stream) ∧
    ∀ reads : List Str, reads.flatten = stream → (∀ data ∈ reads, Whole data) →
      NHandle.create.pullAll character reads = linesOf character stream := by
  refine ⟨⟨fun hall => ?_, fun he reads hf _ => ?_⟩, fun reads hf hr => ?_⟩
  · by_contra hne
    obtain ⟨p, c, q, rfl, hp, hc, hq⟩ := not_endsEarly_split hne
    -- read byte by byte, the lines after the first longer sequence are lost
    have hreads := hall ((p ++ c :: q).map fun d => [d])
      (by rw [← List.flatMap_def, List.flatMap_singleton'])
        (reads_singles (by simp [NHandle.create]) _)
    obtain ⟨h', hx', he⟩ := pullAll_singles create_holds rfl hp ((c :: q).map fun d => [d])
    have hgt : ¬ clearanceUtf c ≤ 1 := fun hle => hc (Nat.le_antisymm hle (clearanceUtf_pos c))
    have hread : h'.pullInput character [c] = ({ h' with excessUtf := [c] }, []) := by
      simp [NHandle.pullInput, hx', NHandle.pullLoop, hgt]
    rw [List.map_append, he, List.map_cons, NHandle.pullAll, hread, pullAll_stuck hc rfl, linesOf,
      decode_append hp,
      LineState.run_append, List.map_append] at hreads
    exact run_decode_some hc hq (List.map_eq_nil_iff.mp (List.append_cancel_left hreads).symm)
  · obtain ⟨p, q, rfl, hp, hq⟩ := endsEarly_split he
    exact pullAll_early create_holds rfl hf hp hq
  · rw [← hf]
    exact pullAll_whole create_holds rfl hr

/-- A letter of two bytes and a line feed, read as three bytes, yield no line. -/
theorem pullInput_cut :
    NHandle.create.Reads (fun _ => true) [[0xc3], [0xa9], [0x0a]] ∧
      NHandle.create.pullAll (fun _ => true) [[0xc3], [0xa9], [0x0a]] = [] ∧
      linesOf (fun _ => true) [0xc3, 0xa9, 0x0a] = [[0xc3, 0xa9]] := by
  refine ⟨⟨by decide, by decide, by decide, by decide, by decide, by decide, trivial⟩,
    by decide, by decide⟩

end Net
end NuMoo
