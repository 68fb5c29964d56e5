import Mathlib.Data.List.TakeWhile
import NuMoo.Code.Value
import NuMoo.Db.Dbio

/-!
# Strings in chunks

`dbio_read_line` and `dbio_read_string` with the static buffer of 1024 bytes that they fill, byte by
byte. Whether a string goes on in the next chunk is told from the length of the C string in the
buffer and from a status.

Results:
1. `Chunk.dbioReadLine_refines`, `readChunks_refines`: the buffer yields what the reader of texts
   yields.
2. `Statics.dbioReadString_write`: a string that was written is read back, whatever the buffer held
   before.
-/

namespace NuMoo

/-- The static buffer of `dbio_read_string`, whose last byte stays NUL. -/
structure Chunk where
  bytes : Str
  size : bytes.length = 1024
  ended : bytes[1023]? = some 0

/-- `s[pos] = c`, which has no value outside the buffer. -/
def Chunk.store (b : Chunk) (pos : Nat) (c : UInt8) : Option Chunk :=
  if h : pos < 1023 ∨ pos = 1023 ∧ c = 0 then
    some {
      bytes := b.bytes.set pos c
      size := by rw [List.length_set, b.size]
      ended := by
        rcases h with h | ⟨rfl, rfl⟩
        · rw [List.getElem?_set_ne (Nat.ne_of_lt h), b.ended]
        · rw [List.getElem?_set_self (by rw [b.size]; decide)] }
  else none

/-- The loop of `dbio_read_line` from `pos` on, with room for so many more characters. The status
comes first. -/
def Chunk.dbioReadLine : Nat → Nat → Chunk → Str → Option (Int × Chunk × Str)
  | 0, _, b, inp => some (1, b, inp)
  | _ + 1, pos, b, [] =>
    if pos = 0 then some (-1, b, []) else (b.store pos 0).map fun b => (0, b, [])
  | room + 1, pos, b, c :: inp =>
    if c = 0x0a then (b.store pos 0x0a).bind fun b => (b.store (pos + 1) 0).map fun b => (0, b, inp)
    else if c = 0 then
      match inp with
      | [] => some (-1, b, [])
      | e :: inp =>
        if e = 0x6e then (b.store pos 0x0a).bind fun b => Chunk.dbioReadLine room (pos + 1) b inp
        else if e = 0x72 then (b.store pos 0x0d).bind fun b =>
          Chunk.dbioReadLine room (pos + 1) b inp
        else some (-1, b, inp)
    else (b.store pos c).bind fun b => Chunk.dbioReadLine room (pos + 1) b inp

/-- The loop of `dbio_read_string`; there is no `buffer[-1]`. -/
def readChunks : Nat → Chunk → Str → Str → Option (Str × Chunk × Str)
  | 0, _, _, _ => none
  | n + 1, b, str, inp =>
    (Chunk.dbioReadLine 1023 0 b inp).bind fun (status, b, inp) =>
      let len := (cstr b.bytes).length
      if len = 1023 ∧ 0 < status then readChunks n b (str ++ cstr b.bytes) inp
      else if len = 0 then none
      else
        (if b.bytes[len - 1]? = some 0x0a then b.store (len - 1) 0 else some b).map fun b =>
          (str ++ cstr b.bytes, b, inp)

/-- The static variables of `dbio_read_string`. `reset_stream` leaves an empty stream behind. -/
structure Statics where
  buffer : Chunk
  str : Str
  idle : str = []

/-- `dbio_read_string`. Without the stream, the text is that of the buffer. -/
def Statics.dbioReadString (st : Statics) (inp : Str) : Option (Str × Statics × Str) :=
  (readChunks (inp.length + 1) st.buffer st.str inp).map fun (s, buffer, inp) =>
    (s, { buffer, str := [], idle := rfl }, inp)

/-! ## One line -/

variable {b : Chunk} {p : Str} {c : UInt8} {inp rest s : Str} {pos room n : Nat}

/-- A byte is stored behind what the buffer begins with. -/
theorem Chunk.store_prefix (hp : p <+: b.bytes) (h : p.length < 1023 ∨ p.length = 1023 ∧ c = 0) :
    ∃ b', b.store p.length c = some b' ∧ p ++ [c] <+: b'.bytes := by
  have hlt : p.length < b.bytes.length := by
    rw [b.size]
    omega
  refine ⟨_, dif_pos h, ?_⟩
  obtain ⟨q, hq⟩ := hp
  show p ++ [c] <+: b.bytes.set p.length c
  rw [← hq, List.set_append_right _ _ (le_refl _), Nat.sub_self]
  cases q with
  | nil => exact absurd (congrArg List.length hq) (by rw [List.append_nil]; exact Nat.ne_of_lt hlt)
  | cons x q => exact ⟨q, by simp⟩

theorem cstr_of_prefix (h0 : 0 ∉ p) (h : p ++ [0] <+: b.bytes) : cstr b.bytes = p := by
  obtain ⟨q, hq⟩ := h
  rw [← hq, List.append_assoc, List.singleton_append, cstr_word h0]

/-- A full buffer ends with the NUL behind it. -/
theorem cstr_full (h0 : 0 ∉ p) (hp : p <+: b.bytes) (hlen : p.length = 1023) :
    cstr b.bytes = p := by
  refine cstr_of_prefix h0 ?_
  obtain ⟨q, hq⟩ := hp
  have hsize := congrArg List.length hq
  rw [List.length_append, hlen, b.size] at hsize
  obtain ⟨x, rfl⟩ := List.length_eq_one_iff.mp (by omega : q.length = 1)
  have hend := b.ended
  rw [← hq, ← hlen, List.getElem?_append_right (le_refl _), Nat.sub_self,
    List.getElem?_cons_zero] at hend
  rw [← hq, Option.some.inj hend]

/-- What the buffer holds behind `p` after the loop is what the reader of texts yields. -/
theorem Chunk.dbioReadLine_refines {cs : Str} {full : Bool}
    (h : readChars room inp = some ((cs, full), rest)) (h0 : 0 ∉ p) (hp : p <+: b.bytes)
    (hroom : p.length + room = 1023) (hne : p ≠ [] ∨ inp ≠ []) :
    ∃ b', Chunk.dbioReadLine room p.length b inp = some (if full then 1 else 0, b', rest) ∧
      cstr b'.bytes = p ++ cs ∧ (full = true → cs.length = room) := by
  induction room generalizing p b inp cs with
  | zero =>
    cases h
    exact ⟨b, rfl, by rw [List.append_nil, cstr_full h0 hp hroom], fun _ => rfl⟩
  | succ room ih =>
    have hlt : p.length < 1023 := by omega
    -- a character is stored, and the loop goes on behind it
    have hstep : ∀ c inp', c ≠ 0 → ((readChars room inp').map fun r => ((c :: r.1.1, r.1.2), r.2)) =
        some ((cs, full), rest) →
        ∃ b', ((b.store p.length c).bind fun b => Chunk.dbioReadLine room (p.length + 1) b inp') =
          some (if full then 1 else 0, b', rest) ∧
          cstr b'.bytes = p ++ cs ∧ (full = true → cs.length = room + 1) := by
      intro c inp' hc hr
      obtain ⟨⟨⟨cs', full'⟩, rest'⟩, hread, heq⟩ := Option.map_eq_some_iff.mp hr
      cases heq
      obtain ⟨b₁, hstore, hb₁⟩ := Chunk.store_prefix (c := c) hp (.inl hlt)
      have h0' : 0 ∉ p ++ [c] :=
        fun hm => (List.mem_append.mp hm).elim h0 fun hm => hc (List.mem_singleton.mp hm).symm
      have hlen : (p ++ [c]).length = p.length + 1 := List.length_append
      obtain ⟨b', hline, hcstr, hfull⟩ := ih hread h0' hb₁ (by omega)
        (.inl (List.append_ne_nil_of_right_ne_nil p (List.cons_ne_nil c [])))
      rw [hlen] at hline
      refine ⟨b', by rw [hstore, Option.bind_some, hline], ?_,
        fun hf => congrArg Nat.succ (hfull hf)⟩
      rw [hcstr, List.append_assoc, List.singleton_append]
    rw [readChars.eq_def] at h
    cases inp with
    | nil =>
      cases h
      have hpos : p.length ≠ 0 :=
        fun hzero => (hne.resolve_right fun hn => hn rfl) (List.length_eq_zero_iff.mp hzero)
      obtain ⟨b', hstore, hb'⟩ := Chunk.store_prefix (c := 0) hp (.inl hlt)
      refine ⟨b', ?_, by rw [List.append_nil, cstr_of_prefix h0 hb'],
        fun hf => absurd hf Bool.false_ne_true⟩
      rw [Chunk.dbioReadLine, if_neg hpos, hstore]
      rfl
    | cons c inp =>
      dsimp only at h
      rw [Chunk.dbioReadLine.eq_def]
      dsimp only
      split at h
      · -- the end of the record, behind which the NUL is put
        rename_i hnl
        cases h
        obtain ⟨b₁, hstore, hb₁⟩ := Chunk.store_prefix (c := 0x0a) hp (.inl hlt)
        have h0' : 0 ∉ p ++ [0x0a] := fun hm => (List.mem_append.mp hm).elim h0 (by decide)
        have hlen : (p ++ [0x0a]).length = p.length + 1 := List.length_append
        have hroom' : (p ++ [0x0a]).length < 1023 ∨ (p ++ [0x0a]).length = 1023 ∧
            (0 : UInt8) = 0 := by
          rw [hlen]
          exact (Nat.lt_or_eq_of_le hlt).imp_right fun h => ⟨h, rfl⟩
        obtain ⟨b₂, hstore', hb₂⟩ := Chunk.store_prefix hb₁ hroom'
        rw [hlen] at hstore'
        refine ⟨b₂, ?_, cstr_of_prefix h0' hb₂, fun hf => absurd hf Bool.false_ne_true⟩
        rw [if_pos hnl, hstore, Option.bind_some, hstore']
        rfl
      · rename_i hnl
        rw [if_neg hnl]
        split at h
        · rename_i hesc
          rw [if_pos hesc]
          cases inp with
          | nil => cases h
          | cons e inp =>
            dsimp only at h ⊢
            split at h
            · rename_i hn
              rw [if_pos hn]
              exact hstep 0x0a inp (by decide) h
            · rename_i hn
              rw [if_neg hn]
              split at h
              · rename_i hr
                rw [if_pos hr]
                exact hstep 0x0d inp (by decide) h
              · cases h
        · rename_i hesc
          rw [if_neg hesc]
          exact hstep c inp hesc h

/-! ## One string -/

theorem readChars_ne_nil {cs : Str} {full : Bool}
    (h : readChars (n + 1) inp = some ((cs, full), rest)) (hne : inp ≠ []) : cs ≠ [] := by
  obtain ⟨c, inp, rfl⟩ := List.exists_cons_of_ne_nil hne
  have hcons : ∀ c inp', ((readChars n inp').map fun r => ((c :: r.1.1, r.1.2), r.2)) =
      some ((cs, full), rest) → cs ≠ [] := by
    intro c inp' hmap
    obtain ⟨r, -, heq⟩ := Option.map_eq_some_iff.mp hmap
    cases heq
    exact List.cons_ne_nil _ _
  rw [readChars.eq_def] at h
  dsimp only at h
  split at h
  · cases h
    exact List.cons_ne_nil _ _
  · split at h
    · split at h
      · cases h
      · split at h
        · exact hcons _ _ h
        · split at h
          · exact hcons _ _ h
          · cases h
    · exact hcons _ _ h

theorem zero_not_mem_cstr (s : Str) : 0 ∉ cstr s := fun h => by simpa using List.mem_takeWhile_imp h

theorem length_cstr_le (b : Chunk) : (cstr b.bytes).length ≤ 1023 := by
  have hend := b.ended
  by_contra hlong
  have hprefix : cstr b.bytes <+: b.bytes := List.takeWhile_prefix _
  obtain ⟨q, hq⟩ := hprefix
  rw [← hq, List.getElem?_append_left (by omega)] at hend
  exact zero_not_mem_cstr b.bytes (List.mem_of_getElem? hend)

/-- The newline at the end of the C string in the buffer is taken away. -/
theorem chomp_spec (b : Chunk) (hne : cstr b.bytes ≠ []) :
    ∃ b', (if b.bytes[(cstr b.bytes).length - 1]? = some 0x0a then
      b.store ((cstr b.bytes).length - 1) 0 else some b) = some b' ∧
      cstr b'.bytes = if (cstr b.bytes).getLast? = some 0x0a then (cstr b.bytes).dropLast
        else cstr b.bytes := by
  have hprefix : cstr b.bytes <+: b.bytes := List.takeWhile_prefix _
  have h0 := zero_not_mem_cstr b.bytes
  have hlen := length_cstr_le b
  obtain ⟨t, c, hcstr⟩ := List.eq_nil_or_concat _ |>.resolve_left hne
  rw [List.concat_eq_append] at hcstr
  rw [hcstr] at hprefix h0 hlen ⊢
  have hplace : (t ++ [c]).length - 1 = t.length := by
    rw [List.length_append, List.length_singleton, Nat.add_sub_cancel]
  have hlast : b.bytes[t.length]? = some c := by
    obtain ⟨q, hq⟩ := hprefix
    rw [← hq, List.append_assoc, List.getElem?_append_right (le_refl _), Nat.sub_self]
    rfl
  rw [hplace, hlast, List.getLast?_concat, List.dropLast_concat]
  by_cases hc : c = 0x0a
  · have ht : t.length < 1023 := by
      rw [List.length_append, List.length_singleton] at hlen
      exact hlen
    obtain ⟨b', hstore, hb'⟩ :=
      Chunk.store_prefix (c := 0) ((List.prefix_append t [c]).trans hprefix) (.inl ht)
    refine ⟨b', by rw [if_pos (congrArg some hc), hstore], ?_⟩
    rw [if_pos (congrArg some hc), cstr_of_prefix (fun hm => h0 (List.mem_append_left _ hm)) hb']
  · have hc' : some c ≠ some 0x0a := fun h => hc (Option.some.inj h)
    exact ⟨b, if_neg hc', by rw [if_neg hc', hcstr]⟩

/-- The pieces are put together as the reader of texts does it. -/
theorem readChunks_refines (str : Str) (h : readString n inp = some (s, rest)) :
    ∃ b', readChunks n b str inp = some (str ++ s, b', rest) := by
  induction n generalizing b str inp s with
  | zero => cases h
  | succ n ih =>
    obtain ⟨⟨⟨buffer, full⟩, inp'⟩, hline, hrest⟩ := Option.bind_eq_some_iff.mp h
    rw [dbioReadLine] at hline
    split at hline
    · cases hline
    · rename_i hne
      have hbuffer := readChars_ne_nil hline hne
      obtain ⟨b₁, hline', hcstr, hfull⟩ :=
        Chunk.dbioReadLine_refines (b := b) hline List.not_mem_nil List.nil_prefix rfl (.inr hne)
      rw [List.nil_append] at hcstr
      subst hcstr
      have hstatus : (0 : Int) < (if full then 1 else 0) ↔ full = true := by cases full <;> decide
      rw [readChunks]
      rw [List.length_nil] at hline'
      rw [hline', Option.bind_some]
      dsimp only at hrest ⊢
      by_cases hgo : (cstr b₁.bytes).length = 1023 ∧ full = true
      · rw [if_pos hgo] at hrest
        obtain ⟨⟨t, rest'⟩, hgoes, hret⟩ := Option.bind_eq_some_iff.mp hrest
        cases hret
        rw [if_pos ⟨hgo.1, hstatus.mpr hgo.2⟩, ← List.append_assoc]
        exact ih _ hgoes
      · rw [if_neg hgo] at hrest
        cases hrest
        obtain ⟨b₂, hchomp, hcstr⟩ := chomp_spec b₁ hbuffer
        refine ⟨b₂, ?_⟩
        rw [if_neg fun h => hgo ⟨h.1, hstatus.mp h.2⟩,
          if_neg (mt List.length_eq_zero_iff.mp hbuffer), hchomp, Option.map_some, hcstr]

/-- A string is read back, and what follows it is left. -/
theorem Statics.dbioReadString_write (st : Statics) (hs : 0 ∉ s) (rest : Str) :
    ∃ st', st.dbioReadString (dbioWriteString s ++ rest) = some (s, st', rest) := by
  obtain ⟨_, hread, rfl⟩ := dbioReadString_spec hs rest
  obtain ⟨b', hchunks⟩ := readChunks_refines (b := st.buffer) st.str hread
  rw [st.idle, List.nil_append] at hchunks
  refine ⟨⟨b', [], rfl⟩, ?_⟩
  rw [Statics.dbioReadString, st.idle, hchunks]
  rfl

/-- The static variables when the server starts. -/
def Statics.initial : Statics where
  buffer :=
    ⟨List.replicate 1024 0, List.length_replicate, List.getElem?_replicate_of_lt (by decide)⟩
  str := []
  idle := rfl

/-- Newlines that fill one buffer. -/
theorem Statics.dbioReadString_write_newlines :
    ∃ st', Statics.initial.dbioReadString (dbioWriteString (List.replicate 1023 0x0a) ++ [0x0a]) =
    some (List.replicate 1023 0x0a, st', [0x0a]) :=
  Statics.initial.dbioReadString_write (fun h => absurd (List.eq_of_mem_replicate h)
    (by decide)) [0x0a]

end NuMoo
