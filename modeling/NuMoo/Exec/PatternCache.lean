import Mathlib.Data.List.Perm.Basic
import Mathlib.Data.Set.Basic
import NuMoo.Code.Value
import NuMoo.Lib.Slot
import NuMoo.Net.Utf

/-!
# The pattern cache

`new_pattern` of `pattern.c` with its translation of MOO patterns, and the cache of compiled
patterns of `list.c`. The regular expression library is a parameter. A compiled pattern is named by
the number of its allocation, so that no two have one name.

Results:
1. `getPattern_spec`: a call keeps the cache in order and returns what `new_pattern` makes of its
   arguments.
2. `getPattern_transparent`: so does every call, whatever was asked for before.
-/

namespace NuMoo

open Linked
open Net (decode streamAddUtf)

/-- The options of `pcre_compile`. -/
structure PcreOptions where
  utf8 : Bool
  noUtf8Check : Bool
  dotall : Bool
  caseless : Bool
deriving DecidableEq, Repr

/-- `pcre_extra`: the limits with the flags that put them in force, and what `pcre_study` has found
out. -/
structure PcreExtra (δ : Type) where
  studyData : Option δ
  matchLimit : Option Nat
  matchLimitRecursion : Option Nat
deriving DecidableEq, Repr

/-- The regular expression library: `pcre_compile`, and `pcre_study`, each of which may return no
result. -/
structure Pcre (κ δ : Type) where
  compile : Str → PcreOptions → Option κ
  study : κ → Option (PcreExtra δ)

/-- `regexp_t` -/
structure Regexp (κ δ : Type) where
  code : κ
  extra : PcreExtra δ
deriving DecidableEq, Repr

/-- `MATCH_LIMIT` -/
def MATCH_LIMIT : Nat := 100000

/-- `MATCH_LIMIT_RECURSION` -/
def MATCH_LIMIT_RECURSION : Nat := 5000

/-- `PATTERN_CACHE_SIZE` -/
def PATTERN_CACHE_SIZE : Nat := 50

/-! ## Translation -/

/-- The states of `translate`. -/
inductive TranslateState where
  | base | esc | csetInit | csetInit2 | cset
deriving DecidableEq, Repr

/-- A character is one of these. -/
def isOneOf (s : String) (c : Nat) : Bool := s.toList.any fun d => d.toNat = c

/-- A character, behind a backslash if it is one of these. -/
def addQuoted (quoted : String) (s : Str) (c : Nat) : Str :=
  streamAddUtf (if isOneOf quoted c then s ++ bytes "\\" else s) c

/-- `P_WORD` -/
def P_WORD : String := "[^\\W_]"

/-- `P_NONWORD` -/
def P_NONWORD : String := "[\\W_]"

/-- `P_ALT` -/
def P_ALT (a b : String) : String := "(?:" ++ a ++ "|" ++ b ++ ")"

/-- `P_LBEHIND` -/
def P_LBEHIND (p : String) : String := "(?<=" ++ p ++ ")"

/-- `P_LAHEAD` -/
def P_LAHEAD (p : String) : String := "(?=" ++ p ++ ")"

/-- `P_LOOKBA` -/
def P_LOOKBA (b a : String) : String := P_LBEHIND b ++ P_LAHEAD a

/-- `P_WORD_BEGIN` -/
def P_WORD_BEGIN : String := P_ALT "^" (P_LBEHIND P_NONWORD) ++ P_LAHEAD P_WORD

/-- `P_WORD_END` -/
def P_WORD_END : String := P_LBEHIND P_WORD ++ P_ALT "$" (P_LAHEAD P_NONWORD)

/-- What `translate` writes for a character behind a `%`. -/
def translateEsc (s : Str) (c : Nat) : Str :=
  if isOneOf "(" c then s ++ bytes "(" ++ bytes "(?#)"
  else if isOneOf "123456789" c then s ++ bytes "\\" ++ [UInt8.ofNat c] ++ bytes "(?#)"
  else if isOneOf "b" c then s ++ bytes (P_ALT P_WORD_BEGIN P_WORD_END)
  else if isOneOf "B" c then s ++ bytes (P_ALT (P_LOOKBA P_WORD P_WORD)
    (P_LOOKBA P_NONWORD P_NONWORD))
  else if isOneOf "<" c then s ++ bytes P_WORD_BEGIN
  else if isOneOf ">" c then s ++ bytes P_WORD_END
  else if isOneOf "w" c then s ++ bytes P_WORD
  else if isOneOf "W" c then s ++ bytes P_NONWORD
  else addQuoted "\\^$.[?*+\x7b" s c

/-- One turn of the loop of `translate`. -/
def translateChar : TranslateState × Str → Nat → TranslateState × Str
  | (.base, s), c =>
    if isOneOf "[" c then (.csetInit, streamAddUtf s c)
    else if isOneOf "%" c then (.esc, s)
    else (.base, addQuoted "\\|()\x7b" s c)
  | (.csetInit, s), c =>
    if isOneOf "^" c then (.csetInit2, streamAddUtf s c) else (.cset, addQuoted "\\[" s c)
  | (.csetInit2, s), c => (.cset, addQuoted "\\[" s c)
  | (.cset, s), c =>
    if isOneOf "]" c then (.base, streamAddUtf s c) else (.cset, addQuoted "\\[" s c)
  | (.esc, s), c => (.base, translateEsc s c)

/-- `translate`, of the characters up to the NUL that `get_utf` reads. -/
def translate (moopat : Str) : Str :=
  let chars := (decode (cstr moopat ++ [0])).takeWhile (· ≠ 0)
  let (state, s) := chars.foldl translateChar (.base, bytes "(?:")
  let s := s ++ bytes ")(?C)"
  -- a trailing `%` is left as a syntax error
  if state = .esc then s ++ bytes "\\" else s

example :
    translate (bytes "%<a|%|b%") = bytes "(?:(?:^|(?<=[\\W_]))(?=[^\\W_])a\\||b)(?C)\\" := by decide

/-! ## Compiling -/

section

variable {κ δ : Type} (pcre : Pcre κ δ)

/-- The limits that `new_pattern` sets, in what `pcre_study` returned or in a block of its own. -/
def limitExtra (extra : Option (PcreExtra δ)) : PcreExtra δ where
  studyData := extra.bind PcreExtra.studyData
  matchLimit := some MATCH_LIMIT
  matchLimitRecursion := some MATCH_LIMIT_RECURSION

/-- `new_pattern`, up to the allocation of its result. -/
def newPattern (pattern : Str) (caseMatters dialect : Int) : Option (Regexp κ δ) :=
  let options := { utf8 := true, noUtf8Check := true, dotall := true, caseless := caseMatters = 0 }
  let translated := if dialect = 0 then cstr pattern else translate pattern
  (pcre.compile translated options).map fun code => ⟨code, limitExtra (pcre.study code)⟩

end

/-! ## The cache -/

/-- The arguments of `get_pattern`. -/
structure PatternKey where
  string : Str
  caseMatters : Int
  dialect : Int
deriving DecidableEq, Repr

/-- What a C string is compared by, with the other arguments. -/
def PatternKey.key (k : PatternKey) : Str × Int × Int := (cstr k.string, k.caseMatters, k.dialect)

/-- `struct pat_cache_entry` without its `next`. -/
structure PatCacheEntry where
  string : Option Str
  caseMatters : Int
  dialect : Int
  pattern : Option Nat
deriving DecidableEq, Repr

/-- The key of an entry that is in use. -/
def PatCacheEntry.key (e : PatCacheEntry) : Option (Str × Int × Int) :=
  e.string.map fun s => (cstr s, e.caseMatters, e.dialect)

/-- `pat_cache` and the `next` fields, the other fields of `pat_cache_entries`, and the patterns
that are allocated and not freed. -/
structure PatCache (κ δ : Type) where
  list : Mem Nat
  entries : Nat → PatCacheEntry
  regexps : Nat → Option (Regexp κ δ)
  allocated : Nat

namespace PatCache

variable {κ δ : Type}

/-- `setup_pattern_cache` -/
def setup : PatCache κ δ where
  list := {
    head := some 0
    next := fun i =>
      if i < PATTERN_CACHE_SIZE - 1 then some (some (i + 1))
      else if i = PATTERN_CACHE_SIZE - 1 then some none
      else none }
  entries := fun _ => ⟨none, 0, 0, none⟩
  regexps := fun _ => none
  allocated := 0

/-- The entry that a call ends up with, the pointer to it that was followed last, and whether it was
hit. -/
structure Found where
  entry : Nat
  entryPtr : Slot Nat
  hit : Bool
deriving DecidableEq, Repr

/-- The loop of `get_pattern`. -/
def search (c : PatCache κ δ) (k : PatternKey) : Nat → Nat → Slot Nat → Option Found
  | 0, _, _ => none
  | n + 1, entry, entryPtr => do
    if (c.entries entry).key = some k.key then return ⟨entry, entryPtr, true⟩
    match ← c.list.next entry with
    | none => return ⟨entry, entryPtr, false⟩
    | some next => c.search k n next (.field entry)

/-- `free_pattern`: a pattern is freed once. -/
def freePattern (c : PatCache κ δ) : Option Nat → Option (PatCache κ δ)
  | none => some c
  | some p => (c.regexps p).map fun _ => { c with regexps := Function.update c.regexps p none }

/-- The part of a miss that frees what the last entry holds. -/
def evict (c : PatCache κ δ) (entry : Nat) : Option (PatCache κ δ) :=
  if (c.entries entry).string.isSome then c.freePattern (c.entries entry).pattern else some c

/-- The allocation of what `new_pattern` returns. -/
def allocate (c : PatCache κ δ) : Option (Regexp κ δ) → Option Nat × PatCache κ δ
  | none => (none, c)
  | some r => (some c.allocated, { c with
      regexps := Function.update c.regexps c.allocated (some r)
      allocated := c.allocated + 1 })

/-- The fields of an entry are set. -/
def setEntry (c : PatCache κ δ) (entry : Nat) (e : PatCacheEntry) : PatCache κ δ :=
  { c with entries := Function.update c.entries entry e }

variable (pcre : Pcre κ δ)

/-- The part of a miss that compiles the pattern into the entry. -/
def fill (c : PatCache κ δ) (k : PatternKey) (entry : Nat) : PatCache κ δ :=
  let (p, c) := c.allocate (newPattern pcre k.string k.caseMatters k.dialect)
  c.setEntry entry ⟨if p.isNone then none else some (cstr k.string), k.caseMatters, k.dialect, p⟩

/-- `*entry_ptr = entry->next; entry->next = pat_cache; pat_cache = entry` -/
def toFront (c : PatCache κ δ) (entryPtr : Slot Nat) (entry : Nat) (next : Option Nat) :
    PatCache κ δ :=
  let list := c.list.store entryPtr next
  { c with list := (list.store (.field entry) list.head).store .head (some entry) }

/-- What a hit or a miss leaves in the entry, before it goes to the front. -/
def settle (c : PatCache κ δ) (k : PatternKey) (found : Found) : Option (PatCache κ δ) :=
  if found.hit then some c else (c.evict found.entry).map fun c => c.fill pcre k found.entry

/-- `get_pattern` -/
def getPattern (c : PatCache κ δ) (k : PatternKey) : Option (Option Nat × PatCache κ δ) := do
  let found ← c.search k PATTERN_CACHE_SIZE (← c.list.head) .head
  let c ← c.settle pcre k found
  let next ← c.list.next found.entry
  let c := c.toFront found.entryPtr found.entry next
  return ((c.entries found.entry).pattern, c)

/-- A sequence of calls. -/
def calls (c : PatCache κ δ) (ks : List PatternKey) : Option (PatCache κ δ) :=
  ks.foldlM (fun c k => (c.getPattern pcre k).map Prod.snd) c

/-! ## The invariant -/

/-- An entry in use has a pattern compiled from its own key; one that is not in use has none. -/
def Compiled (c : PatCache κ δ) (e : PatCacheEntry) : Prop :=
  match e.string with
  | none => e.pattern = none
  | some s => ∃ p x, e.pattern = some p ∧ c.regexps p = some x ∧
      newPattern pcre s e.caseMatters e.dialect = some x

/-- The entries of a set are compiled, and no two are in use for one key or share a pattern. -/
structure Sound (c : PatCache κ δ) (S : Set Nat) : Prop where
  compiled : ∀ i ∈ S, c.Compiled pcre (c.entries i)
  keys : ∀ i ∈ S, ∀ j ∈ S, ∀ key, (c.entries i).key = some key →
    (c.entries j).key = some key → i = j
  patterns : ∀ i ∈ S, ∀ j ∈ S, ∀ p, (c.entries i).pattern = some p →
    (c.entries j).pattern = some p → i = j
  fresh : ∀ p x, c.regexps p = some x → p < c.allocated

/-- All entries of the cache. -/
def slots : Set Nat := { i | i < PATTERN_CACHE_SIZE }

/-- The list that starts at `pat_cache` is a permutation of the entries. -/
def Listed (c : PatCache κ δ) (order : List Nat) : Prop :=
  c.list.Holds order ∧ order.Perm (List.range PATTERN_CACHE_SIZE)

/-- What a call returns is compiled from its own arguments, or it is the failure that they give. -/
def Returns (c : PatCache κ δ) (k : PatternKey) (r : Option Nat) : Prop :=
  match newPattern pcre k.string k.caseMatters k.dialect with
  | none => r = none
  | some x => ∃ p, r = some p ∧ c.regexps p = some x

/-- A pattern stays as it was compiled until it is freed, and does not come back. -/
def Keeps (c c' : PatCache κ δ) : Prop :=
  c.allocated ≤ c'.allocated ∧ ∀ p < c.allocated, c'.regexps p = c.regexps p ∨ c'.regexps p = none

/-- A pattern that a call frees is not the one it returns, and is in no entry. -/
def FreesUnused (c c' : PatCache κ δ) (r : Option Nat) : Prop :=
  ∀ p x, c.regexps p = some x → c'.regexps p = none → r ≠ some p ∧
    ∀ i < PATTERN_CACHE_SIZE, (c'.entries i).pattern ≠ some p

variable {pcre : Pcre κ δ} {c c' : PatCache κ δ} {S : Set Nat} {k : PatternKey}
    {m r order : List Nat} {a b n : Nat}

theorem cstr_cstr (s : Str) : cstr (cstr s) = cstr s :=
  cstr_plain fun h => by simpa using List.mem_takeWhile_imp h

/-- Patterns are compiled from C strings. -/
theorem newPattern_congr {s t : Str} (h : cstr s = cstr t) (caseMatters dialect : Int) :
    newPattern pcre s caseMatters dialect = newPattern pcre t caseMatters dialect := by
  simp only [newPattern, translate, h]

theorem Listed.nodup (h : c.Listed order) : order.Nodup := h.2.nodup_iff.mpr List.nodup_range

theorem Listed.mem_iff (h : c.Listed order) : a ∈ order ↔ a ∈ slots :=
  h.2.mem_iff.trans List.mem_range

/-- The entry with the key has the pattern that its call asks for. -/
theorem Sound.returns (h : c.Sound pcre S) (ha : a ∈ S) (hk : (c.entries a).key = some k.key) :
    c.Returns pcre k (c.entries a).pattern := by
  have hcompiled := h.compiled a ha
  rw [PatCacheEntry.key, Option.map_eq_some_iff] at hk
  obtain ⟨s, hs, hkey⟩ := hk
  simp only [PatternKey.key, Prod.mk.injEq] at hkey
  rw [Compiled, hs] at hcompiled
  obtain ⟨p, x, hp, hx, hnew⟩ := hcompiled
  rw [newPattern_congr hkey.1, hkey.2.1, hkey.2.2] at hnew
  rw [Returns, hnew]
  exact ⟨p, hp, hx⟩

/-- The search ends at the entry with the key, or at the last entry where no entry has it. -/
theorem search_spec (h : c.list.Holds (m ++ a :: r)) (hn : r.length < n) (k : PatternKey) :
    ∃ m' b r' hit, m' ++ b :: r' = m ++ a :: r ∧ c.search k n a (endSlot m) =
      some ⟨b, endSlot m', hit⟩ ∧
      (hit = true → (c.entries b).key = some k.key) ∧
      (hit = false → r' = [] ∧ ∀ i ∈ a :: r, (c.entries i).key ≠ some k.key) := by
  induction r generalizing m a n with
  | nil =>
    obtain ⟨n, rfl⟩ := Nat.exists_eq_add_of_lt hn
    obtain ⟨next, hnext, hrun⟩ := Mem.Run.split h
    obtain rfl : next = none := hrun
    by_cases hk : (c.entries a).key = some k.key
    · exact ⟨m, a, [], true, rfl, by simp [search, hk], fun _ => hk, nofun⟩
    · exact ⟨m, a, [], false, rfl, by simp [search, hk, hnext], nofun,
        fun _ => ⟨rfl, by simpa using hk⟩⟩
  | cons x r ih =>
    cases n with
    | zero => simp at hn
    | succ n =>
      obtain ⟨next, hnext, hrun⟩ := Mem.Run.split h
      obtain rfl := hrun.1
      by_cases hk : (c.entries a).key = some k.key
      · exact ⟨m, a, x :: r, true, rfl, by simp [search, hk], fun _ => hk, nofun⟩
      · have hrest : c.list.Holds ((m ++ [a]) ++ x :: r) := by simpa using h
        obtain ⟨m', b, r', hit, hsplit, hsearch, hhit, hmiss⟩ := ih hrest (by simpa using hn)
        rw [endSlot_append_singleton] at hsearch
        refine ⟨m', b, r', hit, by simpa using hsplit, ?_, hhit, fun he => ⟨(hmiss he).1, ?_⟩⟩
        · simp only [search, hk, if_false, hnext, Option.bind_eq_bind, Option.bind_some]
          exact hsearch
        · exact List.forall_mem_cons.mpr ⟨hk, (hmiss he).2⟩

/-! ## A miss -/

/-- An entry is compiled as long as its pattern is as it was. -/
theorem Compiled.congr {e : PatCacheEntry} (h : c.Compiled pcre e)
    (hp : ∀ p, e.pattern = some p → c'.regexps p = c.regexps p) : c'.Compiled pcre e := by
  rw [Compiled] at h ⊢
  cases hs : e.string with
  | none => rwa [hs] at h
  | some s =>
    rw [hs] at h
    obtain ⟨p, x, hpat, hx, hnew⟩ := h
    exact ⟨p, x, hpat, (hp p hpat).trans hx, hnew⟩

theorem Compiled.live {e : PatCacheEntry} (h : c.Compiled pcre e) {p : Nat}
    (hp : e.pattern = some p) :
    ∃ x, c.regexps p = some x := by
  rw [Compiled] at h
  cases hs : e.string with
  | none =>
    simp only [hs] at h
    rw [h] at hp
    cases hp
  | some s =>
    simp only [hs] at h
    obtain ⟨q, x, hq, hx, -⟩ := h
    obtain rfl : q = p := Option.some.inj (hq.symm.trans hp)
    exact ⟨x, hx⟩

theorem Sound.mono {T : Set Nat} (h : c.Sound pcre S) (hT : T ⊆ S) : c.Sound pcre T :=
  ⟨fun i hi => h.compiled i (hT hi), fun i hi j hj => h.keys i (hT hi) j (hT hj),
    fun i hi j hj => h.patterns i (hT hi) j (hT hj), h.fresh⟩

theorem Keeps.refl (c : PatCache κ δ) : c.Keeps c := ⟨le_refl _, fun _ _ => .inl rfl⟩

theorem Keeps.trans {c₁ c₂ : PatCache κ δ} (h₁ : c.Keeps c₁) (h₂ : c₁.Keeps c₂) : c.Keeps c₂ := by
  refine ⟨h₁.1.trans h₂.1, fun p hp => ?_⟩
  rcases h₂.2 p (hp.trans_le h₁.1) with h | h
  · rw [h]
    exact h₁.2 p hp
  · exact .inr h

/-- A freed pattern is in no entry that stays sound. -/
theorem Sound.free (h : c.Sound pcre S) {p : Nat} (hp : ∀ i ∈ S, (c.entries i).pattern ≠ some p) :
    PatCache.Sound pcre { c with regexps := Function.update c.regexps p none } S := by
  refine ⟨fun i hi => (h.compiled i hi).congr fun q hq => Function.update_of_ne ?_ _ _, h.keys,
    h.patterns, fun q y hy => ?_⟩
  · rintro rfl
    exact hp i hi hq
  · have hqp : q ≠ p := by
      rintro rfl
      simp at hy
    exact h.fresh q y ((Function.update_of_ne hqp _ _).symm.trans hy)

/-- Freeing the pattern of one entry leaves the others sound. -/
theorem evict_spec (h : c.Sound pcre S) (hb : b ∈ S) :
    ∃ c₁, c.evict b = some c₁ ∧ c₁.Sound pcre (S \ {b}) ∧ c₁.list = c.list ∧
      c₁.entries = c.entries ∧ c.Keeps c₁ := by
  have hbefore : c.Sound pcre (S \ {b}) := h.mono fun i hi => hi.1
  cases hs : (c.entries b).string with
  | none => exact ⟨c, by simp [evict, hs], hbefore, rfl, rfl, .refl c⟩
  | some s =>
    have hcompiled := h.compiled b hb
    rw [Compiled, hs] at hcompiled
    obtain ⟨p, x, hp, hx, -⟩ := hcompiled
    refine ⟨{ c with regexps := Function.update c.regexps p none },
      by simp [evict, hs, hp, freePattern, hx],
      hbefore.free fun i hi hip => hi.2 (h.patterns i hi.1 b hb p hip hp), rfl, rfl,
      le_refl _, fun q hq => ?_⟩
    rcases eq_or_ne q p with rfl | hqp
    · exact .inr (Function.update_self _ _ _)
    · exact .inl (Function.update_of_ne hqp _ _)

@[simp] theorem setEntry_self (e : PatCacheEntry) : (c.setEntry b e).entries b = e :=
  Function.update_self _ _ _

/-- Setting an entry keeps the cache sound if no other entry has its key or its pattern. -/
theorem Sound.setEntry (h : c.Sound pcre (S \ {b})) {e : PatCacheEntry} (he : c.Compiled pcre e)
    (hkey : ∀ key, e.key = some key → ∀ i ∈ S \ {b}, (c.entries i).key ≠ some key)
    (hpat : ∀ p, e.pattern = some p → ∀ i ∈ S \ {b}, (c.entries i).pattern ≠ some p) :
    (c.setEntry b e).Sound pcre S := by
  have hself := setEntry_self (c := c) (b := b) e
  have hother : ∀ i, i ≠ b → (c.setEntry b e).entries i = c.entries i :=
    fun i hi => Function.update_of_ne hi _ _
  refine ⟨fun i hi => ?_, fun i hi j hj key hik hjk => ?_, fun i hi j hj p hip hjp => ?_, h.fresh⟩
  · rcases eq_or_ne i b with rfl | hib
    · rw [hself]
      exact he.congr fun p _ => rfl
    · rw [hother i hib]
      exact (h.compiled i ⟨hi, hib⟩).congr fun p _ => rfl
  · rcases eq_or_ne i b with hib | hib <;> rcases eq_or_ne j b with hjb | hjb
    · rw [hib, hjb]
    · rw [hib, hself] at hik
      rw [hother j hjb] at hjk
      exact absurd hjk (hkey key hik j ⟨hj, hjb⟩)
    · rw [hjb, hself] at hjk
      rw [hother i hib] at hik
      exact absurd hik (hkey key hjk i ⟨hi, hib⟩)
    · rw [hother i hib] at hik
      rw [hother j hjb] at hjk
      exact h.keys i ⟨hi, hib⟩ j ⟨hj, hjb⟩ key hik hjk
  · rcases eq_or_ne i b with hib | hib <;> rcases eq_or_ne j b with hjb | hjb
    · rw [hib, hjb]
    · rw [hib, hself] at hip
      rw [hother j hjb] at hjp
      exact absurd hjp (hpat p hip j ⟨hj, hjb⟩)
    · rw [hjb, hself] at hjp
      rw [hother i hib] at hip
      exact absurd hip (hpat p hjp i ⟨hi, hib⟩)
    · rw [hother i hib] at hip
      rw [hother j hjb] at hjp
      exact h.patterns i ⟨hi, hib⟩ j ⟨hj, hjb⟩ p hip hjp

/-- A new pattern is in no entry yet. -/
theorem Sound.allocate (h : c.Sound pcre S) (x : Regexp κ δ) :
    PatCache.Sound pcre (c.allocate (some x)).2 S ∧
      (∀ i ∈ S, (c.entries i).pattern ≠ some c.allocated) ∧
      c.Keeps (c.allocate (some x)).2 := by
  have hother : ∀ p < c.allocated, (c.allocate (some x)).2.regexps p = c.regexps p := fun p hp =>
    Function.update_of_ne hp.ne _ _
  refine ⟨⟨fun i hi => (h.compiled i hi).congr fun p hp => ?_, h.keys, h.patterns,
    fun p y hy => ?_⟩, fun i hi hp => ?_, ?_⟩
  · obtain ⟨y, hy⟩ := (h.compiled i hi).live hp
    exact hother p (h.fresh p y hy)
  · rcases eq_or_ne p c.allocated with rfl | hne
    · exact Nat.lt_succ_self _
    · exact Nat.lt_succ_of_lt (h.fresh p y ((Function.update_of_ne hne _ _).symm.trans hy))
  · obtain ⟨y, hy⟩ := (h.compiled i hi).live hp
    exact (h.fresh _ y hy).ne rfl
  · exact ⟨Nat.le_succ _, fun p hp => .inl (hother p hp)⟩

/-- What `new_pattern` makes of a key that no other entry has goes into the entry. -/
theorem fill_spec (h : c.Sound pcre (S \ {b}))
    (hk : ∀ i ∈ S \ {b}, (c.entries i).key ≠ some k.key) :
    (c.fill pcre k b).Sound pcre S ∧ (c.fill pcre k b).list = c.list ∧ c.Keeps (c.fill pcre k b) ∧
      (c.fill pcre k b).Returns pcre k ((c.fill pcre k b).entries b).pattern := by
  rw [Returns]
  cases hnew : newPattern pcre k.string k.caseMatters k.dialect with
  | none =>
    have hfill : c.fill pcre k b = c.setEntry b ⟨none, k.caseMatters, k.dialect, none⟩ := by
      simp [fill, hnew, PatCache.allocate]
    rw [hfill]
    refine ⟨h.setEntry rfl nofun nofun, rfl, .refl c, ?_⟩
    rw [setEntry_self]
  | some x =>
    obtain ⟨hsound, hfresh, hkeeps⟩ := h.allocate x
    have hfill : c.fill pcre k b =
        (c.allocate (some x)).2.setEntry b ⟨some (cstr k.string), k.caseMatters, k.dialect,
          some c.allocated⟩ := by
      simp [fill, hnew, PatCache.allocate]
    have hx : (c.allocate (some x)).2.regexps c.allocated = some x := Function.update_self _ _ _
    rw [hfill]
    rw [setEntry_self]
    refine ⟨hsound.setEntry ⟨c.allocated, x, rfl, hx,
      (newPattern_congr (cstr_cstr _) _ _).trans hnew⟩ ?_ ?_, rfl, hkeeps,
      c.allocated, rfl, hx⟩
    · intro key hkey
      rw [PatCacheEntry.key, Option.map_some, cstr_cstr, Option.some.injEq] at hkey
      obtain rfl := hkey
      exact hk
    · intro p hp
      obtain rfl := Option.some.inj hp
      exact hfresh

/-! ## A call -/

/-- The entry goes to the front of the list, from wherever it was. -/
theorem toFront_listed (h : c.Listed (m ++ b :: r)) {next : Option Nat}
    (hnext : c.list.next b = some next) :
    (c.toFront (endSlot m) b next).Listed (b :: (m ++ r)) := by
  have hperm : (b :: (m ++ r)).Perm (m ++ b :: r) := List.perm_middle.symm
  have hb : b ∉ m ++ r := (List.nodup_cons.mp (hperm.nodup_iff.mpr h.nodup)).1
  exact ⟨Mem.push (Mem.unlink h.1 h.nodup hnext) hb, hperm.trans h.2⟩

/-- A hit or a miss leaves in the entry what its call asks for. -/
theorem settle_spec (h : c.Sound pcre slots) (hb : b ∈ slots) (entryPtr : Slot Nat) {hit : Bool}
    (hhit : hit = true → (c.entries b).key = some k.key)
    (hmiss : hit = false → ∀ i ∈ slots, (c.entries i).key ≠ some k.key) :
    ∃ c', c.settle pcre k ⟨b, entryPtr, hit⟩ = some c' ∧ c'.Sound pcre slots ∧
      c'.list = c.list ∧ c.Keeps c' ∧
      c'.Returns pcre k (c'.entries b).pattern := by
  cases hit with
  | true => exact ⟨c, rfl, h, rfl, .refl c, h.returns hb (hhit rfl)⟩
  | false =>
    obtain ⟨c₀, hevict, hsound, hlist, hentries, hkeeps₀⟩ := evict_spec h hb
    obtain ⟨hfill, hfilled, hkeeps, hreturns⟩ :=
      fill_spec (k := k) hsound fun i hi => by rw [hentries]; exact hmiss rfl i hi.1
    exact ⟨c₀.fill pcre k b, by simp [settle, hevict], hfill, hfilled.trans hlist,
      hkeeps₀.trans hkeeps, hreturns⟩

/-- No entry of a sound cache has a freed pattern. -/
theorem Sound.freesUnused (h : c'.Sound pcre slots) {p : Option Nat} (hp : c'.Returns pcre k p) :
    c.FreesUnused c' p := by
  refine fun q x _ hfreed => ⟨fun he => ?_, fun i hi hiq => ?_⟩
  · rw [Returns, he] at hp
    split at hp
    · cases hp
    · obtain ⟨q', hq', hlive⟩ := hp
      obtain rfl := Option.some.inj hq'
      rw [hfreed] at hlive
      cases hlive
  · obtain ⟨y, hy⟩ := (h.compiled i hi).live hiq
    rw [hfreed] at hy
    cases hy

/-- A call of `get_pattern`, from a cache in order. -/
theorem getPattern_spec (hlist : c.Listed order) (hsound : c.Sound pcre slots) (k : PatternKey) :
    ∃ p c' order', c.getPattern pcre k = some (p, c') ∧ c'.Listed order' ∧ c'.Sound pcre slots ∧
      c'.Returns pcre k p ∧ c.Keeps c' ∧ c.FreesUnused c' p := by
  have hlen : order.length = PATTERN_CACHE_SIZE := hlist.2.length_eq.trans List.length_range
  obtain ⟨a, r, rfl⟩ := List.exists_cons_of_length_eq_add_one (n := 49) hlen
  have hhead : c.list.head = some a := hlist.1.1
  obtain ⟨m, b, r', hit, hsplit, hsearch, hhit, hmiss⟩ :=
    search_spec (m := []) hlist.1 (n := PATTERN_CACHE_SIZE)
      (by rw [← hlen]; exact Nat.lt_succ_self _) k
  rw [List.nil_append] at hsplit
  have hb : b ∈ slots := hlist.mem_iff.mp (hsplit ▸ List.mem_append_right _ List.mem_cons_self)
  obtain ⟨c₁, hc₁, hsound₁, hlist₁, hkeeps₁, hreturns₁⟩ := settle_spec hsound hb (endSlot m) hhit
    fun he i hi => (hmiss he).2 i (hlist.mem_iff.mpr hi)
  obtain ⟨next, hnext, -⟩ := Mem.Run.split (hsplit ▸ hlist.1 : Mem.Holds c.list (m ++ b :: r'))
  rw [← hlist₁] at hnext
  have hlisted : (c₁.toFront (endSlot m) b next).Listed (b :: (m ++ r')) := by
    refine toFront_listed ?_ hnext
    rw [Listed, hsplit, hlist₁]
    exact hlist
  have hsound' : (c₁.toFront (endSlot m) b next).Sound pcre slots :=
    ⟨hsound₁.compiled, hsound₁.keys, hsound₁.patterns, hsound₁.fresh⟩
  have hreturns' : (c₁.toFront (endSlot m) b next).Returns pcre k (c₁.entries b).pattern :=
    hreturns₁
  refine ⟨(c₁.entries b).pattern, c₁.toFront (endSlot m) b next, b :: (m ++ r'), ?_, hlisted,
    hsound', hreturns', hkeeps₁,
    hsound'.freesUnused hreturns'⟩
  rw [endSlot_nil] at hsearch
  simp only [getPattern, hhead, hsearch, hc₁, hnext, Option.bind_eq_bind, Option.bind_some,
    Option.pure_def]
  rfl

/-! ## From the start -/

/-- A run of cells, each of which is followed by the next number. -/
theorem run_range' {f : Nat → Option (Option Nat)} {n i : Nat}
    (hstep : ∀ j, i ≤ j → j < i + n → f j = some (some (j + 1)))
    (hlast : f (i + n) = some none) : Mem.Run f (some i) (List.range' i (n + 1)) := by
  induction n generalizing i with
  | zero => exact ⟨rfl, none, hlast, rfl⟩
  | succ n ih =>
    refine ⟨rfl, some (i + 1), hstep i (le_refl i) (Nat.lt_add_of_pos_right (Nat.succ_pos n)),
      ih (fun j hij hj => ?_) ?_⟩
    · exact hstep j (Nat.le_of_succ_le hij) (by omega)
    · rwa [Nat.add_right_comm]

/-- The cache is in order once it has been set up. -/
theorem setup_listed : (setup : PatCache κ δ).Listed (List.range PATTERN_CACHE_SIZE) := by
  refine ⟨?_, List.Perm.refl _⟩
  rw [List.range_eq_range']
  refine run_range' (n := 49) (fun j _ hj => ?_) rfl
  rw [Nat.zero_add] at hj
  exact if_pos hj

theorem setup_sound : (setup : PatCache κ δ).Sound pcre slots := by
  refine ⟨fun i _ => rfl, fun i _ j _ key hkey => ?_, fun i _ j _ p hp => ?_, fun p x hx => ?_⟩
  · cases hkey
  · cases hp
  · cases hx

/-- The cache is in order after any sequence of calls. -/
theorem calls_spec (hlist : c.Listed order) (hsound : c.Sound pcre slots) (ks : List PatternKey) :
    ∃ c' order', c.calls pcre ks = some c' ∧ c'.Listed order' ∧ c'.Sound pcre slots := by
  induction ks generalizing c order with
  | nil => exact ⟨c, order, rfl, hlist, hsound⟩
  | cons k ks ih =>
    obtain ⟨p, c₁, order₁, hcall, hlist₁, hsound₁, -⟩ := getPattern_spec hlist hsound k
    obtain ⟨c', order', hcalls, hlist', hsound'⟩ := ih hlist₁ hsound₁
    refine ⟨c', order', ?_, hlist', hsound'⟩
    rw [calls, List.foldlM_cons, hcall]
    exact hcalls

/-- No two entries in use have one key. -/
def DistinctKeys (c : PatCache κ δ) : Prop :=
  ∀ i < PATTERN_CACHE_SIZE, ∀ j < PATTERN_CACHE_SIZE, ∀ key, (c.entries i).key = some key →
    (c.entries j).key = some key → i = j

/-- The cache is transparent: after any calls, the next one returns what `new_pattern` makes of its
own arguments, frees no pattern that is still of use, and leaves the list a permutation of the
entries. -/
theorem getPattern_transparent (pcre : Pcre κ δ) (ks : List PatternKey) :
    ∃ c, setup.calls pcre ks = some c ∧ (∃ order, c.Listed order) ∧ c.DistinctKeys ∧
      ∀ k, ∃ p c', c.getPattern pcre k = some (p, c') ∧ c'.Returns pcre k p ∧ c.Keeps c' ∧
      c.FreesUnused c' p ∧
        (∃ order, c'.Listed order) ∧ c'.DistinctKeys := by
  obtain ⟨c, order, hcalls, hlist, hsound⟩ := calls_spec setup_listed (setup_sound) ks
  refine ⟨c, hcalls, ⟨order, hlist⟩, hsound.keys, fun k => ?_⟩
  obtain ⟨p, c', order', hcall, hlist', hsound', hreturns, hkeeps, hfrees⟩ :=
    getPattern_spec hlist hsound k
  exact ⟨p, c', hcall, hreturns, hkeeps, hfrees, ⟨order', hlist'⟩, hsound'.keys⟩

end PatCache

end NuMoo
