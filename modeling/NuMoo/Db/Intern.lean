import NuMoo.Code.Value
import NuMoo.Lib.Buckets
import NuMoo.Lib.RefCount

/-!
# String interning

`str_intern.c`, and `str_dup` of `storage.c`: while a table is open, equal strings share one copy.
The table keeps a reference to each of its strings. A result `none` is an access outside of the
memory that was allocated: `mymalloc` takes the number of bytes as an `unsigned`.

Results:
1. `findInternedString_spec`, `internRehash_spec`, `strIntern_spec`: the functions on a table that
   is in order.
2. `InternRun.ok`: the table is in order after every call.
3. `strIntern_sound`: equal arguments share one copy for as long as the table fits;
   `internAll_none`: too many do not.
-/

namespace NuMoo

open Linked

/-- `struct intern_entry`, without `next`: the address of the string, and its hash. -/
structure InternEntry where
  s : Nat
  hash : UInt32
deriving DecidableEq, Repr

/-- The static variables of `str_intern.c`, the strings in memory, and `emptystring` of `str_dup`.
The entries are handed out in order; `entries` is the next one. -/
structure Interning where
  strings : RcHeap Str
  emptystring : Option Nat
  internTable : Option (Table Nat)
  entry : Nat → Option InternEntry
  entries : Nat
  internTableSize : Int
  internTableCount : Int
  internBytesSaved : Int
  internAllocationsSaved : Int

namespace Interning

/-- Before the first call. -/
def start : Interning := ⟨⟨fun _ => none, 0⟩, none, none, fun _ => none, 0, 0, 0, 0, 0⟩

/-- `INTERN_TABLE_SIZE_INITIAL` -/
def INTERN_TABLE_SIZE_INITIAL : Int := 10007

/-- `str_dup` -/
def strDup (s : Option Str) (st : Interning) : Option (Nat × Interning) :=
  match cstr (s.getD []) with
  | [] =>
    let (a, st) :=
      match st.emptystring with
      | some a => (a, st)
      | none =>
        let (a, strings) := st.strings.alloc []
        (a, { st with strings, emptystring := some a })
    (st.strings.addref a).map fun strings => (a, { st with strings })
  | c :: text =>
    let (a, strings) := st.strings.alloc (c :: text)
    some (a, { st with strings })

/-- `str_ref` -/
def strRef (a : Nat) (st : Interning) : Option Interning :=
  (st.strings.addref a).map fun strings => { st with strings }

/-- `free_str` -/
def freeStr (a : Nat) (st : Interning) : Option Interning :=
  (st.strings.delref a).map fun strings => { st with strings }

/-- `make_intern_table`: the loop stores to `size` pointers of eight bytes. -/
def makeInternTable (size : Int) : Option (List (Option Nat)) :=
  if 8 * size ≤ (8 * size) % 2 ^ 32 then some (List.replicate size.toNat none) else none

/-- `str_intern_open` -/
def strInternOpen (tableSize : Int) (st : Interning) : Option Interning := do
  let tableSize := if tableSize = 0 then INTERN_TABLE_SIZE_INITIAL else tableSize
  let heads ← makeInternTable tableSize
  return { st with internTable := some ⟨heads, fun _ => none⟩, internTableSize := tableSize,
                   internBytesSaved := 0,
                   internAllocationsSaved := 0 }

/-- `hash % size`, on `unsigned`s. -/
def bucketOf (hash : UInt32) (size : Int) : Nat := (hash % UInt32.ofInt size).toNat

/-- More turns than any loop over the entries takes. -/
def bound (st : Interning) : Nat := st.entries + 1

/-- The test of `find_interned_string` at one entry. -/
def isString (st : Interning) (s : Str) (hash : UInt32) (p : Nat) : Option Bool := do
  let e ← st.entry p
  if hash = e.hash then
    let text ← st.strings.get e.s
    return decide (cstr s = cstr text)
  else return false

/-- `find_interned_string` -/
def findInternedString (s : Str) (hash : UInt32) (st : Interning) : Option (Option Nat) := do
  let table ← st.internTable
  let head ← table.heads[bucketOf hash st.internTableSize]?
  findRun table.next (st.isString s hash) st.bound head

/-- `add_interned_string` -/
def addInternedString (s : Nat) (hash : UInt32) (st : Interning) : Option Interning := do
  let table ← st.internTable
  let p := st.entries
  let table ← table.push (bucketOf hash st.internTableSize) p
  return { st with internTable := some table, entry := Function.update st.entry p (some ⟨s, hash⟩),
                   entries := p + 1,
                   internTableCount := int32 (st.internTableCount + 1) }

/-- `intern_rehash` -/
def internRehash (newSize : Int) (st : Interning) : Option Interning := do
  let table ← st.internTable
  let heads ← makeInternTable newSize
  let newTable ← table.rehash (fun p => (st.entry p).map fun e => bucketOf e.hash newSize)
    st.bound heads
  return { st with internTable := some newTable, internTableSize := newSize }

/-- `str_intern` on a string that the table has. -/
def internHit (p : Nat) (st : Interning) : Option (Nat × Interning) := do
  let e ← st.entry p
  let saved ← st.strings.get e.s
  let st := { st with internAllocationsSaved := int32 (st.internAllocationsSaved + 1),
                      internBytesSaved := int32 (st.internBytesSaved + saved.length) }
  return (e.s, ← st.strRef e.s)

/-- `str_intern` doubles a table that has more entries than buckets. -/
def makeRoom (st : Interning) : Option Interning :=
  if st.internTableCount > st.internTableSize then st.internRehash (int32 (st.internTableSize * 2))
  else some st

/-- `str_intern` on a string that the table does not have. -/
def internMiss (s : Str) (hash : UInt32) (st : Interning) : Option (Nat × Interning) := do
  let st ← st.makeRoom
  let (r, st) ← st.strDup (some s)
  let st ← st.strRef r
  return (r, ← st.addInternedString r hash)

/-- `str_intern` -/
def strIntern (s : Option Str) (st : Interning) : Option (Nat × Interning) :=
  let text := cstr (s.getD [])
  if text = [] ∨ st.internTable = none then st.strDup s
  else (st.findInternedString text (strHash text)).bind fun
    | some p => st.internHit p
    | none => st.internMiss text (strHash text)

/-! ## A table in order -/

/-- The entry `a` stands for a text. -/
structure Live (st : Interning) (a : Nat) (e : InternEntry) (text : Str) : Prop where
  entry : st.entry a = some e
  string : st.strings.get e.s = some text
  hash : e.hash = strHash text
  ne : text ≠ []
  plain : 0 ∉ text

/-- The string that an entry refers to. -/
def string (st : Interning) (a : Nat) : Nat := ((st.entry a).map InternEntry.s).getD 0

/-- The bucket that an entry belongs to. -/
def bucket (st : Interning) (size : Int) (a : Nat) : Nat :=
  ((st.entry a).map fun e => bucketOf e.hash size).getD 0

/-- The buckets hold these entries, each text once and in the bucket of its hash, and the references
are those of the table and of `clients`. -/
structure Ok (st : Interning) (ls : List (List Nat)) (clients : List Nat) : Prop where
  table : ∃ T, st.internTable = some T ∧ T.Holds ls
  nodup : ls.flatten.Nodup
  placed : Table.Placed (st.bucket st.internTableSize) ls
  size : st.internTableSize = ls.length
  pos : 0 < ls.length
  fits : (ls.length : Int) < 2 ^ 29
  count : st.internTableCount = ls.flatten.length
  room : ls.flatten.length ≤ ls.length + 1
  live : ∀ a ∈ ls.flatten, ∃ e text, st.Live a e text
  distinct : ∀ a ∈ ls.flatten, ∀ b ∈ ls.flatten, ∀ e e' text, st.Live a e text →
    st.Live b e' text → a = b
  fresh : ∀ a ∈ ls.flatten, a < st.entries
  owned : st.strings.Owned (clients ++ (ls.flatten.map st.string ++ st.emptystring.toList))
  empty : ∀ a, st.emptystring = some a → st.strings.get a = some []

variable {st : Interning} {ls : List (List Nat)} {clients : List Nat} {s text : Str} {a : Nat}
    {e : InternEntry} {size : Int}

theorem makeInternTable_eq (hpos : 0 ≤ size) (hlt : size < 2 ^ 29) :
    makeInternTable size = some (List.replicate size.toNat none) := if_pos (by omega)

theorem bucketOf_lt (hash : UInt32) (hpos : 0 < size) (hlt : size < 2 ^ 29) :
    bucketOf hash size < size.toNat := by
  have hsize : (UInt32.ofInt size).toNat = size.toNat := by
    have hmod : (size % 2 ^ 32).toNat = size.toNat := by omega
    rw [UInt32.ofInt, hmod, UInt32.toNat_ofNat', Nat.mod_eq_of_lt (by omega)]
  rw [bucketOf, UInt32.toNat_mod, hsize]
  exact Nat.mod_lt _ (by omega)

/-- An entry and its string that are the same stand for the same text. -/
theorem Live.congr {st' : Interning} (h : st.Live a e text) (he : st'.entry a = st.entry a)
    (hs : st'.strings.get e.s = st.strings.get e.s) : st'.Live a e text :=
  ⟨he.trans h.entry, hs.trans h.string, h.hash, h.ne, h.plain⟩

theorem Live.bucket (h : st.Live a e text) (size : Int) :
    st.bucket size a = bucketOf (strHash text) size := by
  rw [Interning.bucket, h.entry, Option.map_some, Option.getD_some, h.hash]

theorem Live.stringAddr (h : st.Live a e text) : st.string a = e.s := by
  rw [Interning.string, h.entry, Option.map_some, Option.getD_some]

theorem Live.unique {e' : InternEntry} {text' : Str} (h : st.Live a e text)
    (h' : st.Live a e' text') : e = e' ∧ text = text' := by
  obtain rfl := Option.some.inj (h.entry.symm.trans h'.entry)
  exact ⟨rfl, Option.some.inj (h.string.symm.trans h'.string)⟩

/-- The text that an entry stands for. -/
def textOf (st : Interning) (a : Nat) : Str := (st.strings.get (st.string a)).getD []

theorem Live.textOf (h : st.Live a e text) : st.textOf a = text := by
  rw [Interning.textOf, h.stringAddr, h.string, Option.getD_some]

theorem Ok.ref_mem (_h : st.Ok ls clients) (ha : a ∈ ls.flatten) :
    st.string a ∈ clients ++ (ls.flatten.map st.string ++ st.emptystring.toList) :=
  List.mem_append_right _ (List.mem_append_left _ (List.mem_map_of_mem ha))

/-- The entries are fewer than the loop bounds. -/
theorem Ok.length_lt (h : st.Ok ls clients) : ls.flatten.length < st.bound := by
  have hsub : ls.flatten ⊆ List.range st.entries := fun a ha => List.mem_range.mpr (h.fresh a ha)
  have hle := (List.subperm_of_subset h.nodup hsub).length_le
  rw [List.length_range] at hle
  exact Nat.lt_succ_of_le hle

theorem isString_eq (h : st.Live a e text) (hs : 0 ∉ s) :
    st.isString s (strHash s) a = some (decide (s = text)) := by
  rw [isString, h.entry, Option.bind_eq_bind, Option.bind_some, h.hash]
  split
  · rw [h.string, Option.bind_eq_bind, Option.bind_some, cstr_plain hs, cstr_plain h.plain,
      Option.pure_def]
  · next hne =>
    have : s ≠ text := fun he => hne (by rw [he])
    simp [this]

theorem Ok.bucket_lt (h : st.Ok ls clients) (hash : UInt32) :
    bucketOf hash st.internTableSize < ls.length := by
  have hlt := bucketOf_lt hash (Int.natCast_pos.mpr h.pos) h.fits
  rwa [Int.toNat_natCast, ← h.size] at hlt

/-- The search finds the entry of the text, if there is one. -/
theorem findInternedString_spec (h : st.Ok ls clients) (hs : 0 ∉ s) :
    ∃ r, st.findInternedString s (strHash s) = some r ∧
      (∀ a, r = some a → a ∈ ls.flatten ∧ ∃ e, st.Live a e s) ∧
      (r = none → ∀ a ∈ ls.flatten, ∀ e, ¬ st.Live a e s) := by
  obtain ⟨T, hT, hholds⟩ := h.table
  have hlt := h.bucket_lt (strHash s)
  obtain ⟨l, hl⟩ : ∃ l, ls[bucketOf (strHash s) st.internTableSize]? = some l :=
    ⟨_, List.getElem?_eq_getElem hlt⟩
  obtain ⟨head, hhead⟩ : ∃ head, T.heads[bucketOf (strHash s) st.internTableSize]? = some head :=
    ⟨_, List.getElem?_eq_getElem (hholds.length ▸ hlt)⟩
  have hsub : ∀ a ∈ l, a ∈ ls.flatten := fun a ha => Table.mem_flatten_of_getElem? hl ha
  have hlen : l.length < st.bound :=
    (List.sublist_flatten_of_mem (List.mem_of_getElem? hl)).length_le.trans_lt h.length_lt
  have htest : ∀ a ∈ l, st.isString s (strHash s) a = some (decide (s = st.textOf a)) :=
    fun a ha => by
    obtain ⟨e, text, hlive⟩ := h.live a (hsub a ha)
    rw [isString_eq hlive hs, hlive.textOf]
  have hfind := findRun_eq (hholds.run _ _ _ hhead hl) htest hlen
  refine ⟨l.find? fun a => decide (s = st.textOf a), ?_, fun a ha => ?_,
    fun hnone a ha e hlive => ?_⟩
  · rw [findInternedString, hT, Option.bind_eq_bind, Option.bind_some, hhead, Option.bind_eq_bind,
      Option.bind_some, hfind]
  · have hmem := hsub a (List.mem_of_find?_eq_some ha)
    obtain ⟨e, text, hlive⟩ := h.live a hmem
    obtain rfl : s = text := by simpa [hlive.textOf] using List.find?_some ha
    exact ⟨hmem, e, hlive⟩
  · -- an entry for the text is in the bucket that was searched
    obtain ⟨l', hl', hal⟩ := h.placed.getElem? ha
    rw [hlive.bucket, hl] at hl'
    obtain rfl := Option.some.inj hl'
    have hno := List.find?_eq_none.mp hnone a hal
    rw [hlive.textOf] at hno
    simp at hno

/-! ## Rehashing -/

/-- `intern_rehash` moves every entry to its bucket among `n`, if they fit. -/
theorem internRehash_spec (h : st.Ok ls clients) {n : Nat} (hpos : 0 < n)
    (hfits : (n : Int) < 2 ^ 29)
    (hroom : ls.flatten.length ≤ n + 1) :
    ∃ st' ls', st.internRehash n = some st' ∧ st'.Ok ls' clients ∧ ls'.flatten.Perm ls.flatten ∧
      ls'.length = n ∧
      st'.entry = st.entry ∧ st'.strings = st.strings ∧ st'.internTableCount = st.internTableCount ∧
      st'.emptystring = st.emptystring := by
  obtain ⟨T, hT, hholds⟩ := h.table
  have hb : ∀ a ∈ ls.flatten, (st.entry a).map (fun e => bucketOf e.hash n) = some (st.bucket n a) ∧
      st.bucket n a < n := fun a ha => by
    obtain ⟨e, text, hlive⟩ := h.live a ha
    refine ⟨by rw [hlive.entry, Option.map_some, hlive.bucket, hlive.hash], ?_⟩
    rw [hlive.bucket]
    exact bucketOf_lt (strHash text) (Int.natCast_pos.mpr hpos) hfits
  obtain ⟨T', hT', hholds'⟩ := hholds.rehash hb h.nodup h.length_lt
  have hperm : (Table.pushAll (st.bucket n) (List.replicate n []) ls.flatten).flatten.Perm
      ls.flatten := by
    have hpush : (Table.pushAll (st.bucket n) (List.replicate n []) ls.flatten).flatten.Perm
        (ls.flatten ++ (List.replicate n ([] : List Nat)).flatten) :=
          Table.pushAll_perm fun a ha => by
      rw [List.length_replicate]
      exact (hb a ha).2
    simpa using hpush
  have hlen : (Table.pushAll (st.bucket n) (List.replicate n ([] : List Nat)) ls.flatten).length =
      n := by
    rw [Table.pushAll_length, List.length_replicate]
  have hmem : ∀ a, a ∈ (Table.pushAll (st.bucket n) (List.replicate n []) ls.flatten).flatten →
      a ∈ ls.flatten := fun a => hperm.mem_iff.mp
  refine ⟨{ st with internTable := some T', internTableSize := n }, _, ?_,
    ⟨⟨T', rfl, hholds'⟩, ?_, ?_, ?_, ?_, ?_, ?_, ?_, ?_, ?_, ?_, ?_, ?_⟩,
    hperm, hlen, rfl, rfl, rfl, rfl⟩
  · rw [internRehash, hT, Option.bind_eq_bind, Option.bind_some,
      makeInternTable_eq (Int.natCast_nonneg n) hfits, Option.bind_eq_bind,
      Option.bind_some, Int.toNat_natCast, hT']
    rfl
  · exact hperm.nodup_iff.mpr h.nodup
  · exact (Table.Placed.replicate n).pushAll _
  · exact congrArg _ hlen.symm
  · rw [hlen]
    exact hpos
  · rw [hlen]
    exact hfits
  · rw [hperm.length_eq]
    exact h.count
  · rw [hperm.length_eq, hlen]
    exact hroom
  · intro a ha
    obtain ⟨e, text, hlive⟩ := h.live a (hmem a ha)
    exact ⟨e, text, hlive.congr rfl rfl⟩
  · exact fun a ha b hb e e' text hl hl' =>
      h.distinct a (hmem a ha) b (hmem b hb) e e' text (hl.congr rfl rfl) (hl'.congr rfl rfl)
  · exact fun a ha => h.fresh a (hmem a ha)
  · refine h.owned.perm fun a => List.Perm.count_eq ?_ a
    exact (((hperm.map _).append_right _).append_left _)
  · exact h.empty

/-! ## Interning a string -/

/-- Nothing that a client or the table refers to changes. -/
structure Keeps (st : Interning) (ls : List (List Nat)) (clients : List Nat) (st' : Interning)
    (ls' : List (List Nat)) : Prop where
  live : ∀ a ∈ ls.flatten, ∀ e text, st.Live a e text → a ∈ ls'.flatten ∧ st'.Live a e text
  client : ∀ r ∈ clients, st'.strings.get r = st.strings.get r
  empty : ∀ r, st.emptystring = some r → st'.emptystring = some r

/-- The copy of a text that the table shares. -/
def Shared (st : Interning) (ls : List (List Nat)) (text : Str) (r : Nat) : Prop :=
  ∃ a ∈ ls.flatten, ∃ e, st.Live a e text ∧ e.s = r

theorem Keeps.trans {st₁ st₂ : Interning} {ls₁ ls₂ : List (List Nat)}
    (h : Keeps st ls clients st₁ ls₁)
    (h' : Keeps st₁ ls₁ clients st₂ ls₂) : Keeps st ls clients st₂ ls₂ where
  live a ha e text hlive := by
    obtain ⟨ha₁, hlive₁⟩ := h.live a ha e text hlive
    exact h'.live a ha₁ e text hlive₁
  client r hr := (h'.client r hr).trans (h.client r hr)
  empty r hr := h'.empty r (h.empty r hr)

theorem Shared.keep {st' : Interning} {ls' : List (List Nat)} {r : Nat} (h : st.Shared ls text r)
    (hk : Keeps st ls clients st' ls') :
    st'.Shared ls' text r := by
  obtain ⟨a, ha, e, hlive, hr⟩ := h
  obtain ⟨ha', hlive'⟩ := hk.live a ha e text hlive
  exact ⟨a, ha', e, hlive', hr⟩

theorem Shared.unique {r r' : Nat} (h : st.Ok ls clients) (hr : st.Shared ls text r)
    (hr' : st.Shared ls text r') : r = r' := by
  obtain ⟨a, ha, e, hlive, rfl⟩ := hr
  obtain ⟨b, hb, e', hlive', rfl⟩ := hr'
  obtain rfl := h.distinct a ha b hb e e' text hlive hlive'
  rw [(hlive.unique hlive').1]

/-- A change of the strings that leaves those of the table alone. -/
theorem Ok.withStrings (h : st.Ok ls clients) {strings : RcHeap Str} {emptystring : Option Nat}
    {clients' : List Nat}
    (howned : strings.Owned (clients' ++ (ls.flatten.map st.string ++ emptystring.toList)))
    (hget : ∀ b ∈ ls.flatten.map st.string, strings.get b = st.strings.get b)
    (hempty : ∀ a, emptystring = some a → strings.get a = some []) (saved bytes : Int) :
    Ok { st with strings, emptystring, internAllocationsSaved := saved,
                 internBytesSaved := bytes } ls clients' ∧
      ∀ a ∈ ls.flatten, ∀ e text, st.Live a e text →
        Live { st with strings, emptystring, internAllocationsSaved := saved,
                       internBytesSaved := bytes } a e text := by
  have hlive : ∀ a ∈ ls.flatten, ∀ e, st.entry a = some e → strings.get e.s = st.strings.get e.s :=
    fun a ha e he => by
    have hmem : st.string a ∈ ls.flatten.map st.string := List.mem_map_of_mem ha
    rw [Interning.string, he] at hmem
    exact hget _ hmem
  refine ⟨?_, fun a ha e text hl => hl.congr rfl (hlive a ha e hl.entry)⟩
  exact {
    table := h.table, nodup := h.nodup, placed := h.placed, size := h.size, pos := h.pos, fits :=
      h.fits, count := h.count
    room := h.room, fresh := h.fresh, owned := howned, empty := hempty
    live := fun a ha => by
      obtain ⟨e, text, hl⟩ := h.live a ha
      exact ⟨e, text, hl.congr rfl (hlive a ha e hl.entry)⟩
    distinct := fun a ha b hb e e' text hl hl' =>
      h.distinct a ha b hb e e' text (hl.congr rfl (hlive a ha e hl.entry).symm)
        (hl'.congr rfl (hlive b hb e' hl'.entry).symm) }

/-- A hit hands out another reference to the copy. -/
theorem strRef_shared {r : Nat} (h : st.Ok ls clients) (hr : st.Shared ls text r)
    (saved bytes : Int) :
    ∃ st', Interning.strRef r { st with internAllocationsSaved := saved,
                                        internBytesSaved := bytes } = some st' ∧
      st'.Ok ls (r :: clients) ∧
      Keeps st ls clients st' ls ∧ st'.strings.get r = some text := by
  obtain ⟨a, ha, e, hlive, rfl⟩ := hr
  have hmem := h.ref_mem ha
  rw [hlive.stringAddr] at hmem
  obtain ⟨strings, haddref, howned, hget⟩ := h.owned.addref hmem
  rw [← List.cons_append] at howned
  obtain ⟨hok, hkeep⟩ := h.withStrings howned (fun b _ => hget b)
    (fun b hb => (hget b).trans (h.empty b hb)) saved bytes
  exact ⟨_, by rw [strRef, haddref, Option.map_some], hok,
    ⟨fun b hb e' t hl => ⟨hb, hkeep b hb e' t hl⟩, fun b _ => hget b, fun _ h => h⟩,
    (hget _).trans hlive.string⟩

/-- The empty string has one copy, which is made when it is first asked for. -/
theorem strDup_empty (h : st.Ok ls clients) :
    ∃ r st', st.strDup (some []) = some (r, st') ∧ st'.Ok ls (r :: clients) ∧
      Keeps st ls clients st' ls ∧
      st'.strings.get r = some [] ∧ st'.emptystring = some r := by
  cases hempty : st.emptystring with
  | some r =>
    have hmem : r ∈ clients ++ (ls.flatten.map st.string ++ st.emptystring.toList) := by
      rw [hempty]
      simp
    obtain ⟨strings, haddref, howned, hget⟩ := h.owned.addref hmem
    rw [hempty, ← List.cons_append] at howned
    obtain ⟨hok, hkeep⟩ := h.withStrings howned (fun b _ => hget b)
      (fun b hb => (hget b).trans (h.empty b (hempty.trans hb))) st.internAllocationsSaved
        st.internBytesSaved
    refine ⟨r, _, ?_, hok,
      ⟨fun b hb e t hl => ⟨hb, hkeep b hb e t hl⟩, fun b _ => hget b,
        fun _ hb => hempty.symm.trans hb⟩,
      (hget r).trans (h.empty r hempty), rfl⟩
    simp only [strDup, Option.getD_some, cstr, List.takeWhile_nil, hempty, haddref, Option.map_some]
  | none =>
    have hroots := h.owned
    rw [hempty, Option.toList_none, List.append_nil] at hroots
    obtain ⟨halloc, hnew, hold⟩ := hroots.alloc []
    obtain ⟨strings, haddref, howned, hget⟩ := halloc.addref List.mem_cons_self
    have hroots' : strings.Owned
        ((st.strings.alloc []).1 :: clients ++
          (ls.flatten.map st.string ++ (some (st.strings.alloc []).1).toList)) := by
      refine howned.perm fun a => List.Perm.count_eq ?_ a
      rw [List.cons_append, ← List.append_assoc]
      exact (List.perm_append_singleton _ _).cons _
    have hold' : ∀ b ∈ clients ++ ls.flatten.map st.string, strings.get b = st.strings.get b :=
      fun b hb => (hget b).trans (hold b hb)
    have hr : strings.get (st.strings.alloc []).1 = some [] := (hget _).trans hnew
    obtain ⟨hok, hkeep⟩ := h.withStrings hroots' (fun b hb => hold' b (List.mem_append_right _ hb))
      (fun b hb => by rw [← Option.some.inj hb]; exact hr) st.internAllocationsSaved
        st.internBytesSaved
    refine ⟨(st.strings.alloc []).1, _, ?_, hok,
      ⟨fun b hb e t hl => ⟨hb, hkeep b hb e t hl⟩, fun b hb => hold' b (List.mem_append_left _ hb),
        fun b hb => ?_⟩, hr, rfl⟩
    · simp only [strDup, Option.getD_some, cstr, List.takeWhile_nil, hempty, haddref,
        Option.map_some]
    · rw [hempty] at hb
      cases hb

theorem strDup_plain (hs : 0 ∉ s) (hne : s ≠ []) (st : Interning) :
    st.strDup (some s) = some (st.strings.next, { st with strings := (st.strings.alloc s).2 }) := by
  rw [strDup, Option.getD_some, cstr_plain hs]
  cases s with
  | nil => exact absurd rfl hne
  | cons c s => rfl

/-- A string that the heap has just been given is put in the table. -/
theorem addInternedString_spec {r : Nat} (h : st.Ok ls clients) (hne : s ≠ []) (hs : 0 ∉ s)
    (hnew : ∀ a ∈ ls.flatten, ∀ e, ¬ st.Live a e s) (hroom : ls.flatten.length ≤ ls.length)
    {strings : RcHeap Str}
    (howned : strings.Owned (r :: r ::
      (clients ++ (ls.flatten.map st.string ++ st.emptystring.toList))))
    (hr : strings.get r = some s)
    (hget : ∀ b ∈ clients ++ (ls.flatten.map st.string ++ st.emptystring.toList),
      strings.get b = st.strings.get b) :
    ∃ st' ls', addInternedString r (strHash s) { st with strings } = some st' ∧
      st'.Ok ls' (r :: clients) ∧
      Keeps st ls clients st' ls' ∧ st'.Shared ls' s r ∧ ls'.length = ls.length ∧
      ls'.flatten.length = ls.flatten.length + 1 ∧
      ∀ a ∈ ls'.flatten, ∀ e text, st'.Live a e text → text = s ∨ a ∈ ls.flatten ∧
      st.Live a e text := by
  obtain ⟨T, hT, hholds⟩ := h.table
  have hlt := h.bucket_lt (strHash s)
  have hfresh : st.entries ∉ ls.flatten := fun hm => Nat.lt_irrefl _ (h.fresh _ hm)
  have hne' : ∀ a ∈ ls.flatten, a ≠ st.entries := fun a ha he => hfresh (he ▸ ha)
  obtain ⟨T', hpush, hholds', -⟩ := hholds.push hlt hfresh
  have hperm := Table.modify_perm (e := st.entries) hlt
  -- the new entry, and the old ones
  let st' : Interning :=
    { st with strings, internTable := some T',
              entry := Function.update st.entry st.entries (some ⟨r, strHash s⟩),
              entries := st.entries + 1, internTableCount := int32 (st.internTableCount + 1) }
  have hentry : st'.entry st.entries = some ⟨r, strHash s⟩ := Function.update_self _ _ _
  have hold : ∀ a ∈ ls.flatten, st'.entry a = st.entry a :=
    fun a ha => Function.update_of_ne (hne' a ha) _ _
  have holdGet : ∀ a ∈ ls.flatten, ∀ e, st.entry a = some e →
      st'.strings.get e.s = st.strings.get e.s := fun a ha e he => by
    have hmem := h.ref_mem ha
    rw [Interning.string, he] at hmem
    exact hget _ hmem
  have hnewLive : st'.Live st.entries ⟨r, strHash s⟩ s := ⟨hentry, hr, rfl, hne, hs⟩
  have hkeep : ∀ a ∈ ls.flatten, ∀ e text, st.Live a e text → st'.Live a e text :=
    fun a ha e text hl =>
    hl.congr (hold a ha) (holdGet a ha e hl.entry)
  have hback : ∀ a ∈ ls.flatten, ∀ e text, st'.Live a e text → st.Live a e text :=
    fun a ha e text hl => by
    have he : st.entry a = some e := (hold a ha).symm.trans hl.entry
    exact hl.congr (hold a ha).symm (holdGet a ha e he).symm
  have hcases : ∀ a ∈ (ls.modify (bucketOf (strHash s) st.internTableSize)
    (st.entries :: ·)).flatten, a = st.entries ∨ a ∈ ls.flatten :=
    fun a ha => List.mem_cons.mp (hperm.mem_iff.mp ha)
  have hstring : (ls.flatten.map st'.string) = ls.flatten.map st.string :=
    List.map_congr_left fun a ha => by rw [Interning.string, hold a ha, Interning.string]
  have hbucket : ∀ a ∈ ls.flatten, st'.bucket st.internTableSize a =
      st.bucket st.internTableSize a := fun a ha => by
    rw [Interning.bucket, hold a ha, Interning.bucket]
  refine ⟨st', _, ?_, ⟨⟨T', rfl, hholds'⟩, ?_, ?_, ?_, ?_, ?_, ?_, ?_, ?_, ?_, ?_, ?_, ?_⟩,
    ⟨fun a ha e text hl => ⟨hperm.mem_iff.mpr (List.mem_cons_of_mem _ ha), hkeep a ha e text hl⟩,
      fun b hb => hget b (List.mem_append_left _ hb), fun _ h => h⟩,
    ⟨st.entries, hperm.mem_iff.mpr List.mem_cons_self, _, hnewLive, rfl⟩,
    List.length_modify _ _ _, ?_, ?_⟩
  · simp only [addInternedString, hT, hpush, Option.bind_eq_bind, Option.bind_some,
      Option.pure_def, st']
  · exact hperm.nodup_iff.mpr (List.nodup_cons.mpr ⟨hfresh, h.nodup⟩)
  · have hplaced : Table.Placed (st'.bucket st.internTableSize) ls := fun i l hl a ha => by
      rw [hbucket a (Table.mem_flatten_of_getElem? hl ha)]
      exact h.placed i l hl a ha
    have hmodify := hplaced.modify (e := st.entries)
    rwa [hnewLive.bucket] at hmodify
  · rw [List.length_modify]
    exact h.size
  · rw [List.length_modify]
    exact h.pos
  · rw [List.length_modify]
    exact h.fits
  · have hfits := h.fits
    have hcount : st'.internTableCount = int32 (ls.flatten.length + 1 : Nat) := by
      rw [Int.natCast_add, ← h.count]
      rfl
    rw [hperm.length_eq, List.length_cons, hcount, int32_eq_self (by omega) (by omega)]
  · rw [hperm.length_eq, List.length_cons, List.length_modify]
    exact Nat.succ_le_succ hroom
  · intro a ha
    rcases hcases a ha with rfl | ha
    · exact ⟨_, s, hnewLive⟩
    · obtain ⟨e, text, hl⟩ := h.live a ha
      exact ⟨e, text, hkeep a ha e text hl⟩
  · intro a ha b hb e e' text hl hl'
    rcases hcases a ha with rfl | hold₁ <;> rcases hcases b hb with rfl | hold₂
    · rfl
    · obtain ⟨-, rfl⟩ := hl.unique hnewLive
      exact absurd (hback b hold₂ e' text hl') (hnew b hold₂ e')
    · obtain ⟨-, rfl⟩ := hl'.unique hnewLive
      exact absurd (hback a hold₁ e text hl) (hnew a hold₁ e)
    · exact h.distinct a hold₁ b hold₂ e e' text (hback a hold₁ e text hl)
        (hback b hold₂ e' text hl')
  · intro a ha
    rcases hcases a ha with rfl | ha
    · exact Nat.lt_succ_self _
    · exact Nat.lt_succ_of_lt (h.fresh a ha)
  · refine howned.perm fun a => List.Perm.count_eq ?_ a
    have hmap := hperm.map st'.string
    rw [List.map_cons, hnewLive.stringAddr, hstring] at hmap
    refine (((hmap.append_right _).append_left _).cons r).trans ?_
    exact (List.perm_middle).cons r
  · exact fun a ha =>
      (hget a (List.mem_append_right _ (List.mem_append_right _ (Option.mem_toList.mpr ha)))).trans
        (h.empty a ha)
  · rw [hperm.length_eq, List.length_cons]
  · intro a ha e text hl
    rcases hcases a ha with rfl | hold₁
    · exact .inl (hl.unique hnewLive).2
    · exact .inr ⟨hold₁, hback a hold₁ e text hl⟩

/-- A table that is to be doubled still fits afterwards. -/
def Fits (st : Interning) : Prop :=
  st.internTableCount > st.internTableSize → st.internTableSize * 2 < 2 ^ 29

/-- It does if `s` makes an entry: if it is not empty and the table does not have it. -/
def FitsFor (st : Interning) (s : Str) : Prop :=
  s ≠ [] → st.findInternedString s (strHash s) = some none → st.Fits

instance (st : Interning) : Decidable st.Fits := inferInstanceAs (Decidable (_ → _))

instance (st : Interning) (s : Str) : Decidable (st.FitsFor s) :=
  inferInstanceAs (Decidable (_ → _ → _))

/-- Room for one entry more. -/
theorem makeRoom_spec (h : st.Ok ls clients) (hfits : st.Fits) :
    ∃ st' ls', st.makeRoom = some st' ∧ st'.Ok ls' clients ∧ ls'.flatten.Perm ls.flatten ∧
      ls'.flatten.length ≤ ls'.length ∧
      (ls'.length = ls.length ∨ ls'.length = 2 * ls.length) ∧ st'.entry = st.entry ∧
      st'.strings = st.strings ∧
      st'.emptystring = st.emptystring := by
  have hsize := h.size
  have hcount := h.count
  have hroom := h.room
  have hpos := h.pos
  rw [makeRoom]
  split
  · next hfull =>
    have hlt := hfits hfull
    have hdouble : int32 (st.internTableSize * 2) = (2 * ls.length : Nat) := by
      rw [int32_eq_self (by omega) (by omega), hsize]
      omega
    obtain ⟨st', ls', hst', hok, hperm, hlen, hentry, hstrings, -, hempty⟩ :=
      internRehash_spec h (n := 2 * ls.length) (by omega) (by omega) (by omega)
    refine ⟨st', ls', by rw [hdouble, hst'], hok, hperm, ?_, .inr hlen, hentry, hstrings, hempty⟩
    rw [hperm.length_eq, hlen]
    omega
  · next hfull => exact ⟨st, ls, rfl, h, .refl _, by omega, .inl rfl, rfl, rfl, rfl⟩

theorem internMiss_spec (h : st.Ok ls clients) (hne : s ≠ []) (hs : 0 ∉ s) (hfits : st.Fits)
    (hnew : ∀ a ∈ ls.flatten, ∀ e, ¬ st.Live a e s) :
    ∃ r st' ls', st.internMiss s (strHash s) = some (r, st') ∧ st'.Ok ls' (r :: clients) ∧
      Keeps st ls clients st' ls' ∧
      st'.strings.get r = some s ∧ st'.Shared ls' s r ∧
      (ls'.length = ls.length ∨ ls'.length = 2 * ls.length) ∧
      ls'.flatten.length = ls.flatten.length + 1 ∧
      ∀ a ∈ ls'.flatten, ∀ e text, st'.Live a e text → text = s ∨ a ∈ ls.flatten ∧
      st.Live a e text := by
  obtain ⟨st₁, ls₁, hst₁, hok₁, hperm, hroom, hlen, hentry, hstrings, hempty⟩ :=
    makeRoom_spec h hfits
  have hkeep₁ : Keeps st ls clients st₁ ls₁ :=
    ⟨fun a ha e text hl => ⟨hperm.mem_iff.mpr ha, hl.congr (congrFun hentry a) (by rw [hstrings])⟩,
      fun b _ => by rw [hstrings], fun _ hr => hempty.trans hr⟩
  have hnew₁ : ∀ a ∈ ls₁.flatten, ∀ e, ¬ st₁.Live a e s := fun a ha e hl =>
    hnew a (hperm.mem_iff.mp ha) e (hl.congr (congrFun hentry a).symm (by rw [hstrings]))
  obtain ⟨halloc, hr, hold⟩ := hok₁.owned.alloc s
  obtain ⟨strings, haddref, howned, hget⟩ := halloc.addref List.mem_cons_self
  obtain ⟨st', ls', hadd, hok, hkeep, hshared, hlen', hcount, hlive⟩ :=
    addInternedString_spec hok₁ hne hs hnew₁ hroom howned ((hget _).trans hr) fun b hb =>
      (hget b).trans (hold b hb)
  have hget' : st'.strings.get (st₁.strings.alloc s).1 = some s := by
    obtain ⟨a, -, e, hlive, he⟩ := hshared
    rw [← he]
    exact hlive.string
  refine ⟨(st₁.strings.alloc s).1, st', ls', ?_, hok, hkeep₁.trans hkeep, hget',
    hshared, by rwa [hlen'],
    by rw [hcount, hperm.length_eq], fun a ha e text hl =>
      (hlive a ha e text hl).imp_right fun ⟨ha₁, hl₁⟩ =>
        ⟨hperm.mem_iff.mp ha₁, hl₁.congr (congrFun hentry a).symm (by rw [hstrings])⟩⟩
  have hfirst : (st₁.strings.alloc s).1 = st₁.strings.next := rfl
  rw [hfirst] at haddref hadd ⊢
  simp only [internMiss, hst₁, strDup_plain hs hne, strRef, haddref, hadd, Option.bind_eq_bind,
    Option.bind_some, Option.map_some,
    Option.pure_def]

/-- Whatever is interned, a copy of it is handed out: the one that the table shares, if it is not
empty. -/
theorem strIntern_spec (h : st.Ok ls clients) (hs : 0 ∉ s) (hfits : st.FitsFor s) :
    ∃ r st' ls', st.strIntern (some s) = some (r, st') ∧ st'.Ok ls' (r :: clients) ∧
      Keeps st ls clients st' ls' ∧
      st'.strings.get r = some s ∧ (s ≠ [] → st'.Shared ls' s r) ∧
      (s = [] → st'.emptystring = some r) := by
  obtain ⟨T, hT, -⟩ := h.table
  by_cases hne : s = []
  · subst hne
    obtain ⟨r, st', hdup, hok, hkeep, hr, hempty⟩ := strDup_empty h
    exact ⟨r, st', ls, by rw [strIntern, if_pos (.inl rfl), hdup], hok, hkeep, hr,
      fun hne => absurd rfl hne, fun _ => hempty⟩
  have hgo : ¬ (cstr ((some s).getD []) = [] ∨ st.internTable = none) := by
    rw [Option.getD_some, cstr_plain hs, hT]
    exact fun h => h.elim hne nofun
  obtain ⟨found, hfind, hhit, hmiss⟩ := findInternedString_spec h hs
  rw [strIntern, if_neg hgo, Option.getD_some, cstr_plain hs, hfind, Option.bind_some]
  cases found with
  | some p =>
    obtain ⟨hp, e, hlive⟩ := hhit p rfl
    have hshared : st.Shared ls s e.s := ⟨p, hp, e, hlive, rfl⟩
    obtain ⟨st', hst', hok, hkeep, hr⟩ :=
      strRef_shared h hshared (int32 (st.internAllocationsSaved + 1))
        (int32 (st.internBytesSaved + s.length))
    refine ⟨e.s, st', ls, ?_, hok, hkeep, hr, fun _ => hshared.keep hkeep, fun h => absurd h hne⟩
    simp only [internHit, hlive.entry, hlive.string, hst', Option.bind_eq_bind, Option.bind_some,
      Option.pure_def]
  | none =>
    obtain ⟨r, st', ls', hmiss', hok, hkeep, hr, hshared, -⟩ :=
      internMiss_spec h hne hs (hfits hne hfind) (hmiss rfl)
    exact ⟨r, st', ls', hmiss', hok, hkeep, hr, fun _ => hshared, fun h => absurd h hne⟩

/-! ## Opening the table, and letting go of strings -/

theorem flatten_replicate_nil (n : Nat) : (List.replicate n ([] : List Nat)).flatten = [] := by
  simp

theorem strInternOpen_spec (hcount : st.internTableCount = 0)
    (howned : st.strings.Owned (clients ++ st.emptystring.toList))
    (hempty : ∀ a, st.emptystring = some a → st.strings.get a = some []) {tableSize : Int}
    (hpos : 0 ≤ tableSize)
    (hfits : tableSize < 2 ^ 29) :
    ∃ st' n, st.strInternOpen tableSize = some st' ∧ st'.Ok (List.replicate n []) clients ∧
      n = (if tableSize = 0 then INTERN_TABLE_SIZE_INITIAL else tableSize).toNat := by
  obtain ⟨size, hsize⟩ : ∃ size, size = if tableSize = 0 then INTERN_TABLE_SIZE_INITIAL
    else tableSize := ⟨_, rfl⟩
  have hbounds : 0 < size ∧ size < 2 ^ 29 := by
    rw [hsize]
    split
    · exact ⟨by decide, by decide⟩
    · exact ⟨by omega, hfits⟩
  have hlen : (List.replicate size.toNat ([] : List Nat)).length = size.toNat :=
    List.length_replicate
  refine ⟨{ st with internTable := some ⟨List.replicate size.toNat none, fun _ => none⟩,
                    internTableSize := size,
                    internBytesSaved := 0, internAllocationsSaved := 0 }, size.toNat, ?_,
                    ?_, by rw [hsize]⟩
  · simp only [strInternOpen, ← hsize, makeInternTable_eq (Int.le_of_lt hbounds.1) hbounds.2,
      Option.bind_eq_bind, Option.bind_some,
      Option.pure_def]
  · refine ⟨⟨_, rfl, Table.Holds.replicate _ _⟩, ?_, Table.Placed.replicate _, ?_, ?_, ?_, ?_, ?_,
      ?_, ?_, ?_, ?_, hempty⟩
    · simp
    · rw [hlen]
      exact (Int.toNat_of_nonneg (Int.le_of_lt hbounds.1)).symm
    · rw [hlen]
      omega
    · rw [hlen]
      omega
    · rw [flatten_replicate_nil]
      exact hcount
    · rw [flatten_replicate_nil]
      exact Nat.zero_le _
    · simp
    · simp
    · simp
    · rwa [flatten_replicate_nil, List.map_nil, List.nil_append]

/-- A client lets go of a string; the copy that the table shares stays. -/
theorem freeStr_spec (h : st.Ok ls clients) {r : Nat} (hr : r ∈ clients) :
    ∃ st', freeStr r st = some st' ∧ st'.Ok ls (clients.erase r) ∧
      Keeps st ls (clients.erase r) st' ls := by
  have howned :
      st.strings.Owned
        (r :: (clients.erase r ++ (ls.flatten.map st.string ++ st.emptystring.toList))) :=
    h.owned.perm fun a => (List.Perm.append_right _ (List.perm_cons_erase hr)).symm.count_eq a
  obtain ⟨strings, hdel, howned', hget⟩ := howned.delref
  obtain ⟨hok, hkeep⟩ := h.withStrings howned'
    (fun b hb => hget b (List.mem_append_right _ (List.mem_append_left _ hb)))
    (fun b hb =>
      (hget b (List.mem_append_right _ (List.mem_append_right _ (Option.mem_toList.mpr hb)))).trans
        (h.empty b hb))
    st.internAllocationsSaved st.internBytesSaved
  exact ⟨_, by rw [freeStr, hdel, Option.map_some], hok,
    ⟨fun b hb e t hl => ⟨hb, hkeep b hb e t hl⟩,
    fun b hb => hget b (List.mem_append_left _ hb), fun _ h => h⟩⟩

end Interning

/-! ## Runs -/

open Interning

/-- What can happen between `str_intern_open` and `str_intern_close`, with the references that are
held outside of the table and the calls of `str_intern` so far: the argument and the result of
each. -/
inductive InternRun : Interning → List Nat → List (Str × Nat) → Prop
  | opened {st st' : Interning} {clients : List Nat} {tableSize : Int} :
      st.internTableCount = 0 → st.strings.Owned (clients ++ st.emptystring.toList) →
      (∀ a, st.emptystring = some a → st.strings.get a = some []) → 0 ≤ tableSize →
      tableSize < 2 ^ 29 →
      st.strInternOpen tableSize = some st' → InternRun st' clients []
  | intern {st st' : Interning} {clients : List Nat} {calls : List (Str × Nat)}
      {s : Str} {r : Nat} :
      InternRun st clients calls → 0 ∉ s → st.FitsFor s → st.strIntern (some s) = some (r, st') →
      InternRun st' (r :: clients) ((s, r) :: calls)
  | free {st st' : Interning} {clients : List Nat} {calls : List (Str × Nat)} {r : Nat} :
      InternRun st clients calls → r ∈ clients → st.freeStr r = some st' →
        InternRun st' (clients.erase r) calls

/-- The result of a call still holds its argument. -/
def Result (st : Interning) (ls : List (List Nat)) (s : Str) (r : Nat) : Prop :=
  (s ≠ [] → st.Shared ls s r) ∧ (s = [] → st.emptystring = some r)

theorem Result.keep {st st' : Interning} {ls ls' : List (List Nat)} {clients : List Nat} {s : Str}
    {r : Nat} (h : Result st ls s r)
    (hk : Keeps st ls clients st' ls') : Result st' ls' s r :=
  ⟨fun hs => (h.1 hs).keep hk, fun hs => hk.empty r (h.2 hs)⟩

theorem Result.get {st : Interning} {ls : List (List Nat)} {clients : List Nat} {s : Str} {r : Nat}
    (h : Result st ls s r)
    (hok : st.Ok ls clients) : st.strings.get r = some s := by
  by_cases hs : s = []
  · rw [hs]
    exact hok.empty r (h.2 hs)
  · obtain ⟨a, -, e, hlive, rfl⟩ := h.1 hs
    exact hlive.string

/-- In every run the table is in order, and the results of all calls hold their arguments. -/
theorem InternRun.ok {st : Interning} {clients : List Nat} {calls : List (Str × Nat)}
    (h : InternRun st clients calls) :
    ∃ ls, st.Ok ls clients ∧ ∀ s r, (s, r) ∈ calls → Result st ls s r := by
  induction h with
  | opened hcount howned hempty hpos hfits hopen =>
    obtain ⟨st', n, hopen', hok, -⟩ := strInternOpen_spec hcount howned hempty hpos hfits
    cases hopen'.symm.trans hopen
    exact ⟨_, hok, by simp⟩
  | intern _ hs hfits hintern ih =>
    obtain ⟨ls, hok, hcalls⟩ := ih
    obtain ⟨r, st', ls', hintern', hok', hkeep, -, hshared, hempty⟩ := strIntern_spec hok hs hfits
    cases hintern'.symm.trans hintern
    refine ⟨ls', hok', fun t q hm => ?_⟩
    rcases List.mem_cons.mp hm with heq | hm
    · cases heq
      exact ⟨hshared, hempty⟩
    · exact (hcalls t q hm).keep hkeep
  | free _ hr hfree ih =>
    obtain ⟨ls, hok, hcalls⟩ := ih
    obtain ⟨st', hfree', hok', hkeep⟩ := freeStr_spec hok hr
    cases hfree'.symm.trans hfree
    exact ⟨ls, hok', fun t q hm => (hcalls t q hm).keep hkeep⟩

/-- While the table fits: every result holds its argument, equal arguments share one string, every
entry is in the bucket of its hash and nowhere else, and the next call returns. -/
theorem strIntern_sound {st : Interning} {clients : List Nat} {calls : List (Str × Nat)}
    (h : InternRun st clients calls) :
    (∀ s r, (s, r) ∈ calls → st.strings.get r = some s) ∧
      (∀ s r r', (s, r) ∈ calls → (s, r') ∈ calls → s ≠ [] → r = r') ∧
      (∃ ls, st.Ok ls clients ∧ ∀ s r, (s, r) ∈ calls → s ≠ [] →
        ∃ a, a ∈ ls.getD (bucketOf (strHash s) st.internTableSize) [] ∧ st.string a = r ∧
          ∀ b ∈ ls.flatten, ∀ e, st.Live b e s → b = a) ∧
      ∀ s, 0 ∉ s → st.FitsFor s → ∃ r st', st.strIntern (some s) = some (r, st') ∧
      st'.strings.get r = some s := by
  obtain ⟨ls, hok, hcalls⟩ := h.ok
  refine ⟨fun s r hm => (hcalls s r hm).get hok, fun s r r' hm hm' hs => ?_,
    ⟨ls, hok, fun s r hm hs => ?_⟩, fun s hs hfits => ?_⟩
  · exact ((hcalls s r hm).1 hs).unique hok ((hcalls s r' hm').1 hs)
  · obtain ⟨a, ha, e, hlive, rfl⟩ := (hcalls s r hm).1 hs
    obtain ⟨l, hl, hal⟩ := hok.placed.getElem? ha
    rw [hlive.bucket] at hl
    refine ⟨a, ?_, hlive.stringAddr, fun b hb e' hlive' =>
      hok.distinct b hb a ha e' e s hlive' hlive⟩
    rwa [List.getD_eq_getElem?_getD, hl]
  · obtain ⟨r, st', ls', hintern, -, -, hr, -⟩ := strIntern_spec hok hs hfits
    exact ⟨r, st', hintern, hr⟩

/-! ## Too many strings -/

namespace Interning

/-- Calls of `str_intern`, one after the other. -/
def internAll (ss : List Str) (st : Interning) : Option Interning :=
  ss.foldlM (fun st s => (st.strIntern (some s)).map Prod.snd) st

/-- The table has been doubled from its initial size, and has an entry for each of these strings
only. -/
structure Doubled (st : Interning) (ls : List (List Nat)) (clients : List Nat)
    (done : List Str) : Prop where
  ok : st.Ok ls clients
  size : ∃ j ≤ 15, ls.length = 10007 * 2 ^ j
  length : ls.flatten.length = done.length
  only : ∀ a ∈ ls.flatten, ∀ e text, st.Live a e text → text ∈ done

variable {st : Interning} {ls : List (List Nat)} {clients : List Nat} {done : List Str} {s : Str}

/-- The last table that fits has been doubled fifteen times. -/
theorem le_fifteen {j : Nat} (h : 10007 * 2 ^ j < 2 ^ 29) : j ≤ 15 := by
  by_contra hj
  have hle : 2 ^ 16 ≤ 2 ^ j := Nat.pow_le_pow_right (by decide) (by omega)
  omega

theorem Doubled.makeRoom_none (h : st.Doubled ls clients done) (hfits : ¬ st.Fits) :
    st.makeRoom = none := by
  obtain ⟨j, hj, hsize⟩ := h.size
  rw [Fits, Classical.not_imp] at hfits
  obtain ⟨hfull, hlarge⟩ := hfits
  have hj15 : j = 15 := by
    by_contra hne
    have hle : 2 ^ j ≤ 2 ^ 14 := Nat.pow_le_pow_right (by decide) (by omega)
    have hlen := h.ok.size
    omega
  obtain ⟨T, hT, -⟩ := h.ok.table
  have hdouble : int32 (st.internTableSize * 2) = 655818752 := by
    rw [h.ok.size, hsize, hj15]
    decide
  rw [makeRoom, if_pos hfull, hdouble, internRehash, hT, Option.bind_eq_bind, Option.bind_some,
    makeInternTable, if_neg (by decide)]
  rfl

/-- One string more: either the table is doubled too often, or it has an entry for it. -/
theorem Doubled.intern (h : st.Doubled ls clients done) (hs : 0 ∉ s) (hne : s ≠ [])
    (hnew : s ∉ done) :
    st.strIntern (some s) = none ∨
      ∃ r st' ls', st.strIntern (some s) = some (r, st') ∧ st'.Doubled ls' (r :: clients)
      (s :: done) := by
  obtain ⟨T, hT, -⟩ := h.ok.table
  have hgo : ¬ (cstr ((some s).getD []) = [] ∨ st.internTable = none) := by
    rw [Option.getD_some, cstr_plain hs, hT]
    exact fun h => h.elim hne nofun
  obtain ⟨found, hfind, hhit, hmiss⟩ := findInternedString_spec h.ok hs
  obtain rfl : found = none := by
    cases found with
    | none => rfl
    | some a =>
      obtain ⟨ha, e, hlive⟩ := hhit a rfl
      exact absurd (h.only a ha e s hlive) hnew
  rw [strIntern, if_neg hgo, Option.getD_some, cstr_plain hs, hfind, Option.bind_some]
  by_cases hfits : st.Fits
  · obtain ⟨r, st', ls', hmiss', hok, -, -, -, hlen, hcount, hlive⟩ :=
      internMiss_spec h.ok hne hs hfits (hmiss rfl)
    refine .inr ⟨r, st', ls', hmiss', hok, ?_, by rw [hcount, h.length, List.length_cons],
      fun a ha e text hl => ?_⟩
    · obtain ⟨j, hj, hsize⟩ := h.size
      rcases hlen with hlen | hlen
      · exact ⟨j, hj, hlen.trans hsize⟩
      · have hpow : ls'.length = 10007 * 2 ^ (j + 1) := by
          rw [hlen, hsize, Nat.pow_succ]
          omega
        have hfit := hok.fits
        exact ⟨j + 1, le_fifteen (by omega), hpow⟩
    · rcases hlive a ha e text hl with rfl | ⟨ha', hl'⟩
      · exact List.mem_cons_self
      · exact List.mem_cons_of_mem _ (h.only a ha' e text hl')
  · left
    simp only [internMiss, h.makeRoom_none hfits, Option.bind_eq_bind, Option.bind_none]

/-- Different strings that are interned all have entries, or some call does not return. -/
theorem Doubled.internAll {ss : List Str} (h : st.Doubled ls clients done)
    (hss : ∀ s ∈ ss, 0 ∉ s ∧ s ≠ []) (hnd : (ss ++ done).Nodup)
    {st' : Interning} (hall : st.internAll ss = some st') :
    ∃ ls' clients' done', st'.Doubled ls' clients' done' ∧ done'.length = ss.length +
      done.length := by
  induction ss generalizing st ls clients done with
  | nil =>
    obtain rfl := Option.some.inj hall
    exact ⟨ls, clients, done, h, (Nat.zero_add _).symm⟩
  | cons s ss ih =>
    rw [List.cons_append, List.nodup_cons, List.mem_append, not_or] at hnd
    obtain ⟨hs, hne⟩ := hss s List.mem_cons_self
    rw [Interning.internAll, List.foldlM_cons] at hall
    rcases h.intern hs hne hnd.1.2 with hnone | ⟨r, st₁, ls₁, hsome, h₁⟩
    · rw [hnone] at hall
      cases hall
    · rw [hsome] at hall
      have hnd₁ : (ss ++ s :: done).Nodup := by
        rw [List.perm_middle.nodup_iff, List.nodup_cons, List.mem_append, not_or]
        exact hnd
      obtain ⟨ls', clients', done', h', hlen⟩ :=
        ih h₁ (fun t ht => hss t (List.mem_cons_of_mem _ ht)) hnd₁ hall
      refine ⟨ls', clients', done', h', ?_⟩
      rw [hlen, List.length_cons, List.length_cons]
      omega

theorem start_owned : start.strings.Owned ([] ++ start.emptystring.toList) :=
  ⟨fun _ => rfl, nofun, fun _ _ => rfl⟩

theorem start_opened :
    ∃ st n, start.strInternOpen 0 = some st ∧ st.Doubled (List.replicate n []) [] [] := by
  obtain ⟨st, n, hopen, hok, hn⟩ :=
    strInternOpen_spec rfl start_owned nofun (Int.le_refl 0) (by decide)
  refine ⟨st, n, hopen, hok, ⟨0, by decide, ?_⟩, ?_, ?_⟩
  · rw [List.length_replicate, hn]
    rfl
  · simp
  · simp

/-- A table of two buckets, with which the string `a` is interned twice and the string `b` once, and
then the first reference is given back. -/
def opened : Interning := (start.strInternOpen 2).get (by decide +kernel)

def call1 : Nat × Interning := (opened.strIntern (some [97])).get (by decide +kernel)

def call2 : Nat × Interning := (call1.2.strIntern (some [97])).get (by decide +kernel)

def call3 : Nat × Interning := (call2.2.strIntern (some [98])).get (by decide +kernel)

def freed : Interning := (freeStr call1.1 call3.2).get (by decide +kernel)

theorem internRun_ab : InternRun freed ([call3.1, call2.1, call1.1].erase call1.1)
    [([98], call3.1), ([97], call2.1), ([97], call1.1)] := by
  have hopen : start.strInternOpen 2 = some opened := (Option.some_get _).symm
  have hcall₁ : opened.strIntern (some [97]) = some (call1.1, call1.2) := by
    rw [Prod.eta]; exact (Option.some_get _).symm
  have hcall₂ : call1.2.strIntern (some [97]) = some (call2.1, call2.2) := by
    rw [Prod.eta]; exact (Option.some_get _).symm
  have hcall₃ : call2.2.strIntern (some [98]) = some (call3.1, call3.2) := by
    rw [Prod.eta]; exact (Option.some_get _).symm
  have hfree : freeStr call1.1 call3.2 = some freed := (Option.some_get _).symm
  have h₀ : InternRun opened [] [] := .opened rfl start_owned nofun (by decide) (by decide) hopen
  have h₁ := h₀.intern (by decide) (by decide +kernel) hcall₁
  have h₂ := h₁.intern (by decide) (by decide +kernel) hcall₂
  have h₃ := h₂.intern (by decide) (by decide +kernel) hcall₃
  exact h₃.free (by simp) hfree

/-- Equal strings share a copy, which the second reference keeps. -/
theorem strIntern_sound_ab : call1.1 = call2.1 ∧ freed.strings.get call2.1 = some [97] ∧
    freed.strings.get call3.1 = some [98] := by
  obtain ⟨hget, hshared, -⟩ := strIntern_sound internRun_ab
  exact ⟨hshared [97] _ _ (by simp) (by simp) (by simp), hget [97] _ (by simp),
    hget [98] _ (by simp)⟩

/-- No more than so many different strings can be interned. -/
theorem internAll_none {ss : List Str} (hss : ∀ s ∈ ss, 0 ∉ s ∧ s ≠ []) (hnd : ss.Nodup)
    (hlen : 10007 * 2 ^ 15 + 1 < ss.length) :
    (start.strInternOpen 0).bind (internAll ss) = none := by
  obtain ⟨st, n, hopen, h⟩ := start_opened
  rw [hopen, Option.bind_some]
  cases hall : internAll ss st with
  | none => rfl
  | some st' =>
    obtain ⟨ls', clients', done', h', hdone⟩ := h.internAll hss (by simpa using hnd) hall
    obtain ⟨j, hj, hsize⟩ := h'.size
    have hroom := h'.ok.room
    have hpow : 2 ^ j ≤ 2 ^ 15 := Nat.pow_le_pow_right (by decide) hj
    rw [h'.length, hdone, List.length_nil, hsize] at hroom
    omega

/-- The digits of a number, the last one first, each as a printable character. -/
def digits : Nat → Nat → Str
  | 0, _ => []
  | n + 1, i => UInt8.ofNat (33 + i % 64) :: digits n (i / 64)

theorem digits_plain (n i : Nat) : 0 ∉ digits n i := by
  induction n generalizing i with
  | zero => exact List.not_mem_nil
  | succ n ih =>
    have hlt : i % 64 < 64 := Nat.mod_lt _ (by decide)
    have hne : ∀ d < 64, (0 : UInt8) ≠ UInt8.ofNat (33 + d) := by decide
    exact List.not_mem_cons_of_ne_of_not_mem (hne _ hlt) (ih _)

theorem digits_inj {n i j : Nat} (hi : i < 64 ^ n) (hj : j < 64 ^ n) (h : digits n i = digits n j) :
    i = j := by
  induction n generalizing i j with
  | zero => omega
  | succ n ih =>
    obtain ⟨hd, ht⟩ := List.cons.inj h
    have hmod : i % 64 = j % 64 := by
      have hinj : ∀ d < 64, ∀ e < 64, UInt8.ofNat (33 + d) = UInt8.ofNat (33 + e) → d = e := by
        decide +kernel
      exact hinj _ (Nat.mod_lt _ (by decide)) _ (Nat.mod_lt _ (by decide)) hd
    have hdiv : i / 64 = j / 64 :=
      ih (Nat.div_lt_of_lt_mul (by rwa [← Nat.pow_succ']))
        (Nat.div_lt_of_lt_mul (by rwa [← Nat.pow_succ'])) ht
    rw [← Nat.div_add_mod i 64, hmod, hdiv, Nat.div_add_mod]

/-- So many different strings of five characters. -/
def letters (n : Nat) : List Str := (List.range n).map (digits 5)

theorem letters_ok {n : Nat} (hn : n ≤ 64 ^ 5) :
    (∀ s ∈ letters n, 0 ∉ s ∧ s ≠ []) ∧ (letters n).Nodup := by
  constructor
  · intro s hs
    obtain ⟨i, -, rfl⟩ := List.mem_map.mp hs
    exact ⟨digits_plain 5 i, List.cons_ne_nil _ _⟩
  · refine List.Nodup.map_on (fun i hi j hj h => ?_) List.nodup_range
    exact digits_inj (Nat.lt_of_lt_of_le (List.mem_range.mp hi) hn)
      (Nat.lt_of_lt_of_le (List.mem_range.mp hj) hn) h

/-- The table of 327909378 strings of five characters does not fit any more. -/
theorem strIntern_overflow : ¬ ∀ ss : List Str, (∀ s ∈ ss, 0 ∉ s) →
    ∃ st, (start.strInternOpen 0).bind (internAll ss) = some st := by
  intro h
  obtain ⟨hss, hnd⟩ := letters_ok (n := 327909378) (by decide)
  obtain ⟨st, hst⟩ := h (letters 327909378) fun s hs => (hss s hs).1
  have hlen : 10007 * 2 ^ 15 + 1 < (letters 327909378).length := by
    rw [letters, List.length_map, List.length_range]
    decide
  rw [internAll_none hss hnd hlen] at hst
  cases hst

end Interning

end NuMoo
