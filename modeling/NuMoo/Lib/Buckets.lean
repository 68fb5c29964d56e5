import Mathlib.Data.List.Forall2
import Mathlib.Data.List.Perm.Basic
import NuMoo.Lib.Slot

/-!
# Hash tables with chained buckets

A hash table in memory: the heads of its buckets, and the `next` fields of its elements. An element
is put at the front of its bucket; to change the number of buckets the elements are moved one by
one, which overwrites the chains that are being followed.

Results:
1. `findRun_eq`: a search along a chain is a search of its list.
2. `Holds.push`, `Holds.rehash`: the buckets after an addition and after a change of their number.
3. `pushAll_perm`, `Placed.pushAll`: no element is lost or repeated, and each is in its bucket.
-/

namespace Linked

variable {α : Type*}

/-- The first element from a pointer on that satisfies a partial test; the inner `none` is that
there is none. -/
def findRun (next : α → Option (Option α)) (p : α → Option Bool) :
    Nat → Option α → Option (Option α)
  | 0, _ => none
  | _ + 1, none => some none
  | n + 1, some a => (p a).bind fun found =>
    if found then some (some a) else (next a).bind (findRun next p n)

theorem findRun_eq {next : α → Option (Option α)} {p : α → Option Bool} {q : α → Bool}
    {ptr : Option α} {l : List α}
    (h : Mem.Run next ptr l) (hp : ∀ a ∈ l, p a = some (q a)) {n : Nat} (hn : l.length < n) :
    findRun next p n ptr = some (l.find? q) := by
  induction l generalizing ptr n with
  | nil =>
    obtain ⟨k, rfl⟩ := Nat.exists_eq_add_of_lt hn
    obtain rfl : ptr = none := h
    rfl
  | cons a l ih =>
    cases n with
    | zero => simp at hn
    | succ n =>
      obtain ⟨rfl, ptr', ha, hrun⟩ := h
      rw [findRun, hp a List.mem_cons_self, Option.bind_some, ha, Option.bind_some, List.find?_cons]
      cases q a with
      | true => rfl
      | false => exact ih hrun (fun b hb => hp b (List.mem_cons_of_mem _ hb)) (by simpa using hn)

/-- The heads of the buckets, and the `next` fields. -/
structure Table (α : Type*) where
  heads : List (Option α)
  next : α → Option (Option α)

namespace Table

/-- The buckets hold these lists. -/
structure Holds (T : Table α) (ls : List (List α)) : Prop where
  length : T.heads.length = ls.length
  run : ∀ (i : Nat) head l, T.heads[i]? = some head → ls[i]? = some l → Mem.Run T.next head l

/-- Every element is in the bucket that `b` tells. -/
def Placed (b : α → Nat) (ls : List (List α)) : Prop :=
  ∀ (i : Nat) l, ls[i]? = some l → ∀ e ∈ l, b e = i

variable {T : Table α} {ls : List (List α)} {l es : List α} {e : α} {b : α → Nat} {i : Nat}

/-- A table without elements. -/
theorem Holds.replicate (size : Nat) (next : α → Option (Option α)) :
    Holds ⟨List.replicate size none, next⟩ (List.replicate size []) := by
  refine ⟨by rw [List.length_replicate, List.length_replicate], fun i head l hhead hl => ?_⟩
  obtain rfl := List.eq_of_mem_replicate (List.mem_of_getElem? hhead)
  obtain rfl := List.eq_of_mem_replicate (List.mem_of_getElem? hl)
  rfl

theorem mem_flatten_of_getElem? (hl : ls[i]? = some l) (he : e ∈ l) : e ∈ ls.flatten :=
  List.mem_flatten.mpr ⟨l, List.mem_of_getElem? hl, he⟩

/-- The bucket of an element, which is in that one only. -/
theorem Placed.getElem? (h : Placed b ls) (he : e ∈ ls.flatten) :
    ∃ l, ls[b e]? = some l ∧ e ∈ l := by
  obtain ⟨l, hl, hel⟩ := List.mem_flatten.mp he
  obtain ⟨i, hi⟩ := List.getElem?_of_mem hl
  exact ⟨l, by rw [h i l hi e hel, hi], hel⟩

/-! ## The lists -/

/-- The lists of the buckets after some elements have been put in. -/
def pushAll (b : α → Nat) (ls : List (List α)) (es : List α) : List (List α) :=
  es.foldl (fun ls e => ls.modify (b e) (e :: ·)) ls

/-- An element more, whatever its bucket. -/
theorem modify_perm (hi : i < ls.length) :
    (ls.modify i (e :: ·)).flatten.Perm (e :: ls.flatten) := by
  induction ls generalizing i with
  | nil => simp at hi
  | cons l ls ih =>
    cases i with
    | zero => rfl
    | succ i =>
      rw [List.modify_succ_cons, List.flatten_cons, List.flatten_cons]
      exact ((ih (by simpa using hi)).append_left l).trans List.perm_middle

theorem Placed.modify (h : Placed b ls) : Placed b (ls.modify (b e) (e :: ·)) := by
  intro i l hl a ha
  rw [List.getElem?_modify] at hl
  obtain ⟨l', hl', rfl⟩ := Option.map_eq_some_iff.mp hl
  split at ha
  · next hi =>
    rcases List.mem_cons.mp ha with rfl | ha
    · exact hi
    · exact h i l' hl' a ha
  · exact h i l' hl' a ha

theorem pushAll_length (ls : List (List α)) (es : List α) :
    (pushAll b ls es).length = ls.length := by
  induction es generalizing ls with
  | nil => rfl
  | cons e es ih => exact (ih _).trans (List.length_modify _ _ _)

/-- The elements are those that were there and those that were put in. -/
theorem pushAll_perm (hb : ∀ e ∈ es, b e < ls.length) :
    (pushAll b ls es).flatten.Perm (es ++ ls.flatten) := by
  induction es generalizing ls with
  | nil => rfl
  | cons e es ih =>
    have hlt := hb e List.mem_cons_self
    have hrest : ∀ a ∈ es, b a < (ls.modify (b e) (e :: ·)).length := fun a ha => by
      rw [List.length_modify]
      exact hb a (List.mem_cons_of_mem _ ha)
    exact (ih hrest).trans (((modify_perm hlt).append_left es).trans List.perm_middle)

theorem Placed.pushAll (h : Placed b ls) (es : List α) : Placed b (pushAll b ls es) := by
  induction es generalizing ls with
  | nil => exact h
  | cons e es ih => exact ih h.modify

theorem Placed.replicate (size : Nat) : Placed b (List.replicate size ([] : List α)) := by
  intro i l hl e he
  rw [List.eq_of_mem_replicate (List.mem_of_getElem? hl)] at he
  cases he

/-! ## The memory -/

section Push

variable [DecidableEq α]

/-- An element is put at the front of a bucket. -/
def push (T : Table α) (i : Nat) (e : α) : Option (Table α) :=
  (T.heads[i]?).map fun head => ⟨T.heads.set i (some e), Function.update T.next e (some head)⟩

/-- The elements of a chain are put at the front of their buckets. What follows an element is read
before the element is moved. -/
def moveRun (bucket : α → Option Nat) : Nat → Option α → Table α → Option (Table α)
  | 0, _, _ => none
  | _ + 1, none, T => some T
  | n + 1, some e, T =>
    (bucket e).bind fun i => (T.next e).bind fun next => (T.push i e).bind fun T =>
      moveRun bucket n next T

/-- All elements are moved to a table whose buckets begin at `heads`. -/
def rehash (bucket : α → Option Nat) (n : Nat) (heads : List (Option α)) (T : Table α) :
    Option (Table α) :=
  T.heads.foldlM (fun newTable head => newTable.moveRun bucket n head) ⟨heads, T.next⟩

theorem Holds.push (h : T.Holds ls) (hi : i < ls.length) (he : e ∉ ls.flatten) :
    ∃ T', T.push i e = some T' ∧ T'.Holds (ls.modify i (e :: ·)) ∧ ∀ a, a ≠ e →
    T'.next a = T.next a := by
  obtain ⟨head, hhead⟩ : ∃ head, T.heads[i]? = some head :=
    ⟨_, List.getElem?_eq_getElem (h.length ▸ hi)⟩
  have hframe : ∀ a, a ≠ e → Function.update T.next e (some head) a = T.next a :=
    fun a ha => Function.update_of_ne ha _ _
  refine ⟨⟨T.heads.set i (some e), Function.update T.next e (some head)⟩,
    by rw [Table.push, hhead, Option.map_some], ⟨?_, ?_⟩, hframe⟩
  · rw [List.length_set, List.length_modify, h.length]
  · intro j p l hp hl
    rw [List.getElem?_modify] at hl
    rw [List.getElem?_set] at hp
    obtain ⟨l', hl', rfl⟩ := Option.map_eq_some_iff.mp hl
    have hkeep : ∀ a ∈ l', Function.update T.next e (some head) a = T.next a := fun a ha =>
      hframe a fun hae => he (hae ▸ mem_flatten_of_getElem? hl' ha)
    by_cases hij : i = j
    · subst hij
      rw [if_pos rfl, if_pos (h.length ▸ hi)] at hp
      obtain rfl := Option.some.inj hp
      simp only [if_true]
      exact ⟨rfl, head, Function.update_self _ _ _, (h.run i head l' hhead hl').congr hkeep⟩
    · rw [if_neg hij] at hp
      simp only [hij, if_false]
      exact (h.run j p l' hp hl').congr hkeep

/-- The elements of a chain that are not in the table yet are all put in. -/
theorem Holds.moveRun {bucket : α → Option Nat} {ptr : Option α} {n : Nat} (h : T.Holds ls)
    (hrun : Mem.Run T.next ptr es)
    (hb : ∀ e ∈ es, bucket e = some (b e) ∧ b e < ls.length) (hnd : (es ++ ls.flatten).Nodup)
    (hn : es.length < n) :
    ∃ T', T.moveRun bucket n ptr = some T' ∧ T'.Holds (pushAll b ls es) ∧ ∀ a, a ∉ es →
    T'.next a = T.next a := by
  induction es generalizing ptr T ls n with
  | nil =>
    obtain ⟨k, rfl⟩ := Nat.exists_eq_add_of_lt hn
    obtain rfl : ptr = none := hrun
    exact ⟨T, rfl, h, fun _ _ => rfl⟩
  | cons e es ih =>
    cases n with
    | zero => simp at hn
    | succ n =>
      obtain ⟨rfl, ptr, hnext, hrun⟩ := hrun
      obtain ⟨hbe, hlt⟩ := hb e List.mem_cons_self
      rw [List.cons_append, List.nodup_cons, List.mem_append, not_or] at hnd
      obtain ⟨T₁, hpush, hholds, hframe⟩ := h.push hlt hnd.1.2
      have hrun₁ : Mem.Run T₁.next ptr es :=
        hrun.congr fun a ha => hframe a fun hae => hnd.1.1 (hae ▸ ha)
      have hb₁ : ∀ a ∈ es, bucket a = some (b a) ∧ b a < (ls.modify (b e) (e :: ·)).length :=
        fun a ha => by
        rw [List.length_modify]
        exact hb a (List.mem_cons_of_mem _ ha)
      have hnd₁ : (es ++ (ls.modify (b e) (e :: ·)).flatten).Nodup := by
        rw [((modify_perm hlt).append_left es).nodup_iff, List.perm_middle.nodup_iff,
          List.nodup_cons, List.mem_append, not_or]
        exact hnd
      obtain ⟨T', hmove, hT', hframe'⟩ := ih hholds hrun₁ hb₁ hnd₁ (by simpa using hn)
      refine ⟨T', ?_, hT', fun a ha => ?_⟩
      · rw [Table.moveRun, hbe, Option.bind_some, hnext, Option.bind_some, hpush,
          Option.bind_some, hmove]
      · rw [List.mem_cons, not_or] at ha
        rw [hframe' a ha.2, hframe a ha.1]

/-- Several chains, of which none has an element of another, are all put in. -/
theorem Holds.moveRuns {bucket : α → Option Nat} {next : α → Option (Option α)}
    {heads : List (Option α)}
    {old : List (List α)} {n : Nat} (hruns : List.Forall₂ (Mem.Run next) heads old) (h : T.Holds ls)
    (hsame : ∀ a ∈ old.flatten, T.next a = next a)
    (hb : ∀ e ∈ old.flatten, bucket e = some (b e) ∧ b e < ls.length)
    (hnd : (old.flatten ++ ls.flatten).Nodup) (hn : old.flatten.length < n) :
    ∃ T', heads.foldlM (fun T head => T.moveRun bucket n head) T = some T' ∧
      T'.Holds (pushAll b ls old.flatten) := by
  induction hruns generalizing T ls with
  | nil => exact ⟨T, rfl, h⟩
  | @cons head l heads old hrun _ ih =>
    rw [List.flatten_cons] at hsame hb hnd hn
    rw [List.append_assoc] at hnd
    have hb₁ : ∀ e ∈ l, bucket e = some (b e) ∧ b e < ls.length :=
      fun e he => hb e (List.mem_append_left _ he)
    have hnd₁ : (l ++ ls.flatten).Nodup :=
      hnd.sublist ((List.sublist_append_right _ _).append_left l)
    have hrun₁ : Mem.Run T.next head l := hrun.congr fun a ha => hsame a (List.mem_append_left _ ha)
    rw [List.length_append] at hn
    have hlen : l.length < n := by omega
    obtain ⟨T₁, hmove, hholds, hframe⟩ := h.moveRun hrun₁ hb₁ hnd₁ hlen
    have hperm := pushAll_perm fun e he => (hb₁ e he).2
    have hdisj : ∀ a ∈ old.flatten, a ∉ l := fun a ha hal =>
      (List.nodup_append.mp hnd).2.2 a hal a (List.mem_append_left _ ha) rfl
    obtain ⟨T', hT', hholds'⟩ := ih hholds
      (fun a ha => (hframe a (hdisj a ha)).trans (hsame a (List.mem_append_right _ ha)))
      (fun e he => by rw [pushAll_length]; exact hb e (List.mem_append_right _ he))
      (by
        refine (hperm.append_left old.flatten).nodup_iff.mpr ?_
        refine (List.Perm.nodup_iff ?_).mpr hnd
        rw [← List.append_assoc, ← List.append_assoc]
        exact List.perm_append_comm.append_right _)
      (by omega)
    refine ⟨T', ?_, ?_⟩
    · rw [List.foldlM_cons, hmove, Option.bind_eq_bind, Option.bind_some, hT']
    · rw [List.flatten_cons, pushAll, List.foldl_append]
      exact hholds'

/-- All elements are in the new table, each in its new bucket. -/
theorem Holds.rehash {bucket : α → Option Nat} {n size : Nat} (h : T.Holds ls)
    (hb : ∀ e ∈ ls.flatten, bucket e = some (b e) ∧ b e < size) (hnd : ls.flatten.Nodup)
    (hn : ls.flatten.length < n) :
    ∃ T', T.rehash bucket n (List.replicate size none) = some T' ∧
      T'.Holds (pushAll b (List.replicate size []) ls.flatten) := by
  have hruns : List.Forall₂ (Mem.Run T.next) T.heads ls :=
    List.forall₂_iff_get.mpr ⟨h.length, fun i h₁ h₂ => h.run i _ _ (List.getElem?_eq_getElem h₁)
      (List.getElem?_eq_getElem h₂)⟩
  refine Holds.moveRuns hruns (Holds.replicate size T.next) (fun _ _ => rfl) ?_ ?_ hn
  · rwa [List.length_replicate]
  · simpa using hnd

end Push

end Table

end Linked
