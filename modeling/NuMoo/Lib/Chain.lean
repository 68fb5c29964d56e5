import Mathlib.Data.List.Basic
import Mathlib.Data.List.Nodup
import Mathlib.Data.List.Infix

/-!
# Intrusive chains

A chain is a singly linked structure threaded through its own elements: a
partial successor function `next` and a terminator `nil`. `Chain next nil a l`
says that following `next` from `a` visits exactly `l` and then reaches `nil`,
reading only elements at which `next` is defined.

Results:
1. `Chain.unique`, `Chain.nodup`: a chain is determined by its first element
   and never repeats one.
2. `Chain.meet`: two chains of one successor function share a suffix.
3. `findPrev_of_mem`, `findLast_spec`, `anyChain_eq`, `firstChain_eq`, `forChain_eq`: bounded loops
   over a chain are folds over its list, given more fuel than elements.
-/

namespace Linked

variable {α σ : Type*}

/-- Following `next` from the first argument visits the list, then `nil`. -/
inductive Chain (next : α → Option α) (nil : α) : α → List α → Prop
  | done : Chain next nil nil []
  | step {a b : α} {l : List α} :
      a ≠ nil → next a = some b → Chain next nil b l → Chain next nil a (a :: l)

namespace Chain

variable {next next' : α → Option α} {nil a b : α} {l m : List α}

theorem nil_iff : Chain next nil nil l ↔ l = [] := by
  constructor
  · intro h
    cases h with
    | done => rfl
    | step hne _ _ => exact absurd rfl hne
  · rintro rfl
    exact .done

theorem cons_iff (ha : a ≠ nil) :
    Chain next nil a l ↔ ∃ b m, l = a :: m ∧ next a = some b ∧ Chain next nil b m := by
  constructor
  · intro h
    cases h with
    | done => exact absurd rfl ha
    | step _ hb h => exact ⟨_, _, rfl, hb, h⟩
  · rintro ⟨b, m, rfl, hb, h⟩
    exact .step ha hb h

theorem unique (h : Chain next nil a l) (h' : Chain next nil a m) : l = m := by
  induction h generalizing m with
  | done => exact (nil_iff.mp h').symm
  | step hne hb _ ih =>
    obtain ⟨b', m', rfl, hb', h''⟩ := (cons_iff hne).mp h'
    rw [hb] at hb'
    cases hb'
    rw [ih h'']

theorem ne_nil_of_mem (h : Chain next nil a l) (hb : b ∈ l) : b ≠ nil := by
  induction h with
  | done => simp at hb
  | step hne _ _ ih =>
    rcases List.mem_cons.mp hb with rfl | hb
    · exact hne
    · exact ih hb

theorem next_isSome_of_mem (h : Chain next nil a l) (hb : b ∈ l) : (next b).isSome := by
  induction h with
  | done => simp at hb
  | step _ hn _ ih =>
    rcases List.mem_cons.mp hb with rfl | hb
    · simp [hn]
    · exact ih hb

/-- From an element of a chain the rest of the chain is reached. -/
theorem suffix_of_mem (h : Chain next nil a l) (hb : b ∈ l) :
    ∃ m, Chain next nil b m ∧ m <:+ l := by
  induction h with
  | done => simp at hb
  | @step a c l hne hn h ih =>
    rcases List.mem_cons.mp hb with rfl | hb
    · exact ⟨_, .step hne hn h, List.suffix_refl _⟩
    · obtain ⟨m, hm, hs⟩ := ih hb
      exact ⟨m, hm, hs.trans (List.suffix_cons _ _)⟩

theorem nodup (h : Chain next nil a l) : l.Nodup := by
  induction h with
  | done => exact List.nodup_nil
  | @step a c l hne hn h ih =>
    refine List.nodup_cons.mpr ⟨fun ha => ?_, ih⟩
    obtain ⟨m, hm, hs⟩ := h.suffix_of_mem ha
    have hlen := hs.length_le
    rw [hm.unique (.step hne hn h)] at hlen
    simp only [List.length_cons] at hlen
    omega

theorem congr (h : Chain next nil a l) (hc : ∀ x ∈ l, next' x = next x) :
    Chain next' nil a l := by
  induction h with
  | done => exact .done
  | step hne hn _ ih =>
    refine .step hne ?_ (ih fun x hx => hc x (List.mem_cons_of_mem _ hx))
    rw [hc _ List.mem_cons_self, hn]

/-- The first element of a chain is its head. -/
theorem head_mem (h : Chain next nil a l) (ha : a ≠ nil) : a ∈ l := by
  obtain ⟨b, m, rfl, -, -⟩ := (cons_iff ha).mp h
  exact List.mem_cons_self

theorem eq_nil_iff (h : Chain next nil a l) : l = [] ↔ a = nil := by
  constructor
  · rintro rfl
    cases h
    rfl
  · rintro rfl
    exact nil_iff.mp h

/-- A successor of an element is on the chain, unless it is the terminator. -/
theorem next_mem (h : Chain next nil a l) (hb : b ∈ l) {c : α} (hc : next b = some c)
    (hne : c ≠ nil) : c ∈ l := by
  obtain ⟨m, hm, hs⟩ := h.suffix_of_mem hb
  obtain ⟨d, m', rfl, hd, hm'⟩ := (cons_iff (h.ne_nil_of_mem hb)).mp hm
  rw [hc] at hd
  cases hd
  exact hs.subset (List.mem_cons_of_mem _ (hm'.head_mem hne))

/-- The successor is injective along a chain, and never leads back to its first element. -/
theorem next_inj (h : Chain next nil a l) {y z c : α} (hy : y ∈ l) (hz : z ∈ l)
    (hyc : next y = some c)
    (hzc : next z = some c) : y = z := by
  induction h with
  | done => simp at hy
  | @step a b l hne hn h ih =>
    have key : ∀ w, w ∈ l → next w = some c → next a = some c → False := by
      intro w hw hwc hac
      rw [hn] at hac
      cases hac
      obtain ⟨m, hm, hs⟩ := h.suffix_of_mem hw
      obtain ⟨d, m', rfl, hd, hm'⟩ := (cons_iff (h.ne_nil_of_mem hw)).mp hm
      rw [hwc] at hd
      cases hd
      have hlen := hs.length_le
      rw [hm'.unique h] at hlen
      simp only [List.length_cons] at hlen
      omega
    rcases List.mem_cons.mp hy with rfl | hy' <;> rcases List.mem_cons.mp hz with rfl | hz'
    · rfl
    · exact (key z hz' hzc hyc).elim
    · exact (key y hy' hyc hzc).elim
    · exact ih hy' hz'

/-- Every element but the first has a predecessor. -/
theorem exists_pred (h : Chain next nil a l) {x : α} (hx : x ∈ l) (hxa : x ≠ a) :
    ∃ y ∈ l, next y = some x := by
  induction h with
  | done => simp at hx
  | @step a b l hne hn h ih =>
    have hxl : x ∈ l := (List.mem_cons.mp hx).resolve_left hxa
    by_cases hxb : x = b
    · exact ⟨a, List.mem_cons_self, by rw [hn, hxb]⟩
    · obtain ⟨y, hy, hyx⟩ := ih hxl hxb
      exact ⟨y, List.mem_cons_of_mem _ hy, hyx⟩

theorem next_ne_head (h : Chain next nil a l) {y : α} (hy : y ∈ l) : next y ≠ some a := by
  intro hya
  obtain ⟨m, hm, hs⟩ := h.suffix_of_mem hy
  obtain ⟨d, m', rfl, hd, hm'⟩ := (cons_iff (h.ne_nil_of_mem hy)).mp hm
  rw [hya] at hd
  cases hd
  have hlen := hs.length_le
  rw [hm'.unique h] at hlen
  simp only [List.length_cons] at hlen
  omega

theorem next_ne_self (h : Chain next nil a l) (hb : b ∈ l) : next b ≠ some b := by
  intro hbb
  obtain ⟨m, hm, -⟩ := h.suffix_of_mem hb
  obtain ⟨c, m', rfl, hc, hm'⟩ := (cons_iff (h.ne_nil_of_mem hb)).mp hm
  rw [hbb] at hc
  cases hc
  exact (List.nodup_cons.mp hm.nodup).1 (hm'.head_mem (h.ne_nil_of_mem hb))

theorem next_of_append {y x : α} {m₁ m₂ : List α} (h : Chain next nil a (m₁ ++ y :: x :: m₂)) :
    next y = some x := by
  obtain ⟨b, hm⟩ : ∃ b, Chain next nil b (y :: x :: m₂) := by
    induction m₁ generalizing a with
    | nil => exact ⟨a, h⟩
    | cons c m₁ ih =>
      cases h with
      | step _ _ h => exact ih h
  cases hm with
  | step _ hb hm =>
    cases hm
    exact hb

/-- Two chains of one successor function join at the first element of the second that
is on the first, and are disjoint before it. -/
theorem meet [DecidableEq α] {b : α} (h : Chain next nil a l) (h' : Chain next nil b m) :
    ∃ la lb lc c, l = la ++ lc ∧ m = lb ++ lc ∧ Chain next nil c lc ∧ (∀ y ∈ la, y ∉ m) ∧
      (∀ y ∈ lb, y ∉ l) ∧
      (m.find? (· ∈ l)).getD nil = c := by
  induction h' with
  | done => exact ⟨l, [], [], nil, by simp, rfl, .done, by simp, by simp, rfl⟩
  | @step b d m hne hb h' ih =>
    by_cases hbl : b ∈ l
    · obtain ⟨lc, hlc, la, rfl⟩ := h.suffix_of_mem hbl
      obtain rfl := hlc.unique (.step hne hb h')
      refine ⟨la, [], b :: m, b, rfl, rfl, hlc, fun y hy hym => ?_, by simp, by simp⟩
      exact (List.nodup_append.mp h.nodup).2.2 y hy y hym rfl
    · obtain ⟨la, lb, lc, c, rfl, rfl, hc, hla, hlb, hf⟩ := ih
      refine ⟨la, b :: lb, lc, c, rfl, rfl, hc, fun y hy hym => ?_, fun y hy => ?_, ?_⟩
      · rcases List.mem_cons.mp hym with rfl | hym
        · exact hbl (List.mem_append_left _ hy)
        · exact hla y hy hym
      · rcases List.mem_cons.mp hy with rfl | hy
        · exact hbl
        · exact hlb y hy
      · rwa [List.find?_cons_of_neg (by simpa using hbl)]

/-- Renaming elements along `e` carries a chain to a chain. -/
theorem map {β : Type*} (e : α → β) {g : β → Option β} {nilb : β} (he : ∀ x, e x = nilb ↔ x = nil)
    (hg : ∀ x ∈ l, g (e x) = (next x).map e) (h : Chain next nil a l) :
    Chain g nilb (e a) (l.map e) := by
  induction h with
  | done => rw [(he nil).mpr rfl]; exact .done
  | step hne hn _ ih =>
    refine .step (fun h => hne ((he _).mp h)) ?_ (ih fun x hx => hg x (List.mem_cons_of_mem _ hx))
    rw [hg _ List.mem_cons_self, hn]
    rfl

end Chain

/-! ## Loops over a chain -/

section Loops

variable [DecidableEq α]

/-- Search for the element whose successor is `x`; the outer `none` is an
undefined successor or too little fuel, the inner one that there is none. -/
def findPrev (next : α → Option α) (nil x : α) : Nat → α → Option (Option α)
  | 0, _ => none
  | n + 1, y =>
    if y = nil then some none
    else (next y).bind fun z => if z = x then some (some y) else findPrev next nil x n z

/-- The last element of the chain that starts at a given element. -/
def findLast (next : α → Option α) (nil : α) : Nat → α → Option α
  | 0, _ => none
  | n + 1, y => (next y).bind fun z => if z = nil then some y else findLast next nil n z

/-- Does some element of the chain satisfy a partial test? -/
def anyChain (next : α → Option α) (nil : α) (p : α → Option Bool) : Nat → α → Option Bool
  | 0, _ => none
  | n + 1, y =>
    if y = nil then some false
    else (p y).bind fun b => if b then some true else (next y).bind (anyChain next nil p n)

/-- The first element of the chain that satisfies a partial test; the inner `none` is
that there is none. -/
def firstChain (next : α → Option α) (nil : α) (p : α → Option Bool) : Nat → α → Option (Option α)
  | 0, _ => none
  | n + 1, y =>
    if y = nil then some none
    else (p y).bind fun b => if b then some (some y) else (next y).bind (firstChain next nil p n)

/-- Run `body` at every element, reading the successor after the body has run. -/
def forChain (next : σ → α → Option α) (nil : α) (body : α → σ → Option σ) :
    Nat → α → σ → Option σ
  | 0, _, _ => none
  | n + 1, y, s =>
    if y = nil then some s
    else (body y s).bind fun s => (next s y).bind fun z => forChain next nil body n z s

variable {next : α → Option α} {nil a : α} {l : List α}

/-- The predecessor of a later element is found, and it splits the chain. -/
theorem findPrev_of_mem {x : α} (h : Chain next nil a l) (hx : x ∈ l.tail) {n : Nat}
    (hn : l.length < n) :
    ∃ y m₁ m₂, findPrev next nil x n a = some (some y) ∧ l = m₁ ++ y :: x :: m₂ := by
  induction h generalizing n with
  | done => simp at hx
  | @step a b l hne hb h ih =>
    cases n with
    | zero => simp at hn
    | succ n =>
      simp only [List.tail_cons] at hx
      have hxn : x ≠ nil := h.ne_nil_of_mem hx
      simp only [findPrev, hne, if_false, hb, Option.bind_some]
      by_cases hbx : b = x
      · subst hbx
        obtain ⟨c, m, rfl, -, -⟩ := (Chain.cons_iff hxn).mp h
        exact ⟨a, [], m, by simp⟩
      · have hbn : b ≠ nil := by
          rintro rfl
          rw [Chain.nil_iff.mp h] at hx
          simp at hx
        obtain ⟨c, m, rfl, hc, hm⟩ := (Chain.cons_iff hbn).mp h
        have hxm : x ∈ m := by
          rcases List.mem_cons.mp hx with rfl | hx
          · exact absurd rfl hbx
          · exact hx
        obtain ⟨y, m₁, m₂, hf, hs⟩ := ih hxm (by simpa using hn)
        exact ⟨y, a :: m₁, m₂, by simp [hbx, hf], by simp [hs]⟩

/-- The search never reads the successor of the element it looks for. -/
theorem findPrev_congr (next' : α → Option α) {x : α} (h : Chain next nil a l) (ha : a ≠ x)
    (hc : ∀ y ∈ l, y ≠ x → next' y = next y) (n : Nat) :
    findPrev next' nil x n a = findPrev next nil x n a := by
  induction h generalizing n with
  | done => cases n <;> simp [findPrev]
  | @step a b l hne hb h ih =>
    cases n with
    | zero => rfl
    | succ n =>
      simp only [findPrev, hne, if_false, hc a List.mem_cons_self ha, hb, Option.bind_some]
      by_cases hbx : b = x
      · simp [hbx]
      · simp only [hbx, if_false]
        exact ih hbx (fun y hy => hc y (List.mem_cons_of_mem _ hy)) n

theorem findLast_spec (h : Chain next nil a l) (ha : a ≠ nil) {n : Nat} (hn : l.length < n) :
    ∃ y m, findLast next nil n a = some y ∧ l = m ++ [y] := by
  induction h generalizing n with
  | done => exact absurd rfl ha
  | @step a b l hne hb h ih =>
    cases n with
    | zero => simp at hn
    | succ n =>
      simp only [findLast, hb, Option.bind_some]
      by_cases hbn : b = nil
      · subst hbn
        rw [Chain.nil_iff.mp h]
        exact ⟨a, [], by simp⟩
      · obtain ⟨y, m, hf, hs⟩ := ih hbn (by simpa using hn)
        exact ⟨y, a :: m, by simp [hbn, hf], by simp [hs]⟩

/-- A search over a chain is a search over its list. -/
theorem anyChain_eq {p : α → Option Bool} {q : α → Bool} (h : Chain next nil a l)
    (hp : ∀ x ∈ l, p x = some (q x)) {n : Nat} (hn : l.length < n) :
    anyChain next nil p n a = some (l.any q) := by
  induction h generalizing n with
  | done =>
    cases n with
    | zero => simp at hn
    | succ n => simp [anyChain]
  | @step a b l hne hb h ih =>
    cases n with
    | zero => simp at hn
    | succ n =>
      simp only [anyChain, hne, if_false, hp a List.mem_cons_self, Option.bind_some,
        List.any_cons, hb]
      cases q a with
      | true => simp
      | false => simpa using ih (fun x hx => hp x (List.mem_cons_of_mem _ hx)) (by simpa using hn)

/-- The first match on a chain is the first match of its list. -/
theorem firstChain_eq {p : α → Option Bool} {q : α → Bool} (h : Chain next nil a l)
    (hp : ∀ x ∈ l, p x = some (q x)) {n : Nat} (hn : l.length < n) :
    firstChain next nil p n a = some (l.find? q) := by
  induction h generalizing n with
  | done =>
    cases n with
    | zero => simp at hn
    | succ n => simp [firstChain]
  | @step a b l hne hb h ih =>
    cases n with
    | zero => simp at hn
    | succ n =>
      simp only [firstChain, hne, if_false, hp a List.mem_cons_self, Option.bind_some,
        List.find?_cons, hb]
      cases q a with
      | true => simp
      | false => simpa using ih (fun x hx => hp x (List.mem_cons_of_mem _ hx)) (by simpa using hn)

/-- A loop whose body keeps the links is a fold over the list of the chain. -/
theorem forChain_eq {nx : σ → α → Option α} {body : α → σ → Option σ} {s : σ}
    (h : Chain (nx s) nil a l)
    (hbody : ∀ x ∈ l, ∀ s s', body x s = some s' → nx s' = nx s) {n : Nat} (hn : l.length < n) :
    forChain nx nil body n a s = l.foldlM (fun s x => body x s) s := by
  generalize hf : nx s = f at h
  induction h generalizing n s with
  | done =>
    cases n with
    | zero => simp at hn
    | succ n => simp [forChain, List.foldlM_nil]
  | @step a b l hne hb h ih =>
    cases n with
    | zero => simp at hn
    | succ n =>
      simp only [forChain, hne, if_false, List.foldlM_cons]
      cases hs : body a s with
      | none => rfl
      | some s' =>
        have hl := hbody a List.mem_cons_self s s' hs
        simp only [Option.bind_some, hl, hf, hb]
        exact ih (fun x hx => hbody x (List.mem_cons_of_mem _ hx)) (by simpa using hn)
          (by rw [hl, hf])

end Loops

end Linked
