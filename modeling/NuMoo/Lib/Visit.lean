import Mathlib.Data.List.Perm.Subperm
import NuMoo.Lib.Forest

/-!
# Recursion over a forest

`visit` runs an action at an element and then, recursively, at its children,
passing a parameter down. It is the shape of a function that calls itself in a
loop over the list of children.

Results:
1. `Links.WF.below_sibling`: the subtrees of two children of one element are disjoint.
2. `visit_spec`: when the action keeps the links and changes one element only,
   the recursion processes every descendant with the parameter that the path to
   it gives, and changes nothing outside the subtree.
3. `visit_frame`: the recursion changes no more than the action.
4. `existsBelow_eq`: a recursive search finds exactly the descendants.
-/

namespace Linked

open Links

universe u

variable {α β ω σ : Type u} [DecidableEq α]

/-- Run `act` at `x`, then recursively at its children; `sub` gives the parameter
of a child. `width` bounds each loop over a list and the last number the depth. -/
def visit (links : σ → Links α) (nil : α) (act : α → β → σ → Option σ)
    (sub : σ → α → α → β → Option β) (width : Nat) : Nat → α → β → σ → Option σ
  | 0, _, _, _ => none
  | n + 1, x, b, s => do
    let s ← act x b s
    let h ← (links s).head x
    forChain (fun s => (links s).next) nil
      (fun c s => (sub s x c b).bind fun b' => visit links nil act sub width n c b' s) width h s

/-- Does `test` hold at `x` or at a descendant of it? -/
def existsBelow (L : Links α) (nil : α) (test : α → Option Bool) (width : Nat) :
    Nat → α → Option Bool
  | 0, _ => none
  | n + 1, x =>
    (test x).bind fun b =>
      if b then some true
      else (L.head x).bind fun h => anyChain L.next nil (existsBelow L nil test width n) width h

/-- `y` is `x` or a descendant of it. -/
def Links.Below (L : Links α) (x y : α) : Prop := ∃ k, L.upN k y = some x

/-- The elements from `y` up to a child of `x`, where `y` is `x` or below it. -/
inductive Path (L : Links α) (x : α) : α → List α → Prop
  | root : Path L x x []
  | child {y c : α} {m : List α} : Path L x y m → L.up c = some y → Path L x c (c :: m)

section Below

omit [DecidableEq α]

variable {L : Links α} {nil x y z : α}

theorem Links.Below.refl {c : Cell α} (h : L x = some c) : L.Below x x := ⟨0, by simp [upN, h]⟩

theorem Links.Below.isSome (h : L.Below x y) : (L x).isSome ∧ (L y).isSome := by
  obtain ⟨k, hk⟩ := h
  exact (upN_isSome hk).symm

theorem Links.Below.of_up (h : L.Below x y) (hz : L.up z = some y) : L.Below x z := by
  obtain ⟨k, hk⟩ := h
  exact ⟨k + 1, by simp [upN, hz, hk]⟩

theorem Links.Below.trans (h : L.Below x y) (h' : L.Below y z) : L.Below x z := by
  obtain ⟨j, hj⟩ := h
  obtain ⟨k, hk⟩ := h'
  exact ⟨k + j, by rw [upN_add hk, hj]⟩

/-- A descendant is the element itself or lies below one of its children. -/
theorem Links.Below.cases_child (h : L.Below x y) : y = x ∨ ∃ c, L.up c = some x ∧ L.Below c y := by
  obtain ⟨k, hk⟩ := h
  induction k generalizing y with
  | zero =>
    simp only [upN, Option.map_eq_some_iff] at hk
    obtain ⟨c, -, rfl⟩ := hk
    exact .inl rfl
  | succ k ih =>
    simp only [upN, Option.bind_eq_some_iff] at hk
    obtain ⟨z, hz, hk⟩ := hk
    obtain ⟨cy, hcy, -⟩ := exists_of_up_eq hz
    rcases ih hk with rfl | ⟨c, hc, j, hj⟩
    · exact .inr ⟨y, hz, .refl hcy⟩
    · exact .inr ⟨c, hc, j + 1, by simp [upN, hz, hj]⟩

/-- A descendant is the element itself or a child of a descendant. -/
theorem Links.Below.cases_up (h : L.Below x y) : y = x ∨ ∃ z, L.up y = some z ∧ L.Below x z := by
  obtain ⟨k, hk⟩ := h
  cases k with
  | zero =>
    simp only [upN, Option.map_eq_some_iff] at hk
    obtain ⟨c, -, rfl⟩ := hk
    exact .inl rfl
  | succ k =>
    simp only [upN, Option.bind_eq_some_iff] at hk
    obtain ⟨z, hz, hk⟩ := hk
    exact .inr ⟨z, hz, k, hk⟩

/-- The elements of a chain of parents are those that the first one lies below. -/
theorem Links.mem_chain_iff (hn : L nil = none) {l : List α} (hc : Chain L.up nil x l) :
    y ∈ l ↔ L.Below y x := by
  rw [List.mem_iff_getElem?]
  exact exists_congr fun k => by rw [upN_eq_getElem? hn hc]

/-- An element never lies below its own child. -/
theorem Links.WF.not_below_child (hL : L.WF nil) (hc : L.up y = some x) : ¬ L.Below y x := by
  rintro ⟨k, hk⟩
  exact hL.upN_irrefl (k := k) (show L.upN (k + 1) y = some y by simp [upN, hc, hk])

/-- The subtrees of two children of one element are disjoint. -/
theorem Links.WF.below_sibling (hL : L.WF nil) {c c' : α} (hc : L.up c = some x)
    (hc' : L.up c' = some x)
    (h : L.Below c y) (h' : L.Below c' y) : c = c' := by
  obtain ⟨j, hj⟩ := h
  obtain ⟨k, hk⟩ := h'
  -- Both distances lead one step further to the common parent.
  have hup : ∀ {d i}, L.up d = some x → L.upN i y = some d → L.upN (i + 1) y = L.upN 0 x := by
    intro d i hd hi
    rw [upN_add hi]
    simp [upN, hd]
  obtain ⟨cc, hcc, -⟩ := exists_of_up_eq hc
  by_cases hx : (L x).isSome
  · obtain ⟨cx, hcx⟩ := Option.isSome_iff_exists.mp hx
    have h0 : L.upN 0 x = some x := by simp [upN, hcx]
    have := hL.upN_inj ((hup hc hj).trans h0) ((hup hc' hk).trans h0)
    obtain rfl : j = k := by omega
    rw [hj] at hk
    exact Option.some.inj hk
  · -- Without a parent both children are the root of `y`.
    obtain ⟨cy, hcy⟩ := Option.isSome_iff_exists.mp (upN_isSome hj).1
    have hroot : ∀ {d}, L.up d = some x → ∀ i, L.upN (i + 1) d = none := by
      intro d hd i
      rw [upN, hd, Option.bind_some]
      cases h : L.upN i x with
      | none => rfl
      | some z => exact absurd (upN_isSome h).1 hx
    rcases Nat.lt_trichotomy j k with hlt | rfl | hlt
    · have := upN_comparable hj hk hlt.le
      obtain ⟨i, rfl⟩ := Nat.exists_eq_add_of_lt hlt
      rw [show j + i + 1 - j = i + 1 by omega, hroot hc] at this
      cases this
    · rw [hj] at hk
      exact Option.some.inj hk
    · have := upN_comparable hk hj hlt.le
      obtain ⟨i, rfl⟩ := Nat.exists_eq_add_of_lt hlt
      rw [show k + i + 1 - k = i + 1 by omega, hroot hc'] at this
      cases this

theorem Links.Below.path (h : L.Below x y) : ∃ m, Path L x y m := by
  obtain ⟨k, hk⟩ := h
  induction k generalizing y with
  | zero =>
    simp only [upN, Option.map_eq_some_iff] at hk
    obtain ⟨c, -, rfl⟩ := hk
    exact ⟨[], .root⟩
  | succ k ih =>
    simp only [upN, Option.bind_eq_some_iff] at hk
    obtain ⟨z, hz, hk⟩ := hk
    obtain ⟨m, hm⟩ := ih hk
    exact ⟨y :: m, hm.child hz⟩

theorem Path.isBelow {m : List α} (hx : (L x).isSome) (h : Path L x y m) : L.Below x y := by
  obtain ⟨c, hc⟩ := Option.isSome_iff_exists.mp hx
  induction h with
  | root => exact .refl hc
  | child _ hup ih => exact ih.of_up hup

/-- The chain of an element runs along the path to `x` and then along the chain of `x`. -/
theorem Path.chain {m l : List α} (hn : L nil = none) (h : Path L x y m) (hl : Chain L.up nil x l) :
    Chain L.up nil y (m ++ l) := by
  induction h with
  | root => exact hl
  | @child z c m _ hup ih =>
    refine .step ?_ hup ih
    rintro rfl
    simp [up, hn] at hup

theorem Path.mem_isBelow {m : List α} (hx : (L x).isSome) (h : Path L x y m) (hz : z ∈ m) :
    L.Below x z := by
  induction h with
  | root => simp at hz
  | child hp hup ih =>
    rcases List.mem_cons.mp hz with rfl | hz
    · exact (hp.child hup).isBelow hx
    · exact ih hz

/-- A path to `x` ends with a step from a child of `x`. -/
theorem Path.cases_child {m : List α} (h : Path L x y m) :
    (y = x ∧ m = []) ∨ ∃ c m', L.up c = some x ∧ Path L c y m' ∧ m = m' ++ [c] := by
  induction h with
  | root => exact .inl ⟨rfl, rfl⟩
  | @child z c m _ hup ih =>
    rcases ih with ⟨rfl, rfl⟩ | ⟨d, m', hd, hp, rfl⟩
    · exact .inr ⟨c, [], hup, .root, rfl⟩
    · exact .inr ⟨d, c :: m', hd, hp.child hup, rfl⟩

theorem Path.unique (hL : L.WF nil) {c : Cell α} (hx : L x = some c) {m m' : List α}
    (h : Path L x y m)
    (h' : Path L x y m') : m = m' := by
  obtain ⟨l, hl⟩ := hL.chain x c hx
  exact List.append_cancel_right ((h.chain hL.nil_none hl).unique (h'.chain hL.nil_none hl))

/-- Only the path of the upper end itself is empty. -/
theorem Path.eq_nil_iff (hL : L.WF nil) {c : Cell α} (hx : L x = some c) {m : List α}
    (h : Path L x y m) :
    m = [] ↔ y = x := by
  constructor
  · rintro rfl
    cases h
    rfl
  · rintro rfl
    exact h.unique hL hx .root

/-- The list of an element is empty when it is nobody's parent. -/
theorem Links.WF.head_eq_nil_iff (hL : L.WF nil) {c : Cell α} (hx : L x = some c) :
    c.head = nil ↔ ∀ y, L.up y ≠ some x := by
  obtain ⟨l, hl, hmem⟩ := hL.kids x c hx
  rw [← hl.eq_nil_iff, List.eq_nil_iff_forall_not_mem]
  exact forall_congr' fun y => not_congr (hmem y)

/-- An element that moves to another list makes the list it was on shorter. -/
theorem Links.Reparented.length_lt [DecidableEq α] {L' : Links α} {p q c : α}
    (h : Links.Reparented L L' c p)
    (hc : L.up c = some q) (hpq : p ≠ q) {l l' : List α} (hnd : l'.Nodup)
    (hmem : ∀ x, x ∈ l ↔ L.up x = some q)
    (hmem' : ∀ x, x ∈ l' ↔ L'.up x = some q) : l'.length < l.length := by
  obtain ⟨cc, hcc, -⟩ := exists_of_up_eq hc
  have hnot : c ∉ l' := by
    rw [hmem', h.up]
    simp [hcc, hpq]
  have hsub : c :: l' ⊆ l := by
    intro x hx
    rw [hmem]
    rcases List.mem_cons.mp hx with rfl | hxl
    · exact hc
    · have hxc : x ≠ c := by
        rintro rfl
        exact hnot hxl
      have := (hmem' x).mp hxl
      simpa [h.up, hxc] using this
  exact (List.subperm_of_subset (List.nodup_cons.mpr ⟨hnot, hnd⟩) hsub).length_le

/-- A path depends only on the parent links below its upper end. -/
theorem Path.congr {L' : Links α} {m : List α} (hup : ∀ c, L.Below x c → c ≠ x → L'.up c = L.up c)
    (hL : L.WF nil) (hx : (L x).isSome) (h : Path L x y m) : Path L' x y m := by
  induction h with
  | root => exact .root
  | @child z c m hp hc ih =>
    refine ih.child ?_
    rw [hup c ((hp.child hc).isBelow hx), hc]
    rintro rfl
    exact hL.not_below_child hc (hp.isBelow hx)

end Below

/-- `x` is at most `n` levels above any of its descendants. -/
def Links.DepthLT (L : Links α) (n : Nat) (x : α) : Prop := ∀ k d, L.upN k d = some x → k < n

omit [DecidableEq α] in
theorem Links.DepthLT.child {L : Links α} {n : Nat} {x c : α} (h : L.DepthLT (n + 1) x)
    (hx : (L x).isSome)
    (hc : L.up c = some x) : L.DepthLT n c := by
  intro k d hk
  obtain ⟨cx, hcx⟩ := Option.isSome_iff_exists.mp hx
  have hd : L.upN (k + 1) d = some x := by
    rw [upN_add hk]
    simp [upN, hc, hcx]
  have := h (k + 1) d hd
  omega

omit [DecidableEq α] in
theorem Links.WF.depthLT {L : Links α} {nil : α} (hL : L.WF nil) {n : Nat}
    (hf : ∀ l : List α, l.Nodup → (∀ y ∈ l, (L y).isSome) → l.length < n) (x : α) :
    L.DepthLT n x := by
  intro k d hk
  obtain ⟨cd, hcd⟩ := Option.isSome_iff_exists.mp (upN_isSome hk).1
  obtain ⟨l, hl⟩ := hL.chain d cd hcd
  rw [upN_eq_getElem? hL.nil_none hl] at hk
  have hlt := (List.getElem?_eq_some_iff.mp hk).1
  have := hf l hl.nodup fun y hy => by
    have := hl.next_isSome_of_mem hy
    simpa [up, Option.isSome_map] using this
  omega

section VisitSpec

variable {L : Links α} {nil r : α} {links : σ → Links α} {get : σ → α → Option ω}
  {act : α → β → σ → Option σ} {sub : σ → α → α → β → Option β} {param : List α → β}
  {I : σ → Prop} {Ok Done : α → List α → Option ω → Prop} {g₀ : α → Option ω} {width : Nat}

/-- What `visit_spec` needs to know of a recursion that starts at `r`. `param` gives the
parameter at the end of a path, `I` is what every state satisfies and `g₀` the initial
elements. An element may be processed when that is `Ok` for the element its parent has
become; it is then `Done`. -/
structure Visitor (L : Links α) (r : α) (links : σ → Links α) (get : σ → α → Option ω)
    (act : α → β → σ → Option σ) (sub : σ → α → α → β → Option β) (param : List α → β)
    (I : σ → Prop) (Ok Done : α → List α → Option ω → Prop) (g₀ : α → Option ω) : Prop where
  links_eq : ∀ s, I s → links s = L
  sub_eq : ∀ s x c m, I s → Path L r x m → L.up c = some x →
    sub s x c (param m) = some (param (c :: m))
  act_spec : ∀ s x m, I s → Path L r x m → get s x = g₀ x → Ok x m ((L.up x).bind (get s)) →
    ∃ s', act x (param m) s = some s' ∧ I s' ∧ (∀ y, y ≠ x → get s' y = get s y) ∧
    Done x m (get s' x)
  ok_child : ∀ x c m o, Path L r x m → L.up c = some x → Done x m o → Ok c (c :: m) o

theorem visit_spec (hL : L.WF nil) (hr : (L r).isSome)
    (hv : Visitor L r links get act sub param I Ok Done g₀)
    (hf : ∀ l : List α, l.Nodup → (∀ y ∈ l, (L y).isSome) → l.length < width) :
    ∀ {n : Nat} {x : α} {m : List α} {s : σ}, I s → Path L r x m → L.DepthLT n x →
      (∀ y, L.Below x y → get s y = g₀ y) → Ok x m ((L.up x).bind (get s)) →
      ∃ s', visit links nil act sub width n x (param m) s = some s' ∧ I s' ∧
        (∀ y, ¬ L.Below x y → get s' y = get s y) ∧ ∀ d m', Path L x d m' →
        Done d (m' ++ m) (get s' d) := by
  intro n
  induction n with
  | zero =>
    intro x m s _ hp hd
    obtain ⟨cx, hcx⟩ := Option.isSome_iff_exists.mp (hp.isBelow hr).isSome.2
    exact absurd (hd 0 x (by simp [upN, hcx])) (Nat.not_lt_zero 0)
  | succ n ih =>
    intro x m s hI hp hd hg hok
    have hx := (hp.isBelow hr).isSome.2
    obtain ⟨cx, hcx⟩ := Option.isSome_iff_exists.mp hx
    obtain ⟨s₁, hact, hI₁, hframe, hdone⟩ := hv.act_spec s x m hI hp (hg x (.refl hcx)) hok
    obtain ⟨l, hl, hmem⟩ := hL.kids x cx hcx
    have hll : l.length < width := by
      refine hf l hl.nodup fun y hy => ?_
      obtain ⟨c, hc, -⟩ := exists_of_up_eq ((hmem y).mp hy)
      simp [hc]
    -- The loop over a part of the children, from a state in which their subtrees are untouched.
    have hloop : ∀ (k : List α) (a : α) (w : Nat), Chain L.next nil a k → k.length < w →
        (∀ c ∈ k, L.up c = some x) → ∀ s₂, I s₂ → get s₂ x = get s₁ x →
        (∀ c ∈ k, ∀ y, L.Below c y → get s₂ y = g₀ y) →
        ∃ s', forChain (fun s => (links s).next) nil
            (fun c s => (sub s x c (param m)).bind fun b' =>
              visit links nil act sub width n c b' s) w a s₂ =
              some s' ∧
          I s' ∧ (∀ y, (∀ c ∈ k, ¬ L.Below c y) → get s' y = get s₂ y) ∧
          ∀ c ∈ k, ∀ d m', Path L c d m' → Done d (m' ++ c :: m) (get s' d) := by
      intro k
      induction k with
      | nil =>
        intro a w ha hw _ s₂ hI₂ _ _
        obtain rfl := ha.eq_nil_iff.mp rfl
        obtain ⟨w, rfl⟩ := Nat.exists_eq_add_of_lt hw
        exact ⟨s₂, by simp [forChain], hI₂, fun _ _ => rfl, by simp⟩
      | cons c k ihk =>
        intro a w ha hw hup s₂ hI₂ hx₂ hfresh
        have hnd := (List.nodup_cons.mp ha.nodup).1
        cases ha with
        | @step _ z _ hcn hcz hk =>
          cases w with
          | zero => simp at hw
          | succ w =>
            have hc := hup c List.mem_cons_self
            obtain ⟨cc, hcc, -⟩ := exists_of_up_eq hc
            have hsib : ∀ c' ∈ k, ∀ y, L.Below c' y → ¬ L.Below c y := by
              intro c' hc' y hy hy'
              rw [← hL.below_sibling (hup c' (List.mem_cons_of_mem _ hc')) hc hy hy'] at hnd
              exact hnd hc'
            obtain ⟨s₃, h₃, hI₃, hframe₃, hdone₃⟩ := ih hI₂ (hp.child hc) (hd.child hx hc)
              (hfresh c List.mem_cons_self)
              (by rw [hc, Option.bind_some, hx₂]; exact hv.ok_child x c m _ hp hc hdone)
            obtain ⟨s', h', hI', hframe', hdone'⟩ := ihk z w hk (by simpa using hw)
              (fun c' hc' => hup c' (List.mem_cons_of_mem _ hc')) s₃
              hI₃ (by rw [hframe₃ x (hL.not_below_child hc), hx₂])
              (fun c' hc' y hy => by
                rw [hframe₃ y (hsib c' hc' y hy)]
                exact hfresh c' (List.mem_cons_of_mem _ hc') y hy)
            refine ⟨s', ?_, hI', fun y hy => ?_, fun c' hc' d m' hpd => ?_⟩
            · simp only [forChain, hcn, if_false, hv.sub_eq s₂ x c m hI₂ hp hc,
                Option.bind_some, h₃,
                hv.links_eq s₃ hI₃, hcz]
              exact h'
            · rw [hframe' y fun c' hc' => hy c' (List.mem_cons_of_mem _ hc'),
                hframe₃ y (hy c List.mem_cons_self)]
            · rcases List.mem_cons.mp hc' with rfl | hc'
              · have hb := hpd.isBelow (by simp [hcc])
                rw [hframe' d fun c'' hc'' hb' => hsib c'' hc'' d hb' hb]
                exact hdone₃ d m' hpd
              · exact hdone' c' hc' d m' hpd
    have hchild : ∀ c ∈ l, ∀ y, L.Below c y → L.Below x y := fun c hc y hy =>
      ((Links.Below.refl hcx).of_up ((hmem c).mp hc)).trans hy
    obtain ⟨s', h', hI', hframe', hdone'⟩ :=
      hloop l cx.head width hl hll (fun c hc => (hmem c).mp hc) s₁ hI₁ rfl
      (fun c hc y hy => by
        have hyx : y ≠ x := by
          rintro rfl
          exact hL.not_below_child ((hmem c).mp hc) hy
        rw [hframe y hyx]
        exact hg y (hchild c hc y hy))
    have hxl : ∀ c ∈ l, ¬ L.Below c x := fun c hc => hL.not_below_child ((hmem c).mp hc)
    refine ⟨s', ?_, hI', fun y hy => ?_, fun d m' hpd => ?_⟩
    · simp only [visit, hact, Option.bind_eq_bind, Option.bind_some,
        hv.links_eq s₁ hI₁, head_eq hcx]
      exact h'
    · rw [hframe' y fun c hc hb => hy (hchild c hc y hb), hframe y]
      rintro rfl
      exact hy (.refl hcx)
    · rcases hpd.cases_child with ⟨rfl, rfl⟩ | ⟨c, k, hc, hpc, rfl⟩
      · rw [hframe' d hxl]
        exact hdone
      · rw [List.append_assoc]
        exact hdone' c ((hmem c).mpr hc) d k hpc

end VisitSpec

section Frame

variable {links : σ → Links α} {nil : α} {act : α → β → σ → Option σ}
    {sub : σ → α → α → β → Option β}
  {R : σ → σ → Prop}

/-- A loop over a chain changes no more than its body. -/
theorem forChain_frame (hrefl : ∀ s, R s s) (htrans : ∀ {s s' s''}, R s s' → R s' s'' → R s s'')
    {next : σ → α → Option α} {body : α → σ → Option σ}
    (hbody : ∀ x s s', body x s = some s' → R s s') {n : Nat} {a : α}
    {s s' : σ} (h : forChain next nil body n a s = some s') : R s s' := by
  induction n generalizing a s with
  | zero => cases h
  | succ n ih =>
    rw [forChain] at h
    split at h
    · cases h
      exact hrefl _
    · obtain ⟨s₁, h₁, h⟩ := Option.bind_eq_some_iff.mp h
      obtain ⟨z, -, h⟩ := Option.bind_eq_some_iff.mp h
      exact htrans (hbody a _ s₁ h₁) (ih h)

/-- The recursion changes no more than the action. -/
theorem visit_frame (hrefl : ∀ s, R s s) (htrans : ∀ {s s' s''}, R s s' → R s' s'' → R s s'')
    (hact : ∀ x b s s', act x b s = some s' → R s s') {width n : Nat} {x : α} {b : β} {s s' : σ}
    (h : visit links nil act sub width n x b s = some s') : R s s' := by
  induction n generalizing x b s s' with
  | zero => cases h
  | succ n ih =>
    rw [visit, Option.bind_eq_bind, Option.bind_eq_some_iff] at h
    obtain ⟨s₁, h₁, h⟩ := h
    obtain ⟨a, -, h⟩ := Option.bind_eq_some_iff.mp h
    refine htrans (hact x b _ s₁ h₁) (forChain_frame hrefl htrans (fun c s s' hc => ?_) h)
    obtain ⟨b', -, hc⟩ := Option.bind_eq_some_iff.mp hc
    exact ih hc

end Frame

/-- A recursive search finds exactly the descendants that pass the test. -/
theorem existsBelow_eq {L : Links α} {nil : α} (hL : L.WF nil) {test : α → Option Bool}
    {p : α → Prop}
    {width : Nat} (ht : ∀ x, (L x).isSome → ∃ b, test x = some b ∧ (b = true ↔ p x))
    (hf : ∀ l : List α, l.Nodup → (∀ y ∈ l, (L y).isSome) → l.length < width) :
    ∀ {n : Nat} {x : α}, (L x).isSome → L.DepthLT n x →
      ∃ b, existsBelow L nil test width n x = some b ∧ (b = true ↔ ∃ y, L.Below x y ∧ p y) := by
  intro n
  -- by induction on the depth the walk is allowed
  induction n with
  | zero =>
    intro x hx hd
    obtain ⟨cx, hcx⟩ := Option.isSome_iff_exists.mp hx
    exact absurd (hd 0 x (by simp [upN, hcx])) (Nat.not_lt_zero 0)
  | succ n ih =>
    intro x hx hd
    obtain ⟨cx, hcx⟩ := Option.isSome_iff_exists.mp hx
    obtain ⟨b, hb, hbp⟩ := ht x hx
    cases b with
    | true => exact ⟨true, by simp [existsBelow, hb], by simpa using ⟨x, .refl hcx, hbp.mp rfl⟩⟩
    | false =>
      obtain ⟨l, hl, hmem⟩ := hL.kids x cx hcx
      have hsome : ∀ c ∈ l, (L c).isSome := by
        intro c hc
        obtain ⟨cc, hcc, -⟩ := exists_of_up_eq ((hmem c).mp hc)
        simp [hcc]
      have hq : ∀ c ∈ l, existsBelow L nil test width n c =
          some ((existsBelow L nil test width n c).getD false) := by
        intro c hc
        obtain ⟨b, hb, -⟩ := ih (hsome c hc) (hd.child hx ((hmem c).mp hc))
        rw [hb]
        rfl
      have hany := anyChain_eq hl hq (hf l hl.nodup hsome)
      refine ⟨_, by simpa [existsBelow, hb, head_eq hcx] using hany, ?_⟩
      rw [List.any_eq_true]
      constructor
      · rintro ⟨c, hc, hcb⟩
        obtain ⟨b, hb, hbp⟩ := ih (hsome c hc) (hd.child hx ((hmem c).mp hc))
        rw [hb] at hcb
        obtain ⟨y, hy, hpy⟩ := hbp.mp hcb
        exact ⟨y, ((Links.Below.refl hcx).of_up ((hmem c).mp hc)).trans hy, hpy⟩
      · rintro ⟨y, hy, hpy⟩
        rcases hy.cases_child with rfl | ⟨c, hc, hcy⟩
        · simpa using hbp.mpr hpy
        · obtain ⟨b, hb, hbp'⟩ := ih (hsome c ((hmem c).mpr hc)) (hd.child hx hc)
          refine ⟨c, (hmem c).mpr hc, ?_⟩
          rw [hb]
          exact hbp'.mpr ⟨y, hcy, hpy⟩

end Linked
