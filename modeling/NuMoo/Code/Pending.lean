import NuMoo.Code.Growth

/-!
# Pending labels

While code is emitted the ends of the constructs around it are not yet known. The operands that
are to get the same end are linked in a chain, whose head the generator keeps: in a loop for the
`break` statements, in a variable for the jumps out of an `if` or a `try`.

Results:
1. `Pending.trans`: chains are prolonged with new labels, and no two of them share one.
2. `Pending.close`: a chain whose labels are all new is defined, and the others stay as they are.
-/

namespace NuMoo
namespace CodeGen

/-- The chain of a head has been prolonged with new labels. -/
structure Prolongs (b st : State) (h h' : Option Nat) (new : List Nat) : Prop where
  fresh : ∀ j ∈ new, b.fixups.length ≤ j ∧ j < st.fixups.length
  chain : ∀ l, LabelChain b.fixups h l → LabelChain st.fixups h' (new ++ l)

/-- The chains of the heads have been prolonged. The new labels are those in `all`, and each is in
one chain only. -/
inductive Apart (b st : State) : List (Option Nat) → List (Option Nat) → List Nat → Prop
  | nil : Apart b st [] [] []
  | cons {h h' : Option Nat} {hs hs' : List (Option Nat)} {new all : List Nat} :
      Prolongs b st h h' new →
    (∀ j ∈ new, j ∉ all) → Apart b st hs hs' all → Apart b st (h :: hs) (h' :: hs') (new ++ all)

/-- From the first state to the second code was added, and the heads of the chains that are pending
were these and are those. -/
structure Pending (b st : State) (hs hs' : List (Option Nat)) : Prop where
  grows : Grows b st
  apart : ∃ all, Apart b st hs hs' all

variable {b s st : State} {h h' : Option Nat} {hs hs' hs'' : List (Option Nat)}
    {new all all' : List Nat} {i : Nat}

/-! ## Chains -/

theorem LabelChain.keeps {fixups fixups' : List Fixup} {l : List Nat} (hc : LabelChain fixups h l)
    (hk : ∀ (j : Nat) (f : Fixup), fixups[j]? = some f → fixups'[j]? = some f) :
    LabelChain fixups' h l := by
  refine hc.congr fun j hj => ?_
  obtain ⟨f, hf, _, _⟩ := hc.undone hj
  rw [hf, hk j f hf]

theorem Grows.chain (hg : Grows b st) {l : List Nat} (hc : LabelChain b.fixups h l) :
    LabelChain st.fixups h l := hc.keeps hg.keeps

theorem Grows.prolongs (hg : Grows b st) (h : Option Nat) : Prolongs b st h h [] :=
  ⟨fun _ hj => absurd hj List.not_mem_nil, fun _ hc => hg.chain hc⟩

theorem Prolongs.trans (hp : Prolongs b s h h' new) {h'' : Option Nat} {new' : List Nat}
    (hp' : Prolongs s st h' h'' new')
    (hb : b.fixups.length ≤ s.fixups.length) (hst : s.fixups.length ≤ st.fixups.length) :
    Prolongs b st h h'' (new' ++ new) where
  fresh j hj := by
    rcases List.mem_append.mp hj with hj | hj
    · exact ⟨Nat.le_trans hb (hp'.fresh j hj).1, (hp'.fresh j hj).2⟩
    · exact ⟨(hp.fresh j hj).1, Nat.lt_of_lt_of_le (hp.fresh j hj).2 hst⟩
  chain l hl := by
    rw [List.append_assoc]
    exact hp'.chain _ (hp.chain l hl)

/-- A chain gets a label at its head. -/
theorem prolongs_addLinkedLabel (hpos : 0 < st.numBytes) (h : Option Nat) :
    Prolongs st (addLinkedLabel h st).2 h (some (addLinkedLabel h st).1) [st.fixups.length] where
  fresh j hj := by
    have hlen : (addLinkedLabel h st).2.fixups.length = st.fixups.length + 1 := by
      rw [(addLinkedLabel_adds h st).fixups, List.length_append, List.length_singleton]
    rw [List.mem_singleton.mp hj, hlen]
    exact ⟨Nat.le_refl _, Nat.lt_succ_self _⟩
  chain l hl := by
    have hg : Grows st (addLinkedLabel h st).2 := (Grows.refl st).addLinkedLabel h hpos
    have hnew : (addLinkedLabel h st).2.fixups[st.fixups.length]? =
        some (st.fixup .label 0 h false) := by
      rw [(addLinkedLabel_adds h st).fixups]
      exact List.getElem?_concat_length
    exact .cons hnew rfl rfl (fun i hi => hl.lt_length hi) (hg.chain hl)

/-! ## Several chains -/

namespace Apart

theorem bounds (ha : Apart b st hs hs' all) :
    ∀ j ∈ all, b.fixups.length ≤ j ∧ j < st.fixups.length := by
  induction ha with
  | nil => exact fun _ hj => absurd hj List.not_mem_nil
  | cons hp _ _ ih =>
    intro j hj
    rcases List.mem_append.mp hj with hj | hj
    · exact hp.fresh j hj
    · exact ih j hj

theorem length (ha : Apart b st hs hs' all) : hs.length = hs'.length := by
  induction ha with
  | nil => rfl
  | cons _ _ _ ih => exact congrArg (· + 1) ih

theorem refl (hg : Grows b st) (hs : List (Option Nat)) : Apart b st hs hs [] := by
  induction hs with
  | nil => exact .nil
  | cons h hs ih => exact .cons (hg.prolongs h) (fun _ hj => absurd hj List.not_mem_nil) ih

/-- By induction on the chains: the labels of the second step are beyond those of the first. -/
theorem trans (ha : Apart b s hs hs' all) (ha' : Apart s st hs' hs'' all')
    (hb : b.fixups.length ≤ s.fixups.length)
    (hst : s.fixups.length ≤ st.fixups.length) :
    ∃ all'', Apart b st hs hs'' all'' ∧ ∀ j ∈ all'', j ∈ all ∨ j ∈ all' := by
  induction ha generalizing hs'' all' with
  | nil =>
    cases ha'
    exact ⟨[], .nil, fun j hj => .inl hj⟩
  | @cons h h' hs hs' new all hp hnew ha ih =>
    cases ha' with
    | @cons _ h'' _ hs'' new' all' hp' hnew' ha' =>
      obtain ⟨all'', hall, hmem⟩ := ih ha'
      refine ⟨(new' ++ new) ++ all'', .cons (hp.trans hp' hb hst) (fun j hj hj' => ?_) hall,
        fun j hj => ?_⟩
      · rcases List.mem_append.mp hj with hj | hj
        · rcases hmem j hj' with hold | hlater
          · exact absurd (hp'.fresh j hj).1 (Nat.not_le_of_lt (ha.bounds j hold).2)
          · exact hnew' j hj hlater
        · rcases hmem j hj' with hold | hlater
          · exact hnew j hj hold
          · exact absurd (ha'.bounds j hlater).1 (Nat.not_le_of_lt (hp.fresh j hj).2)
      · rcases List.mem_append.mp hj with hj | hj
        · rcases List.mem_append.mp hj with hj | hj
          · exact .inr (List.mem_append_left _ hj)
          · exact .inl (List.mem_append_left _ hj)
        · rcases hmem j hj with hold | hlater
          · exact .inl (List.mem_append_right _ hold)
          · exact .inr (List.mem_append_right _ hlater)

/-- Code is added that leaves every operand as it is. -/
theorem extend (ha : Apart b s hs hs' all) (hk : ∀ (j : Nat) (f : Fixup), s.fixups[j]? = some f →
    st.fixups[j]? = some f) :
    Apart b st hs hs' all := by
  induction ha with
  | nil => exact .nil
  | @cons h h' hs hs' new all hp hnew _ ih =>
    refine .cons ⟨fun j hj => ⟨(hp.fresh j hj).1, ?_⟩, fun l hl => (hp.chain l hl).keeps hk⟩ hnew ih
    have hj' := hk j _ (List.getElem?_eq_getElem (hp.fresh j hj).2)
    exact (List.getElem?_eq_some_iff.mp hj').1

/-- A label of none of the chains is defined. -/
theorem define (ha : Apart b st hs hs' all) {label : Option Nat} {c : List Nat}
    (hc : LabelChain st.fixups label c)
    (hnot : ∀ j ∈ c, b.fixups.length ≤ j ∧ j ∉ all) :
    Apart b (defineLabel label st) hs hs' all := by
  induction ha with
  | nil => exact .nil
  | @cons h h' hs hs' new all hp hnew _ ih =>
    refine .cons ⟨fun j hj => ?_, fun l hl => (hp.chain l hl).congr fun j hj => ?_⟩ hnew
      (ih fun j hj => ⟨(hnot j hj).1, fun hmem => (hnot j hj).2 (List.mem_append_right _ hmem)⟩)
    · rw [length_fixups_defineLabel]
      exact hp.fresh j hj
    · have hj' : j ∉ c := fun hmem => by
        rcases List.mem_append.mp hj with hj | hj
        · exact (hnot j hmem).2 (List.mem_append_left _ hj)
        · exact absurd (hnot j hmem).1 (Nat.not_le_of_lt (hl.lt_length hj))
      rw [defineLabel_eq hc, getElem?_resolveAll, if_neg hj']

/-- One of the chains gets a label at its head. -/
theorem link (hpos : 0 < st.numBytes) (hi : hs[i]? = some h) :
    Apart st (addLinkedLabel h st).2 hs (hs.set i (some (addLinkedLabel h st).1))
    [st.fixups.length] := by
  have hg : Grows st (addLinkedLabel h st).2 := (Grows.refl st).addLinkedLabel h hpos
  induction hs generalizing i with
  | nil => cases hi
  | cons h₁ hs ih =>
    cases i with
    | zero =>
      cases hi
      exact .cons (prolongs_addLinkedLabel hpos h) (fun j _ => List.not_mem_nil) (refl hg hs)
    | succ i => exact .cons (hg.prolongs h₁) (fun _ hj => absurd hj List.not_mem_nil) (ih hi)

end Apart

/-! ## What is pending -/

theorem Grows.pending (hg : Grows b st) (hs : List (Option Nat)) : Pending b st hs hs :=
  ⟨hg, [], .refl hg hs⟩

namespace Pending

theorem trans (hp : Pending b s hs hs') (hp' : Pending s st hs' hs'') : Pending b st hs hs'' := by
  obtain ⟨all, ha⟩ := hp.apart
  obtain ⟨all', ha'⟩ := hp'.apart
  obtain ⟨all'', ha'', _⟩ := ha.trans ha' hp.grows.le.length_le hp'.grows.le.length_le
  exact ⟨hp.grows.trans hp'.grows, all'', ha''⟩

theorem extend (hp : Pending b s hs hs') (hg : Grows b st)
    (hk : ∀ (j : Nat) (f : Fixup), s.fixups[j]? = some f → st.fixups[j]? = some f) :
    Pending b st hs hs' := by
  obtain ⟨all, ha⟩ := hp.apart
  exact ⟨hg, all, ha.extend hk⟩

theorem step (hp : Pending b s hs hs') (hg : Grows s st) : Pending b st hs hs' :=
  hp.extend (hp.grows.trans hg) hg.keeps

theorem length (hp : Pending b st hs hs') : hs.length = hs'.length := by
  obtain ⟨_, ha⟩ := hp.apart
  exact ha.length

/-- The chain of the first head. -/
theorem head (hp : Pending b st (h :: hs) (h' :: hs')) {l : List Nat}
    (hl : LabelChain b.fixups h l) :
    ∃ new, LabelChain st.fixups h' (new ++ l) := by
  obtain ⟨_, ha⟩ := hp.apart
  cases ha with
  | cons hprolongs => exact ⟨_, hprolongs.chain l hl⟩

/-- A chain on which nothing is done. -/
theorem cons (h : Option Nat) (hp : Pending b st hs hs') : Pending b st (h :: hs) (h :: hs') := by
  obtain ⟨all, ha⟩ := hp.apart
  exact ⟨hp.grows, all, .cons (hp.grows.prolongs h) (fun _ hj => absurd hj List.not_mem_nil) ha⟩

theorem append (more : List (Option Nat)) (hp : Pending b st hs hs') :
    Pending b st (more ++ hs) (more ++ hs') := by
  induction more with
  | nil => exact hp
  | cons h more ih => exact ih.cons h

theorem swap {h₁ h₁' h₂ h₂' : Option Nat} (hp : Pending b st (h₁ :: h₂ :: hs) (h₁' :: h₂' :: hs')) :
    Pending b st (h₂ :: h₁ :: hs) (h₂' :: h₁' :: hs') := by
  obtain ⟨all, ha⟩ := hp.apart
  cases ha with
  | @cons _ _ _ _ new all hp₁ hnew ha =>
    cases ha with
    | @cons _ _ _ _ new' all hp₂ hnew' ha =>
      refine ⟨hp.grows, _, .cons hp₂ (fun j hj hj' => ?_)
        (.cons hp₁ (fun j hj hj' => hnew j hj (List.mem_append_right _ hj')) ha)⟩
      rcases List.mem_append.mp hj' with hj' | hj'
      · exact hnew j hj' (List.mem_append_left _ hj)
      · exact hnew' j hj hj'

/-- One of the chains gets a label. -/
theorem link (hp : Pending b st hs hs') (hpos : 0 < st.numBytes) (hi : hs'[i]? = some h) :
    Pending b (addLinkedLabel h st).2 hs (hs'.set i (some (addLinkedLabel h st).1)) :=
  hp.trans ⟨(Grows.refl st).addLinkedLabel h hpos, _, .link hpos hi⟩

/-- A chain begins with a label. -/
theorem add (hp : Pending b st hs hs') (hpos : 0 < st.numBytes) :
    Pending b (addLabel st).2 (none :: hs) (some (addLabel st).1 :: hs') :=
  (hp.cons none).link (i := 0) hpos rfl

/-- A chain that has begun since the first state is defined. -/
theorem close (hp : Pending b st (none :: hs) (h :: hs')) :
    Pending b (defineLabel h st) hs hs' := by
  obtain ⟨all, ha⟩ := hp.apart
  cases ha with
  | @cons _ _ _ _ new all hnone hnew ha =>
    have hc : LabelChain st.fixups h new := by
      have hc := hnone.chain [] .nil
      rwa [List.append_nil] at hc
    exact ⟨hp.grows.defineLabel hc fun j hj => (hnone.fresh j hj).1, all,
      ha.define hc fun j hj => ⟨(hnone.fresh j hj).1, hnew j hj⟩⟩

end Pending

end CodeGen
end NuMoo
