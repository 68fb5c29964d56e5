import Mathlib.Data.List.TakeWhile
import NuMoo.Db.Verbs

/-!
# Verb names

The names of a verb and the words that each of them matches, and what `verbcasecmp` makes of them.

Results:
1. `matchWord_iff`: one turn of the scan decides whether the name at its front accepts the word.
2. `verbMatches_iff`: the scan finds a name that accepts the word, or a space in front of all names.
3. `verbcasecmp_iff`: the pointers and the empty word are what the answer may be wrong for.
-/

namespace NuMoo

/-! ## The grammar -/

/-- The texts are equal up to ASCII case. -/
def SameText (s t : Str) : Prop := s.map cmap = t.map cmap

/-- The first text is the beginning of the second, up to ASCII case. -/
def Begins (s t : Str) : Prop := s.map cmap <+: t.map cmap

/-- The text of a name without its stars. -/
def plain (name : Str) : Str := name.filter (· ≠ chStar)

/-- The space-separated names. -/
def verbNames (verb : Str) : List Str := (verb.splitOn chSpace).filter (· ≠ [])

/-- A name matches a word. -/
inductive Accepts : Str → Str → Prop
  /-- A name without a star matches itself, -/
  | whole {name word : Str} : chStar ∉ name → SameText name word → Accepts name word
  /-- what stands in front of a star may be followed by a part of what stands behind it, -/
  | abbreviated {x y p word : Str} : chStar ∉ x → p <+: plain y → SameText (x ++ p) word →
      Accepts (x ++ chStar :: y) word
  /-- and with a star at its end a name matches what begins with it. -/
  | extended {x word : Str} : Begins (plain x) word → Accepts (x ++ [chStar]) word

/-! ### From within a name -/

/-- What is left of a name accepts what is left of a word, in a state of the scan. -/
def AcceptsFrom (name word : Str) : Star → Prop
  | .none => Accepts name word
  | .inner => Begins word (plain name) ∨ ((∃ x, name = x ++ [chStar]) ∧ Begins (plain name) word)
  | .end => True

variable {name word v w s t x : Str} {c d : UInt8} {star : Star}

@[simp] theorem plain_nil : plain [] = [] := rfl

theorem plain_star (name : Str) : plain (chStar :: name) = plain name :=
  List.filter_cons_of_neg (by simp)

theorem plain_cons (hc : c ≠ chStar) (name : Str) : plain (c :: name) = c :: plain name :=
  List.filter_cons_of_pos (by simpa using hc)

theorem plain_concat (x : Str) : plain (x ++ [chStar]) = plain x := by
  rw [plain, List.filter_append]
  exact List.append_nil _

theorem begins_cons : Begins (c :: s) (d :: t) ↔ cmap c = cmap d ∧ Begins s t :=
  List.cons_prefix_cons

theorem begins_nil (t : Str) : Begins [] t := List.nil_prefix

theorem begins_nil_iff : Begins s [] ↔ s = [] := List.prefix_nil.trans List.map_eq_nil_iff

/-- A part of the text behind a star, up to case. -/
theorem begins_iff : Begins s t ↔ ∃ p, p <+: t ∧ SameText p s := by
  constructor
  · intro h
    refine ⟨t.take s.length, List.take_prefix _ _, ?_⟩
    rw [SameText, List.map_take]
    have heq := List.prefix_iff_eq_take.mp h
    rw [List.length_map] at heq
    exact heq.symm
  · rintro ⟨p, hp, h⟩
    rw [Begins, ← h]
    exact hp.map cmap

theorem accepts_star : Accepts (chStar :: name) word ↔
    Begins word (plain name) ∨ ((∃ x, chStar :: name = x ++ [chStar]) ∧
      Begins (plain name) word) := by
  constructor
  · intro h
    generalize hn : chStar :: name = n at h
    cases h with
    | whole hstar _ => exact absurd (hn ▸ List.mem_cons_self) hstar
    | @abbreviated x y p _ hx hp hw =>
      cases x with
      | nil =>
        cases hn
        exact .inl (begins_iff.mpr ⟨p, hp, hw⟩)
      | cons a x =>
        cases hn
        exact absurd List.mem_cons_self hx
    | @extended x _ h =>
      have hplain : plain name = plain x := by rw [← plain_star, hn, plain_concat]
      exact .inr ⟨⟨x, rfl⟩, hplain ▸ h⟩
  · rintro (h | ⟨⟨x, hx⟩, h⟩)
    · obtain ⟨p, hp, hw⟩ := begins_iff.mp h
      exact .abbreviated (x := []) List.not_mem_nil hp hw
    · rw [← plain_star, hx, plain_concat] at h
      exact hx ▸ .extended h

/-- A star is passed. -/
theorem acceptsFrom_star (hstar : star ≠ .end) :
    AcceptsFrom (chStar :: name) word star ↔
    AcceptsFrom name word (if name = [] then .end else .inner) := by
  have hends : (∃ x, chStar :: name = x ++ [chStar]) ↔ name = [] ∨ ∃ x, name = x ++ [chStar] := by
    constructor
    · rintro ⟨x, hx⟩
      cases x with
      | nil => exact .inl (List.cons.inj hx).2
      | cons a x => exact .inr ⟨x, (List.cons.inj hx).2⟩
    · rintro (rfl | ⟨x, rfl⟩)
      · exact ⟨[], rfl⟩
      · exact ⟨chStar :: x, rfl⟩
  have hbody : AcceptsFrom (chStar :: name) word star ↔
      Begins word (plain name) ∨ ((name = [] ∨ ∃ x, name = x ++ [chStar]) ∧
        Begins (plain name) word) := by
    rw [← hends]
    cases star with
    | none => exact accepts_star
    | inner => 
      show Begins word (plain (chStar :: name)) ∨ (_ ∧ Begins (plain (chStar :: name)) word) ↔ _
      rw [plain_star]
    | «end» => exact absurd rfl hstar
  rw [hbody]
  split
  · next h =>
    subst h
    exact iff_of_true (.inr ⟨.inl rfl, begins_nil _⟩) trivial
  · next h => 
    show _ ↔ Begins word (plain name) ∨ ((∃ x, name = x ++ [chStar]) ∧ Begins (plain name) word)
    rw [or_iff_right h]

/-- The name is at its end. -/
theorem acceptsFrom_nil : AcceptsFrom [] word star ↔ word = [] ∨ star = .end := by
  cases star with
  | none =>
    rw [or_iff_left nofun]
    constructor
    · intro h
      generalize hn : ([] : Str) = n at h
      cases h with
      | whole _ h => 
        subst hn
        exact List.map_eq_nil_iff.mp h.symm
      | abbreviated => simp at hn
      | extended => simp at hn
    · rintro rfl
      exact .whole List.not_mem_nil rfl
  | inner =>
    rw [or_iff_left nofun]
    show Begins word [] ∨ ((∃ x, [] = x ++ [chStar]) ∧ _) ↔ _
    rw [begins_nil_iff, or_iff_left]
    rintro ⟨⟨x, hx⟩, -⟩
    simp at hx
  | «end» => exact iff_of_true trivial (.inr rfl)

/-- A name that begins with another character begins like its words. -/
theorem accepts_cons (hc : c ≠ chStar) :
    Accepts (c :: name) word ↔ ∃ d w, word = d :: w ∧ cmap c = cmap d ∧ Accepts name w := by
  constructor
  · intro h
    generalize hn : c :: name = n at h
    cases h with
    | whole hstar h =>
      subst hn
      cases word with
      | nil => cases h
      | cons d w =>
        obtain ⟨hcd, h⟩ := List.cons.inj h
        exact ⟨d, w, rfl, hcd, .whole (fun hm => hstar (List.mem_cons_of_mem _ hm)) h⟩
    | @abbreviated x y p _ hx hp h =>
      cases x with
      | nil => exact absurd (List.cons.inj hn).1 hc
      | cons a x =>
        obtain ⟨rfl, rfl⟩ := List.cons.inj hn
        cases word with
        | nil => cases h
        | cons d w =>
          obtain ⟨hcd, h⟩ := List.cons.inj h
          exact ⟨d, w, rfl, hcd, .abbreviated (fun hm => hx (List.mem_cons_of_mem _ hm)) hp h⟩
    | @extended x _ h =>
      cases x with
      | nil => exact absurd (List.cons.inj hn).1 hc
      | cons a x =>
        obtain ⟨rfl, rfl⟩ := List.cons.inj hn
        rw [plain_cons hc] at h
        cases word with
        | nil => cases begins_nil_iff.mp h
        | cons d w =>
          obtain ⟨hcd, h⟩ := begins_cons.mp h
          exact ⟨d, w, rfl, hcd, .extended h⟩
  · rintro ⟨d, w, rfl, hcd, h⟩
    have hmap : ∀ {s : Str}, SameText s w → SameText (c :: s) (d :: w) :=
      fun hs => List.cons_eq_cons.mpr ⟨hcd, hs⟩
    cases h with
    | whole hstar h =>
      exact .whole (fun hm => (List.mem_cons.mp hm).elim (fun h => hc h.symm) hstar) (hmap h)
    | @abbreviated x y p _ hx hp h =>
      exact .abbreviated (x := c :: x)
        (fun hm => (List.mem_cons.mp hm).elim (fun h => hc h.symm) hx) hp (hmap h)
    | @extended x _ h => exact .extended (x := c :: x) (plain_cons hc x ▸ begins_cons.mpr ⟨hcd, h⟩)

theorem acceptsFrom_cons (hc : c ≠ chStar) (hstar : star ≠ .end) :
    AcceptsFrom (c :: name) (d :: w) star ↔ cmap c = cmap d ∧ AcceptsFrom name w star := by
  cases star with
  | none =>
    refine (accepts_cons hc).trans ⟨?_, fun ⟨hcd, h⟩ => ⟨d, w, rfl, hcd, h⟩⟩
    rintro ⟨d', w', heq, hcd, h⟩
    cases heq
    exact ⟨hcd, h⟩
  | inner =>
    have hends : (∃ x, c :: name = x ++ [chStar]) ↔ ∃ x, name = x ++ [chStar] := by
      constructor
      · rintro ⟨x, hx⟩
        cases x with
        | nil => exact absurd (List.cons.inj hx).1 hc
        | cons a x => exact ⟨x, (List.cons.inj hx).2⟩
      · rintro ⟨x, rfl⟩
        exact ⟨c :: x, rfl⟩
    show Begins (d :: w) (plain (c :: name)) ∨ (_ ∧ Begins (plain (c :: name)) (d :: w)) ↔
      _ ∧ (Begins w (plain name) ∨ (_ ∧ Begins (plain name) w))
    rw [plain_cons hc, begins_cons, begins_cons, hends, eq_comm (a := cmap d)]
    tauto
  | «end» => exact absurd rfl hstar

/-- The word is at its end, and the name is not. -/
theorem acceptsFrom_end (hc : c ≠ chStar) (hstar : star ≠ .end) :
    AcceptsFrom (c :: name) [] star ↔ star ≠ .none := by
  cases star with
  | none =>
    refine iff_of_false (fun h => ?_) (not_not.mpr rfl)
    obtain ⟨d, w, heq, -⟩ := (accepts_cons hc).mp h
    cases heq
  | inner => exact iff_of_true (.inl (begins_nil _)) nofun
  | «end» => exact absurd rfl hstar

/-! ## The scan -/

/-- The name at the front. -/
def nameOf (v : Str) : Str := v.takeWhile fun c => c != 0 && c != chSpace

/-- What stands behind the name at the front. -/
def behindName (v : Str) : Str := v.dropWhile fun c => c != 0 && c != chSpace

theorem atWordEnd_iff : atWordEnd v = true ↔ nameOf v = [] := by
  cases v with
  | nil => exact iff_of_true rfl rfl
  | cons c v =>
    show (c == 0 || c == chSpace) = true ↔ nameOf (c :: v) = []
    rw [nameOf, List.takeWhile_cons]
    cases hc : c == 0 <;> cases hs : c == chSpace <;> simp [bne, hc, hs]

/-- A character within a name. -/
theorem nameOf_cons (h : ¬ atWordEnd (c :: v) = true) :
    nameOf (c :: v) = c :: nameOf v ∧ behindName (c :: v) = behindName v := by
  have hc : (c != 0 && c != chSpace) = true := by
    have h : ¬ (c == 0 || c == chSpace) = true := h
    rw [Bool.not_eq_true, Bool.or_eq_false_iff] at h
    rw [bne, bne, h.1, h.2]
    rfl
  exact ⟨List.takeWhile_cons_of_pos hc, List.dropWhile_cons_of_pos hc⟩

theorem not_atWordEnd_star (v : Str) : ¬ atWordEnd (chStar :: v) = true := nofun

/-- Stars are passed without a change in what is accepted. -/
theorem skipStars_spec (v : Str) (star : Star) (hend : star = .end → nameOf v = []) (word : Str) :
    behindName (skipStars v star).1 = behindName v ∧
    (AcceptsFrom (nameOf v) word star ↔
      AcceptsFrom (nameOf (skipStars v star).1) word (skipStars v star).2) ∧
    ((skipStars v star).2 = .end → nameOf (skipStars v star).1 = []) ∧
      (skipStars v star).1.head? ≠ some chStar := by
  induction v generalizing star with
  | nil => exact ⟨rfl, Iff.rfl, fun _ => rfl, nofun⟩
  | cons c v ih =>
    rw [skipStars]
    split
    · next hc =>
      subst hc
      obtain ⟨hname, hbehind⟩ := nameOf_cons (not_atWordEnd_star v)
      have hstar : star ≠ .end := fun h => by
        rw [hname] at hend
        cases hend h
      have hstate : (if atWordEnd v = true then Star.end else .inner) = if nameOf v = [] then .end
        else .inner :=
        if_congr atWordEnd_iff rfl rfl
      have hend' : (if nameOf v = [] then Star.end else .inner) = .end → nameOf v = [] := by
        intro h
        by_contra hne
        rw [if_neg hne] at h
        cases h
      obtain ⟨hb, ha, he, hh⟩ := ih (if nameOf v = [] then .end else .inner) hend'
      rw [hstate, hname, hbehind]
      exact ⟨hb, (acceptsFrom_star hstar).trans ha, he, hh⟩
    · next hc => exact ⟨rfl, Iff.rfl, hend, fun h => hc (Option.some.inj h)⟩

/-- What the scan tests where the inner loop has left it. -/
def found (r : Str × Str × Star) : Bool :=
  if r.2.1.headD 0 = 0 then r.2.2 != .none || atWordEnd r.1 else r.2.2 == .end

/-- Where the inner loop stops at the end of the name. -/
theorem found_wordEnd (h : nameOf v = []) (hw : 0 ∉ word) :
    found (v, word, star) = true ↔ AcceptsFrom (nameOf v) word star := by
  rw [h, acceptsFrom_nil, found]
  cases word with
  | nil => exact iff_of_true (by simp [atWordEnd_iff.mpr h]) (.inl rfl)
  | cons d w =>
    have hd : d ≠ 0 := fun h => hw (h ▸ List.mem_cons_self)
    simp [hd]

/-- One turn of the scan: the name at the front accepts the word or not, and the scan stops within
or behind it. -/
theorem matchWord_iff (v w : Str) (star : Star) (hend : star = .end → nameOf v = []) (hw : 0 ∉ w) :
    (found (matchWord v w star) = true ↔ AcceptsFrom (nameOf v) w star) ∧
      behindName (matchWord v w star).1 = behindName v := by
  induction w generalizing v star with
  | nil =>
    obtain ⟨hb, ha, he, hh⟩ := skipStars_spec v star hend []
    rw [matchWord]
    refine ⟨?_, hb⟩
    rw [ha]
    generalize skipStars v star = r at he hh
    obtain ⟨v', star'⟩ := r
    by_cases h : nameOf v' = []
    · exact found_wordEnd h hw
    · cases v' with
      | nil => exact absurd rfl h
      | cons c v' =>
        have hc : c ≠ chStar := fun h => hh (congrArg some h)
        have hin : ¬ atWordEnd (c :: v') = true := mt atWordEnd_iff.mp h
        rw [(nameOf_cons hin).1, acceptsFrom_end hc (mt he h)]
        simp [found, hin]
  | cons d w ih =>
    obtain ⟨hb, ha, he, hh⟩ := skipStars_spec v star hend (d :: w)
    have hd : d ≠ 0 := fun h => hw (h ▸ List.mem_cons_self)
    have hd' : (d == 0) = false := beq_eq_false_iff_ne.mpr hd
    rw [matchWord, ha, ← hb]
    generalize skipStars v star = r at he hh
    obtain ⟨v', star'⟩ := r
    dsimp only at he hh ⊢
    by_cases h : nameOf v' = []
    · rw [if_pos (by simp [atWordEnd_iff.mpr h])]
      exact ⟨found_wordEnd h hw, rfl⟩
    · cases v' with
      | nil => exact absurd rfl h
      | cons c v' =>
        have hc : c ≠ chStar := fun h => hh (congrArg some h)
        have hin : ¬ atWordEnd (c :: v') = true := mt atWordEnd_iff.mp h
        have hstar : star' ≠ .end := mt he h
        rw [(nameOf_cons hin).1, (nameOf_cons hin).2, acceptsFrom_cons hc hstar,
          Bool.eq_false_iff.mpr hin, hd']
        by_cases hcd : cmap c = cmap d
        · -- the characters agree, and both are passed
          rw [if_neg (by simp [hcd]), and_iff_right hcd]
          exact ih v' star' (fun h => absurd h hstar) fun hm => hw (List.mem_cons_of_mem _ hm)
        · have hcd' : ¬ cmap d = cmap c := fun h => hcd h.symm
          rw [if_pos (by simp [hcd'])]
          refine ⟨iff_of_false ?_ (fun h => hcd h.1), (nameOf_cons hin).2⟩
          simp [found, hd, hstar]

/-! ## All names -/

theorem verbNames_space (v : Str) : verbNames (chSpace :: v) = verbNames v := by
  have hsplit : (chSpace :: v).splitOn chSpace = [] :: v.splitOn chSpace :=
    List.splitOnP_append_cons_of_forall_mem (p := fun c => c == chSpace)
      (List.forall_mem_nil _) chSpace (beq_self_eq_true _) v
  rw [verbNames, hsplit]
  rfl

theorem verbNames_dropSpaces (v : Str) :
    verbNames (v.dropWhile fun c => c == chSpace) = verbNames v := by
  induction v with
  | nil => rfl
  | cons c v ih =>
    by_cases hc : c = chSpace
    · subst hc
      have hdrop : (chSpace :: v).dropWhile (fun c => c == chSpace) = v.dropWhile fun c =>
          c == chSpace :=
        List.dropWhile_cons_of_pos (beq_self_eq_true _)
      rw [hdrop, verbNames_space]
      exact ih
    · rw [List.dropWhile_cons_of_neg (by simpa using hc)]

theorem nameOf_append (v : Str) : nameOf v ++ behindName v = v := List.takeWhile_append_dropWhile

/-- Behind the name there is nothing or a space. -/
theorem behindName_cases (hv : 0 ∉ v) : behindName v = [] ∨ ∃ r, behindName v = chSpace :: r := by
  cases hb : behindName v with
  | nil => exact .inl rfl
  | cons c r =>
    have hc : (c != 0 && c != chSpace) = false := by
      have h := List.head?_dropWhile_not (fun c => c != 0 && c != chSpace) v
      have hb' : v.dropWhile (fun c => c != 0 && c != chSpace) = c :: r := hb
      rw [hb'] at h
      simpa using h
    have h0 : c ≠ 0 := fun h => hv (by
      rw [← nameOf_append v, hb, h]
      exact List.mem_append_right _ List.mem_cons_self)
    have hs : c = chSpace := by simpa [h0] using hc
    exact .inr ⟨r, by rw [hs]⟩

theorem not_mem_nameOf (v : Str) : chSpace ∉ nameOf v :=
  fun h => by simpa using List.mem_takeWhile_imp h

/-- The name at the front is the first. -/
theorem verbNames_eq (hv : 0 ∉ v) (h : nameOf v ≠ []) :
    verbNames v = nameOf v :: verbNames (behindName v) := by
  have hname : ∀ c ∈ nameOf v, (c == chSpace) = false :=
    fun c hc => beq_eq_false_iff_ne.mpr fun heq => not_mem_nameOf v (heq ▸ hc)
  have hkeep : ∀ l : List Str, (nameOf v :: l).filter (· ≠ []) = nameOf v :: l.filter (· ≠ []) :=
    fun l => List.filter_cons_of_pos (decide_eq_true h)
  obtain hb | ⟨r, hb⟩ := behindName_cases hv
  · have hself : nameOf v = v := by
      have happend := nameOf_append v
      rwa [hb, List.append_nil] at happend
    have hsplit := List.splitOnP_eq_singleton hname
    rw [hself] at hsplit
    have hv' : v.splitOn chSpace = [nameOf v] := hself.symm ▸ hsplit
    rw [hb, verbNames, hv', hkeep]
    rfl
  · have hsplit := List.splitOnP_append_cons_of_forall_mem hname chSpace (beq_self_eq_true _) r
    rw [← hb, nameOf_append] at hsplit
    have hv' : v.splitOn chSpace = nameOf v :: r.splitOn chSpace := hsplit
    rw [hb, verbNames_space, verbNames, hv', hkeep]
    rfl

/-- The names are parts of the text without a space. -/
theorem mem_verbNames (hv : 0 ∉ v) : ∀ n ∈ verbNames v, n.Sublist v ∧ chSpace ∉ n := by
  induction hl : v.length using Nat.strong_induction_on generalizing v with
  | _ k ih =>
    subst hl
    cases v with
    | nil => nofun
    | cons c v' =>
      by_cases hc : nameOf (c :: v') = []
      · have hs : c = chSpace := by
          obtain hb | ⟨r, hb⟩ := behindName_cases hv
          · have hself := nameOf_append (c :: v')
            rw [hc, hb] at hself
            cases hself
          · have hself := nameOf_append (c :: v')
            rw [hc, hb] at hself
            exact (List.cons.inj hself).1.symm
        rw [hs, verbNames_space]
        intro n hn
        obtain ⟨hsub, hsp⟩ :=
          ih _ (Nat.lt_succ_self _) (fun h => hv (List.mem_cons_of_mem _ h)) rfl n hn
        exact ⟨hsub.cons _, hsp⟩
      · rw [verbNames_eq hv hc]
        intro n hn
        rcases List.mem_cons.mp hn with rfl | hn
        · exact ⟨List.takeWhile_sublist _, not_mem_nameOf _⟩
        · have hsub : (behindName (c :: v')).Sublist (c :: v') := List.dropWhile_sublist _
          have hlt : (behindName (c :: v')).length < (c :: v').length := by
            have hlen := congrArg List.length (nameOf_append (c :: v'))
            rw [List.length_append] at hlen
            have hpos := List.length_pos_iff.mpr hc
            omega
          obtain ⟨hsub', hsp⟩ := ih _ hlt (fun h => hv (hsub.subset h)) rfl n hn
          exact ⟨hsub'.trans hsub, hsp⟩

/-- Where the scan goes on. -/
def nextName (v : Str) : Str := (behindName v).dropWhile fun c => c == chSpace

theorem scanNames_succ (n : Nat) (hv : v.headD 0 ≠ 0) (hw : 0 ∉ word) :
    scanNames word (n + 1) v = true ↔ AcceptsFrom (nameOf v) word .none ∨
      scanNames word n (nextName v) = true := by
  obtain ⟨hfound, hbehind⟩ := matchWord_iff v word .none nofun hw
  rw [← hfound, nextName, ← hbehind, scanNames, if_neg hv]
  show (if found (matchWord v word .none) = true then true else _) = true ↔ _
  split
  · next h => exact iff_of_true rfl (.inl h)
  · next h => exact (or_iff_right h).symm

/-- The scan from the front of a name, by induction on the turns that are left. -/
theorem scanNames_iff {n : Nat} (hv : 0 ∉ v) (hw : 0 ∉ word) (hfront : v.head? ≠ some chSpace)
    (hn : v.length < n) :
    scanNames word n v = true ↔ ∃ name ∈ verbNames v, Accepts name word := by
  induction n generalizing v with
  | zero => exact absurd hn (Nat.not_lt_zero _)
  | succ n ih =>
    cases v with
    | nil => exact iff_of_false nofun fun ⟨_, h, _⟩ => nomatch h
    | cons c v' =>
      have h0 : (c :: v').headD 0 ≠ 0 := fun h => hv (h ▸ List.mem_cons_self)
      have hname : nameOf (c :: v') ≠ [] := by
        refine mt atWordEnd_iff.mpr fun h => ?_
        rcases (Bool.or_eq_true _ _).mp h with h | h
        · exact h0 (eq_of_beq h)
        · exact hfront (congrArg some (eq_of_beq h))
      have hsub : (nextName (c :: v')).Sublist (behindName (c :: v')) := List.dropWhile_sublist _
      have hlt : (nextName (c :: v')).length < n := by
        have hlen := congrArg List.length (nameOf_append (c :: v'))
        rw [List.length_append] at hlen
        have hle := hsub.length_le
        have hpos := List.length_pos_iff.mpr hname
        omega
      have hfront' : (nextName (c :: v')).head? ≠ some chSpace := by
        intro h
        have hnot := List.head?_dropWhile_not (fun c => c == chSpace) (behindName (c :: v'))
        have h' : ((behindName (c :: v')).dropWhile fun c => c == chSpace).head? = some chSpace := h
        rw [h'] at hnot
        cases hnot
      have hv' : 0 ∉ nextName (c :: v') :=
        fun h => hv ((hsub.trans (List.dropWhile_sublist _)).subset h)
      rw [scanNames_succ n h0 hw, ih hv' hfront' hlt, verbNames_eq hv hname,
        List.exists_mem_cons_iff, nextName, verbNames_dropSpaces]
      exact Iff.rfl

/-- The texts are matched by the grammar; a space in front of the names stands for an empty one. -/
theorem verbMatches_iff (hv : 0 ∉ v) (hw : 0 ∉ word) :
    verbMatches v word = true ↔ (v.head? = some chSpace ∧ word = []) ∨
      ∃ name ∈ verbNames v, Accepts name word := by
  by_cases hfront : v.head? = some chSpace
  · obtain ⟨v', rfl⟩ : ∃ v', v = chSpace :: v' := List.head?_eq_some_iff.mp hfront
    have hname : nameOf (chSpace :: v') = [] := rfl
    have hnext : nextName (chSpace :: v') = v'.dropWhile fun c => c == chSpace := rfl
    have hsub : (nextName (chSpace :: v')).Sublist v' := hnext ▸ List.dropWhile_sublist _
    have hfront' : (nextName (chSpace :: v')).head? ≠ some chSpace := by
      intro h
      have hnot := List.head?_dropWhile_not (fun c => c == chSpace) v'
      rw [← hnext, h] at hnot
      cases hnot
    have hv' : 0 ∉ nextName (chSpace :: v') := fun h => hv (List.mem_cons_of_mem _ (hsub.subset h))
    have hlt : (nextName (chSpace :: v')).length < (chSpace :: v').length :=
      Nat.lt_succ_of_le hsub.length_le
    have h0 : (chSpace :: v').headD 0 ≠ 0 := by
      show chSpace ≠ 0
      decide
    have hempty : AcceptsFrom [] word .none ↔ word = [] := acceptsFrom_nil.trans (or_iff_left nofun)
    rw [verbMatches, scanNames_succ _ h0 hw, hname, hempty, scanNames_iff hv' hw hfront' hlt, hnext,
      verbNames_dropSpaces,
      verbNames_space, and_iff_right hfront]
  · rw [verbMatches, scanNames_iff hv hw hfront (Nat.lt_succ_self _),
      or_iff_right fun h => hfront h.1]

/-! ## Pointers and the empty word -/

/-- A text that one of its own names accepts. -/
def MatchesItself (v : Str) : Prop :=
  (v ≠ [] ∧ chSpace ∉ v ∧ chStar ∉ v) ∨ ∃ x, x ++ [chStar] ∈ verbNames v ∧ Begins (plain x) v

theorem SameText.length_eq (h : SameText s t) : s.length = t.length := by
  have hlen := congrArg List.length h
  rwa [List.length_map, List.length_map] at hlen

theorem accepts_self_iff (hv : 0 ∉ v) :
    (∃ name ∈ verbNames v, Accepts name v) ↔ MatchesItself v := by
  constructor
  · rintro ⟨name, hname, h⟩
    obtain ⟨hsub, hspace⟩ := mem_verbNames hv name hname
    cases h with
    | whole hstar h =>
      -- the name is as long as the whole text
      cases hsub.eq_of_length h.length_eq
      refine .inl ⟨?_, hspace, hstar⟩
      rintro rfl
      cases hname
    | @abbreviated x y p _ hx hp h =>
      have hlen := h.length_eq
      have hle := hsub.length_le
      have hp' := (hp.sublist.trans List.filter_sublist).length_le
      rw [List.length_append] at hlen
      rw [List.length_append, List.length_cons] at hle
      omega
    | @extended x _ h => exact .inr ⟨x, hname, h⟩
  · rintro (⟨hne, hspace, hstar⟩ | ⟨x, hx, h⟩)
    · have hname : nameOf v = v := by
        refine List.takeWhile_eq_self_iff.mpr fun c hc => ?_
        have h0 : c ≠ 0 := fun h => hv (h ▸ hc)
        have hs : c ≠ chSpace := fun h => hspace (h ▸ hc)
        simp [h0, hs]
      rw [verbNames_eq hv (hname.symm ▸ hne), hname]
      exact ⟨v, List.mem_cons_self, .whole hstar rfl⟩
    · exact ⟨_, hx, .extended h⟩

/-- The empty word is matched by the names that begin with a star. -/
theorem accepts_empty_iff (v : Str) :
    (∃ name ∈ verbNames v, Accepts name []) ↔ ∃ y, chStar :: y ∈ verbNames v := by
  constructor
  · rintro ⟨name, hname, h⟩
    cases name with
    | nil =>
      obtain ⟨-, hne⟩ := List.mem_filter.mp hname
      cases hne
    | cons c y =>
      by_cases hc : c = chStar
      · exact ⟨y, hc ▸ hname⟩
      · obtain ⟨d, w, heq, -⟩ := (accepts_cons hc).mp h
        cases heq
  · rintro ⟨y, hy⟩
    exact ⟨_, hy, .abbreviated (x := []) List.not_mem_nil List.nil_prefix rfl⟩

/-- Verb names are matched by the grammar, unless the two pointers are equal and the text does not
match itself, or the word is empty, there is a space in front of the names and none of them begins
with a star. -/
theorem verbcasecmp_iff (verb word : MooStr) (hv : 0 ∉ verb.text) (hw : 0 ∉ word.text)
    (haddr : verb.addr = word.addr → verb.text = word.text) :
    (verbcasecmp verb word = true ↔ ∃ name ∈ verbNames verb.text, Accepts name word.text) ↔
      (verb.addr = word.addr → MatchesItself verb.text) ∧
      (verb.text.head? = some chSpace → word.text = [] →
        ∃ y, chStar :: y ∈ verbNames verb.text) := by
  rw [verbcasecmp]
  split
  · next h =>
    have hself : (true = true ↔ MatchesItself verb.text) ↔
        (verb.addr = word.addr → MatchesItself verb.text) :=
      ⟨fun hm _ => hm.mp rfl, fun hm => iff_of_true rfl (hm h)⟩
    rw [← haddr h, accepts_self_iff hv, hself]
    refine (and_iff_left fun hhead hnil => ?_).symm
    rw [hnil] at hhead
    cases hhead
  · next h =>
    have hne : (verb.addr = word.addr → MatchesItself verb.text) ↔ True :=
      iff_of_true (fun heq => absurd heq h) trivial
    rw [verbMatches_iff hv hw, or_iff_right_iff_imp, hne, true_and, and_imp]
    refine forall_congr' fun _ => forall_congr' fun hnil => ?_
    rw [hnil, accepts_empty_iff]

/-- `l*ook` and `LO`. -/
theorem verbcasecmp_abbreviated :
    verbcasecmp ⟨1, [108, 42, 111, 111, 107]⟩ ⟨2, [76, 79]⟩ = true ↔
      ∃ name ∈ verbNames [108, 42, 111, 111, 107], Accepts name [76, 79] :=
  (verbcasecmp_iff ⟨1, _⟩ ⟨2, _⟩ (by decide) (by decide) nofun).mpr ⟨nofun, nofun⟩

/-- The same string `a b` as names and as a word. -/
theorem verbcasecmp_same_pointer :
    ¬ (verbcasecmp ⟨1, [97, 32, 98]⟩ ⟨1, [97, 32, 98]⟩ = true ↔
      ∃ name ∈ verbNames [97, 32, 98], Accepts name [97, 32, 98]) := by
  intro h
  rcases (accepts_self_iff (by decide)).mp (h.mp rfl) with ⟨-, hspace, -⟩ | ⟨x, hx, -⟩
  · exact hspace (by decide)
  · have hnames : verbNames [97, 32, 98] = [[97], [98]] := by decide
    rw [hnames] at hx
    simp [List.append_eq_singleton_iff, chStar] at hx

end NuMoo
