import NuMoo.Db.Properties

/-!
# Moves in the hierarchies

The list macros of `db_objects.c` act on one family of link fields as the
operations of `Linked.Links` and leave the rest of the database alone.

Results:
1. `llRemove_spec`, `llAppend_spec`, `renumberLinks_spec`: the macros and the blocks of
   `db_renumber_object` refine the list operations.
2. `moveLinks_spec`: taking an object out of one list and into another keeps the
   hierarchy a forest.
-/

namespace NuMoo

open Linked

namespace Db

/-- The databases agree on everything but the link fields `F`. -/
abbrev SameBut (F : LinkFields) (db db' : Db) : Prop :=
  SameUpTo (F.set ⟨NOTHING, NOTHING, NOTHING⟩) db db'

/-- An object of the second database is that of the first with other links. -/
theorem SameUpTo.exists_links {F : LinkFields} {db db' : Db} {x : Objid} {o : Object}
    (h : SameBut F db db')
    (hx : db.find x = some o) : ∃ o', db'.find x = some o' ∧ o' = F.set (F.get o') o := by
  obtain ⟨o', ho', he⟩ := h.exists_find hx
  refine ⟨o', ho', ?_⟩
  calc o' = F.set (F.get o') (F.set ⟨NOTHING, NOTHING, NOTHING⟩ o') := by rw [F.set_set, F.set_get]
    _ = F.set (F.get o') o := by rw [he, F.set_set]

theorem sameBut_put {F : LinkFields} {db : Db} {x : Objid} {o : Object} (hx : db.find x = some o)
    (c : Cell Objid) : SameBut F db (db.put x (F.set c o)) := .put hx (F.set_set _ _ _)

section Setters

variable {F : LinkFields} {db : Db} {x v : Objid} {o : Object}

theorem setUp_spec (hx : db.find x = some o) :
    ∃ db', db.setUp F x v = some db' ∧ db'.links F = (db.links F).setUp x v ∧ SameBut F db db' := by
  refine ⟨_, by rw [setUp, modify, hx]; rfl, ?_, sameBut_put hx _⟩
  rw [links_put hx, F.get_set]
  funext y
  by_cases h : y = x
  · subst h
    simp [Links.setUp, links_eq hx]
  · simp [Links.setUp, h]

theorem setHead_spec (hx : db.find x = some o) :
    ∃ db', db.setHead F x v = some db' ∧ db'.links F = (db.links F).setHead x v ∧
      SameBut F db db' := by
  refine ⟨_, by rw [setHead, modify, hx]; rfl, ?_, sameBut_put hx _⟩
  rw [links_put hx, F.get_set]
  funext y
  by_cases h : y = x
  · subst h
    simp [Links.setHead, links_eq hx]
  · simp [Links.setHead, h]

theorem setNext_spec (hx : db.find x = some o) :
    ∃ db', db.setNext F x v = some db' ∧ db'.links F = (db.links F).setNext x v ∧
      SameBut F db db' := by
  refine ⟨_, by rw [setNext, modify, hx]; rfl, ?_, sameBut_put hx _⟩
  rw [links_put hx, F.get_set]
  funext y
  by_cases h : y = x
  · subst h
    simp [Links.setNext, links_eq hx]
  · simp [Links.setNext, h]

/-- Two updates in a row; the second object exists before the first. -/
theorem setNext_setNext_spec {y w : Objid} {o' : Object} (hx : db.find x = some o)
    (hy : db.find y = some o') :
    ∃ db', (db.setNext F x v).bind (setNext F y w) = some db' ∧
      db'.links F = ((db.links F).setNext x v).setNext y w ∧ SameBut F db db' := by
  obtain ⟨db₁, h₁, hl₁, hs₁⟩ := setNext_spec (F := F) (v := v) hx
  obtain ⟨o₁, ho₁, -⟩ := hs₁.exists_find hy
  obtain ⟨db₂, h₂, hl₂, hs₂⟩ := setNext_spec (F := F) (v := w) ho₁
  exact ⟨db₂, by rw [h₁, Option.bind_some, h₂], by rw [hl₂, hl₁], hs₁.trans hs₂⟩

theorem setHead_setNext_spec {y w : Objid} {o' : Object} (hx : db.find x = some o)
    (hy : db.find y = some o') :
    ∃ db', (db.setHead F x v).bind (setNext F y w) = some db' ∧
      db'.links F = ((db.links F).setHead x v).setNext y w ∧ SameBut F db db' := by
  obtain ⟨db₁, h₁, hl₁, hs₁⟩ := setHead_spec (F := F) (v := v) hx
  obtain ⟨o₁, ho₁, -⟩ := hs₁.exists_find hy
  obtain ⟨db₂, h₂, hl₂, hs₂⟩ := setNext_spec (F := F) (v := w) ho₁
  exact ⟨db₂, by rw [h₁, Option.bind_some, h₂], by rw [hl₂, hl₁], hs₁.trans hs₂⟩

end Setters

section Lists

variable {F : LinkFields} {db : Db} {w x : Objid} {L' : Links Objid}

/-- An element whose successor is known is a valid object. -/
theorem find_of_findPrev {a y : Objid} {n : Nat}
    (h : findPrev (db.links F).next NOTHING x n a = some (some y)) : ∃ o, db.find y = some o := by
  induction n generalizing a with
  | zero => cases h
  | succ n ih =>
    simp only [findPrev] at h
    split at h
    · cases h
    · rw [Option.bind_eq_some_iff] at h
      obtain ⟨z, hz, h⟩ := h
      split at h
      · cases h
        obtain ⟨c, hc, -⟩ := Links.exists_of_next hz
        obtain ⟨o, ho, -⟩ := exists_of_links hc
        exact ⟨o, ho⟩
      · exact ih h

theorem find_of_findLast {a y : Objid} {n : Nat}
    (h : findLast (db.links F).next NOTHING n a = some y) :
    ∃ o, db.find y = some o := by
  induction n generalizing a with
  | zero => cases h
  | succ n ih =>
    simp only [findLast, Option.bind_eq_some_iff] at h
    obtain ⟨z, hz, h⟩ := h
    split at h
    · cases h
      obtain ⟨c, hc, -⟩ := Links.exists_of_next hz
      obtain ⟨o, ho, -⟩ := exists_of_links hc
      exact ⟨o, ho⟩
    · exact ih h

/-- `LL_REMOVE` refines unlinking. -/
theorem llRemove_spec (h : (db.links F).remove NOTHING db.bound w x = some L') :
    ∃ db', db.llRemove F w x = some db' ∧ db'.links F = L' ∧ SameBut F db db' := by
  simp only [Links.remove, Option.bind_eq_bind, Option.bind_eq_some_iff] at h
  obtain ⟨cw, hw, cx, hx, h⟩ := h
  obtain ⟨ow, how, rfl⟩ := exists_of_links hw
  obtain ⟨ox, hox, rfl⟩ := exists_of_links hx
  simp only [llRemove, how, hox, Option.bind_eq_bind, Option.bind_some]
  split at h
  · next hh =>
    cases h
    rw [if_pos hh]
    exact setHead_setNext_spec how hox
  · next hh =>
    rw [if_neg hh]
    rw [Option.bind_eq_some_iff] at h
    obtain ⟨r, hr, h⟩ := h
    rw [hr, Option.bind_some]
    cases r with
    | none =>
      cases h
      exact setNext_spec hox
    | some y =>
      cases h
      obtain ⟨oy, hoy⟩ := find_of_findPrev hr
      exact setNext_setNext_spec hoy hox

/-- `LL_APPEND` refines linking at the end. -/
theorem llAppend_spec {ox : Object} (hox : db.find x = some ox)
    (h : (db.links F).append NOTHING db.bound w x = some L') :
    ∃ db', db.llAppend F w x = some db' ∧ db'.links F = L' ∧ SameBut F db db' := by
  simp only [Links.append, Option.bind_eq_bind, Option.bind_eq_some_iff] at h
  obtain ⟨cw, hw, h⟩ := h
  obtain ⟨ow, how, rfl⟩ := exists_of_links hw
  simp only [llAppend, how, Option.bind_eq_bind, Option.bind_some]
  split at h
  · next hh =>
    cases h
    rw [if_pos hh]
    exact setHead_setNext_spec how hox
  · next hh =>
    rw [if_neg hh]
    rw [Option.bind_eq_some_iff] at h
    obtain ⟨y, hy, h⟩ := h
    cases h
    rw [hy, Option.bind_some]
    obtain ⟨oy, hoy⟩ := find_of_findLast hy
    exact setNext_setNext_spec hoy hox

/-- The three steps by which both `db_change_parent` and `db_change_location` move `x`. -/
def moveLinks (F : LinkFields) (x old p : Objid) (db : Db) : Option Db := do
  let db ← (if old ≠ NOTHING then db.llRemove F old x else some db)
  let db ← (if p ≠ NOTHING then db.llAppend F p x else some db)
  db.setUp F x p

/-- Moving an object keeps the hierarchy a forest and changes one parent link. -/
theorem moveLinks_spec {p : Objid} {o : Object} (hL : (db.links F).WF NOTHING)
    (hx : db.find x = some o)
    (hp : p = NOTHING ∨ ∃ op, db.find p = some op) (hacyc : ¬ (db.links F).Below x p) :
    ∃ db', db.moveLinks F x (F.get o).up p = some db' ∧ (db'.links F).WF NOTHING ∧
      Links.Reparented (db.links F) (db'.links F) x p ∧ SameBut F db db' := by
  have hp' : p = NOTHING ∨ ∃ cp, db.links F p = some cp :=
    hp.imp_right fun ⟨op, hop⟩ => ⟨_, links_eq hop⟩
  obtain ⟨L', h, hwf, hr⟩ :=
    hL.reparent (links_eq hx) hp' (fun k hk => hacyc ⟨k, hk⟩) (links_bound db F)
  simp only [Links.reparent, links_eq hx, Option.bind_eq_bind, Option.bind_some,
    Option.bind_eq_some_iff] at h
  obtain ⟨L₁, h₁, L₂, h₂, h⟩ := h
  cases h
  obtain ⟨db₁, hd₁, hl₁, hs₁⟩ : ∃ db₁, (if (F.get o).up ≠ NOTHING then db.llRemove F (F.get o).up x
    else some db) =
      some db₁ ∧ db₁.links F = L₁ ∧ SameBut F db db₁ := by
    unfold Links.detach at h₁
    by_cases hu : (F.get o).up = NOTHING
    · rw [if_pos hu] at h₁
      cases h₁
      exact ⟨db, if_neg (not_not.mpr hu), rfl, .refl db⟩
    · rw [if_neg hu] at h₁
      obtain ⟨db₁, hd, hl, hs⟩ := llRemove_spec h₁
      exact ⟨db₁, by rw [if_pos hu, hd], hl, hs⟩
  obtain ⟨o₁, ho₁, -⟩ := hs₁.exists_find hx
  obtain ⟨db₂, hd₂, hl₂, hs₂⟩ : ∃ db₂, (if p ≠ NOTHING then db₁.llAppend F p x
    else some db₁) = some db₂ ∧
      db₂.links F = L₂ ∧ SameBut F db₁ db₂ := by
    unfold Links.attach at h₂
    rw [← hl₁, ← hs₁.bound] at h₂
    by_cases hpn : p = NOTHING
    · rw [if_pos hpn] at h₂
      cases h₂
      exact ⟨db₁, if_neg (not_not.mpr hpn), rfl, .refl db₁⟩
    · rw [if_neg hpn] at h₂
      obtain ⟨db₂, hd, hl, hs⟩ := llAppend_spec ho₁ h₂
      exact ⟨db₂, by rw [if_pos hpn, hd], hl, hs⟩
  obtain ⟨o₂, ho₂, -⟩ := hs₂.exists_find ho₁
  obtain ⟨db₃, hd₃, hl₃, hs₃⟩ := setUp_spec (F := F) (v := p) ho₂
  refine ⟨db₃, ?_, by rw [hl₃, hl₂]; exact hwf, by rw [hl₃, hl₂]; exact hr,
    (hs₁.trans hs₂).trans hs₃⟩
  simp only [moveLinks, hd₁, hd₂, hd₃, Option.bind_eq_bind, Option.bind_some]

/-- Rewriting the parent links of a list refines the loop over the links. -/
theorem forChain_setUp_spec {v a : Objid} {n m : Nat} {db : Db} {L' : Links Objid}
    (h : forChain Links.next NOTHING (fun x L => (L x).map fun _ => L.setUp x v) n a (db.links F) =
      some L')
    (hm : n = m) :
    ∃ db', forChain (fun db => (db.links F).next) NOTHING (fun x db => db.setUp F x v) m a db =
      some db' ∧
      db'.links F = L' ∧ SameBut F db db' := by
  subst hm
  induction n generalizing a db with
  | zero => cases h
  | succ n ih =>
    simp only [forChain] at h ⊢
    split at h
    · next ha =>
      cases h
      exact ⟨db, if_pos ha, rfl, .refl db⟩
    · next ha =>
      simp only [Option.bind_eq_some_iff, Option.map_eq_some_iff] at h
      obtain ⟨L₁, ⟨c, hc, rfl⟩, z, hz, h⟩ := h
      obtain ⟨o, ho, rfl⟩ := exists_of_links hc
      obtain ⟨db₁, h₁, hl₁, hs₁⟩ := setUp_spec (F := F) (v := v) ho
      rw [← hl₁] at h hz
      obtain ⟨db₂, h₂, hl₂, hs₂⟩ := ih h
      exact ⟨db₂, by rw [if_neg ha, h₁, Option.bind_some, hz, Option.bind_some, h₂],
        hl₂, hs₁.trans hs₂⟩

/-- A block of `db_renumber_object` refines the rewriting of the links. -/
theorem renumberLinks_spec {old new : Objid}
    (h : (db.links F).relink NOTHING db.bound old new = some L') :
    ∃ db', db.renumberLinks F old new = some db' ∧ db'.links F = L' ∧ SameBut F db db' := by
  simp only [Links.relink, Option.bind_eq_bind, Option.bind_eq_some_iff] at h
  obtain ⟨c, hc, L₁, h₁, c₁, hc₁, h⟩ := h
  obtain ⟨o, ho, rfl⟩ := exists_of_links hc
  obtain ⟨db₁, hd₁, hl₁, hs₁⟩ :
      ∃ db₁, (if (F.get o).up ≠ NOTHING then db.renumberOnList F old new (F.get o).up
      else some db) = some db₁ ∧ db₁.links F = L₁ ∧ SameBut F db db₁ := by
    unfold Links.redirect at h₁
    split at h₁
    · next hu =>
      cases h₁
      exact ⟨db, if_neg (not_not.mpr hu), rfl, .refl db⟩
    · next hu =>
      rw [if_pos hu]
      rw [Option.bind_eq_some_iff] at h₁
      obtain ⟨cp, hcp, h₁⟩ := h₁
      obtain ⟨p, hp, rfl⟩ := exists_of_links hcp
      simp only [renumberOnList, hp, Option.bind_eq_bind, Option.bind_some]
      split at h₁
      · next hh =>
        cases h₁
        rw [if_pos hh]
        exact setHead_spec hp
      · next hh =>
        rw [if_neg hh]
        simp only [Option.bind_eq_some_iff, Option.map_eq_some_iff] at h₁
        obtain ⟨r, hr, y, rfl, rfl⟩ := h₁
        rw [hr, Option.bind_some]
        obtain ⟨oy, hoy⟩ := find_of_findPrev hr
        exact setNext_spec hoy
  rw [← hl₁] at hc₁ h
  obtain ⟨o₁, ho₁, rfl⟩ := exists_of_links hc₁
  obtain ⟨db₂, hd₂, hl₂, hs₂⟩ := forChain_setUp_spec h hs₁.bound.symm
  refine ⟨db₂, ?_, hl₂, hs₁.trans hs₂⟩
  simp only [renumberLinks, ho, hd₁, ho₁, hd₂, Option.bind_eq_bind, Option.bind_some]

end Lists

end Db

end NuMoo
