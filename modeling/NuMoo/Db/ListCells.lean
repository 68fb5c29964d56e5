import Mathlib.Data.List.InsertIdx
import NuMoo.Code.Value
import NuMoo.Db.Objects
import NuMoo.Lib.RefCount

/-!
# Lists as cells

The functions of `list.c` on lists in memory: a list is the address of a cell that counts its
references, and the list without elements is one cell that `new_list` keeps. A function takes over
the reference it is given and hands one out.

Results:
1. `Ok.newList`, `Ok.varRef`, `Ok.freeVar`: the references to lists.
2. `Ok.doinsert`, `Ok.indexset`, `Ok.listdelete`: the new contents, and that no other holder sees a
   change.
3. `Ok.setadd`, `Ok.setremove`: the same for a list of objects.
-/

namespace NuMoo

/-- The lists in memory, and the static variable `emptylist` of `new_list`. -/
structure Lists where
  heap : RcHeap (List Var)
  emptylist : Option Nat

namespace Lists

/-- The contents of a list. -/
def get (L : Lists) (a : Nat) : Option (List Var) := L.heap.get a

/-- `emptylist`, after `new_list(0)` has made sure that it exists. -/
def withEmptylist (L : Lists) : Nat × Lists :=
  match L.emptylist with
  | some a => (a, L)
  | none =>
    let (a, heap) := L.heap.alloc []
    (a, ⟨heap, some a⟩)

/-- `new_list`, and the loop that fills the list in. -/
def newList (vs : List Var) (L : Lists) : Option (Nat × Lists) :=
  match vs with
  | [] =>
    let (a, L) := L.withEmptylist
    (L.heap.addref a).map fun heap => (a, { L with heap })
  | _ :: _ =>
    let (a, heap) := L.heap.alloc vs
    some (a, { L with heap })

/-- `var_ref` -/
def varRef (a : Nat) (L : Lists) : Option Lists := (L.heap.addref a).map fun heap => { L with heap }

/-- `free_var` -/
def freeVar (a : Nat) (L : Lists) : Option Lists :=
  (L.heap.delref a).map fun heap => { L with heap }

/-- `doinsert`: in place if there is no other reference and the value goes to the end. -/
def doinsert (list : Nat) (value : Var) (pos : Nat) (L : Lists) : Option (Nat × Lists) := do
  let vs ← L.get list
  if L.heap.refcount list = 1 ∧ pos = vs.length + 1 then
    let heap ← L.heap.write list (vs ++ [value])
    some (list, { L with heap })
  else
    let (newbie, L) ← L.newList (vs.take (pos - 1) ++ value :: vs.drop (pos - 1))
    let L ← L.freeVar list
    some (newbie, L)

/-- `listappend` -/
def listappend (list : Nat) (value : Var) (L : Lists) : Option (Nat × Lists) := do
  let vs ← L.get list
  L.doinsert list value (vs.length + 1)

/-- `listdelete` -/
def listdelete (list pos : Nat) (L : Lists) : Option (Nat × Lists) := do
  let vs ← L.get list
  let (newbie, L) ← L.newList (vs.eraseIdx (pos - 1))
  let L ← L.freeVar list
  some (newbie, L)

/-- `OP_INDEXSET` on a list, with `listset`: in place if there is no other reference, else in a
copy. -/
def indexset (list : Nat) (value : Var) (index : Nat) (L : Lists) : Option (Nat × Lists) := do
  let vs ← L.get list
  if L.heap.refcount list = 1 then
    let heap ← L.heap.write list (vs.set (index - 1) value)
    some (list, { L with heap })
  else
    let (res, L) ← L.newList (vs.set (index - 1) value)
    let L ← L.freeVar list
    some (res, L)

/-- `ismember`: the position of the first element that is equal, or zero. -/
def ismember (value : Var) (vs : List Var) : Nat :=
  ((vs.findIdx? (equality false value)).map (· + 1)).getD 0

/-- `setadd` -/
def setadd (list : Nat) (value : Var) (L : Lists) : Option (Nat × Lists) := do
  let vs ← L.get list
  if ismember value vs ≠ 0 then some (list, L) else L.listappend list value

/-- `setremove` -/
def setremove (list : Nat) (value : Var) (L : Lists) : Option (Nat × Lists) := do
  let vs ← L.get list
  let i := ismember value vs
  if i ≠ 0 then L.listdelete list i else some (list, L)

/-- The loop of `db_renumber_object` over the list of users: one element changes in place. -/
def renameUser (list : Nat) (old newbie : Objid) (L : Lists) : Option Lists := do
  let vs ← L.get list
  let heap ← L.heap.write list (vs.replace (.obj old) (.obj newbie))
  some { L with heap }

/-- The cells count the references of the holders `hs` and that of `emptylist`. -/
structure Ok (L : Lists) (hs : List Nat) : Prop where
  owned : L.heap.Owned (hs ++ L.emptylist.toList)
  empty : ∀ a, L.emptylist = some a → L.get a = some []

variable {L : Lists} {hs : List Nat} {a pos : Nat} {v : Var} {vs : List Var}

theorem Ok.get_of_mem (h : L.Ok hs) (ha : a ∈ hs) : ∃ vs, L.get a = some vs := by
  obtain ⟨c, hc⟩ := h.owned.cell_of_mem (List.mem_append_left _ ha)
  exact ⟨c.2, RcHeap.get_eq hc⟩

/-- Another order of the holders. -/
theorem Ok.perm {hs' : List Nat} (h : L.Ok hs) (hp : hs'.Perm hs) : L.Ok hs' :=
  ⟨h.owned.perm fun a => (hp.append_right _).count_eq a, h.empty⟩

theorem Ok.varRef (h : L.Ok hs) (ha : a ∈ hs) :
    ∃ L', L.varRef a = some L' ∧ L'.Ok (a :: hs) ∧ ∀ b, L'.get b = L.get b := by
  obtain ⟨heap, hr, ho, hget⟩ := h.owned.addref (List.mem_append_left _ ha)
  exact ⟨⟨heap, L.emptylist⟩, by rw [Lists.varRef, hr]; rfl,
    ⟨ho, fun b hb => (hget b).trans (h.empty b hb)⟩, hget⟩

theorem Ok.freeVar (h : L.Ok (a :: hs)) :
    ∃ L', L.freeVar a = some L' ∧ L'.Ok hs ∧ ∀ b ∈ hs, L'.get b = L.get b := by
  obtain ⟨heap, hr, ho, hget⟩ := h.owned.delref
  refine ⟨⟨heap, L.emptylist⟩, by rw [Lists.freeVar, hr]; rfl, ⟨ho, fun b hb => ?_⟩,
    fun b hb => hget b (List.mem_append_left _ hb)⟩
  exact (hget b (List.mem_append_right _ (Option.mem_toList.mpr hb))).trans (h.empty b hb)

theorem Ok.withEmptylist (h : L.Ok hs) :
    ∃ a L', L.withEmptylist = (a, L') ∧ L'.emptylist = some a ∧ L'.Ok hs ∧
      ∀ b ∈ hs, L'.get b = L.get b := by
  cases he : L.emptylist with
  | some a => exact ⟨a, L, by rw [Lists.withEmptylist, he], he, h, fun _ _ => rfl⟩
  | none =>
    have howned := h.owned
    rw [he, Option.toList_none, List.append_nil] at howned
    obtain ⟨ho, hnew, hget⟩ := howned.alloc []
    refine ⟨(L.heap.alloc []).1, ⟨(L.heap.alloc []).2, some (L.heap.alloc []).1⟩,
      by rw [Lists.withEmptylist, he], rfl, ⟨?_, ?_⟩, hget⟩
    · exact ho.perm fun b => (List.perm_append_singleton _ hs).count_eq b
    · intro b hb
      cases hb
      exact hnew

theorem Ok.newList (h : L.Ok hs) (vs : List Var) :
    ∃ a L', L.newList vs = some (a, L') ∧ L'.Ok (a :: hs) ∧ L'.get a = some vs ∧
      ∀ b ∈ hs, L'.get b = L.get b := by
  cases vs with
  | nil =>
    obtain ⟨a, L₁, h₁, he, hok, hsame⟩ := h.withEmptylist
    obtain ⟨heap, hr, ho, hget⟩ := hok.owned.addref (a := a) (by simp [he])
    refine ⟨a, ⟨heap, L₁.emptylist⟩, by simp only [Lists.newList, h₁, hr, Option.map_some],
      ⟨ho, fun b hb => (hget b).trans (hok.empty b hb)⟩, (hget a).trans (hok.empty a he),
      fun b hb => (hget b).trans (hsame b hb)⟩
  | cons v vs =>
    obtain ⟨ho, hnew, hget⟩ := h.owned.alloc (v :: vs)
    refine ⟨_, ⟨_, L.emptylist⟩, rfl, ⟨ho, fun b hb => ?_⟩, hnew,
      fun b hb => hget b (List.mem_append_left _ hb)⟩
    exact (hget b (List.mem_append_right _ (Option.mem_toList.mpr hb))).trans (h.empty b hb)

/-- A new list in place of the old one. -/
theorem Ok.replaceList (h : L.Ok (a :: hs)) (vs : List Var) :
    ∃ a' L', (do let (newbie, L) ← L.newList vs; let L ← L.freeVar a; some (newbie, L)) =
      some (a', L') ∧ L'.Ok (a' :: hs) ∧
      L'.get a' = some vs ∧ ∀ b ∈ hs, L'.get b = L.get b := by
  obtain ⟨a', L₁, h₁, hok₁, hnew₁, hsame₁⟩ := h.newList vs
  obtain ⟨L₂, h₂, hok₂, hsame₂⟩ := (hok₁.perm (List.Perm.swap a' a hs)).freeVar
  refine ⟨a', L₂, by simp [h₁, h₂], hok₂, (hsame₂ a' List.mem_cons_self).trans hnew₁,
    fun b hb => ?_⟩
  exact (hsame₂ b (List.mem_cons_of_mem _ hb)).trans (hsame₁ b (List.mem_cons_of_mem _ hb))

/-- A write in place to a cell that has the only reference: neither another holder nor `emptylist`
has it. -/
theorem Ok.writeUnshared (h : L.Ok (a :: hs)) (h1 : L.heap.refcount a = 1) (vs : List Var) :
    ∃ heap, L.heap.write a vs = some heap ∧ Lists.Ok ⟨heap, L.emptylist⟩ (a :: hs) ∧
      heap.get a = some vs ∧
      ∀ b ∈ hs, heap.get b = L.get b := by
  have hnot : a ∉ hs ++ L.emptylist.toList := RcHeap.Owned.unshared h.owned h1
  obtain ⟨heap, hw, ho, hnew, hsame⟩ :=
    h.owned.write (a := a) (List.mem_append_left _ List.mem_cons_self) vs
  refine ⟨heap, hw, ⟨ho, fun b hb => ?_⟩, hnew, fun b hb => hsame b ?_⟩
  · refine (hsame b ?_).trans (h.empty b hb)
    rintro rfl
    exact hnot (List.mem_append_right _ (Option.mem_toList.mpr hb))
  · rintro rfl
    exact hnot (List.mem_append_left _ hb)

/-- An insertion is seen by the one holder that it is for, and by no other. -/
theorem Ok.doinsert (h : L.Ok (a :: hs)) (hget : L.get a = some vs) (v : Var) (pos : Nat) :
    ∃ a' L', L.doinsert a v pos = some (a', L') ∧ L'.Ok (a' :: hs) ∧
      L'.get a' = some (vs.take (pos - 1) ++ v :: vs.drop (pos - 1)) ∧
      ∀ b ∈ hs, L'.get b = L.get b := by
  simp only [Lists.doinsert, hget, Option.bind_eq_bind, Option.bind_some]
  split
  · next hc =>
    obtain ⟨h1, rfl⟩ := hc
    obtain ⟨heap, hw, hok, hnew, hsame⟩ := h.writeUnshared h1 (vs ++ [v])
    refine ⟨a, ⟨heap, L.emptylist⟩, by rw [hw]; rfl, hok, ?_, hsame⟩
    rw [Nat.add_sub_cancel, List.take_length, List.drop_length]
    exact hnew
  · exact h.replaceList _

/-- So is a new element. -/
theorem Ok.indexset (h : L.Ok (a :: hs)) (hget : L.get a = some vs) (v : Var) (index : Nat) :
    ∃ a' L', L.indexset a v index = some (a', L') ∧ L'.Ok (a' :: hs) ∧
      L'.get a' = some (vs.set (index - 1) v) ∧
      ∀ b ∈ hs, L'.get b = L.get b := by
  simp only [Lists.indexset, hget, Option.bind_eq_bind, Option.bind_some]
  split
  · next h1 =>
    obtain ⟨heap, hw, hok, hnew, hsame⟩ := h.writeUnshared h1 (vs.set (index - 1) v)
    exact ⟨a, ⟨heap, L.emptylist⟩, by rw [hw]; rfl, hok, hnew, hsame⟩
  · exact h.replaceList _

theorem Ok.listappend (h : L.Ok (a :: hs)) (hget : L.get a = some vs) (v : Var) :
    ∃ a' L', L.listappend a v = some (a', L') ∧ L'.Ok (a' :: hs) ∧ L'.get a' = some (vs ++ [v]) ∧
      ∀ b ∈ hs, L'.get b = L.get b := by
  obtain ⟨a', L', hi, hok, hnew, hsame⟩ := h.doinsert hget v (vs.length + 1)
  rw [Nat.add_sub_cancel, List.take_length, List.drop_length] at hnew
  exact ⟨a', L', by simp only [Lists.listappend, hget, Option.bind_eq_bind, Option.bind_some, hi],
    hok, hnew, hsame⟩

theorem Ok.listdelete (h : L.Ok (a :: hs)) (hget : L.get a = some vs) (pos : Nat) :
    ∃ a' L', L.listdelete a pos = some (a', L') ∧ L'.Ok (a' :: hs) ∧
      L'.get a' = some (vs.eraseIdx (pos - 1)) ∧
      ∀ b ∈ hs, L'.get b = L.get b := by
  obtain ⟨a', L', hr, hok, hnew, hsame⟩ := h.replaceList (vs.eraseIdx (pos - 1))
  exact ⟨a', L',
    by simp only [Lists.listdelete, hget, Option.bind_eq_bind, Option.bind_some]; exact hr,
    hok, hnew, hsame⟩

/-! ## Lists of objects -/

theorem findIdx?_obj (l : List Objid) (x : Objid) :
    (l.map Var.obj).findIdx? (equality false (.obj x)) = l.findIdx? (· == x) := by
  rw [List.findIdx?_map]
  congr 1
  funext y
  show decide (x = y) = decide (y = x)
  rw [decide_eq_decide]
  exact eq_comm

theorem ismember_eq_zero_iff (l : List Objid) (x : Objid) :
    ismember (.obj x) (l.map .obj) = 0 ↔ x ∉ l := by
  rw [ismember, findIdx?_obj]
  cases h : l.findIdx? (· == x) with
  | none =>
    simp only [Option.map_none, Option.getD_none, true_iff]
    intro hx
    exact absurd (List.findIdx?_eq_none_iff.mp h x hx) (by simp)
  | some i =>
    simp only [Option.map_some, Option.getD_some, Nat.add_eq_zero_iff, Nat.one_ne_zero, and_false,
      false_iff, not_not]
    obtain ⟨hi, hx, -⟩ := List.findIdx?_eq_some_iff_getElem.mp h
    exact eq_of_beq hx ▸ List.getElem_mem hi

/-- Deleting at the position that `ismember` finds. -/
theorem eraseIdx_ismember {l : List Objid} {x : Objid} (hx : x ∈ l) :
    (l.map Var.obj).eraseIdx (ismember (.obj x) (l.map .obj) - 1) = (l.erase x).map .obj := by
  rw [ismember, findIdx?_obj, ← List.idxOf?, List.eraseIdx_map]
  cases h : l.idxOf? x with
  | none => exact absurd hx (List.idxOf?_eq_none_iff.mp h)
  | some i =>
    rw [Option.map_some, Option.getD_some, Nat.add_sub_cancel, List.erase_eq_eraseIdx, h]

theorem replace_obj (l : List Objid) (old newbie : Objid) :
    (l.map Var.obj).replace (.obj old) (.obj newbie) = (l.replace old newbie).map .obj := by
  induction l with
  | nil => rfl
  | cons x l ih =>
    rw [List.map_cons, List.replace_cons, List.replace_cons]
    by_cases he : old = x
    · subst he
      simp
    · rw [beq_false_of_ne he, beq_false_of_ne fun h => he (Var.obj.inj h), ih]
      rfl

variable {l : List Objid}

theorem Ok.setadd (h : L.Ok (a :: hs)) (hget : L.get a = some (l.map .obj)) (x : Objid) :
    ∃ a' L', L.setadd a (.obj x) = some (a', L') ∧ L'.Ok (a' :: hs) ∧
      L'.get a' = some ((NuMoo.setadd l x).map .obj) ∧
      ∀ b ∈ hs, L'.get b = L.get b := by
  simp only [Lists.setadd, hget, Option.bind_eq_bind, Option.bind_some, ne_eq,
    ismember_eq_zero_iff, not_not]
  by_cases hx : x ∈ l
  · rw [if_pos hx, NuMoo.setadd, if_pos hx]
    exact ⟨a, L, rfl, h, hget, fun _ _ => rfl⟩
  · rw [if_neg hx, NuMoo.setadd, if_neg hx, List.map_append]
    exact h.listappend hget (.obj x)

theorem Ok.setremove (h : L.Ok (a :: hs)) (hget : L.get a = some (l.map .obj)) (x : Objid) :
    ∃ a' L', L.setremove a (.obj x) = some (a', L') ∧ L'.Ok (a' :: hs) ∧
      L'.get a' = some ((NuMoo.setremove l x).map .obj) ∧
      ∀ b ∈ hs, L'.get b = L.get b := by
  simp only [Lists.setremove, hget, Option.bind_eq_bind, Option.bind_some, ne_eq,
    ismember_eq_zero_iff, not_not]
  by_cases hx : x ∈ l
  · rw [if_pos hx, NuMoo.setremove, ← eraseIdx_ismember hx]
    exact h.listdelete hget _
  · rw [if_neg hx, NuMoo.setremove, List.erase_of_not_mem hx]
    exact ⟨a, L, rfl, h, hget, fun _ _ => rfl⟩

/-- A user is renamed for every holder of the list. -/
theorem Ok.renameUser (h : L.Ok hs) (ha : a ∈ hs) (hget : L.get a = some (l.map .obj))
    (he : L.emptylist ≠ some a)
    (old newbie : Objid) :
    ∃ L', L.renameUser a old newbie = some L' ∧ L'.Ok hs ∧ L'.get a =
      some ((l.replace old newbie).map .obj) ∧
      ∀ b, b ≠ a → L'.get b = L.get b := by
  obtain ⟨heap, hw, ho, hnew, hsame⟩ :=
    h.owned.write (List.mem_append_left _ ha) ((l.map Var.obj).replace (.obj old) (.obj newbie))
  refine ⟨⟨heap, L.emptylist⟩,
    by simp only [Lists.renameUser, hget, Option.bind_eq_bind, Option.bind_some, hw],
    ⟨ho, fun b hb => ?_⟩, ?_, hsame⟩
  · refine (hsame b ?_).trans (h.empty b hb)
    rintro rfl
    exact he hb
  · rw [← replace_obj]
    exact hnew

end Lists

end NuMoo
