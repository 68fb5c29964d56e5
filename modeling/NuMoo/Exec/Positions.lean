import Mathlib.Data.List.Find
import Mathlib.Data.List.InsertIdx
import NuMoo.Code.Value
import NuMoo.Exec.Ranges

/-!
# Positions in lists

The built-in functions of `list.c` that take a position: `listinsert`, `listappend`, `listset`,
`listdelete`, `assoc` and `iassoc`. A position is a 64-bit value, and the functions that do the
work take an `int`. A read or a write outside the elements of a list has no value.

Results:
1. `bfListinsert_eq`, `bfListappend_eq`: a value is inserted where the low half of the position
   says.
2. `bfListset_eq`, `bfListdelete_eq`: the range is tested before the position is narrowed.
3. `positionsExact_iff`: when all six functions do what the position says.
-/

namespace NuMoo

variable {α : Type}

/-! ## The functions -/

/-- `doinsert`; the list that is extended in place has the same elements. -/
def doinsert (list : List α) (value : α) (pos : Int) : Option (List α) := do
  let before ← elements list 1 (pos - 1).toNat
  let after ← elements list pos (list.length + 1 - pos).toNat
  return before ++ value :: after

/-- `listinsert` -/
def listinsert (list : List α) (value : α) (pos : Int) : Option (List α) :=
  doinsert list value (if pos ≤ 0 then 1 else if pos > list.length then
    int32 (list.length + 1) else pos)

/-- `listappend` -/
def listappend (list : List α) (value : α) : Option (List α) :=
  doinsert list value (int32 (list.length + 1))

/-- `listset` -/
def listset (list : List α) (value : α) (pos : Int) : Option (List α) :=
  if 1 ≤ pos ∧ pos ≤ list.length then some (list.set (pos - 1).toNat value) else none

/-- `listdelete` -/
def listdelete (list : List α) (pos : Int) : Option (List α) := do
  let before ← elements list 1 (pos - 1).toNat
  let after ← elements list (pos + 1) (list.length - pos).toNat
  return before ++ after

/-- The test that `list_assoc` and `list_iassoc` make of an element. -/
def assocTest (vtarget : Var) (vindex : Int) : Var → Option Bool
  | .list row => if row.length ≥ vindex then (element row vindex).map (equality false · vtarget)
    else some false
  | _ => some false

/-- The loop of `list_iassoc`. -/
def iassocFrom (vtarget : Var) (vindex : Int) : Int → List Var → Option Int
  | _, [] => some 0
  | i, x :: vlist => do
    if ← assocTest vtarget vindex x then return i
    else iassocFrom vtarget vindex (i + 1) vlist

/-- `list_iassoc` -/
def listIassoc (vtarget : Var) (vlist : List Var) (vindex : Int) : Option Int :=
  iassocFrom vtarget vindex 1 vlist

/-- `list_assoc` -/
def listAssoc (vtarget : Var) (vlist : List Var) (vindex : Int) : Option Var :=
  match vlist with
  | [] => some (.list [])
  | x :: vlist => do
    if ← assocTest vtarget vindex x then return x else listAssoc vtarget vlist vindex

/-- `bf_listappend`; the addition wraps. -/
def bfListappend : List Var → Option (Except ErrCode Var)
  | [.list list, value] => (listappend list value).map (.ok ∘ .list)
  | [.list list, value, .int pos] => (listinsert list value (int32 (pos + 1))).map (.ok ∘ .list)
  | _ => none

def bfListinsert : List Var → Option (Except ErrCode Var)
  | [.list list, value] => (listinsert list value 1).map (.ok ∘ .list)
  | [.list list, value, .int pos] => (listinsert list value (int32 pos)).map (.ok ∘ .list)
  | _ => none

def bfListdelete : List Var → Option (Except ErrCode Var)
  | [.list list, .int pos] =>
    if pos ≤ 0 ∨ pos > list.length then some (.error .E_RANGE)
      else (listdelete list (int32 pos)).map (.ok ∘ .list)
  | _ => none

def bfListset : List Var → Option (Except ErrCode Var)
  | [.list list, value, .int pos] =>
    if pos ≤ 0 ∨ pos > list.length then some (.error .E_RANGE)
      else (listset list value (int32 pos)).map (.ok ∘ .list)
  | _ => none

/-- What `bf_assoc` and `bf_iassoc` share: the index, narrowed and tested. -/
def withIndex (find : Var → List Var → Int → Option Var) : List Var → Option (Except ErrCode Var)
  | [vtarget, .list vlist] => (find vtarget vlist 1).map .ok
  | [vtarget, .list vlist, .int index] =>
    if int32 index < 1 then some (.error .E_RANGE) else (find vtarget vlist (int32 index)).map .ok
  | _ => none

def bfIassoc : List Var → Option (Except ErrCode Var) :=
  withIndex fun vtarget vlist index => (listIassoc vtarget vlist index).map .int

def bfAssoc : List Var → Option (Except ErrCode Var) := withIndex listAssoc

/-! ## What the positions mean -/

/-- How many elements stand in front of a value that is inserted at a position, which is clamped. -/
def inFront (length : Nat) (pos : Int) : Nat := (max 1 (min pos (length + 1)) - 1).toNat

/-- A list of at least so many elements, of which that one is equal to the value. -/
def HoldsAt (v : Var) (i : Int) : Var → Bool
  | .list row => i ≤ row.length && (element row i).any (equality false · v)
  | _ => false

/-- A list of the server whose rows are lists of the server. -/
structure Rows extends Elements Var where
  rows : ∀ row, Var.list row ∈ elems → row.length + 1 < 2 ^ 31

/-- All six functions do what the position says. -/
structure PositionsExact (l : List Var) (v : Var) (i : Int) : Prop where
  insert : bfListinsert [.list l, v, .int i] =
    some (.ok (.list (l.insertIdx (max 1 (min i (l.length + 1)) - 1).toNat v)))
  append : bfListappend [.list l, v, .int i] =
    some (.ok (.list (l.insertIdx (max 0 (min i l.length)).toNat v)))
  set : bfListset [.list l, v, .int i] =
    some (if 1 ≤ i ∧ i ≤ l.length then .ok (.list (l.set (i - 1).toNat v)) else .error .E_RANGE)
  delete : bfListdelete [.list l, .int i] =
    some (if 1 ≤ i ∧ i ≤ l.length then .ok (.list (l.eraseIdx (i - 1).toNat)) else .error .E_RANGE)
  iassoc : bfIassoc [v, .list l, .int i] =
    some (if 1 ≤ i then .ok (.int ((l.findIdx? (HoldsAt v i)).elim 0 fun k => k + 1))
      else .error .E_RANGE)
  assoc : bfAssoc [v, .list l, .int i] =
    some (if 1 ≤ i then .ok ((l.find? (HoldsAt v i)).getD (.list [])) else .error .E_RANGE)

variable {l : List α} {v x : α} {pos : Int} {k p q : Nat}

/-! ## Insertion -/

theorem elements_take (l : List α) (h : k ≤ l.length) : elements l 1 k = some (l.take k) := by
  have heq := elements_eq l 0 k (by omega)
  rwa [Nat.cast_zero, zero_add, List.drop_zero] at heq

theorem elements_drop (l : List α) (h : k ≤ l.length) :
    elements l (k + 1) (l.length - k) = some (l.drop k) := by
  rw [elements_eq l k (l.length - k) (by omega),
    List.take_of_length_le (List.length_drop ▸ le_refl _)]

theorem insertIdx_eq (h : k ≤ l.length) : l.insertIdx k v = l.take k ++ v :: l.drop k := by
  induction l generalizing k with
  | nil =>
    cases Nat.le_zero.mp h
    rfl
  | cons x l ih =>
    cases k with
    | zero => rfl
    | succ k => rw [List.insertIdx_succ_cons, ih (Nat.le_of_succ_le_succ h), List.take_succ_cons,
        List.drop_succ_cons, List.cons_append]

theorem doinsert_eq (h : k ≤ l.length) : doinsert l v (k + 1) = some (l.insertIdx k v) := by
  have hbefore : ((k : Int) + 1 - 1).toNat = k := by omega
  have hafter : ((l.length : Int) + 1 - (k + 1)).toNat = l.length - k := by omega
  rw [doinsert, hbefore, hafter, elements_take l h, elements_drop l h, insertIdx_eq h]
  rfl

theorem inFront_le (length : Nat) (pos : Int) : inFront length pos ≤ length := by
  unfold inFront
  omega

/-- A position is clamped, and the value goes there. -/
theorem listinsert_eq (l : Elements α) (v : α) (pos : Int) :
    listinsert l.elems v pos = some (l.elems.insertIdx (inFront l.elems.length pos) v) := by
  have hlen := l.length_lt
  rw [← doinsert_eq (inFront_le _ _), listinsert]
  congr 1
  split
  · unfold inFront
    omega
  · split
    · rw [int32_eq_self (by omega) (by omega)]
      unfold inFront
      omega
    · unfold inFront
      omega

/-- The position is narrowed before it is clamped. -/
theorem bfListinsert_eq (l : Elements Var) (v : Var) (i : Int) :
    bfListinsert [.list l.elems, v, .int i] =
      some (.ok (.list (l.elems.insertIdx (inFront l.elems.length (int32 i)) v))) := by
  rw [bfListinsert, listinsert_eq]
  rfl

theorem bfListappend_eq (l : Elements Var) (v : Var) (i : Int) :
    bfListappend [.list l.elems, v, .int i] =
      some (.ok (.list (l.elems.insertIdx (inFront l.elems.length (int32 (i + 1))) v))) := by
  rw [bfListappend, listinsert_eq]
  rfl

/-- A value that stands between two places may be inserted at either. -/
theorem insertIdx_comm_iff (hpq : p ≤ q) (hq : q ≤ l.length) :
    l.insertIdx p v = l.insertIdx q v ↔ ∀ x ∈ (l.take q).drop p, x = v := by
  induction l generalizing p q with
  | nil =>
    cases Nat.le_zero.mp hq
    cases Nat.le_zero.mp hpq
    simp
  | cons y l ih =>
    cases q with
    | zero =>
      cases Nat.le_zero.mp hpq
      simp
    | succ q =>
      have hq := Nat.le_of_succ_le_succ hq
      cases p with
      | zero =>
        -- the head has to be the value, and the rest is the same question for the tail
        have htail := ih (Nat.zero_le q) hq
        rw [List.drop_zero] at htail ⊢
        rw [List.insertIdx_zero, List.insertIdx_succ_cons, List.cons.injEq, List.take_succ_cons,
          List.forall_mem_cons, ← htail]
        constructor
        · rintro ⟨rfl, h⟩
          exact ⟨rfl, h⟩
        · rintro ⟨rfl, h⟩
          exact ⟨rfl, h⟩
      | succ p =>
        rw [List.insertIdx_succ_cons, List.insertIdx_succ_cons, List.cons.injEq,
          List.take_succ_cons, List.drop_succ_cons,
          ← ih (Nat.le_of_succ_le_succ hpq) hq]
        exact and_iff_right rfl

/-- Every element between two places is the value. -/
def OnlyBetween (l : List α) (v : α) (p q : Nat) : Prop :=
  ∀ x ∈ (l.take (max p q)).drop (min p q), x = v

theorem insertIdx_eq_iff (hp : p ≤ l.length) (hq : q ≤ l.length) :
    l.insertIdx p v = l.insertIdx q v ↔ OnlyBetween l v p q := by
  unfold OnlyBetween
  rcases le_total p q with h | h
  · rw [max_eq_right h, min_eq_left h]
    exact insertIdx_comm_iff h hq
  · rw [max_eq_left h, min_eq_right h, eq_comm]
    exact insertIdx_comm_iff h hp

/-! ## Replacement and deletion -/

theorem listdelete_eq (h : k < l.length) : listdelete l (k + 1) = some (l.eraseIdx k) := by
  have hbefore : ((k : Int) + 1 - 1).toNat = k := by omega
  have hafter : ((l.length : Int) - (k + 1)).toNat = l.length - (k + 1) := by omega
  have hdrop := elements_drop l (Nat.succ_le_of_lt h)
  rw [Nat.cast_succ] at hdrop
  rw [listdelete, hbefore, hafter, elements_take l h.le, hdrop, List.eraseIdx_eq_take_drop_succ]
  rfl

/-- A position that passes the test fits into an `int`. -/
theorem inRange_cases (l : Elements α) (i : Int) :
    (¬ (1 ≤ i ∧ i ≤ l.elems.length) ∧ (i ≤ 0 ∨ i > l.elems.length)) ∨
    (¬ (i ≤ 0 ∨ i > l.elems.length) ∧ int32 i = i ∧ ∃ k < l.elems.length, i = k + 1) := by
  have hlen := l.length_lt
  by_cases h : i ≤ 0 ∨ i > l.elems.length
  · exact .inl ⟨by omega, h⟩
  · exact .inr ⟨h, int32_eq_self (by omega) (by omega), (i - 1).toNat, by omega, by omega⟩

theorem bfListset_eq (l : Elements Var) (v : Var) (i : Int) :
    bfListset [.list l.elems, v, .int i] =
      some (if 1 ≤ i ∧ i ≤ l.elems.length then .ok (.list (l.elems.set (i - 1).toNat v))
        else .error .E_RANGE) := by
  rw [bfListset]
  obtain ⟨hout, h⟩ | ⟨h, hi, k, hk, rfl⟩ := inRange_cases l i
  · rw [if_pos h, if_neg hout]
  · have hin : 1 ≤ (k : Int) + 1 ∧ (k : Int) + 1 ≤ l.elems.length := by omega
    rw [if_neg h, hi, if_pos hin, listset, if_pos hin]
    rfl

theorem bfListdelete_eq (l : Elements Var) (i : Int) :
    bfListdelete [.list l.elems, .int i] =
      some (if 1 ≤ i ∧ i ≤ l.elems.length then .ok (.list (l.elems.eraseIdx (i - 1).toNat))
        else .error .E_RANGE) := by
  rw [bfListdelete]
  obtain ⟨hout, h⟩ | ⟨h, hi, k, hk, rfl⟩ := inRange_cases l i
  · rw [if_pos h, if_neg hout]
  · have hin : 1 ≤ (k : Int) + 1 ∧ (k : Int) + 1 ≤ l.elems.length := by omega
    rw [if_neg h, hi, if_pos hin, listdelete_eq hk]
    rw [add_sub_cancel_right, Int.toNat_natCast]
    rfl

/-! ## Association -/

section Association

variable {l : List Var} {v w : Var} {i : Int}

theorem assocTest_eq (hi : 1 ≤ i) (v w : Var) : assocTest v i w = some (HoldsAt v i w) := by
  cases w with
  | list row =>
    by_cases hle : i ≤ row.length
    · obtain ⟨k, rfl⟩ : ∃ k : Nat, i = k + 1 := ⟨(i - 1).toNat, by omega⟩
      have hk : k < row.length := by omega
      rw [assocTest, if_pos hle, HoldsAt, decide_eq_true hle, Bool.true_and, element_natCast,
        List.getElem?_eq_getElem hk]
      rfl
    · rw [assocTest, if_neg hle, HoldsAt, decide_eq_false hle, Bool.false_and]
  | _ => rfl

theorem listAssoc_eq (hi : 1 ≤ i) (v : Var) (l : List Var) :
    listAssoc v l i = some ((l.find? (HoldsAt v i)).getD (.list [])) := by
  induction l with
  | nil => rfl
  | cons x l ih =>
    rw [listAssoc, assocTest_eq hi, ih, Option.bind_eq_bind, Option.bind_some, List.find?_cons]
    cases HoldsAt v i x <;> rfl

theorem iassocFrom_eq (hi : 1 ≤ i) (v : Var) (l : List Var) (j : Int) :
    iassocFrom v i j l = some ((l.findIdx? (HoldsAt v i)).elim 0 fun k => k + j) := by
  induction l generalizing j with
  | nil => rfl
  | cons x l ih =>
    rw [iassocFrom, assocTest_eq hi, ih, Option.bind_eq_bind, Option.bind_some, List.findIdx?_cons]
    cases HoldsAt v i x with
    | true =>
      rw [if_pos rfl, if_pos rfl, Option.elim_some, Nat.cast_zero, zero_add]
      rfl
    | false =>
      rw [if_neg Bool.false_ne_true, if_neg Bool.false_ne_true]
      cases l.findIdx? (HoldsAt v i) with
      | none => rfl
      | some k =>
        rw [Option.elim_some, Option.map_some, Option.elim_some, Nat.cast_succ,
          add_right_comm, add_assoc]

theorem bfAssoc_eq (v : Var) (l : List Var) (i : Int) :
    bfAssoc [v, .list l, .int i] =
      some (if 1 ≤ int32 i then .ok ((l.find? (HoldsAt v (int32 i))).getD (.list []))
        else .error .E_RANGE) := by
  rw [bfAssoc, withIndex]
  split
  · next h => rw [if_neg (not_le.mpr h)]
  · next h =>
    rw [if_pos (not_lt.mp h), listAssoc_eq (not_lt.mp h)]
    rfl

theorem bfIassoc_eq (v : Var) (l : List Var) (i : Int) :
    bfIassoc [v, .list l, .int i] =
      some (if 1 ≤ int32 i then
        .ok (.int ((l.findIdx? (HoldsAt v (int32 i))).elim 0 fun k => k + 1))
          else .error .E_RANGE) := by
  rw [bfIassoc, withIndex]
  split
  · next h => rw [if_neg (not_le.mpr h)]
  · next h =>
    rw [if_pos (not_lt.mp h), listIassoc, iassocFrom_eq (not_lt.mp h)]
    rfl

/-- The low half of an index is positive if and only if the index is, and where it is another number
it finds nothing. -/
structure IndexAgrees (l : List Var) (v : Var) (i : Int) : Prop where
  sign : 1 ≤ int32 i ↔ 1 ≤ i
  none : 2 ^ 31 ≤ i → ∀ w ∈ l, ¬ HoldsAt v (int32 i) w

/-- No row is so long. -/
theorem Rows.not_holdsAt (l : Rows) (hi : 2 ^ 31 ≤ i) : ∀ w ∈ l.elems, ¬ HoldsAt v i w := by
  intro w hw h
  cases w with
  | list row =>
    have hlen := l.rows row hw
    have hle : i ≤ row.length := of_decide_eq_true (Bool.and_eq_true_iff.mp h).1
    omega
  | _ => cases h

theorem holdsAt_agree (l : Rows) (h : IndexAgrees l.elems v i) (hi : 1 ≤ i) :
    ∀ w ∈ l.elems, HoldsAt v (int32 i) w = HoldsAt v i w := by
  intro w hw
  rcases lt_or_ge i (2 ^ 31) with hlt | hge
  · rw [int32_eq_self (by omega) hlt]
  · rw [Bool.eq_false_iff.mpr (h.none hge w hw), Bool.eq_false_iff.mpr (l.not_holdsAt hge w hw)]

theorem findIdx?_congr {f g : α → Bool} {l : List α} (h : ∀ x ∈ l, f x = g x) :
    l.findIdx? f = l.findIdx? g := by
  induction l with
  | nil => rfl
  | cons x l ih =>
    rw [List.findIdx?_cons, List.findIdx?_cons, h x List.mem_cons_self,
      ih fun y hy => h y (List.mem_cons_of_mem _ hy)]

theorem IndexAgrees.iassoc (l : Rows) (h : IndexAgrees l.elems v i) :
    bfIassoc [v, .list l.elems, .int i] =
      some (if 1 ≤ i then .ok (.int ((l.elems.findIdx? (HoldsAt v i)).elim 0 fun k => k + 1))
        else .error .E_RANGE) := by
  rw [bfIassoc_eq, if_congr h.sign rfl rfl]
  split
  · next hi => rw [findIdx?_congr (holdsAt_agree l h hi)]
  · rfl

theorem IndexAgrees.assoc (l : Rows) (h : IndexAgrees l.elems v i) :
    bfAssoc [v, .list l.elems, .int i] =
      some (if 1 ≤ i then .ok ((l.elems.find? (HoldsAt v i)).getD (.list []))
        else .error .E_RANGE) := by
  rw [bfAssoc_eq, if_congr h.sign rfl rfl]
  split
  · next hi => rw [List.find?_congr (holdsAt_agree l h hi)]
  · rfl

theorem indexAgrees_of_iassoc (l : Rows)
    (h : bfIassoc [v, .list l.elems, .int i] =
      some (if 1 ≤ i then .ok (.int ((l.elems.findIdx? (HoldsAt v i)).elim 0 fun k => k + 1))
        else .error .E_RANGE)) :
    IndexAgrees l.elems v i := by
  rw [bfIassoc_eq, Option.some_inj] at h
  have hsign : 1 ≤ int32 i ↔ 1 ≤ i := by
    split at h <;> split at h
    · next h₁ h₂ => exact iff_of_true h₁ h₂
    · cases h
    · cases h
    · next h₁ h₂ => exact iff_of_false h₁ h₂
  refine ⟨hsign, fun hi w hw => ?_⟩
  have h1 : 1 ≤ i := by omega
  have hnone : l.elems.findIdx? (HoldsAt v i) = none :=
    List.findIdx?_eq_none_iff.mpr fun w hw => Bool.eq_false_iff.mpr (l.not_holdsAt hi w hw)
  rw [if_pos h1, if_pos (hsign.mpr h1), hnone] at h
  have hnone' : l.elems.findIdx? (HoldsAt v (int32 i)) = none := by
    cases hf : l.elems.findIdx? (HoldsAt v (int32 i)) with
    | none => rfl
    | some k =>
      rw [hf] at h
      have hk : (k : Int) + 1 = 0 := by simpa using h
      omega
  exact Bool.eq_false_iff.mp (List.findIdx?_eq_none_iff.mp hnone' w hw)

end Association

/-! ## All six functions -/

/-- The low half of the position stands for the same place: the value is inserted there, or among
copies of itself, by `listinsert` and by `listappend`, and an index agrees. -/
structure PositionAgrees (l : List Var) (v : Var) (i : Int) : Prop where
  insert : OnlyBetween l v (inFront l.length (int32 i)) (inFront l.length i)
  append : OnlyBetween l v (inFront l.length (int32 (i + 1))) (inFront l.length (i + 1))
  index : IndexAgrees l v i

theorem inFront_succ (length : Nat) (pos : Int) :
    inFront length (pos + 1) = (max 0 (min pos length)).toNat := by
  unfold inFront
  omega

theorem insert_iff (l : Elements Var) (v : Var) (i : Int) :
    bfListinsert [.list l.elems, v, .int i] =
      some (.ok (.list (l.elems.insertIdx (max 1 (min i (l.elems.length + 1)) - 1).toNat v))) ↔
    OnlyBetween l.elems v (inFront l.elems.length (int32 i)) (inFront l.elems.length i) := by
  rw [bfListinsert_eq, ← insertIdx_eq_iff (inFront_le _ _) (inFront_le _ _)]
  simp [inFront]

theorem append_iff (l : Elements Var) (v : Var) (i : Int) :
    bfListappend [.list l.elems, v, .int i] =
      some (.ok (.list (l.elems.insertIdx (max 0 (min i l.elems.length)).toNat v))) ↔
    OnlyBetween l.elems v (inFront l.elems.length (int32 (i + 1)))
    (inFront l.elems.length (i + 1)) := by
  rw [bfListappend_eq, ← inFront_succ, ← insertIdx_eq_iff (inFront_le _ _) (inFront_le _ _)]
  simp

/-- Positions are exact if and only if the low half of the position stands for the same place. -/
theorem positionsExact_iff (l : Rows) (v : Var) (i : Int64) :
    PositionsExact l.elems v i.toInt ↔ PositionAgrees l.elems v i.toInt := by
  constructor
  · intro h
    exact ⟨(insert_iff l.toElements v _).mp h.insert, (append_iff l.toElements v _).mp h.append,
      indexAgrees_of_iassoc l h.iassoc⟩
  · intro h
    exact ⟨(insert_iff l.toElements v _).mpr h.insert, (append_iff l.toElements v _).mpr h.append,
      bfListset_eq l.toElements v _,
      bfListdelete_eq l.toElements _, h.index.iassoc l, h.index.assoc l⟩

/-- The position `2^32` in `{1}`: the value is inserted in front of the list instead of behind
it. -/
theorem not_positionsExact : ¬ PositionsExact [.int 1] (.int 2) (Int64.ofInt (2 ^ 32)).toInt := by
  intro h
  have heq := h.insert
  revert heq
  decide

end NuMoo
