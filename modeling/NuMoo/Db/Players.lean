import NuMoo.Db.Safety
import NuMoo.Db.Users

/-!
# The list that players() returns

The database together with the cell of `all_users`, which `players()` hands out, and the values that
MOO code holds. The list of the database model says what is in the cell.

Results:
1. `UserAct.run_spec`: one operation, with what it does to the values that are held.
2. `UserAct.keeps_iff`: an operation changes such a value only by renumbering a user in a cell that
   is shared.
3. `UserRun.exact_and_stable`: the list over whole runs.
-/

namespace NuMoo

open Db

/-- A list that MOO code holds: a name for the value, never used again, and the address of its
cell. -/
structure Holder where
  name : Nat
  addr : Nat
deriving DecidableEq

/-- The database, the lists in memory, the static variable `all_users` and the values that are
held. -/
structure UserState where
  db : Db
  lists : Lists
  all_users : Nat
  held : List Holder
  nextName : Nat

namespace UserState

/-- The end of `read_db_file`: the list that was read becomes `all_users`. -/
def start (db : Db) : Option UserState := do
  let (a, lists) ← Lists.newList (db.allUsers.map .obj) ⟨⟨fun _ => none, 0⟩, none⟩
  some { db, lists, all_users := a, held := [], nextName := 0 }

/-- A new value, which holds the reference to `a` that was handed out. -/
def hold (a : Nat) (s : UserState) : UserState :=
  { s with held := ⟨s.nextName, a⟩ :: s.held, nextName := s.nextName + 1 }

/-- `db_destroy_object`, with the cell of `all_users`. -/
def destroyObject (oid : Objid) (s : UserState) : Option UserState := do
  let db ← s.db.dbDestroyObject oid
  if s.db.isUser oid then
    let (a, lists) ← s.lists.setremove s.all_users (.obj oid)
    some { s with db, lists, all_users := a }
  else some { s with db }

/-- `bf_recycle` from `moving_contents`. -/
def recycle2 (oid progr : Objid) (call : CallVerb) (s : UserState) : Option UserState := do
  let (r, db) ← s.db.bfRecycleToDestroy oid progr call
  match r with
  | .inl _ => some { s with db }
  | .inr _ => destroyObject oid { s with db }

/-- `bf_recycle` from `case 1`. -/
def recycle1 (oid progr : Objid) (call : CallVerb) (s : UserState) : Option UserState := do
  if !s.db.valid oid then return s
  if !(← s.db.controls progr oid) then return s
  match call oid .recycle with
  | .E_NONE => return s
  | _ => s.recycle2 oid progr call

/-- `bf_set_player_flag` -/
def setPlayerFlag (oid progr : Objid) (flag : Bool) (s : UserState) : Option UserState := do
  if !s.db.valid oid then return s
  if !s.db.isWizard progr then return s
  let db ← (if flag then s.db.dbSetObjectFlag oid .FLAG_USER
    else s.db.dbClearObjectFlag oid .FLAG_USER)
  let (a, lists) ← (if flag then s.lists.setadd s.all_users (.obj oid)
    else s.lists.setremove s.all_users (.obj oid))
  some { s with db, lists, all_users := a }

/-- `bf_renumber`, with the cell of `all_users`. -/
def renumber (oid progr : Objid) (s : UserState) : Option UserState := do
  if !s.db.valid oid then return s
  if !s.db.isWizard progr then return s
  let (newbie, db) ← s.db.dbRenumberObject oid
  if newbie ≠ oid ∧ db.isUser newbie then
    let lists ← s.lists.renameUser s.all_users oid newbie
    some { s with db, lists }
  else some { s with db }

/-- `bf_players` -/
def players (s : UserState) : Option UserState := do
  let lists ← s.lists.varRef s.all_users
  some ({ s with lists }.hold s.all_users)

/-- An operation that takes over the reference of one value and hands out that of another. -/
def exchange (i : Nat) (f : Nat → Lists → Option (Nat × Lists)) (s : UserState) :
    Option UserState := do
  let h ← s.held[i]?
  let (a, lists) ← f h.addr s.lists
  some ({ s with lists, held := s.held.eraseIdx i }.hold a)

end UserState

/-- The operations: those on the users, those of MOO code on the lists that it holds, and all
others, which leave a database with the same users. -/
inductive UserAct where
  | create (parent : Objid) (owner : Option Objid) (progr junk : Objid) (call : CallVerb)
  | setPlayerFlag (oid progr : Objid) (flag : Bool)
  | recycle (oid progr : Objid) (call : CallVerb)
  | resumeRecycle (oid progr : Objid) (call : CallVerb)
  | renumber (oid progr : Objid)
  | players
  | makeList (vs : List Var)
  | varRef (i : Nat)
  | freeVar (i : Nat)
  | listappend (i : Nat) (value : Var)
  | listdelete (i pos : Nat)
  | indexset (i : Nat) (value : Var) (index : Nat)
  | other (db : Db)

namespace UserAct

/-- Perform an operation. -/
def run (a : UserAct) (s : UserState) : Option UserState :=
  match a with
  | create parent owner progr junk call => (s.db.bfCreate parent owner progr junk call).map fun r =>
    { s with db := r.2 }
  | setPlayerFlag oid progr flag => s.setPlayerFlag oid progr flag
  | recycle oid progr call => s.recycle1 oid progr call
  | resumeRecycle oid progr call => s.recycle2 oid progr call
  | renumber oid progr => s.renumber oid progr
  | players => s.players
  | makeList vs => (s.lists.newList vs).map fun r => { s with lists := r.2 }.hold r.1
  | varRef i => do
    let h ← s.held[i]?
    let lists ← s.lists.varRef h.addr
    some ({ s with lists }.hold h.addr)
  | freeVar i => do
    let h ← s.held[i]?
    let lists ← s.lists.freeVar h.addr
    some { s with lists, held := s.held.eraseIdx i }
  | listappend i value => s.exchange i fun list => Lists.listappend list value
  | listdelete i pos => s.exchange i fun list => Lists.listdelete list pos
  | indexset i value index => s.exchange i fun list => Lists.indexset list value index
  | other db => some { s with db }

/-- What the callers of an operation have checked. -/
def Allowed (a : UserAct) (s : UserState) : Prop :=
  match a with
  | varRef i | freeVar i | listappend i _ | listdelete i _ | indexset i _ _ => i < s.held.length
  | other db => db.Inv ∧ s.db.SameUsers db
  | create .. | setPlayerFlag .. | recycle .. | resumeRecycle .. | renumber .. | players
  | makeList .. => True

/-- A user that gets another number finds the list of users in a cell that has no other
reference. -/
def Unshared (a : UserAct) (s : UserState) : Prop :=
  match a with
  | renumber oid progr => s.db.isWizard progr = true → s.db.isUser oid = true →
      (∃ n : Nat, n < oid.toNat ∧ s.db.find n = none) → s.lists.heap.refcount s.all_users = 1
  | _ => True

end UserAct

namespace UserState

/-- The list has each valid object with the user flag once, and nothing else. -/
def Exact (s : UserState) : Prop :=
  ∃ l : List Objid, s.lists.get s.all_users = some (l.map .obj) ∧ l.Nodup ∧ ∀ x, x ∈ l ↔
    s.db.isUser x = true

/-- A value that was held and is still held is what it was. -/
def Keeps (s s' : UserState) : Prop :=
  ∀ h ∈ s.held, h ∈ s'.held → s'.lists.get h.addr = s.lists.get h.addr

/-- The lists count the references, and the list of the database is what the cell holds. -/
structure Inv (s : UserState) : Prop where
  db : s.db.Inv
  users : s.db.ExactUsers
  lists : s.lists.Ok (s.all_users :: s.held.map Holder.addr)
  view : s.lists.get s.all_users = some (s.db.allUsers.map .obj)
  names : ∀ h ∈ s.held, h.name < s.nextName

/-- No value comes back. -/
structure Follows (s s' : UserState) : Prop where
  nextName : s.nextName ≤ s'.nextName
  held : ∀ h ∈ s'.held, h.name < s.nextName → h ∈ s.held

variable {s s' s'' : UserState}

theorem Inv.exact (hi : s.Inv) : s.Exact :=
  ⟨s.db.allUsers, hi.view, hi.users.nodup, hi.users.mem_iff⟩

theorem Follows.refl (s : UserState) : s.Follows s := ⟨Nat.le_refl _, fun _ hh _ => hh⟩

theorem Follows.trans (h : s.Follows s') (h' : s'.Follows s'') : s.Follows s'' :=
  ⟨Nat.le_trans h.nextName h'.nextName, fun x hx hn =>
    h.held x (h'.held x hx (Nat.lt_of_lt_of_le hn h.nextName)) hn⟩

/-- What is held at both ends is held in the middle. -/
theorem Keeps.trans (hi : s.Inv) (hf : s.Follows s') (hf' : s'.Follows s'') (h : s.Keeps s')
    (h' : s'.Keeps s'') :
    s.Keeps s'' := by
  intro x hx hx''
  have hx' := hf'.held x hx'' (Nat.lt_of_lt_of_le (hi.names x hx) hf.nextName)
  exact (h' x hx' hx'').trans (h x hx hx')

/-- The operation succeeds, and what is held stays if `kept`. -/
def Good (s : UserState) (kept : Prop) (r : Option UserState) : Prop :=
  ∃ s', r = some s' ∧ s'.Inv ∧ s.Follows s' ∧ (s.Keeps s' ↔ kept)

theorem Good.intro (hi : s.Inv) : s.Good True (some s) :=
  ⟨s, rfl, hi, .refl s, iff_true_intro fun _ _ _ => rfl⟩

/-- An operation that has turned `s` into `s'` goes on from there. -/
theorem Good.next (hi : s.Inv) {r : Option UserState} (h : s.Good True (some s'))
    (h' : s'.Inv → s'.Good True r) : s.Good True r := by
  obtain ⟨s₁, hs, hi₁, hf₁, hk₁⟩ := h
  cases hs
  obtain ⟨s₂, hr, hi₂, hf₂, hk₂⟩ := h' hi₁
  exact ⟨s₂, hr, hi₂, hf₁.trans hf₂,
    iff_true_intro (Keeps.trans hi hf₁ hf₂ (hk₁.mpr trivial) (hk₂.mpr trivial))⟩

/-- A step of the database that concerns no user. -/
theorem Inv.withDb (hi : s.Inv) {db : Db} (hd : db.Inv) (hu : s.db.SameUsers db) :
    s.Good True (some { s with db }) :=
  ⟨_, rfl, ⟨hd, hu.exact hi.users, hi.lists, hu.allUsers ▸ hi.view, hi.names⟩,
    ⟨Nat.le_refl _, fun _ hh _ => hh⟩, iff_true_intro fun _ _ _ => rfl⟩

/-- The list of users is replaced by another one. -/
theorem Inv.withUsers (hi : s.Inv) {db : Db} (hd : db.Inv) (hu : db.ExactUsers)
    {a : Nat} {lists : Lists}
    (hok : lists.Ok (a :: s.held.map Holder.addr))
    (hview : lists.get a = some (db.allUsers.map .obj))
    (hsame : ∀ b ∈ s.held.map Holder.addr, lists.get b = s.lists.get b) :
    s.Good True (some { s with db, lists, all_users := a }) :=
  ⟨_, rfl, ⟨hd, hu, hok, hview, hi.names⟩, ⟨Nat.le_refl _, fun _ hh _ => hh⟩,
    iff_true_intro fun _ hh _ => hsame _ (List.mem_map_of_mem hh)⟩

/-- Another list, for a new value. -/
theorem Inv.withHolder (hi : s.Inv) {held : List Holder} (hsub : ∀ h ∈ held, h ∈ s.held)
    {a : Nat} {lists : Lists}
    (hok : lists.Ok (a :: s.all_users :: held.map Holder.addr))
    (hsame : ∀ b ∈ s.all_users :: held.map Holder.addr, lists.get b = s.lists.get b) :
    s.Good True (some ({ s with lists, held }.hold a)) := by
  have hold : ∀ h ∈ (⟨s.nextName, a⟩ : Holder) :: held, h.name < s.nextName → h ∈ held := by
    intro h hh hn
    rcases List.mem_cons.mp hh with rfl | hh
    · exact absurd hn (Nat.lt_irrefl _)
    · exact hh
  refine ⟨_, rfl, ⟨hi.db, hi.users, hok.perm (.swap _ _ _),
    (hsame _ List.mem_cons_self).trans hi.view, fun h hh => ?_⟩,
    ⟨Nat.le_succ _, fun h hh hn => hsub h (hold h hh hn)⟩, iff_true_intro fun h hh hh' => ?_⟩
  · rcases List.mem_cons.mp hh with rfl | hh
    · exact Nat.lt_succ_self _
    · exact Nat.lt_succ_of_lt (hi.names h (hsub h hh))
  · exact hsame _ (List.mem_cons_of_mem _ (List.mem_map_of_mem (hold h hh' (hi.names h hh))))

/-! ## The operations on users -/

theorem create_spec (hi : s.Inv) (parent : Objid) (owner : Option Objid) (progr junk : Objid)
    (call : CallVerb) :
    s.Good True ((UserAct.create parent owner progr junk call).run s) := by
  obtain ⟨p, db, h, hd, -⟩ := bfCreate_spec hi.db parent owner progr junk call
  rw [UserAct.run, h]
  exact hi.withDb hd (bfCreate_users h)

theorem setPlayerFlag_spec (hi : s.Inv) (oid progr : Objid) (flag : Bool) :
    s.Good True (s.setPlayerFlag oid progr flag) := by
  unfold setPlayerFlag
  by_cases hv : s.db.valid oid = true
  swap
  · simp only [hv, Bool.not_false, if_true]
    exact .intro hi
  obtain ⟨o, ho⟩ := valid_iff.mp hv
  simp only [hv, Bool.not_true, Bool.false_eq_true, if_false]
  split
  · exact .intro hi
  obtain ⟨db, h, hd, -⟩ := setFlag_spec hi.db ho flag .FLAG_USER
  obtain ⟨hu, hf⟩ := setFlag_users h
  have hx := hi.users.update hu hf
  simp only [h, Option.bind_eq_bind, Option.bind_some]
  cases flag with
  | true =>
    obtain ⟨a, lists, hl, hok, hnew, hsame⟩ := hi.lists.setadd hi.view oid
    simp only [if_true, hl, Option.bind_some]
    exact hi.withUsers hd hx hok (by rw [hnew, hu]; rfl) hsame
  | false =>
    obtain ⟨a, lists, hl, hok, hnew, hsame⟩ := hi.lists.setremove hi.view oid
    simp only [Bool.false_eq_true, if_false, hl, Option.bind_some]
    exact hi.withUsers hd hx hok (by rw [hnew, hu]; rfl) hsame

theorem destroyObject_spec (hi : s.Inv) {oid : Objid} (hb : s.db.BarrenOrphan oid) :
    s.Good True (s.destroyObject oid) := by
  obtain ⟨o, ho, hloc, hcont, hpar, hch⟩ := hb
  obtain ⟨db, h, hd, -⟩ := hi.db.destroyObject ho hloc hcont hpar hch
  obtain ⟨hu, hf⟩ := destroyObject_users h
  have hx := hi.users.destroy h
  simp only [destroyObject, h, Option.bind_eq_bind, Option.bind_some]
  split
  · next hc =>
    rw [if_pos hc] at hu
    obtain ⟨a, lists, hl, hok, hnew, hsame⟩ := hi.lists.setremove hi.view oid
    simp only [hl, Option.bind_some]
    exact hi.withUsers hd hx hok (by rw [hnew, hu]) hsame
  · next hc =>
    rw [if_neg hc] at hu
    exact hi.withUsers hd hx hi.lists (hu ▸ hi.view) fun _ _ => rfl

theorem recycle2_spec (hi : s.Inv) (oid progr : Objid) (call : CallVerb) :
    s.Good True (s.recycle2 oid progr call) := by
  obtain ⟨r, db, h, hd, -, hb⟩ := bfRecycleToDestroy_spec hi.db oid progr call
  have hgood := hi.withDb hd (bfRecycleToDestroy_users h)
  simp only [recycle2, h, Option.bind_eq_bind, Option.bind_some]
  cases r with
  | inl p => exact hgood
  | inr results => exact .next hi hgood fun hi₁ => destroyObject_spec hi₁ (hb results rfl).2

theorem recycle1_spec (hi : s.Inv) (oid progr : Objid) (call : CallVerb) :
    s.Good True (s.recycle1 oid progr call) := by
  unfold recycle1
  by_cases hv : s.db.valid oid = true
  swap
  · simp only [hv, Bool.not_false, if_true]
    exact .intro hi
  obtain ⟨o, ho⟩ := valid_iff.mp hv
  simp only [hv, controls, ho, Option.map_some, Option.bind_eq_bind, Option.bind_some,
    Bool.not_true, Bool.false_eq_true,
    if_false]
  split
  · exact .intro hi
  split
  · exact .intro hi
  · exact recycle2_spec hi oid progr call

/-- The list of users changes in place: the values in its cell change with it. -/
theorem Inv.withRenamed (hi : s.Inv) {db : Db} {old newbie : Objid} (hd : db.Inv)
    (hu : db.ExactUsers)
    (hold : old ∈ s.db.allUsers) (hnew : newbie ∉ s.db.allUsers)
    (hall : db.allUsers = s.db.allUsers.replace old newbie) :
    s.Good (s.lists.heap.refcount s.all_users = 1)
      ((s.lists.renameUser s.all_users old newbie).bind fun lists =>
        some { s with db, lists }) := by
  -- A list with a user is not the list without elements.
  have hne : s.lists.emptylist ≠ some s.all_users := by
    intro he
    have := (hi.lists.empty _ he).symm.trans hi.view
    rw [List.eq_nil_of_map_eq_nil (Option.some.inj this).symm] at hold
    cases hold
  obtain ⟨lists, hr, hok, hget, hsame⟩ :=
    hi.lists.renameUser List.mem_cons_self hi.view hne old newbie
  have hchanged : lists.get s.all_users ≠ s.lists.get s.all_users := by
    rw [hget, hi.view]
    intro h
    have hmem : Var.obj newbie ∈ (s.db.allUsers.replace old newbie).map .obj := by
      rw [replace_eq_map hi.users.nodup]
      exact List.mem_map_of_mem (List.mem_map.mpr ⟨old, hold, if_pos rfl⟩)
    rw [Option.some.inj h] at hmem
    obtain ⟨x, hx, he⟩ := List.mem_map.mp hmem
    exact hnew (Var.obj.inj he ▸ hx)
  have hcount := hi.lists.owned.count s.all_users
  rw [List.cons_append, List.count_cons_self, List.count_append,
    List.count_eq_zero (l := s.lists.emptylist.toList) |>.mpr fun h =>
      hne (Option.mem_toList.mp h)] at hcount
  refine ⟨{ s with db, lists }, by rw [hr, Option.bind_some],
    ⟨hd, hu, hok, by rw [hall]; exact hget, hi.names⟩,
    ⟨Nat.le_refl _, fun _ hh _ => hh⟩, fun hk => ?_, fun h1 h hh _ => ?_⟩
  · -- A holder of the cell would have seen the change.
    have hnone : s.all_users ∉ s.held.map Holder.addr := by
      intro hm
      obtain ⟨h, hh, ha⟩ := List.mem_map.mp hm
      exact hchanged (ha ▸ hk h hh hh)
    rw [List.count_eq_zero.mpr hnone] at hcount
    exact hcount
  · refine hsame _ fun ha => ?_
    have := List.count_pos_iff.mpr (ha ▸ List.mem_map_of_mem (f := Holder.addr) hh)
    omega

theorem renumber_spec (hi : s.Inv) (oid progr : Objid) :
    s.Good ((UserAct.renumber oid progr).Unshared s) (s.renumber oid progr) := by
  have vacuous : ∀ {r : Option UserState}, s.Good True r →
      ((UserAct.renumber oid progr).Unshared s) →
      s.Good ((UserAct.renumber oid progr).Unshared s) r := fun h hs => by rwa [eq_true hs]
  unfold renumber
  by_cases hv : s.db.valid oid = true
  swap
  · simp only [hv, Bool.not_false, if_true]
    refine vacuous (.intro hi) fun _ hu => ?_
    obtain ⟨o, ho⟩ := exists_of_isUser hu
    exact absurd (valid_iff.mpr ⟨o, ho⟩) hv
  obtain ⟨o, ho⟩ := valid_iff.mp hv
  simp only [hv, Bool.not_true, Bool.false_eq_true, if_false]
  by_cases hw : s.db.isWizard progr = true
  swap
  · simp only [hw, Bool.not_false, if_true]
    exact vacuous (.intro hi) fun h => absurd h hw
  simp only [hw, Bool.not_true, Bool.false_eq_true, if_false]
  rcases hi.db.renumberObject_exact ho with ⟨hnone, h, hd⟩ | ⟨n, db, hlt, hfree, -, h, hto, hd⟩
  · simp only [h, Option.bind_eq_bind, Option.bind_some, ne_eq, not_true_eq_false,
      false_and, if_false]
    refine vacuous (hi.withDb hd (.affected _)) fun _ _ ⟨n, hlt, hfree⟩ => ?_
    have := hnone n hlt
    rw [hfree] at this
    cases this
  · have hlt' : (n : Int) < oid := by omega
    have hne : (n : Objid) ≠ oid := Int.ne_of_lt hlt'
    have hx := hi.users.renumber hto hne hfree
    have hnew : (n : Objid) ∉ s.db.allUsers := fun hm => by
      rw [hi.users.mem_iff, isUser_of_find_none hfree] at hm
      cases hm
    have huser : db.isUser n = s.db.isUser oid := by rw [hto.users, if_neg hne, if_pos rfl]
    have hall := hto.allUsers
    simp only [h, Option.bind_eq_bind, Option.bind_some, huser]
    by_cases hu : s.db.isUser oid = true
    · rw [if_pos ⟨hne, hu⟩]
      rw [if_pos hu] at hall
      have hiff : (UserAct.renumber oid progr).Unshared s ↔ s.lists.heap.refcount s.all_users = 1 :=
        ⟨fun h => h hw hu ⟨n, hlt, hfree⟩, fun h _ _ _ => h⟩
      rw [hiff]
      exact hi.withRenamed hd hx ((hi.users.mem_iff oid).mpr hu) hnew hall
    · rw [if_neg fun h => hu h.2]
      rw [if_neg hu] at hall
      exact vacuous (hi.withUsers hd hx hi.lists (hall ▸ hi.view) fun _ _ => rfl) fun _ h =>
        absurd h hu

/-! ## The operations on lists -/

theorem players_spec (hi : s.Inv) : s.Good True s.players := by
  obtain ⟨lists, h, hok, hget⟩ := hi.lists.varRef List.mem_cons_self
  simp only [players, h, Option.bind_eq_bind, Option.bind_some]
  exact hi.withHolder (fun _ hh => hh) hok fun b _ => hget b

/-- The value that is operated on, before the others. -/
theorem Inv.perm_held (hi : s.Inv) {i : Nat} (h : i < s.held.length) :
    s.lists.Ok ((s.held.get ⟨i, h⟩).addr :: s.all_users :: (s.held.eraseIdx i).map Holder.addr) :=
  hi.lists.perm <| (List.Perm.swap _ _ _).trans
    (((List.getElem_cons_eraseIdx_perm h).map Holder.addr).cons s.all_users)

theorem exchange_spec (hi : s.Inv) {i : Nat} (hlt : i < s.held.length)
    {f : Nat → Lists → Option (Nat × Lists)}
    (hf : ∀ {L : Lists} {a hs}, L.Ok (a :: hs) → ∃ a' L', f a L = some (a', L') ∧ L'.Ok (a' :: hs) ∧
      ∀ b ∈ hs, L'.get b = L.get b) :
    s.Good True (s.exchange i f) := by
  obtain ⟨a, lists, h, hok, hsame⟩ := hf (hi.perm_held hlt)
  have hget : s.held[i]? = some (s.held.get ⟨i, hlt⟩) := List.getElem?_eq_getElem hlt
  simp only [exchange, hget, h, Option.bind_eq_bind, Option.bind_some]
  exact hi.withHolder (fun _ hh => List.mem_of_mem_eraseIdx hh) hok hsame

end UserState

namespace UserAct

open UserState

variable {s s' : UserState}

/-- One operation, from a state that satisfies the invariant. -/
theorem run_spec {a : UserAct} (hi : s.Inv) (ha : a.Allowed s) :
    s.Good (a.Unshared s) (a.run s) := by
  cases a with
  | create parent owner progr junk call => exact create_spec hi parent owner progr junk call
  | setPlayerFlag oid progr flag => exact setPlayerFlag_spec hi oid progr flag
  | recycle oid progr call => exact recycle1_spec hi oid progr call
  | resumeRecycle oid progr call => exact recycle2_spec hi oid progr call
  | renumber oid progr => exact renumber_spec hi oid progr
  | players => exact players_spec hi
  | makeList vs =>
    obtain ⟨a, lists, h, hok, -, hsame⟩ := hi.lists.newList vs
    rw [run, h, Option.map_some]
    exact hi.withHolder (fun _ hh => hh) hok hsame
  | varRef i =>
    have hget : s.held[i]? = some (s.held.get ⟨i, ha⟩) := List.getElem?_eq_getElem ha
    obtain ⟨lists, h, hok, hsame⟩ := hi.lists.varRef
      (List.mem_cons_of_mem _ (List.mem_map_of_mem (f := Holder.addr)
        (List.get_mem s.held ⟨i, ha⟩)))
    simp only [run, hget, h, Option.bind_eq_bind, Option.bind_some]
    exact hi.withHolder (fun _ hh => hh) hok fun b _ => hsame b
  | freeVar i =>
    have hget : s.held[i]? = some (s.held.get ⟨i, ha⟩) := List.getElem?_eq_getElem ha
    obtain ⟨lists, h, hok, hsame⟩ := (hi.perm_held ha).freeVar
    simp only [run, hget, h, Option.bind_eq_bind, Option.bind_some]
    refine ⟨_, rfl, ⟨hi.db, hi.users, hok, (hsame _ List.mem_cons_self).trans hi.view,
      fun x hx => ?_⟩,
      ⟨Nat.le_refl _, fun x hx _ => List.mem_of_mem_eraseIdx hx⟩, iff_true_intro fun x _ hx => ?_⟩
    · exact hi.names x (List.mem_of_mem_eraseIdx hx)
    · exact hsame _ (List.mem_cons_of_mem _ (List.mem_map_of_mem hx))
  | listappend i value =>
    show s.Good True (s.exchange i fun list => Lists.listappend list value)
    refine exchange_spec hi ha fun {L a hs} hok => ?_
    obtain ⟨vs, hvs⟩ := hok.get_of_mem List.mem_cons_self
    obtain ⟨a', L', h, hok', -, hsame⟩ := hok.listappend hvs value
    exact ⟨a', L', h, hok', hsame⟩
  | listdelete i pos =>
    show s.Good True (s.exchange i fun list => Lists.listdelete list pos)
    refine exchange_spec hi ha fun {L a hs} hok => ?_
    obtain ⟨vs, hvs⟩ := hok.get_of_mem List.mem_cons_self
    obtain ⟨a', L', h, hok', -, hsame⟩ := hok.listdelete hvs pos
    exact ⟨a', L', h, hok', hsame⟩
  | indexset i value index =>
    show s.Good True (s.exchange i fun list => Lists.indexset list value index)
    refine exchange_spec hi ha fun {L a hs} hok => ?_
    obtain ⟨vs, hvs⟩ := hok.get_of_mem List.mem_cons_self
    obtain ⟨a', L', h, hok', -, hsame⟩ := hok.indexset hvs value index
    exact ⟨a', L', h, hok', hsame⟩
  | other db => exact hi.withDb ha.1 ha.2

/-- A held value changes only when a user is renumbered in a cell that is shared, and then one
does. -/
theorem keeps_iff {a : UserAct} (hi : s.Inv) (ha : a.Allowed s) (h : a.run s = some s') :
    s.Keeps s' ↔ a.Unshared s := by
  obtain ⟨s₁, h₁, -, -, hk⟩ := run_spec hi ha
  rw [h] at h₁
  cases h₁
  exact hk

end UserAct

/-! ## Runs -/

/-- The states that operations which are allowed, and of which `P` holds, lead to. -/
inductive UserRun (P : UserAct → UserState → Prop) (s₀ : UserState) : UserState → Prop
  | refl : UserRun P s₀ s₀
  | step {s s' : UserState} (a : UserAct) : UserRun P s₀ s → a.Allowed s → P a s →
      a.run s = some s' → UserRun P s₀ s'

namespace UserRun

open UserState

variable {s₀ s₁ s₂ : UserState} {P : UserAct → UserState → Prop}

theorem inv (hi : s₀.Inv) (h : UserRun P s₀ s₁) : s₁.Inv ∧ s₀.Follows s₁ := by
  induction h with
  | refl => exact ⟨hi, .refl s₀⟩
  | step a _ ha _ hr ih =>
    obtain ⟨s', hs', hi', hf, -⟩ := UserAct.run_spec ih.1 ha
    rw [hr] at hs'
    cases hs'
    exact ⟨hi', ih.2.trans hf⟩

theorem keeps (hi : s₀.Inv) (h : UserRun UserAct.Unshared s₀ s₁) : s₀.Keeps s₁ := by
  induction h with
  | refl => exact fun _ _ _ => rfl
  | step a h ha hs hr ih =>
    obtain ⟨hi₁, hf₁⟩ := h.inv hi
    obtain ⟨s', hs', -, hf, hk⟩ := UserAct.run_spec hi₁ ha
    rw [hr] at hs'
    cases hs'
    exact Keeps.trans hi hf₁ hf ih (hk.mpr hs)

theorem inv_start {db : Db} (hi : db.Inv) (hx : db.ExactUsers) :
    ∃ s, start db = some s ∧ s.Inv := by
  have hnone : (⟨⟨fun _ => none, 0⟩, none⟩ : Lists).Ok [] :=
    ⟨⟨fun _ => rfl, fun _ _ h => (nomatch h), fun _ _ => rfl⟩, fun _ h => nomatch h⟩
  obtain ⟨a, lists, h, hok, hget, -⟩ := hnone.newList (db.allUsers.map .obj)
  refine ⟨⟨db, lists, a, [], 0⟩, ?_, hi, hx, hok, hget, fun _ hh => nomatch hh⟩
  rw [start, h]
  rfl

/-- In every run the list is exact, and in every run whose renumberings of users find the list in an
unshared cell the values that are held stay what they were. -/
theorem exact_and_stable {db : Db} (hi : db.Inv) (hx : db.ExactUsers) (h₀ : start db = some s₀)
    (h₁ : UserRun (fun _ _ => True) s₀ s₁) :
    s₁.Exact ∧ ∀ s₂, UserRun UserAct.Unshared s₁ s₂ → s₂.Exact ∧ s₁.Keeps s₂ := by
  obtain ⟨s, hs, hi₀⟩ := inv_start hi hx
  rw [h₀] at hs
  cases hs
  have hi₁ := (h₁.inv hi₀).1
  exact ⟨hi₁.exact, fun s₂ h₂ => ⟨(h₂.inv hi₁).1.exact, h₂.keeps hi₁⟩⟩

end UserRun

/-! ## A snapshot that changes -/

/-- One user, who is a wizard, after a free number. -/
def lone : Db where
  objects := [
    none,
    some { id := 1, owner := 1, location := NOTHING, contents := NOTHING, next := NOTHING,
           parent := NOTHING,
           child := NOTHING, sibling := NOTHING, name := [], flags := 5, verbdefs := [], propdefs :=
             [], propval := [] }]
  allUsers := [1]
  vcTable := none
  nextPid := 0

theorem inv_lone : lone.Inv := by
  obtain ⟨o, ho⟩ : ∃ o, listed.find 1 = some o := ⟨_, rfl⟩
  have hi : (listed.put 1 { o with flags := 5 }).Inv := inv_listed.put ho rfl
  cases ho
  exact hi

theorem exactUsers_lone : lone.ExactUsers := by
  refine ⟨List.nodup_singleton 1, fun x => ?_⟩
  rw [show lone.allUsers = [1] from rfl, List.mem_singleton]
  refine ⟨fun h => h ▸ rfl, fun h => ?_⟩
  obtain ⟨o, ho⟩ := exists_of_isUser h
  have h0 : (0 : Int) ≤ x := (find_bounds ho).1
  have hlt : Int.toNat x < 2 := (find_bounds ho).2
  have hx : @Eq Int x 0 ∨ @Eq Int x 1 := by omega
  rcases hx with rfl | rfl
  · cases h
  · rfl

/-- The user gets the free number, and the list that was asked for before changes with it. -/
theorem players_renumbered :
    ¬ ∀ db s₀ s₁ s₂, db.Inv → db.ExactUsers → UserState.start db = some s₀ →
    UserRun (fun _ _ => True) s₀ s₁ → UserRun (fun _ _ => True) s₁ s₂ → s₁.Keeps s₂ := by
  intro h
  obtain ⟨s₀, h₀⟩ : ∃ s, UserState.start lone = some s := ⟨_, rfl⟩
  obtain ⟨s₁, h₁⟩ : ∃ s, UserAct.players.run s₀ = some s := by
    cases h₀
    exact ⟨_, rfl⟩
  obtain ⟨s₂, h₂⟩ : ∃ s, (UserAct.renumber 1 1).run s₁ = some s := by
    cases h₀
    cases h₁
    exact ⟨_, rfl⟩
  have hk := h lone s₀ s₁ s₂ inv_lone exactUsers_lone h₀ (.step .players .refl trivial trivial h₁)
    (.step (.renumber 1 1) .refl trivial trivial h₂)
  cases h₀
  cases h₁
  cases h₂
  have := hk ⟨0, 0⟩ (by decide) (by decide)
  exact absurd this (by decide)

/-- The user loses the flag, and the list that was asked for before stays. -/
theorem players_unflagged :
    ∃ s₀ s₁ s₂, UserState.start lone = some s₀ ∧ UserAct.players.run s₀ = some s₁ ∧
    (UserAct.setPlayerFlag 1 1 false).run s₁ = some s₂ ∧ s₁.Exact ∧ s₂.Exact ∧ s₁.Keeps s₂ := by
  obtain ⟨s₀, h₀⟩ : ∃ s, UserState.start lone = some s := ⟨_, rfl⟩
  obtain ⟨s₁, h₁⟩ : ∃ s, UserAct.players.run s₀ = some s := by
    cases h₀
    exact ⟨_, rfl⟩
  obtain ⟨s₂, h₂⟩ : ∃ s, (UserAct.setPlayerFlag 1 1 false).run s₁ = some s := by
    cases h₀
    cases h₁
    exact ⟨_, rfl⟩
  obtain ⟨hx₁, hk⟩ :=
    UserRun.exact_and_stable inv_lone exactUsers_lone h₀ (.step .players .refl trivial trivial h₁)
  obtain ⟨hx₂, hk⟩ := hk s₂ (.step (.setPlayerFlag 1 1 false) .refl trivial trivial h₂)
  exact ⟨s₀, s₁, s₂, h₀, h₁, h₂, hx₁, hx₂, hk⟩

end NuMoo
