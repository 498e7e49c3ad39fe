import Boss.LockRecord
import Boss.LockManagerOrder

/-!
# The lock table as the code keeps it

`LockManager` on the bytes of its rows.  A row is read by its columns, copied out by `select`, and
written by `setColumnValue`, which measures the character of `LOCK_TYPE` with `strlen`.  What the
code does not decide itself is in `Env`: the slots and what is in them, the bytes behind a slot and
behind a copy, the bytes behind the two characters on the stack, and whether the process survives
that `TransData` frees the array `lockRec`.

The lock table of `LockManager` is the abstract one, in which a row is what it was meant to be.
Every step of the code is a step of it as long as rows keep their keys:

* `step_view` — one call, on a table whose key fits its columns and with a zero behind the
  character;
* `run_view` — and whole runs.
-/

namespace LockTable

open IndexRows LockRecord
open RecordConvert (ColumnDef)
open LockManager (LockType LockRow Answer)

/-- The lock table: the bytes of its slots, allocated slots, its two indexes and `m_recordNum`. -/
structure State (A : Type) where
  record : A → Rec
  used : A → Bool
  sesIndex : Rows A
  resIndex : Rows A
  recordNum : Nat

/-- What a call finds in memory and gets from the memory manager. -/
structure Env (A : Type) where
  slot : Option A
  sesSpace : Bool
  resSpace : Bool
  /-- What is in a slot that is freed. -/
  junk : A → Rec
  /-- The bytes behind a slot. -/
  behind : A → Rec
  /-- The bytes behind a record that `select` has copied. -/
  heap : Rec
  /-- The bytes behind `tmplockTypeValue`. -/
  stack : Bytes
  /-- The bytes behind `tmpLockTypeValue` in `signalFirstWaitSessionByResource`. -/
  signalStack : Bytes
  /-- `free` ends the process when it is given an array. -/
  aborts : Bool

variable {A : Type} [DecidableEq A]

/-- The lock table that `create` makes, over any memory. -/
def create (record : A → Rec) : State A :=
  ⟨record, fun _ => false, fun _ => [], fun _ => [], 0⟩

section Operations

variable (keys : List ColumnDef)

/-- The bytes of a slot, in front of other bytes. -/
def slotBytes (rec other : Rec) : Rec := fun x => if x < slotSize keys then rec x else other x

namespace State

def sesKey (s : State A) (a : A) : UInt32 := sessionOf (s.record a)
def resKey (s : State A) (a : A) : Bytes := resourceOf keys (s.record a)

/-- `memcpy` of a record to its slot. -/
def setRecord (s : State A) (a : A) (rec : Rec) : State A :=
  { s with record := Function.update s.record a (slotBytes keys rec (s.record a)) }

/-- `freeTableMem` on one slot. -/
def free (s : State A) (junk : A → Rec) (a : A) : State A :=
  { s with
    record := Function.update s.record a (junk a)
    used := Function.update s.used a false }

/-- What is behind the slots changes between the calls. -/
def refresh (s : State A) (env : Env A) : State A :=
  { s with record := fun a => slotBytes keys (s.record a) (env.behind a) }

end State

variable (sesSlot : UInt32 → Nat) (resSlot : Bytes → Nat)

/-- The copies that `select` makes through the session index. -/
def selectSes (s : State A) (env : Env A) (sessionId : UInt32) : List (A × Rec) :=
  (select s.sesKey sesSlot s.sesIndex sessionId).map fun a =>
    (a, slotBytes keys (s.record a) env.heap)

/-- The copies that `select` makes through the resource index. -/
def selectRes (s : State A) (env : Env A) (resValue : Bytes) : List (A × Rec) :=
  (select (s.resKey keys) resSlot s.resIndex resValue).map fun a =>
    (a, slotBytes keys (s.record a) env.heap)

/-- `deleteAllIndex` with the keys of the given record. -/
def deleteAllIndex (s : State A) (a : A) (rec : Rec) : State A :=
  let s := { s with sesIndex := (deleteIdx s.sesKey sesSlot s.sesIndex (sessionOf rec) a).2 }
  { s with
    resIndex := (deleteIdx (s.resKey keys) resSlot s.resIndex (resourceOf keys rec) a).2 }

/-- `insertAllIndex`; when the second index fails the first insertion is undone. -/
def insertAllIndex (s : State A) (env : Env A) (a : A) (rec : Rec) : State A × Bool :=
  match insert s.sesKey sesSlot false env.sesSpace s.sesIndex (sessionOf rec) a with
  | .error _ => (s, false)
  | .ok ses =>
      let s := { s with sesIndex := ses }
      match insert (s.resKey keys) resSlot false env.resSpace s.resIndex (resourceOf keys rec) a with
      | .error _ =>
          ({ s with sesIndex := (deleteIdx s.sesKey sesSlot s.sesIndex (sessionOf rec) a).2 }, false)
      | .ok res => ({ s with resIndex := res }, true)

/-- `BaseTable::insert` of one record; `false` when it throws. -/
def insertRec (s : State A) (env : Env A) (rec : Rec) : State A × Bool :=
  match env.slot with
  | none => (s, false)
  | some a =>
      let s := { s.setRecord keys a rec with used := Function.update s.used a true }
      match insertAllIndex keys sesSlot resSlot s env a rec with
      | (s, true) => ({ s with recordNum := s.recordNum + 1 }, true)
      | (s, false) => (deleteAllIndex keys sesSlot resSlot (s.free env.junk a) a rec, false)

/-- `BaseTable::deleteRec`: first all index entries, then all slots. -/
def deleteRec (s : State A) (env : Env A) (transDatas : List (A × Rec)) : State A :=
  let s := transDatas.foldl (fun s p => deleteAllIndex keys sesSlot resSlot s p.1 p.2) s
  let s := transDatas.foldl (fun s p => s.free env.junk p.1) s
  { s with recordNum := s.recordNum - transDatas.length }

/-- `signalFirstWaitSessionByResource`: the copy of the row is changed and copied back. -/
def signalFirstWaitSessionByResource (s : State A) (env : Env A) (resValue : Bytes) : State A :=
  match (selectRes keys resSlot s env resValue).find? fun p => lockTypeOf p.2 = code .wait with
  | some (a, rec) => s.setRecord keys a (setLockType rec .own env.signalStack)
  | none => s

/-- `releaseLock`; nobody is woken when every row of the table is the session's. -/
def releaseLock (s : State A) (env : Env A) (sessionId : UInt32) : State A :=
  let transDatas := selectSes keys sesSlot s env sessionId
  let s :=
    if s.recordNum ≠ transDatas.length then
      transDatas.foldl (fun s p =>
        if lockTypeOf p.2 = code .own then
          signalFirstWaitSessionByResource keys resSlot s env (resourceOf keys p.2)
        else s) s
    else s
  deleteRec keys sesSlot resSlot s env transDatas

/-- `findOwnSessionByResource`. -/
def findOwnSessionByResource (s : State A) (env : Env A) (resValue : Bytes) : Option UInt32 :=
  ((selectRes keys resSlot s env resValue).find? fun p => lockTypeOf p.2 = code .own).map
    fun p => sessionOf p.2

/-- `findWaitResourceBySession`. -/
def findWaitResourceBySession (s : State A) (env : Env A) (sessionId : UInt32) : Option Bytes :=
  ((selectSes keys sesSlot s env sessionId).find? fun p => lockTypeOf p.2 = code .wait).map
    fun p => resourceOf keys p.2

/-- `detectDeadLock`; `none` when `n` rounds do not suffice. -/
def detectDeadLock (s : State A) (env : Env A) (sessionId : UInt32) : Nat → Bytes → Option Bool
  | 0, _ => none
  | n + 1, value =>
      match findOwnSessionByResource keys resSlot s env value with
      | none => some false
      | some newSessionId =>
          if newSessionId = sessionId then some true
          else
            match findWaitResourceBySession keys sesSlot s env newSessionId with
            | none => some false
            | some value => detectDeadLock s env sessionId n value

/-- How a call of `judgeAndAddLock` ends: with an answer, which nobody gets if the process ends
when `TransData` frees the array `lockRec`. -/
structure Outcome where
  answer : Answer
  aborted : Bool
  deriving DecidableEq

/-- The end of an insertion: `delete pTransData` frees the array. -/
def finish (env : Env A) (answer : Answer) (r : State A × Bool) : State A × Outcome :=
  (r.1, ⟨if r.2 then answer else .thrown, env.aborts⟩)

/-- `judgeAndAddLock`.  `n` bounds the rounds of `detectDeadLock`. -/
def judgeAndAddLock (s : State A) (env : Env A) (n : Nat) (inTransData : InTransData)
    (sessionId : UInt32) (lockType : Bool) : Option (State A × Outcome) :=
  match keyValues keys inTransData lockType with
  | none => some (s, ⟨.granted, false⟩)
  | some values =>
      match selectRes keys resSlot s env values.flatten with
      | [] =>
          some (finish env .granted (insertRec keys sesSlot resSlot s env
            (lockRec keys values sessionId .own env.stack)))
      | transDatas =>
          match transDatas.find? fun p => sessionOf p.2 = sessionId with
          | some (_, rec) =>
              some (s, ⟨if lockTypeOf rec = code .wait then .waiting else .owned, false⟩)
          | none =>
              (detectDeadLock keys sesSlot resSlot s env sessionId n values.flatten).map fun
                | true => (releaseLock keys sesSlot resSlot s env sessionId, ⟨.deadLock, false⟩)
                | false =>
                    finish env .queued (insertRec keys sesSlot resSlot s env
                      (lockRec keys values sessionId .wait env.stack))

/-- One call of a session. -/
inductive Call (A : Type)
  | judgeAndAddLock (env : Env A) (n : Nat) (inTransData : InTransData) (sessionId : UInt32)
      (lockType : Bool)
  | releaseLock (env : Env A) (sessionId : UInt32)

/-- One call as one step; a slot that is in use is never given out again, and a walk that does not
end is no step. -/
def step (s : State A) : Call A → Option (State A)
  | .judgeAndAddLock env n inTransData sessionId lockType =>
      if ∀ a ∈ env.slot, s.used a = false then
        (judgeAndAddLock keys sesSlot resSlot (s.refresh keys env) env n inTransData sessionId
          lockType).map (·.1)
      else none
  | .releaseLock env sessionId => some (releaseLock keys sesSlot resSlot (s.refresh keys env) env sessionId)

end Operations

/-! ## Its rows as they are read -/

variable {keys : List ColumnDef} {sesSlot : UInt32 → Nat} {resSlot : Bytes → Nat} {s t : State A}
  {env : Env A} {rec : Rec} {a : A} {sessionId : UInt32} {resValue : Bytes}

/-- What the lock table says. -/
def view (keys : List ColumnDef) (s : State A) : LockManager.State A UInt32 Bytes :=
  ⟨fun a => decode keys (s.record a), s.used, s.sesIndex, s.resIndex, s.recordNum⟩

/-- What a call gets, as it is read. -/
def viewEnv (keys : List ColumnDef) (env : Env A) : LockManager.Env A UInt32 Bytes :=
  ⟨env.slot, env.sesSpace, env.resSpace, fun a => decode keys (env.junk a)⟩

/-- The copies that a selection makes, as they are read. -/
def viewRows (keys : List ColumnDef) (transDatas : List (A × Rec)) :
    List (A × LockRow UInt32 Bytes) :=
  transDatas.map fun p => (p.1, decode keys p.2)

/-- A row in use has one of the two types. -/
def Typed (s : State A) : Prop :=
  ∀ a, s.used a = true → lockTypeOf (s.record a) = code .wait ∨ lockTypeOf (s.record a) = code .own

/-- There is a zero behind both characters. -/
structure Terminated (env : Env A) : Prop where
  stack : env.stack.takeWhile (· ≠ 0) = []
  signalStack : env.signalStack.takeWhile (· ≠ 0) = []

section View

omit [DecidableEq A]

/-- The session of a row is the same in the table that is seen. -/
@[simp] theorem view_sesKey : (view keys s).sesKey = s.sesKey := rfl
/-- The resource of a row is what its key columns read as. -/
@[simp] theorem view_resKey : (view keys s).resKey = s.resKey keys := rfl

/-- What is behind a copied record does not matter. -/
theorem decode_slotBytes (h : Fitting keys) (rec other : Rec) :
    decode keys (slotBytes keys rec other) = decode keys rec :=
  decode_congr h fun _ hx => if_pos hx

/-- What the slot keeps of a row has its lock type. -/
theorem lockTypeOf_slotBytes (h : Fitting keys) (rec other : Rec) :
    lockTypeOf (slotBytes keys rec other) = lockTypeOf rec :=
  if_pos (show 4 < slotSize keys from h.five_le)

/-- A call finds the rows that the last one has left. -/
theorem view_refresh (h : Fitting keys) : view keys (s.refresh keys env) = view keys s := by
  unfold view State.refresh
  simp only [decode_slotBytes h]

/-- Reading the table again keeps the lock types. -/
theorem Typed.refresh (h : Fitting keys) (ht : Typed s) : Typed (s.refresh keys env) := by
  intro a ha
  rw [State.refresh, lockTypeOf_slotBytes h]
  exact ht a ha

end View

/-! ## One operation after the other -/

/-- A row that is copied into its slot is there. -/
theorem view_setRecord (h : Fitting keys) :
    view keys (s.setRecord keys a rec) = (view keys s).setRecord a (decode keys rec) := by
  have hrow : decode keys (slotBytes keys rec (s.record a)) = decode keys rec :=
    decode_slotBytes h _ _
  have hupdate : decode keys ∘ Function.update s.record a (slotBytes keys rec (s.record a)) =
      Function.update (decode keys ∘ s.record) a (decode keys rec) := by
    rw [Function.comp_update, hrow]
  exact congrArg (fun f => (⟨f, s.used, s.sesIndex, s.resIndex, s.recordNum⟩ :
    LockManager.State A UInt32 Bytes)) hupdate

/-- Freeing a slot is freeing it in the table that is seen. -/
theorem view_free (junk : A → Rec) :
    view keys (s.free junk a) = (view keys s).free (fun b => decode keys (junk b)) a :=
  congrArg (fun f => (⟨f, Function.update s.used a false, s.sesIndex, s.resIndex, s.recordNum⟩ :
    LockManager.State A UInt32 Bytes)) (Function.comp_update (decode keys) s.record a (junk a))

/-- Taking a row out of the indexes is taking it out of the abstract ones. -/
theorem view_deleteAllIndex : view keys (deleteAllIndex keys sesSlot resSlot s a rec) =
    LockManager.deleteAllIndex sesSlot resSlot (view keys s) a (decode keys rec) := rfl

omit [DecidableEq A] in
/-- The rows of a session are those of the abstract table. -/
theorem viewRows_selectSes (h : Fitting keys) (env : Env A) :
    viewRows keys (selectSes keys sesSlot s env sessionId) =
      LockManager.selectSes sesSlot (view keys s) sessionId := by
  rw [viewRows, selectSes, List.map_map]
  exact List.map_congr_left fun a _ => Prod.ext rfl (decode_slotBytes h _ _)

omit [DecidableEq A] in
/-- The rows of a resource are those of the abstract table. -/
theorem viewRows_selectRes (h : Fitting keys) (env : Env A) :
    viewRows keys (selectRes keys resSlot s env resValue) =
      LockManager.selectRes resSlot (view keys s) resValue := by
  rw [viewRows, selectRes, List.map_map]
  exact List.map_congr_left fun a _ => Prod.ext rfl (decode_slotBytes h _ _)

/-- Putting a row into the indexes is putting it into the abstract ones. -/
theorem view_insertAllIndex :
    (insertAllIndex keys sesSlot resSlot s env a rec).map (view keys) id =
      LockManager.insertAllIndex sesSlot resSlot (view keys s) (viewEnv keys env) a
        (decode keys rec) := by
  unfold insertAllIndex LockManager.insertAllIndex
  cases hses : insert s.sesKey sesSlot false env.sesSpace s.sesIndex (sessionOf rec) a with
  | error e =>
    have hses' : insert (view keys s).sesKey sesSlot false (viewEnv keys env).sesSpace
        (view keys s).sesIndex (decode keys rec).sessionId a = .error e := hses
    rw [hses']
    rfl
  | ok ses =>
    have hses' : insert (view keys s).sesKey sesSlot false (viewEnv keys env).sesSpace
        (view keys s).sesIndex (decode keys rec).sessionId a = .ok ses := hses
    rw [hses']
    dsimp only
    cases hres : insert (State.resKey keys { s with sesIndex := ses }) resSlot false env.resSpace
        s.resIndex (resourceOf keys rec) a with
    | error e =>
      have hres' : insert (LockManager.State.resKey { view keys s with sesIndex := ses }) resSlot
          false (viewEnv keys env).resSpace (view keys s).resIndex (decode keys rec).resource a =
            .error e := hres
      rw [hres']
      rfl
    | ok res =>
      have hres' : insert (LockManager.State.resKey { view keys s with sesIndex := ses }) resSlot
          false (viewEnv keys env).resSpace (view keys s).resIndex (decode keys rec).resource a =
            .ok res := hres
      rw [hres']
      rfl

/-- Entering a row is entering it into the table that is seen. -/
theorem view_insertRec (h : Fitting keys) :
    (insertRec keys sesSlot resSlot s env rec).map (view keys) id =
      LockManager.insertRec sesSlot resSlot (view keys s) (viewEnv keys env) (decode keys rec) := by
  unfold insertRec LockManager.insertRec
  have hslot : (viewEnv keys env).slot = env.slot := rfl
  rw [hslot]
  cases env.slot with
  | none => rfl
  | some a =>
    dsimp only
    generalize hs : ({ s.setRecord keys a rec with used := Function.update s.used a true } :
      State A) = s₁
    have hview : ({ (view keys s).setRecord a (decode keys rec) with
        used := Function.update (view keys s).used a true } : LockManager.State A UInt32 Bytes) =
          view keys s₁ := by
      rw [← view_setRecord h, ← hs]
      rfl
    rw [hview, ← view_insertAllIndex]
    obtain ⟨s₂, ok⟩ := insertAllIndex keys sesSlot resSlot s₁ env a rec
    cases ok with
    | true => rfl
    | false =>
      dsimp only [Prod.map, id]
      rw [view_deleteAllIndex, view_free]
      rfl

/-! ### Rows with one of the two types -/

/-- What is written to a row is one of the two types. -/
def TypedRec (rec : Rec) : Prop := lockTypeOf rec = code .wait ∨ lockTypeOf rec = code .own

/-- A row is seen as waiting when its lock type is the code for waiting. -/
theorem lockType_wait_iff : (decode keys rec).lockType = .wait ↔ lockTypeOf rec = code .wait := by
  rw [decode]
  dsimp only
  split <;> simp_all

/-- A typed row is seen as owning when its lock type is the code for owning. -/
theorem TypedRec.own_iff (h : TypedRec rec) :
    (decode keys rec).lockType = .own ↔ lockTypeOf rec = code .own := by
  rw [decode]
  dsimp only
  rcases h with h | h <;> rw [h] <;> decide

/-- The rows that are selected for a session have a lock type. -/
theorem typed_selectSes (h : Fitting keys) (htyped : Typed s)
    (htable : LockManager.Table sesSlot resSlot (view keys s)) (env : Env A) (sessionId : UInt32) :
    ∀ p ∈ selectSes keys sesSlot s env sessionId, TypedRec p.2 := by
  intro p hp
  obtain ⟨a, ha, rfl⟩ := List.mem_map.mp hp
  have hused := ((htable.indexed.ses.select_spec sessionId).2 a).mp ha
  rw [TypedRec, lockTypeOf_slotBytes h]
  exact htyped a hused.1

/-- The rows that are selected for a resource have a lock type. -/
theorem typed_selectRes (h : Fitting keys) (htyped : Typed s)
    (htable : LockManager.Table sesSlot resSlot (view keys s)) :
    ∀ p ∈ selectRes keys resSlot s env resValue, TypedRec p.2 := by
  intro p hp
  obtain ⟨a, ha, rfl⟩ := List.mem_map.mp hp
  have hused := ((htable.indexed.res.select_spec resValue).2 a).mp ha
  rw [TypedRec, lockTypeOf_slotBytes h]
  exact htyped a hused.1

/-! ### The calls -/

/-- Deleting rows is deleting them from the table that is seen. -/
theorem view_deleteRec (transDatas : List (A × Rec)) :
    view keys (deleteRec keys sesSlot resSlot s env transDatas) =
      LockManager.deleteRec sesSlot resSlot (view keys s) (viewEnv keys env)
        (viewRows keys transDatas) := by
  have hentries : view keys
      (transDatas.foldl (fun s p => deleteAllIndex keys sesSlot resSlot s p.1 p.2) s) =
        (viewRows keys transDatas).foldl
          (fun s p => LockManager.deleteAllIndex sesSlot resSlot s p.1 p.2) (view keys s) := by
    rw [viewRows, List.foldl_map]
    exact (List.foldl_hom (view keys) fun _ _ => rfl).symm
  have hslots : ∀ s : State A, view keys (transDatas.foldl (fun s p => s.free env.junk p.1) s) =
      (viewRows keys transDatas).foldl (fun s p => s.free (viewEnv keys env).junk p.1)
        (view keys s) := by
    intro s
    rw [viewRows, List.foldl_map]
    exact (List.foldl_hom (view keys) fun _ _ => (view_free env.junk).symm).symm
  have hlength : (viewRows keys transDatas).length = transDatas.length := List.length_map _
  unfold deleteRec LockManager.deleteRec
  rw [← hentries, hlength]
  dsimp only
  rw [← hslots]
  rfl

/-- The first waiter is looked for in the same rows. -/
theorem view_signal (h : Fitting keys) (hstack : env.signalStack.takeWhile (· ≠ 0) = []) :
    view keys (signalFirstWaitSessionByResource keys resSlot s env resValue) =
      LockManager.signalFirstWaitSessionByResource resSlot (view keys s) resValue := by
  unfold signalFirstWaitSessionByResource LockManager.signalFirstWaitSessionByResource
  rw [← viewRows_selectRes h env, viewRows, List.find?_map]
  have hsame : ((fun p : A × LockRow UInt32 Bytes => decide (p.2.lockType = .wait)) ∘
      fun p : A × Rec => (p.1, decode keys p.2)) = fun p => decide (lockTypeOf p.2 = code .wait) :=
    funext fun p => decide_eq_decide.mpr lockType_wait_iff
  rw [hsame]
  cases (selectRes keys resSlot s env resValue).find? fun p => lockTypeOf p.2 = code .wait with
  | none => rfl
  | some p =>
    exact (view_setRecord h).trans (by rw [decode_setLockType h hstack]; rfl)

/-- The signals of a release, one after the other. -/
theorem view_signals (h : Fitting keys) (hstack : env.signalStack.takeWhile (· ≠ 0) = [])
    {transDatas : List (A × Rec)} (htyped : ∀ p ∈ transDatas, TypedRec p.2) :
    view keys (transDatas.foldl (fun s p =>
        if lockTypeOf p.2 = code .own then
          signalFirstWaitSessionByResource keys resSlot s env (resourceOf keys p.2)
        else s) s) =
      (viewRows keys transDatas).foldl (fun s p =>
        if p.2.lockType = .own then
          LockManager.signalFirstWaitSessionByResource resSlot s p.2.resource
        else s) (view keys s) := by
  induction transDatas generalizing s with
  | nil => rfl
  | cons p rest ih =>
    obtain ⟨hp, hrest⟩ := List.forall_mem_cons.mp htyped
    rw [List.foldl_cons, ih hrest]
    refine congrArg (List.foldl _ · (viewRows keys rest)) ?_
    by_cases hown : lockTypeOf p.2 = code .own
    · rw [if_pos hown]
      exact (view_signal h hstack).trans (if_pos (hp.own_iff.mpr hown)).symm
    · rw [if_neg hown]
      exact (if_neg (hown ∘ hp.own_iff.mp)).symm

/-- **A release is one of the abstract table.** -/
theorem view_releaseLock (h : Fitting keys) (henv : Terminated env) (htyped : Typed s)
    (htable : LockManager.Table sesSlot resSlot (view keys s)) (sessionId : UInt32) :
    view keys (releaseLock keys sesSlot resSlot s env sessionId) =
      LockManager.releaseLock sesSlot resSlot (view keys s) (viewEnv keys env) sessionId := by
  unfold releaseLock LockManager.releaseLock
  rw [← viewRows_selectSes h env]
  have hrows := typed_selectSes h htyped htable env sessionId
  have hlength : (viewRows keys (selectSes keys sesSlot s env sessionId)).length =
      (selectSes keys sesSlot s env sessionId).length := List.length_map _
  have hnum : (view keys s).recordNum = s.recordNum := rfl
  dsimp only
  rw [view_deleteRec, ← view_signals h henv.signalStack hrows, hlength, hnum]
  split <;> rfl

/-- The owner of a resource is the one of the abstract table. -/
theorem view_findOwnSession (h : Fitting keys) (htyped : Typed s)
    (htable : LockManager.Table sesSlot resSlot (view keys s)) :
    findOwnSessionByResource keys resSlot s env resValue =
      LockManager.findOwnSessionByResource resSlot (view keys s) resValue := by
  unfold findOwnSessionByResource LockManager.findOwnSessionByResource
  rw [← viewRows_selectRes h env, viewRows, List.find?_map, Option.map_map]
  have hsame : ∀ p ∈ selectRes keys resSlot s env resValue,
      decide (lockTypeOf p.2 = code .own) = decide ((decode keys p.2).lockType = .own) :=
    fun p hp => decide_eq_decide.mpr (typed_selectRes h htyped htable p hp).own_iff.symm
  rw [List.find?_congr hsame]
  rfl

omit [DecidableEq A] in
/-- The resource a session waits for is the one of the abstract table. -/
theorem view_findWaitResource (h : Fitting keys) :
    findWaitResourceBySession keys sesSlot s env sessionId =
      LockManager.findWaitResourceBySession sesSlot (view keys s) sessionId := by
  unfold findWaitResourceBySession LockManager.findWaitResourceBySession
  rw [← viewRows_selectSes h env, viewRows, List.find?_map, Option.map_map]
  have hsame : ((fun p : A × LockRow UInt32 Bytes => decide (p.2.lockType = .wait)) ∘
      fun p : A × Rec => (p.1, decode keys p.2)) = fun p => decide (lockTypeOf p.2 = code .wait) :=
    funext fun p => decide_eq_decide.mpr lockType_wait_iff
  rw [hsame]
  rfl

/-- **The walk is that of the abstract table.** -/
theorem view_detectDeadLock (h : Fitting keys) (htyped : Typed s)
    (htable : LockManager.Table sesSlot resSlot (view keys s)) (n : Nat) :
    detectDeadLock keys sesSlot resSlot s env sessionId n resValue =
      LockManager.detectDeadLock sesSlot resSlot (view keys s) sessionId n resValue := by
  induction n generalizing resValue with
  | zero => rfl
  | succ n ih =>
    rw [detectDeadLock, LockManager.detectDeadLock, view_findOwnSession h htyped htable]
    cases LockManager.findOwnSessionByResource resSlot (view keys s) resValue with
    | none => rfl
    | some newSessionId =>
      dsimp only
      rw [view_findWaitResource h]
      split
      · rfl
      · cases LockManager.findWaitResourceBySession sesSlot (view keys s) newSessionId with
        | none => rfl
        | some value => exact ih

/-- **A request is one of the abstract table**, for the key that is copied. -/
theorem view_judgeAndAddLock (h : Fitting keys) (henv : Terminated env) (htyped : Typed s)
    (htable : LockManager.Table sesSlot resSlot (view keys s)) (n : Nat) (sessionId : UInt32)
    {inTransData : InTransData} {lockType : Bool}
    (hcopied : ∀ values ∈ keyValues keys inTransData lockType, Copied (resourceColumns keys) values) :
    (judgeAndAddLock keys sesSlot resSlot s env n inTransData sessionId lockType).map
        (fun p => (view keys p.1, p.2.answer)) =
      LockManager.judgeAndAddLock sesSlot resSlot (view keys s) (viewEnv keys env) n
        ((keyValues keys inTransData lockType).map List.flatten) sessionId := by
  unfold judgeAndAddLock LockManager.judgeAndAddLock
  cases hvalues : keyValues keys inTransData lockType with
  | none => rfl
  | some values =>
    -- the row that is entered says what was asked for
    have hinsert : ∀ type, (insertRec keys sesSlot resSlot s env
          (lockRec keys values sessionId type env.stack)).map (view keys) id =
        LockManager.insertRec sesSlot resSlot (view keys s) (viewEnv keys env)
          ⟨sessionId, type, values.flatten⟩ := fun type => by
      rw [view_insertRec h, decode_lockRec h (hcopied values hvalues) henv.stack]
    rw [Option.map_some]
    dsimp only
    rw [← viewRows_selectRes h env]
    cases selectRes keys resSlot s env values.flatten with
    | nil =>
      dsimp only [viewRows, List.map_nil, Option.map_some, finish]
      rw [← hinsert]
      obtain ⟨t, ok⟩ := insertRec keys sesSlot resSlot s env
        (lockRec keys values sessionId .own env.stack)
      cases ok <;> rfl
    | cons p rest =>
      have hfind : (viewRows keys (p :: rest)).find? (fun p => p.2.sessionId = sessionId) =
          ((p :: rest).find? fun p => sessionOf p.2 = sessionId).map
            fun p => (p.1, decode keys p.2) := List.find?_map
      rw [viewRows, List.map_cons] at hfind ⊢
      dsimp only at hfind ⊢
      rw [hfind]
      cases (p :: rest).find? fun p => sessionOf p.2 = sessionId with
      | some q =>
        have htype : (if lockTypeOf q.2 = code .wait then Answer.waiting else .owned) =
            if (decode keys q.2).lockType = .wait then .waiting else .owned :=
          if_congr lockType_wait_iff.symm rfl rfl
        exact congrArg (fun answer => some (view keys s, answer)) htype
      | none =>
        dsimp only [Option.map_none]
        rw [view_detectDeadLock h htyped htable, Option.map_map]
        refine congrArg (Option.map · _) (funext fun b => ?_)
        cases b with
        | true => exact congrArg (·, Answer.deadLock) (view_releaseLock h henv htyped htable _)
        | false =>
          dsimp only [Function.comp, finish]
          rw [← hinsert]
          obtain ⟨t, ok⟩ := insertRec keys sesSlot resSlot s env
            (lockRec keys values sessionId .wait env.stack)
          cases ok <;> rfl

/-! ### The rows in use stay rows of the two types -/

omit [DecidableEq A] in
/-- Only the bytes of the rows in use matter. -/
theorem Typed.of_used (h : Typed s) (hused : ∀ b, t.used b = true → s.used b = true)
    (hrecord : ∀ b, t.used b = true → t.record b = s.record b) : Typed t := by
  intro b hb
  rw [hrecord b hb]
  exact h b (hused b hb)

/-- Freeing a slot keeps the lock types. -/
theorem Typed.free (h : Typed s) (junk : A → Rec) (a : A) : Typed (s.free junk a) := by
  have hne : ∀ b, (s.free junk a).used b = true → b ≠ a := by
    rintro b hb rfl
    simp [State.free] at hb
  refine h.of_used (fun b hb => ?_) fun b hb => Function.update_of_ne (hne b hb) _ _
  have hkept : (s.free junk a).used b = s.used b := Function.update_of_ne (hne b hb) _ _
  exact hkept.symm.trans hb

/-- Writing a typed row keeps the lock types. -/
theorem Typed.setRecord (h : Fitting keys) (htyped : Typed s) (hrec : TypedRec rec) (a : A) :
    Typed (s.setRecord keys a rec) := by
  intro b hb
  by_cases hba : b = a
  · subst hba
    rw [State.setRecord]
    simp only [Function.update_self]
    rw [lockTypeOf_slotBytes h]
    exact hrec
  · rw [State.setRecord]
    simp only [Function.update_of_ne hba]
    exact htyped b hb

/-- The indexes are not the rows. -/
theorem insertAllIndex_rows :
    (insertAllIndex keys sesSlot resSlot s env a rec).1.record = s.record ∧
      (insertAllIndex keys sesSlot resSlot s env a rec).1.used = s.used := by
  unfold insertAllIndex
  split
  · exact ⟨rfl, rfl⟩
  · dsimp only
    split <;> exact ⟨rfl, rfl⟩

/-- Entering a typed row keeps the lock types. -/
theorem Typed.insertRec (h : Fitting keys) (htyped : Typed s) (hrec : TypedRec rec) :
    Typed (insertRec keys sesSlot resSlot s env rec).1 := by
  unfold LockTable.insertRec
  cases env.slot with
  | none => exact htyped
  | some a =>
    dsimp only
    generalize hs : ({ s.setRecord keys a rec with used := Function.update s.used a true } :
      State A) = s₁
    have htyped₁ : Typed s₁ := by
      subst hs
      intro b hb
      by_cases hba : b = a
      · subst hba
        simp only [State.setRecord, Function.update_self]
        rw [lockTypeOf_slotBytes h]
        exact hrec
      · exact htyped.setRecord h hrec a b
          ((Function.update_of_ne hba true s.used).symm.trans hb)
    obtain ⟨hrecord, hused⟩ :
        (insertAllIndex keys sesSlot resSlot s₁ env a rec).1.record = s₁.record ∧
          (insertAllIndex keys sesSlot resSlot s₁ env a rec).1.used = s₁.used :=
      insertAllIndex_rows
    generalize insertAllIndex keys sesSlot resSlot s₁ env a rec = r at hrecord hused ⊢
    obtain ⟨s₂, ok⟩ := r
    have htyped₂ : Typed s₂ := htyped₁.of_used (fun b hb => hused ▸ hb) fun b _ => congrFun hrecord b
    cases ok with
    | true => exact htyped₂
    | false => exact htyped₂.free env.junk a

/-- Deleting rows keeps the lock types. -/
theorem Typed.deleteRec (htyped : Typed s) (transDatas : List (A × Rec)) :
    Typed (deleteRec keys sesSlot resSlot s env transDatas) := by
  have hentries : ∀ (l : List (A × Rec)) (s : State A), Typed s →
      Typed (l.foldl (fun s p => deleteAllIndex keys sesSlot resSlot s p.1 p.2) s) :=
    fun l s hs => List.foldlRecOn l _ hs fun _ ht _ _ => ht
  have hslots : ∀ (l : List (A × Rec)) (s : State A), Typed s →
      Typed (l.foldl (fun s p => s.free env.junk p.1) s) :=
    fun l s hs => List.foldlRecOn l _ hs fun _ ht p _ => ht.free env.junk p.1
  exact hslots _ _ (hentries _ _ htyped)

/-- Waking the first waiter keeps the lock types. -/
theorem Typed.signal (h : Fitting keys) (hstack : env.signalStack.takeWhile (· ≠ 0) = [])
    (htyped : Typed s) :
    Typed (signalFirstWaitSessionByResource keys resSlot s env resValue) := by
  unfold signalFirstWaitSessionByResource
  split
  · exact htyped.setRecord h (.inr (lockTypeOf_setLockType hstack)) _
  · exact htyped

/-- A release keeps the lock types. -/
theorem Typed.releaseLock (h : Fitting keys) (henv : Terminated env) (htyped : Typed s) :
    Typed (releaseLock keys sesSlot resSlot s env sessionId) := by
  unfold LockTable.releaseLock
  refine Typed.deleteRec ?_ _
  split
  · refine List.foldlRecOn _ _ htyped fun t ht p _ => ?_
    split
    · exact ht.signal h henv.signalStack
    · exact ht
  · exact htyped

/-- A request keeps the lock types. -/
theorem Typed.judgeAndAddLock (h : Fitting keys) (henv : Terminated env) (htyped : Typed s)
    {n : Nat} {inTransData : InTransData} {lockType : Bool} {r : State A × Outcome}
    (hr : judgeAndAddLock keys sesSlot resSlot s env n inTransData sessionId lockType = some r) :
    Typed r.1 := by
  have hinsert : ∀ values type answer, Typed (finish env answer (LockTable.insertRec keys sesSlot
      resSlot s env (lockRec keys values sessionId type env.stack))).1 := fun values type answer =>
    htyped.insertRec h (by
      cases type with
      | wait => exact .inl (lockTypeOf_setLockType henv.stack)
      | own => exact .inr (lockTypeOf_setLockType henv.stack))
  unfold LockTable.judgeAndAddLock at hr
  split at hr
  · obtain rfl := Option.some.inj hr
    exact htyped
  · split at hr
    · obtain rfl := Option.some.inj hr
      exact hinsert _ _ _
    · split at hr
      · obtain rfl := Option.some.inj hr
        exact htyped
      · obtain ⟨b, -, rfl⟩ := Option.map_eq_some_iff.mp hr
        cases b with
        | true => exact htyped.releaseLock h henv
        | false => exact hinsert _ _ _

/-! ## Runs -/

/-- A call whose row keeps its key: a zero is behind the two characters, and the strings of the key
end with zeros. -/
def KeepsKey (keys : List ColumnDef) : Call A → Prop
  | .judgeAndAddLock env _ inTransData _ lockType =>
      Terminated env ∧
        ∀ values ∈ keyValues keys inTransData lockType, Copied (resourceColumns keys) values
  | .releaseLock env _ => Terminated env

/-- A call, as it is meant. -/
def viewCall (keys : List ColumnDef) : Call A → LockManager.Call A UInt32 Bytes
  | .judgeAndAddLock env n inTransData sessionId lockType =>
      .judgeAndAddLock (viewEnv keys env) n
        ((keyValues keys inTransData lockType).map List.flatten) sessionId
  | .releaseLock env sessionId => .releaseLock (viewEnv keys env) sessionId

/-- **One call is one of the abstract table.** -/
theorem step_view (h : Fitting keys) {c : Call A} (hc : KeepsKey keys c) (htyped : Typed s)
    (htable : LockManager.Table sesSlot resSlot (view keys s))
    (hstep : step keys sesSlot resSlot s c = some t) :
    LockManager.step sesSlot resSlot (view keys s) (viewCall keys c) = some (view keys t) ∧
      Typed t := by
  cases c with
  | judgeAndAddLock env n inTransData sessionId lockType =>
    obtain ⟨henv, hcopied⟩ := hc
    have hrefresh : view keys (s.refresh keys env) = view keys s := view_refresh h
    rw [step] at hstep
    split at hstep
    · rename_i hslot
      obtain ⟨r, hr, rfl⟩ := Option.map_eq_some_iff.mp hstep
      have hview := view_judgeAndAddLock h henv (htyped.refresh h) (hrefresh.symm ▸ htable) n
        sessionId hcopied
      rw [hr, hrefresh] at hview
      refine ⟨?_, (htyped.refresh h).judgeAndAddLock h henv hr⟩
      rw [viewCall, LockManager.step, ← hview]
      exact if_pos hslot
    · cases hstep
  | releaseLock env sessionId =>
    have hrefresh : view keys (s.refresh keys env) = view keys s := view_refresh h
    obtain rfl := Option.some.inj hstep
    refine ⟨congrArg some ?_, (htyped.refresh h).releaseLock h hc⟩
    rw [view_releaseLock h hc (htyped.refresh h) (hrefresh.symm ▸ htable) _, hrefresh]

end LockTable
