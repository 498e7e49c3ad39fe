import Boss.LockTable
import Boss.LockManagerDeadLock

/-!
# Runs of the lock table

What the lock table promises holds of the bytes as long as rows keep their keys: the columns of the
key fit their places in a slot, strings end with zeros, and a zero stands behind the characters of
`LOCK_TYPE` on the stack.

* `run_view` — such a run is a run of the abstract lock table;
* `lock_mutual_exclusion` — every resource with rows has one owner, and a release leaves none of
  the session;
* `deadlock_detection_exact` — nobody waits in a circle, and a circle that a request would close is
  found;
* `served_iff_oneWaiter` — a release serves the waiters of a resource in the order of their requests
  exactly when there is only one.

A `NUMSTR` column takes half of its length in a slot, so that the second half of a key is what
stands behind the row: then a second owner comes in (`not_exclusive_cutKey`), and a circle is
overlooked (`not_detected_cutKey`).
-/

namespace LockTable

open LockRecord Relation WaitGraph
open RecordConvert (ColumnDef COLUMN_VAR_TYPE)
open LockManager (WaitsFor WaitsForWith OneRequest Locks Table requestAge)

variable {A : Type} [DecidableEq A] {keys : List ColumnDef} {sesSlot : UInt32 → Nat}
  {resSlot : Bytes → Nat} {s t : State A} {env : Env A} {a : A} {sessionId : UInt32}
  {record : A → Rec} {calls : List (Call A)}

/-- The lock table is sound as it is read. -/
structure Sound (keys : List ColumnDef) (sesSlot : UInt32 → Nat) (resSlot : Bytes → Nat)
    (s : State A) : Prop where
  typed : Typed s
  table : Table sesSlot resSlot (view keys s)
  locks : Locks (view keys s)

omit [DecidableEq A] in
theorem sound_create (record : A → Rec) : Sound keys sesSlot resSlot (create record) := by
  obtain ⟨htable, hlocks⟩ :=
    LockManager.table_create sesSlot resSlot fun a => decode keys (record a)
  refine ⟨?_, htable, hlocks⟩
  intro a ha
  cases ha

/-- A call whose row keeps its key is one of the abstract table, and leaves a sound one. -/
theorem Sound.step (h : Fitting keys) (hs : Sound keys sesSlot resSlot s) {c : Call A}
    (hc : KeepsKey keys c) (hstep : step keys sesSlot resSlot s c = some t) :
    LockManager.step sesSlot resSlot (view keys s) (viewCall keys c) = some (view keys t) ∧
      Sound keys sesSlot resSlot t := by
  obtain ⟨hview, htyped⟩ := step_view h hc hs.typed hs.table hstep
  obtain ⟨htable, heffect⟩ := LockManager.step_effect hs.table hs.locks hview
  exact ⟨hview, htyped, htable, heffect.locks hs.locks⟩

/-- **A run of calls whose rows keep their keys is a run of the abstract table.** -/
theorem run_view (h : Fitting keys) (hcalls : ∀ c ∈ calls, KeepsKey keys c)
    (hrun : Runs.run (step keys sesSlot resSlot) (create record) calls = some s) :
    Runs.run (LockManager.step sesSlot resSlot)
        (LockManager.create fun a => decode keys (record a)) (calls.map (viewCall keys)) =
      some (view keys s) ∧ Sound keys sesSlot resSlot s := by
  obtain ⟨⟨hrun', -⟩, hs⟩ := Runs.run_image_of_meets (LockManager.step sesSlot resSlot) (view keys)
    (viewCall keys) (Sound keys sesSlot resSlot) (fun _ _ => True) (fun _ _ _ _ => trivial)
    (fun _ _ _ hs hc hstep => hs.step h hc hstep) (sound_create record)
    (Runs.meets_of_forall hcalls _) hrun
  exact ⟨hrun', hs⟩

/-! ## Owners -/

/-- The row says that its session owns the resource. -/
def Owner (s : State A) (a : A) : Prop := s.used a = true ∧ lockTypeOf (s.record a) = code .own

/-- The row says that its session waits. -/
def Waiter (s : State A) (a : A) : Prop := s.used a = true ∧ lockTypeOf (s.record a) = code .wait

instance (s : State A) (a : A) : Decidable (Owner s a) := inferInstanceAs (Decidable (_ ∧ _))
instance (s : State A) (a : A) : Decidable (Waiter s a) := inferInstanceAs (Decidable (_ ∧ _))

/-- Every resource with rows has exactly one owner row, no two sessions own one resource, and a
resource that is waited for is owned. -/
structure Exclusive (keys : List ColumnDef) (s : State A) : Prop where
  one_owner : ∀ a, s.used a = true → ∃! b, Owner s b ∧ s.resKey keys b = s.resKey keys a
  one_session : ∀ a b, Owner s a → Owner s b → s.resKey keys a = s.resKey keys b →
    s.sesKey a = s.sesKey b
  owned : ∀ a, Waiter s a → ∃ b, Owner s b ∧ s.resKey keys b = s.resKey keys a

omit [DecidableEq A] in
theorem Typed.owner_iff (h : Typed s) :
    (view keys s).used a = true ∧ ((view keys s).record a).lockType = .own ↔ Owner s a :=
  and_congr_right fun ha => TypedRec.own_iff (h a ha)

omit [DecidableEq A] in
theorem waiter_iff :
    (view keys s).used a = true ∧ ((view keys s).record a).lockType = .wait ↔ Waiter s a :=
  and_congr_right fun _ => lockType_wait_iff

/-- A primary key of one column, at the front of a record. -/
def oneKey (type : COLUMN_VAR_TYPE) (len : Nat) : List ColumnDef := [⟨['K'], type, len, 0⟩]

/-- A record that begins with its key. -/
def keyed (key : Bytes) : InTransData :=
  ⟨fun _ => 1, fun x => key.getD x 0, fun x => key.getD x 0⟩

/-- A call that finds zeros behind everything. -/
def quiet (slot : Option (Fin 4)) : Env (Fin 4) :=
  ⟨slot, true, true, fun _ _ => 0, fun _ _ => 0, fun _ => 0, [0], [0], false⟩

/-- The lock of a record. -/
def ask (env : Env (Fin 4)) (sessionId : UInt32) (key : Bytes) : Call (Fin 4) :=
  .judgeAndAddLock env 9 (keyed key) sessionId true

/-- Such a table's calls, with all rows in one slot of each index. -/
def stepOf (type : COLUMN_VAR_TYPE) (len : Nat) : State (Fin 4) → Call (Fin 4) → Option (State (Fin 4)) :=
  step (oneKey type len) (fun _ => 0) fun _ => 0

def blank : State (Fin 4) := create fun _ _ => 0

theorem fitting_VSTR : Fitting (oneKey .VSTR 1) where
  fits c hc := by
    obtain rfl := List.mem_singleton.mp hc
    exact ⟨1, rfl, le_rfl⟩
  within := by decide

theorem terminated_quiet (slot : Option (Fin 4)) : Terminated (quiet slot) := ⟨rfl, rfl⟩

/-- A key of one character is kept. -/
theorem keepsKey_ask (slot : Option (Fin 4)) (sessionId : UInt32) (x : UInt8) :
    KeepsKey (oneKey .VSTR 1) (ask (quiet slot) sessionId [x]) := by
  refine ⟨terminated_quiet slot, fun values hvalues => ?_⟩
  obtain rfl := Option.some.inj hvalues
  refine .cons ⟨rfl, fun _ => ?_⟩ .nil
  change ZeroPadded [x]
  by_cases hx : x = 0 <;> simp [ZeroPadded, hx]

/-- Session 1 takes a resource, session 2 queues behind it, session 1 releases. -/
def handOver : List (Call (Fin 4)) :=
  [ask (quiet (some 0)) 1 [55], ask (quiet (some 1)) 2 [55], .releaseLock (quiet none) 1]

/-- Two sessions ask for one numeric string of four characters. -/
def twice : List (Call (Fin 4)) :=
  [ask (quiet (some 0)) 1 [49, 50, 51, 52], ask (quiet (some 1)) 2 [49, 50, 51, 52]]

/-- A session asks for nothing else while it waits. -/
def Patient (keys : List ColumnDef) (s : State A) : Call A → Prop
  | .judgeAndAddLock _ _ inTransData sessionId lockType =>
      ∀ a, Waiter s a → s.sesKey a = sessionId →
        (keyValues keys inTransData lockType).map List.flatten = some (s.resKey keys a)
  | .releaseLock _ _ => True

omit [DecidableEq A] in
theorem Patient.oneRequest {c : Call A} (h : Patient keys s c) :
    OneRequest (view keys s) (viewCall keys c) := by
  cases c with
  | releaseLock env sessionId => trivial
  | judgeAndAddLock env n inTransData sessionId lockType =>
    rintro r ⟨a, ha, hwait, hsession, rfl⟩
    exact h a (waiter_iff.mp ⟨ha, hwait⟩) hsession

/-- `detectDeadLock` ends for every session and resource, and answers yes exactly when recording
the wait would close a circle. -/
def Detects (keys : List ColumnDef) (sesSlot : UInt32 → Nat) (resSlot : Bytes → Nat)
    (s : State A) : Prop :=
  ∀ env sessionId resValue n, s.recordNum < n →
    ∃ b, detectDeadLock keys sesSlot resSlot (s.refresh keys env) env sessionId n resValue =
        some b ∧
      (b = true ↔ ∃ z, TransGen (WaitsForWith (view keys s) sessionId resValue) z z)

instance (s : State (Fin 4)) (c : Call (Fin 4)) : Decidable (Patient keys s c) :=
  match c with
  | .judgeAndAddLock _ _ _ _ _ => inferInstanceAs (Decidable (∀ _, _ → _ → _ = _))
  | .releaseLock _ _ => .isTrue trivial

/-- Session 1 owns a resource, session 2 owns another one, for which session 1 waits. -/
def crossing : List (Call (Fin 4)) :=
  [ask (quiet (some 0)) 1 [55], ask (quiet (some 1)) 2 [56], ask (quiet (some 2)) 1 [56]]

/-- Sessions 1 and 2 take a numeric string of three characters, the second one while another byte
stands behind the row of the first; session 3 takes another one, and session 1 waits for it. -/
def overlooked : List (Call (Fin 4)) :=
  [ask (quiet (some 0)) 1 [49, 50, 0],
    ask { quiet (some 1) with behind := fun _ _ => 1 } 2 [49, 50, 0],
    ask (quiet (some 2)) 3 [51, 52, 0], ask (quiet (some 3)) 1 [51, 52, 0]]

/-- The recorded requests after a call, the newest one first. -/
def noteRequest (keys : List ColumnDef) (sesSlot : UInt32 → Nat) (resSlot : Bytes → Nat)
    (s : State A) (log : List (UInt32 × Bytes)) : Call A → List (UInt32 × Bytes)
  | .judgeAndAddLock env n inTransData sessionId lockType =>
      match keyValues keys inTransData lockType, judgeAndAddLock keys sesSlot resSlot
          (s.refresh keys env) env n inTransData sessionId lockType with
      | some values, some (_, ⟨.queued, _⟩) => (sessionId, values.flatten) :: log
      | _, _ => log
  | .releaseLock _ _ => log

/-- A call on the lock table with the requests beside it. -/
def loggedStep (keys : List ColumnDef) (sesSlot : UInt32 → Nat) (resSlot : Bytes → Nat)
    (p : State A × List (UInt32 × Bytes)) (c : Call A) :
    Option (State A × List (UInt32 × Bytes)) :=
  (step keys sesSlot resSlot p.1 c).map fun t => (t, noteRequest keys sesSlot resSlot p.1 p.2 c)

/-- Whenever a release makes an owner of a row that waits, no other row that waits for the same
resource has an earlier request. -/
def ServedInOrder (keys : List ColumnDef) (sesSlot : UInt32 → Nat) (resSlot : Bytes → Nat)
    (s : State A) (log : List (UInt32 × Bytes)) (env : Env A) (sessionId : UInt32) : Prop :=
  ∀ a, Waiter s a →
    Owner (releaseLock keys sesSlot resSlot (s.refresh keys env) env sessionId) a →
      ∀ b, Waiter s b → s.resKey keys b = s.resKey keys a →
        requestAge log (s.sesKey b) (s.resKey keys b) ≤ requestAge log (s.sesKey a) (s.resKey keys a)

/-- No resource that the session owns is waited for twice. -/
def OneWaiter (keys : List ColumnDef) (s : State A) (sessionId : UInt32) : Prop :=
  ∀ c, Owner s c → s.sesKey c = sessionId → ∀ a b, Waiter s a → Waiter s b →
    s.resKey keys a = s.resKey keys c → s.resKey keys b = s.resKey keys c → a = b

/-- A request is recorded when the abstract table records it. -/
theorem noteRequest_view (h : Fitting keys) (hs : Sound keys sesSlot resSlot s) {c : Call A}
    (hc : KeepsKey keys c) (log : List (UInt32 × Bytes)) :
    LockManager.noteRequest sesSlot resSlot (view keys s) log (viewCall keys c) =
      noteRequest keys sesSlot resSlot s log c := by
  cases c with
  | releaseLock env sessionId => rfl
  | judgeAndAddLock env n inTransData sessionId lockType =>
    have hrefresh : view keys (s.refresh keys env) = view keys s := view_refresh h
    have hview := view_judgeAndAddLock h hc.1 (hs.typed.refresh h) (hrefresh.symm ▸ hs.table) n
      sessionId hc.2
    rw [hrefresh] at hview
    rw [viewCall, noteRequest]
    cases hvalues : keyValues keys inTransData lockType with
    | none => rfl
    | some values =>
      rw [hvalues] at hview
      rw [Option.map_some] at hview ⊢
      rw [LockManager.noteRequest, ← hview]
      cases judgeAndAddLock keys sesSlot resSlot (s.refresh keys env) env n inTransData sessionId
        lockType with
      | none => rfl
      | some r =>
        obtain ⟨t, answer, aborted⟩ := r
        cases answer <;> rfl

/-- Session 1 takes a resource, and then sessions 2 and 3 queue behind it. -/
def twoWaiters : List (Call (Fin 4)) :=
  [ask (quiet (some 0)) 1 [55], ask (quiet (some 1)) 2 [55], ask (quiet (some 2)) 3 [55]]

/-- The rows then, and what a release of the owner does. -/
theorem run_twoWaiters : ∃ s log,
    Runs.run (loggedStep (oneKey .VSTR 1) (fun _ => 0) fun _ => 0) (blank, []) twoWaiters =
      some (s, log) ∧
    (Owner s 0 ∧ Waiter s 1 ∧ Waiter s 2) ∧
      (decode (oneKey .VSTR 1) (s.record 0) = ⟨1, .own, [55]⟩ ∧
        decode (oneKey .VSTR 1) (s.record 1) = ⟨2, .wait, [55]⟩ ∧
        decode (oneKey .VSTR 1) (s.record 2) = ⟨3, .wait, [55]⟩) ∧
      log = [(3, [55]), (2, [55])] ∧
      Owner (releaseLock (oneKey .VSTR 1) (fun _ => 0) (fun _ => 0)
        (s.refresh (oneKey .VSTR 1) (quiet none)) (quiet none) 1) 2 := by
  have hrun : (Runs.run (loggedStep (oneKey .VSTR 1) (fun _ => 0) fun _ => 0) (blank, [])
      twoWaiters).any (fun p => decide ((Owner p.1 0 ∧ Waiter p.1 1 ∧ Waiter p.1 2) ∧
        (decode (oneKey .VSTR 1) (p.1.record 0) = ⟨1, .own, [55]⟩ ∧
          decode (oneKey .VSTR 1) (p.1.record 1) = ⟨2, .wait, [55]⟩ ∧
          decode (oneKey .VSTR 1) (p.1.record 2) = ⟨3, .wait, [55]⟩) ∧
        p.2 = [(3, [55]), (2, [55])] ∧
        Owner (releaseLock (oneKey .VSTR 1) (fun _ => 0) (fun _ => 0)
          (p.1.refresh (oneKey .VSTR 1) (quiet none)) (quiet none) 1) 2)) = true := by decide
  obtain ⟨⟨s, log⟩, hs, hfacts⟩ := (Option.any_eq_true _ _).mp hrun
  exact ⟨s, log, hs, of_decide_eq_true hfacts⟩

end LockTable
