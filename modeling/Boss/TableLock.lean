import Boss.LockManagerRuns

/-!
# Table locks and row locks

A transaction locks either its whole table or the rows it selects.  `Table::beginTrans` with
lock type 0 looks whether the lock table of the rows is empty and then takes the table's write
lock for the whole transaction.  `Table::selectWithTrans` with lock type 1 takes the write lock
for the time of the call only, enters the rows in the lock table, and lets go of the write lock
whenever it has to wait for a row.

A step is what a session does between two points at which others can come in: a look at the
lock table, a call of the lock manager under the write lock, taking or giving back the write
lock.  The lock table is the one of `LockManager`.

While a table transaction runs nobody else has the write lock, so no row lock comes in.  What
is not covered is the time between the look and the write lock: a row locked there stays.

Main results: `Excluding.step` for one step, `excluding_run` for runs.
-/

namespace TableLock

open LockManager Runs

/-- Where a session is with its transaction. -/
inductive Phase (R : Type)
  | idle
  /-- `beginTrans(0)` is about to look at the lock table. -/
  | looking
  /-- `isEmpty` has answered that it is empty. -/
  | cleared
  | tableTrans
  | rowTrans
  /-- In `selectWithTrans`, with the write lock. -/
  | selecting
  /-- In `selectWithTrans`, waiting for a row without the write lock. -/
  | waiting (resource : Option R)
  /-- In `commit` or `rollback`, with the write lock. -/
  | ending
  deriving DecidableEq, Repr

/-- The session has the write lock. -/
def Phase.holds {R : Type} : Phase R → Bool
  | .tableTrans | .selecting | .ending => true
  | _ => false

structure State (A S R : Type) where
  /-- Who has the write lock of the table. -/
  writer : Option S
  locks : LockManager.State A S R
  phase : S → Phase R

inductive Event (A S R : Type)
  | beginTrans (lockType : Bool)
  | isEmpty
  /-- `getWriteLock` of `beginTrans`. -/
  | getWriteLock
  /-- `commit` or `rollback`. -/
  | endTrans (env : Env A S R)
  | selectWithTrans
  | judgeAndAddLock (env : Env A S R) (n : Nat) (resource : Option R)
  /-- The next turn of the waiting loop, the last one if the minute is over. -/
  | retry (env : Env A S R) (n : Nat) (timeout : Bool)
  | releaseWriteLock

variable {A S R : Type} [DecidableEq A] [DecidableEq S] [DecidableEq R]

/-- A new table with its lock table. -/
def init (record : A → LockRow S R) : State A S R := ⟨none, create record, fun _ => .idle⟩

namespace State

variable (s : State A S R) (p : S)

def goTo (ph : Phase R) : State A S R := { s with phase := Function.update s.phase p ph }

/-- The session goes on with the write lock or without it. -/
def settle (locks : LockManager.State A S R) (ph : Phase R) : State A S R where
  writer := if ph.holds then some p else none
  locks := locks
  phase := Function.update s.phase p ph

end State

section Steps

variable (sesSlot : S → Nat) (resSlot : R → Nat)

/-- `BaseTable::isEmpty` of the lock table. -/
def isEmpty (s : State A S R) : Bool := s.locks.recordNum = 0

/-- A row in `selectWithTrans`: on with the next one, to the waiting loop, or out of the call
with an exception. -/
def judge (s : State A S R) (p : S) (env : Env A S R) (n : Nat) (resource : Option R) :
    Option (State A S R) :=
  (judgeAndAddLock sesSlot resSlot s.locks env n resource p).map fun (locks, answer) =>
    match answer with
    | .granted | .owned => s.settle p locks .selecting
    | .waiting | .queued => s.settle p locks (.waiting resource)
    | .deadLock | .thrown => s.settle p locks .rowTrans

/-- A turn of the waiting loop: after a minute everything is released and the call throws. -/
def retry (s : State A S R) (p : S) (env : Env A S R) (n : Nat) (timeout : Bool)
    (resource : Option R) : Option (State A S R) :=
  (judgeAndAddLock sesSlot resSlot s.locks env n resource p).map fun (locks, answer) =>
    match answer with
    | .granted | .owned => s.settle p locks .selecting
    | .thrown => s.settle p locks .rowTrans
    | .waiting | .queued | .deadLock =>
      if timeout then s.settle p (releaseLock sesSlot resSlot locks env p) .rowTrans
      else s.settle p locks (.waiting resource)

def step (s : State A S R) : S × Event A S R → Option (State A S R)
  | (p, .beginTrans lockType) =>
    if s.phase p = .idle then some (s.goTo p (if lockType then .rowTrans else .looking)) else none
  | (p, .isEmpty) =>
    if s.phase p = .looking then some (s.goTo p (if isEmpty s then .cleared else .looking))
    else none
  | (p, .getWriteLock) =>
    if s.phase p = .cleared ∧ s.writer = none then some (s.settle p s.locks .tableTrans) else none
  | (p, .endTrans env) =>
    if s.phase p = .tableTrans then some (s.settle p s.locks .idle)
    else if s.phase p = .rowTrans ∧ s.writer = none then
      some (s.settle p (releaseLock sesSlot resSlot s.locks env p) .ending)
    else none
  | (p, .selectWithTrans) =>
    if s.phase p = .rowTrans ∧ s.writer = none then some (s.settle p s.locks .selecting) else none
  | (p, .judgeAndAddLock env n resource) =>
    if s.phase p = .selecting ∧ ∀ a ∈ env.slot, s.locks.used a = false then
      judge sesSlot resSlot s p env n resource
    else none
  | (p, .retry env n timeout) =>
    match s.phase p with
    | .waiting resource =>
      if s.writer = none ∧ ∀ a ∈ env.slot, s.locks.used a = false then
        retry sesSlot resSlot s p env n timeout resource
      else none
    | _ => none
  | (p, .releaseWriteLock) =>
    if s.phase p = .selecting then some (s.settle p s.locks .rowTrans)
    else if s.phase p = .ending then some (s.settle p s.locks .idle)
    else none

end Steps

/-! ## The invariant -/

variable {sesSlot : S → Nat} {resSlot : R → Nat} {s t : State A S R} {p : S} {ph : Phase R}

/-- The holder of the write lock is the session that thinks so, and beside a table transaction
there are no row locks. -/
structure Excluding (sesSlot : S → Nat) (resSlot : R → Nat) (s : State A S R) : Prop where
  table : Table sesSlot resSlot s.locks
  locks : Locks s.locks
  writer : ∀ q, (s.phase q).holds = true → s.writer = some q
  empty : ∀ q, s.phase q = .tableTrans → s.locks.recordNum = 0

omit [DecidableEq A] [DecidableEq R] in
/-- A session moves while it does not have the write lock. -/
theorem Excluding.goTo (h : Excluding sesSlot resSlot s) (hph : ph.holds = false) :
    Excluding sesSlot resSlot (s.goTo p ph) := by
  have hne : ph ≠ .tableTrans := by
    rintro rfl
    simp [Phase.holds] at hph
  refine ⟨h.table, h.locks, ?_, ?_⟩
  · intro q hq
    by_cases hqp : q = p
    · subst hqp
      simp [State.goTo, hph] at hq
    · exact h.writer q (by simpa [State.goTo, hqp] using hq)
  · intro q hq
    by_cases hqp : q = p
    · subst hqp
      exact absurd (by simpa [State.goTo] using hq) hne
    · exact h.empty q (by simpa [State.goTo, hqp] using hq)

omit [DecidableEq A] [DecidableEq R] in
/-- **A session acts under the write lock**: no other session has it. -/
theorem Excluding.settle (h : Excluding sesSlot resSlot s)
    (hfree : s.writer = none ∨ s.writer = some p) {locks : LockManager.State A S R}
    (htable : Table sesSlot resSlot locks) (hlocks : Locks locks)
    (hempty : ph = .tableTrans → locks.recordNum = 0) :
    Excluding sesSlot resSlot (s.settle p locks ph) := by
  have hother : ∀ q, q ≠ p → (s.phase q).holds = false := by
    intro q hqp
    refine Bool.eq_false_iff.mpr fun hq => ?_
    have hwriter := h.writer q hq
    rcases hfree with hnone | hp
    · exact absurd (hnone.symm.trans hwriter) (by simp)
    · exact hqp (Option.some.inj (hwriter.symm.trans hp))
  refine ⟨htable, hlocks, ?_, ?_⟩
  · intro q hq
    by_cases hqp : q = p
    · subst hqp
      have hph : ph.holds = true := by simpa [State.settle] using hq
      simp [State.settle, hph]
    · have hq' : (s.phase q).holds = true := by simpa [State.settle, hqp] using hq
      exact absurd hq' (by simp [hother q hqp])
  · intro q hq
    by_cases hqp : q = p
    · subst hqp
      exact hempty (by simpa [State.settle] using hq)
    · have hq' : s.phase q = .tableTrans := by simpa [State.settle, hqp] using hq
      have hholds : (s.phase q).holds = true := by
        rw [hq']
        rfl
      exact absurd hholds (by simp [hother q hqp])

/-- When `beginTrans` gets the write lock the lock table is still as empty as it was at the
look. -/
def StillEmpty (s : State A S R) : S × Event A S R → Prop
  | (_, .getWriteLock) => isEmpty s = true
  | _ => True

instance decidableStillEmpty (s : State A S R) : (label : S × Event A S R) →
    Decidable (StillEmpty s label)
  | (_, .getWriteLock) => inferInstanceAs (Decidable (isEmpty s = true))
  | (_, .beginTrans _) | (_, .isEmpty) | (_, .endTrans _) | (_, .selectWithTrans)
  | (_, .judgeAndAddLock _ _ _) | (_, .retry _ _ _) | (_, .releaseWriteLock) => .isTrue trivial

/-- What the lock manager leaves. -/
theorem judge_locks (h : Excluding sesSlot resSlot s) {env : Env A S R} {n : Nat}
    {resource : Option R} {locks : LockManager.State A S R} {answer : Answer}
    (hslot : ∀ a ∈ env.slot, s.locks.used a = false)
    (hjudge : judgeAndAddLock sesSlot resSlot s.locks env n resource p = some (locks, answer)) :
    Table sesSlot resSlot locks ∧ Locks locks := by
  obtain ⟨htable, heffect⟩ := judgeAndAddLock_spec h.table h.locks hslot hjudge
  exact ⟨htable, heffect.locks h.locks⟩

theorem release_locks {locks : LockManager.State A S R} (htable : Table sesSlot resSlot locks)
    (hlocks : Locks locks) (env : Env A S R) (p : S) :
    Table sesSlot resSlot (releaseLock sesSlot resSlot locks env p) ∧
    Locks (releaseLock sesSlot resSlot locks env p) := by
  obtain ⟨htable', hreleased⟩ := releaseLock_spec htable hlocks env p
  exact ⟨htable', hreleased.locks hlocks⟩

/-- **Every step keeps the invariant.** -/
theorem Excluding.step (h : Excluding sesSlot resSlot s) {label : S × Event A S R}
    (hok : StillEmpty s label) (hstep : step sesSlot resSlot s label = some t) :
    Excluding sesSlot resSlot t := by
  obtain ⟨p, event⟩ := label
  have hholder : ∀ ph, s.phase p = ph → ph.holds = true → s.writer = none ∨ s.writer = some p :=
    fun ph hph hholds => .inr (h.writer p (by rw [hph]; exact hholds))
  cases event with
  | beginTrans lockType =>
      obtain ⟨-, hstep⟩ := Option.ite_none_right_eq_some.mp hstep
      obtain rfl := Option.some.inj hstep
      refine h.goTo ?_
      cases lockType <;> rfl
  | isEmpty =>
      obtain ⟨-, hstep⟩ := Option.ite_none_right_eq_some.mp hstep
      obtain rfl := Option.some.inj hstep
      refine h.goTo ?_
      split <;> rfl
  | getWriteLock =>
      obtain ⟨⟨-, hfree⟩, hstep⟩ := Option.ite_none_right_eq_some.mp hstep
      obtain rfl := Option.some.inj hstep
      exact h.settle (.inl hfree) h.table h.locks (fun _ => of_decide_eq_true hok)
  | endTrans env =>
      dsimp only [TableLock.step] at hstep
      by_cases htable : s.phase p = .tableTrans
      · rw [if_pos htable] at hstep
        obtain rfl := Option.some.inj hstep
        exact h.settle (hholder _ htable rfl) h.table h.locks (by simp)
      · rw [if_neg htable] at hstep
        obtain ⟨⟨-, hfree⟩, hstep⟩ := Option.ite_none_right_eq_some.mp hstep
        obtain rfl := Option.some.inj hstep
        obtain ⟨htable', hlocks'⟩ := release_locks h.table h.locks env p
        exact h.settle (.inl hfree) htable' hlocks' (by simp)
  | selectWithTrans =>
      obtain ⟨⟨-, hfree⟩, hstep⟩ := Option.ite_none_right_eq_some.mp hstep
      obtain rfl := Option.some.inj hstep
      exact h.settle (.inl hfree) h.table h.locks (by simp)
  | judgeAndAddLock env n resource =>
      obtain ⟨⟨hph, hslot⟩, hstep⟩ := Option.ite_none_right_eq_some.mp hstep
      obtain ⟨⟨locks, answer⟩, hjudge, rfl⟩ := Option.map_eq_some_iff.mp hstep
      obtain ⟨htable', hlocks'⟩ := judge_locks h hslot hjudge
      have hmine := hholder _ hph rfl
      cases answer <;> exact h.settle hmine htable' hlocks' (by simp)
  | retry env n timeout =>
      dsimp only [TableLock.step] at hstep
      cases hph : s.phase p with
      | waiting resource =>
          simp only [hph] at hstep
          obtain ⟨⟨hfree, hslot⟩, hstep⟩ := Option.ite_none_right_eq_some.mp hstep
          obtain ⟨⟨locks, answer⟩, hjudge, rfl⟩ := Option.map_eq_some_iff.mp hstep
          obtain ⟨htable', hlocks'⟩ := judge_locks h hslot hjudge
          obtain ⟨htable'', hlocks''⟩ := release_locks htable' hlocks' env p
          cases answer <;> cases timeout <;>
            first
            | exact h.settle (.inl hfree) htable' hlocks' (by simp)
            | exact h.settle (.inl hfree) htable'' hlocks'' (by simp)
      | idle => simp [hph] at hstep
      | looking => simp [hph] at hstep
      | cleared => simp [hph] at hstep
      | tableTrans => simp [hph] at hstep
      | rowTrans => simp [hph] at hstep
      | selecting => simp [hph] at hstep
      | ending => simp [hph] at hstep
  | releaseWriteLock =>
      dsimp only [TableLock.step] at hstep
      by_cases hselecting : s.phase p = .selecting
      · rw [if_pos hselecting] at hstep
        obtain rfl := Option.some.inj hstep
        exact h.settle (hholder _ hselecting rfl) h.table h.locks (by simp)
      · rw [if_neg hselecting] at hstep
        obtain ⟨hending, hstep⟩ := Option.ite_none_right_eq_some.mp hstep
        obtain rfl := Option.some.inj hstep
        exact h.settle (hholder _ hending rfl) h.table h.locks (by simp)

omit [DecidableEq A] [DecidableEq S] [DecidableEq R] in
/-- An empty lock table has no rows. -/
theorem used_of_recordNum {locks : LockManager.State A S R} (h : Table sesSlot resSlot locks)
    (hzero : locks.recordNum = 0) (a : A) : locks.used a = false := by
  obtain ⟨l, -, hmem, hlength⟩ := h.counted
  have hnil : l = [] := List.length_eq_zero_iff.mp (by omega)
  refine Bool.eq_false_iff.mpr fun hused => ?_
  have hin := (hmem a).mpr hused
  simp [hnil] at hin

/-! ## Runs -/

/-- **Table and row transactions exclude each other** in every run in which the lock table is
still empty whenever `beginTrans` gets the write lock. -/
theorem excluding_run (record : A → LockRow S R) (labels : List (S × Event A S R))
    (hmeets : Meets (step sesSlot resSlot) StillEmpty (init record) labels)
    (hrun : run (step sesSlot resSlot) (init record) labels = some s) :
    ∀ p q, p ≠ q → s.phase p = .tableTrans →
      ¬ ∃ a, s.locks.used a = true ∧ (s.locks.record a).lockType = .own ∧
        (s.locks.record a).sessionId = q := by
  obtain ⟨htable, hlocks⟩ := table_create sesSlot resSlot record
  have hinit : Excluding sesSlot resSlot (init record) :=
    ⟨htable, hlocks, by simp [init, Phase.holds], by simp [init]⟩
  have hinv : Excluding sesSlot resSlot s :=
    run_invariant_of_meets (fun _ _ _ h hok hstep => h.step hok hstep) hinit hmeets hrun
  rintro p q - hp ⟨a, hused, -⟩
  rw [used_of_recordNum hinv.table (hinv.empty p hp) a] at hused
  exact absurd hused (by simp)

/-- Slot 10 is free and there is room in the indexes. -/
def freshSlot : Env Nat Nat Nat := ⟨some 10, true, true, fun _ => ⟨0, .wait, 0⟩⟩

/-- Session 2 locks row 7 and commits, then session 1 locks the table. -/
def inTurn : List (Nat × Event Nat Nat Nat) :=
  [(2, .beginTrans true), (2, .selectWithTrans), (2, .judgeAndAddLock freshSlot 5 (some 7)),
    (2, .releaseWriteLock), (2, .endTrans freshSlot), (2, .releaseWriteLock),
    (1, .beginTrans false), (1, .isEmpty), (1, .getWriteLock)]

theorem excluding_run_inTurn :
    ∃ s, run (step id id) (init fun _ => ⟨0, .wait, 0⟩) inTurn = some s ∧
      s.phase 1 = .tableTrans ∧
      ¬ ∃ a, s.locks.used a = true ∧ (s.locks.record a).lockType = .own ∧
        (s.locks.record a).sessionId = 2 := by
  obtain ⟨s, hs⟩ : ∃ s, run (step id id) (init fun _ => ⟨0, .wait, 0⟩) inTurn = some s :=
    Option.isSome_iff_exists.mp (by decide +kernel)
  have hphase : (run (step id id) (init fun _ => ⟨0, .wait, 0⟩) inTurn).map (fun s => s.phase 1) =
      some .tableTrans := by decide +kernel
  rw [hs] at hphase
  have hp := Option.some.inj hphase
  have hmeets : Meets (step id id) StillEmpty (init fun _ => ⟨0, .wait, 0⟩) inTurn := by
    decide +kernel
  exact ⟨s, hs, hp, excluding_run _ inTurn hmeets hs 1 2 (by decide) hp⟩

/-- Session 1 has looked when session 2 locks row 7, and gets the write lock after it. -/
def inBetween : List (Nat × Event Nat Nat Nat) :=
  [(1, .beginTrans false), (1, .isEmpty), (2, .beginTrans true), (2, .selectWithTrans),
    (2, .judgeAndAddLock freshSlot 5 (some 7)), (2, .releaseWriteLock), (1, .getWriteLock)]

theorem not_excluding_inBetween :
    ∃ s, run (step id id) (init fun _ => ⟨0, .wait, 0⟩) inBetween = some s ∧
      s.phase 1 = .tableTrans ∧ s.locks.used 10 = true ∧ s.locks.record 10 = ⟨2, .own, 7⟩ :=
  ⟨_, rfl, rfl, rfl, rfl⟩

end TableLock
