import Boss.Census
import Boss.Runs

/-!
# The reader/writer lock on System V semaphores

`IpcDoubleLock` keeps two semaphores for a lock: number 0 is the gate of the writers, number
1 has `MAX_SEMS` permits of which a reader takes one and a writer takes all.  A step of the
model is one semaphore operation of one process, so other processes can come in wherever the
source calls `semop` or `semctl`.  A process that cannot have its permits sleeps inside
`semop`; it can be interrupted there, and `SysSemaphore` then throws.

Three of the four ways to acquire the lock take what the release gives back, and the count of
permits is right as long as only these succeed.  `getWriteLockNoWait` takes the gate, looks
whether all permits are there, and leaves them there; its release puts `MAX_SEMS` more.

Main results: `step_moves` for one step, `exclusive_run` for runs.
-/

namespace IpcDoubleLock

open Census Runs

def MAX_SEMS : Nat := 10000

/-- What a process is about to do. -/
inductive Phase
  | idle
  /-- `getReadLock` saw a waiting process and queues at the gate. -/
  | rdGate
  /-- It has the gate and wants its permit. -/
  | rdGated (asleep : Bool)
  /-- It has both and opens the gate again. -/
  | rdLeave
  /-- Its wait for the permit failed. -/
  | rdFail
  /-- `getReadLock` saw no waiting process. -/
  | rdDirect (asleep : Bool)
  | reading
  | wtGate
  | wtGated (asleep : Bool)
  | wtFail
  | writing
  /-- `releaseWriteLock` has opened the gate. -/
  | wtLeave
  /-- `getReadLockNoWait` has its permit and looks at the gate. -/
  | rdTried
  | rdBack
  /-- `getWriteLockNoWait` has the gate and looks at the permits. -/
  | wtTried
  | wtBack
  deriving DecidableEq, Repr

/-- The process sleeps until semaphore 1 grows. -/
def Phase.asleep : Phase → Bool
  | .rdGated b => b
  | .rdDirect b => b
  | .wtGated b => b
  | _ => false

structure State (Pid : Type) where
  sem0 : Int
  sem1 : Int
  phase : Pid → Phase

inductive Event
  | getReadLock
  | getWriteLock
  | getReadLockNoWait
  | getWriteLockNoWait
  | releaseReadLock
  | releaseWriteLock
  /-- The next semaphore operation of the call. -/
  | go
  /-- A signal ends the sleep. -/
  | interrupt
  deriving DecidableEq, Repr

variable {Pid : Type} [Fintype Pid] [DecidableEq Pid]

/-- The semaphores as `open` creates them. -/
def init : State Pid := ⟨1, MAX_SEMS, fun _ => .idle⟩

namespace State

variable (s : State Pid) (p : Pid)

def goTo (ph : Phase) : State Pid := { s with phase := Function.update s.phase p ph }

/-- `sem_post(0,1)`, and on. -/
def post0 (ph : Phase) : State Pid := { s.goTo p ph with sem0 := s.sem0 + 1 }

/-- `sem_post(1,value)`, and on. -/
def post1 (value : Nat) (ph : Phase) : State Pid := { s.goTo p ph with sem1 := s.sem1 + value }

/-- `sem_wait(0,1)`; the process stays where it is while the gate is closed. -/
def wait0 (ph : Phase) : State Pid :=
  if 1 ≤ s.sem0 then { s.goTo p ph with sem0 := s.sem0 - 1 } else s

/-- `sem_wait(1,value)`, or to sleep. -/
def wait1 (value : Nat) (sleep ph : Phase) : State Pid :=
  if value ≤ s.sem1 then { s.goTo p ph with sem1 := s.sem1 - value } else s.goTo p sleep

/-- `sem_getwcnt(1)`. -/
def sem_getwcnt : Nat := (Finset.univ.filter fun q => (s.phase q).asleep).card

end State

/-- The semaphore operation a process is at. -/
def go (s : State Pid) (p : Pid) : Option (State Pid) :=
  match s.phase p with
  | .rdGate => some (s.wait0 p (.rdGated false))
  | .rdGated _ => some (s.wait1 p 1 (.rdGated true) .rdLeave)
  | .rdLeave => some (s.post0 p .reading)
  | .rdFail => some (s.post0 p .idle)
  | .rdDirect _ => some (s.wait1 p 1 (.rdDirect true) .reading)
  | .wtGate => some (s.wait0 p (.wtGated false))
  | .wtGated _ => some (s.wait1 p MAX_SEMS (.wtGated true) .writing)
  | .wtFail => some (s.post0 p .idle)
  | .wtLeave => some (s.post1 p MAX_SEMS .idle)
  | .rdTried => some (s.goTo p (if s.sem0 ≠ 1 then .rdBack else .reading))
  | .rdBack => some (s.post1 p 1 .idle)
  | .wtTried => some (s.goTo p (if s.sem1 ≠ MAX_SEMS then .wtBack else .writing))
  | .wtBack => some (s.post0 p .idle)
  | .idle | .reading | .writing => none

/-- The sleep of a process ends without its permits. -/
def interrupt (s : State Pid) (p : Pid) : Option (State Pid) :=
  match s.phase p with
  | .rdGate | .rdDirect true | .wtGate => some (s.goTo p .idle)
  | .rdGated true => some (s.goTo p .rdFail)
  | .wtGated true => some (s.goTo p .wtFail)
  | _ => none

/-- One step of one process.  A failed `sem_trywait` throws, and the call is over. -/
def step (s : State Pid) : Pid × Event → Option (State Pid)
  | (p, .getReadLock) =>
    if s.phase p = .idle then
      some (s.goTo p (if s.sem_getwcnt ≠ 0 then .rdGate else .rdDirect false))
    else none
  | (p, .getWriteLock) => if s.phase p = .idle then some (s.goTo p .wtGate) else none
  | (p, .getReadLockNoWait) =>
    if s.phase p = .idle then some (s.wait1 p 1 .idle .rdTried) else none
  | (p, .getWriteLockNoWait) => if s.phase p = .idle then some (s.wait0 p .wtTried) else none
  | (p, .releaseReadLock) => if s.phase p = .reading then some (s.post1 p 1 .idle) else none
  | (p, .releaseWriteLock) => if s.phase p = .writing then some (s.post0 p .wtLeave) else none
  | (p, .go) => go s p
  | (p, .interrupt) => interrupt s p

/-! ## What a process holds -/

/-- The permits of semaphore 1 that a process in this phase holds. -/
def permits : Phase → Nat
  | .rdLeave | .reading | .rdTried | .rdBack => 1
  | .writing | .wtLeave => MAX_SEMS
  | _ => 0

/-- Whether it has closed the gate. -/
def gate : Phase → Nat
  | .rdGated _ | .rdLeave | .rdFail | .wtGated _ | .wtFail | .writing | .wtTried | .wtBack => 1
  | _ => 0

/-- The step is not the last one of a successful `getWriteLockNoWait`. -/
def NoTriedWriter (s : State Pid) : Pid × Event → Prop
  | (p, .go) => ¬ (s.phase p = .wtTried ∧ s.sem1 = MAX_SEMS)
  | _ => True

/-- One process goes to another phase and the semaphores move by what it holds before and
after; what it takes was there. -/
structure Moved (s : State Pid) (p : Pid) (ph : Phase) (t : State Pid) : Prop where
  phase : t.phase = Function.update s.phase p ph
  sem0 : t.sem0 = s.sem0 + gate (s.phase p) - gate ph
  sem1 : t.sem1 = s.sem1 + permits (s.phase p) - permits ph
  fits0 : (gate ph : Int) ≤ gate (s.phase p) ∨ (gate ph : Int) ≤ s.sem0
  fits1 : (permits ph : Int) ≤ permits (s.phase p) ∨ (permits ph : Int) ≤ s.sem1

section Moves

variable {s t : State Pid} {p : Pid} {ph sleep : Phase} {value : Nat}

omit [Fintype Pid]

attribute [grind =] State.goTo State.post0 State.post1 State.wait0 State.wait1 permits gate go interrupt

theorem moved_goTo (hgate : gate ph = gate (s.phase p))
    (hpermits : permits ph = permits (s.phase p)) :
    Moved s p ph (s.goTo p ph) :=
  ⟨rfl, by simp [State.goTo, hgate], by simp [State.goTo, hpermits], .inl (by omega), .inl (by omega)⟩

theorem moved_stay : Moved s p (s.phase p) s :=
  ⟨by simp, by omega, by omega, .inl (by omega), .inl (by omega)⟩

theorem moved_post0 (hgate : gate (s.phase p) = gate ph + 1)
    (hpermits : permits ph = permits (s.phase p)) : Moved s p ph (s.post0 p ph) :=
  ⟨rfl, by simp only [State.post0]; omega, by simp [State.post0, State.goTo, hpermits],
    .inl (by omega), .inl (by omega)⟩

theorem moved_post1 (hgate : gate ph = gate (s.phase p))
    (hpermits : permits (s.phase p) = permits ph + value) : Moved s p ph (s.post1 p value ph) :=
  ⟨rfl, by simp [State.post1, State.goTo, hgate], by simp only [State.post1]; omega,
    .inl (by omega), .inl (by omega)⟩

theorem moved_wait0 (hgate : gate (s.phase p) = 0) (hgate' : gate ph = 1)
    (hpermits : permits ph = permits (s.phase p)) : ∃ ph', Moved s p ph' (s.wait0 p ph) := by
  unfold State.wait0
  by_cases hopen : 1 ≤ s.sem0
  · rw [if_pos hopen]
    exact ⟨ph, rfl, by simp [hgate, hgate'], by simp [State.goTo, hpermits], .inr (by omega),
      .inl (by omega)⟩
  · rw [if_neg hopen]
    exact ⟨_, moved_stay⟩

theorem moved_wait1 (hgate : gate ph = gate (s.phase p)) (hgate' : gate sleep = gate (s.phase p))
    (hpermits : permits (s.phase p) = 0) (hpermits' : permits ph = value)
    (hsleep : permits sleep = 0) : ∃ ph', Moved s p ph' (s.wait1 p value sleep ph) := by
  unfold State.wait1
  by_cases henough : (value : Int) ≤ s.sem1
  · rw [if_pos henough]
    exact ⟨ph, rfl, by simp [State.goTo, hgate], by simp [hpermits, hpermits'], .inl (by omega),
      .inr (by omega)⟩
  · rw [if_neg henough]
    exact ⟨sleep, moved_goTo hgate' (by omega)⟩

/-- **Every operation moves what its process holds**, except the one that ends a successful
`getWriteLockNoWait`. -/
theorem go_moves (hstep : go s p = some t) (hok : NoTriedWriter s (p, .go)) :
    ∃ ph, Moved s p ph t := by
  unfold go at hstep
  cases hph : s.phase p with
  | idle => simp [hph] at hstep
  | reading => simp [hph] at hstep
  | writing => simp [hph] at hstep
  | rdGate =>
      simp only [hph, Option.some.injEq] at hstep
      subst hstep
      exact moved_wait0 (by simp [hph, gate]) rfl (by simp [hph, permits])
  | rdGated b =>
      simp only [hph, Option.some.injEq] at hstep
      subst hstep
      exact moved_wait1 (by simp [hph, gate]) (by simp [hph, gate]) (by simp [hph, permits]) rfl rfl
  | rdLeave =>
      simp only [hph, Option.some.injEq] at hstep
      subst hstep
      exact ⟨_, moved_post0 (by simp [hph, gate]) (by simp [hph, permits])⟩
  | rdFail =>
      simp only [hph, Option.some.injEq] at hstep
      subst hstep
      exact ⟨_, moved_post0 (by simp [hph, gate]) (by simp [hph, permits])⟩
  | rdDirect b =>
      simp only [hph, Option.some.injEq] at hstep
      subst hstep
      exact moved_wait1 (by simp [hph, gate]) (by simp [hph, gate]) (by simp [hph, permits]) rfl rfl
  | wtGate =>
      simp only [hph, Option.some.injEq] at hstep
      subst hstep
      exact moved_wait0 (by simp [hph, gate]) rfl (by simp [hph, permits])
  | wtGated b =>
      simp only [hph, Option.some.injEq] at hstep
      subst hstep
      exact moved_wait1 (by simp [hph, gate]) (by simp [hph, gate]) (by simp [hph, permits]) rfl rfl
  | wtFail =>
      simp only [hph, Option.some.injEq] at hstep
      subst hstep
      exact ⟨_, moved_post0 (by simp [hph, gate]) (by simp [hph, permits])⟩
  | wtLeave =>
      simp only [hph, Option.some.injEq] at hstep
      subst hstep
      exact ⟨_, moved_post1 (by simp [hph, gate]) (by simp [hph, permits])⟩
  | rdTried =>
      simp only [hph, Option.some.injEq] at hstep
      subst hstep
      refine ⟨_, moved_goTo ?_ ?_⟩
      · split <;> simp [hph, gate]
      · split <;> simp [hph, permits]
  | rdBack =>
      simp only [hph, Option.some.injEq] at hstep
      subst hstep
      exact ⟨_, moved_post1 (by simp [hph, gate]) (by simp [hph, permits])⟩
  | wtTried =>
      have hmissing : s.sem1 ≠ MAX_SEMS := fun hall => hok ⟨hph, hall⟩
      simp only [hph, Option.some.injEq] at hstep
      rw [if_pos hmissing] at hstep
      subst hstep
      exact ⟨_, moved_goTo (by simp [hph, gate]) (by simp [hph, permits])⟩
  | wtBack =>
      simp only [hph, Option.some.injEq] at hstep
      subst hstep
      exact ⟨_, moved_post0 (by simp [hph, gate]) (by simp [hph, permits])⟩

theorem interrupt_moves (hstep : interrupt s p = some t) : ∃ ph, Moved s p ph t := by
  unfold interrupt at hstep
  split at hstep
  case h_6 => exact absurd hstep (by simp)
  all_goals
    rename_i hph
    obtain rfl := Option.some.inj hstep
    exact ⟨_, moved_goTo (by simp [hph, gate]) (by simp [hph, permits])⟩

end Moves

/-- **Every step moves what its process holds.** -/
theorem step_moves {s t : State Pid} {p : Pid} {event : Event} (hstep : step s (p, event) = some t)
    (hok : NoTriedWriter s (p, event)) : ∃ ph, Moved s p ph t := by
  cases event with
  | go => exact go_moves hstep hok
  | getReadLock =>
      obtain ⟨hidle, hstep⟩ := Option.ite_none_right_eq_some.mp hstep
      obtain rfl := Option.some.inj hstep
      refine ⟨_, moved_goTo ?_ ?_⟩
      · split <;> simp [hidle, gate]
      · split <;> simp [hidle, permits]
  | getWriteLock =>
      obtain ⟨hidle, hstep⟩ := Option.ite_none_right_eq_some.mp hstep
      obtain rfl := Option.some.inj hstep
      exact ⟨_, moved_goTo (by simp [hidle, gate]) (by simp [hidle, permits])⟩
  | getReadLockNoWait =>
      obtain ⟨hidle, hstep⟩ := Option.ite_none_right_eq_some.mp hstep
      obtain rfl := Option.some.inj hstep
      exact moved_wait1 (by simp [hidle, gate]) (by simp [hidle, gate]) (by simp [hidle, permits])
        rfl rfl
  | getWriteLockNoWait =>
      obtain ⟨hidle, hstep⟩ := Option.ite_none_right_eq_some.mp hstep
      obtain rfl := Option.some.inj hstep
      exact moved_wait0 (by simp [hidle, gate]) rfl (by simp [hidle, permits])
  | releaseReadLock =>
      obtain ⟨hreading, hstep⟩ := Option.ite_none_right_eq_some.mp hstep
      obtain rfl := Option.some.inj hstep
      exact ⟨_, moved_post1 (by simp [hreading, gate]) (by simp [hreading, permits])⟩
  | releaseWriteLock =>
      obtain ⟨hwriting, hstep⟩ := Option.ite_none_right_eq_some.mp hstep
      obtain rfl := Option.some.inj hstep
      exact ⟨_, moved_post0 (by simp [hwriting, gate]) (by simp [hwriting, permits])⟩
  | interrupt => exact interrupt_moves hstep

/-! ## Runs -/

/-- The semaphores count what the processes hold. -/
structure Balanced (s : State Pid) : Prop where
  sem0 : s.sem0 = 1 - tally gate s.phase
  sem1 : s.sem1 = MAX_SEMS - tally permits s.phase
  sem0_nonneg : 0 ≤ s.sem0
  sem1_nonneg : 0 ≤ s.sem1

omit [DecidableEq Pid] in
theorem balanced_init : Balanced (init : State Pid) := by
  have hgate : tally gate (init : State Pid).phase = 0 := tally_const rfl
  have hpermits : tally permits (init : State Pid).phase = 0 := tally_const rfl
  refine ⟨?_, ?_, by simp [init], by simp [init]⟩
  · rw [hgate]
    rfl
  · rw [hpermits]
    rfl

theorem Moved.balanced {s t : State Pid} {p : Pid} {ph : Phase} (h : Moved s p ph t)
    (hs : Balanced s) : Balanced t := by
  have hgate := tally_update gate s.phase p ph
  have hpermits := tally_update permits s.phase p ph
  obtain ⟨hsem0, hsem1, hpos0, hpos1⟩ := hs
  refine ⟨?_, ?_, ?_, ?_⟩
  · rw [h.sem0, h.phase]
    omega
  · rw [h.sem1, h.phase]
    omega
  · rw [h.sem0]
    rcases h.fits0 with hfits | hfits <;> omega
  · rw [h.sem1]
    rcases h.fits1 with hfits | hfits <;> omega

/-- Nobody holds the lock together with a writer. -/
theorem Balanced.exclusive {s : State Pid} (h : Balanced s) {p q : Pid} (hne : p ≠ q)
    (hp : s.phase p = .writing) : s.phase q ≠ .reading ∧ s.phase q ≠ .writing := by
  have htwo := tally_two permits s.phase hne
  have hsem := h.sem1
  have hpos := h.sem1_nonneg
  rw [hp] at htwo
  have hmax : permits .writing = MAX_SEMS := rfl
  constructor
  · intro hq
    rw [hq] at htwo
    have hone : permits .reading = 1 := rfl
    omega
  · intro hq
    rw [hq] at htwo
    have hmany : MAX_SEMS = 10000 := rfl
    omega

/-- **The lock in mixed use.**  In a run in which no `getWriteLockNoWait` succeeds the counting
semaphore is `MAX_SEMS` less the permits held, and a writer is alone. -/
theorem exclusive_run {s : State Pid} (labels : List (Pid × Event))
    (hmeets : Meets step NoTriedWriter init labels) (hrun : run step init labels = some s) :
    0 ≤ s.sem1 ∧ s.sem1 ≤ MAX_SEMS ∧ s.sem1 = MAX_SEMS - tally permits s.phase ∧
      ∀ p q, p ≠ q → s.phase p = .writing → s.phase q ≠ .reading ∧ s.phase q ≠ .writing := by
  have hbalanced : Balanced s := by
    refine run_invariant_of_meets ?_ balanced_init hmeets hrun
    intro s label t hs hok hstep
    obtain ⟨p, event⟩ := label
    obtain ⟨ph, hmoved⟩ := step_moves hstep hok
    exact hmoved.balanced hs
  have hsem := hbalanced.sem1
  refine ⟨hbalanced.sem1_nonneg, by omega, hsem, ?_⟩
  intro p q hne hp
  exact hbalanced.exclusive hne hp

/-- A writer that waits and a reader that comes after it. -/
theorem exclusive_run_writeRead :
    ∃ s, run step (init : State Bool) [(true, .getWriteLock), (true, .go), (true, .go),
        (false, .getReadLock), (false, .go)] = some s ∧
      s.phase true = .writing ∧ s.phase false ≠ .reading := by
  refine ⟨_, rfl, rfl, ?_⟩
  refine ((exclusive_run [(true, .getWriteLock), (true, .go), (true, .go),
    (false, .getReadLock), (false, .go)] ?_ rfl).2.2.2 true false (by decide) rfl).1
  refine meets_cons rfl trivial (meets_cons rfl ?_ (meets_cons rfl ?_ (meets_cons rfl trivial
    (meets_cons rfl ?_ trivial))))
  all_goals
    rintro ⟨hph, -⟩
    exact absurd hph (by decide)

/-- A writer that did not wait has the lock together with a reader, and its release leaves
more permits than there are. -/
theorem exclusive_not_run :
    (∃ s, run step (init : State Bool) [(true, .getWriteLockNoWait), (true, .go),
        (false, .getReadLock), (false, .go)] = some s ∧
      s.phase true = .writing ∧ s.phase false = .reading) ∧
    ∃ s, run step (init : State Bool) [(true, .getWriteLockNoWait), (true, .go),
        (true, .releaseWriteLock), (true, .go)] = some s ∧ MAX_SEMS < s.sem1 := by
  refine ⟨⟨_, rfl, rfl, rfl⟩, _, rfl, ?_⟩
  decide

end IpcDoubleLock
