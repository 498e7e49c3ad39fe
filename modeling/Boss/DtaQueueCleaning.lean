import Boss.DtaQueueConsumers

/-!
# Cleaning

A queue without messages is cleaned: its file is cut behind the table.  Whether it has messages is
looked up under the write lock, which is released before the queue is emptied under the lock again.
A message that is put in between is thrown away.

Main result: `cleaning_keeps_iff`.
-/

namespace Dta.Cleaning

open Dta Runs

/-- Producers and consumers, and which cleaner has found the queue empty. -/
structure State where
  users : Consumers.State
  checked : Nat → Bool

inductive Step
  | user (a : Consumers.Step)
  | check (p : Nat)
  | reset (p : Nat)

namespace State

def created (maxmsgs : Nat) : State := ⟨.created maxmsgs, fun _ => false⟩

/-- One section of a user, or one of the two sections of `DTA_CLEANQ`. -/
def step (s : State) : Step → Option State
  | .user a => do
    let users ← s.users.step a
    some { s with users := users }
  | .check p =>
    if s.checked p then none
    else some { s with
      checked := Function.update s.checked p (decide (s.users.queue.livmsgs = 0)) }
  | .reset p =>
    if s.checked p then
      some {
        users := { s.users with queue := dtaEmptyQ s.users.queue }
        checked := Function.update s.checked p false }
    else none

/-- A step of `DTA_CLEANQ` leaves the messages in the queue that are in it. -/
def Keeps (s : State) : Step → Prop
  | .user _ => True
  | a => ∀ t, s.step a = some t → ∀ id, t.users.Has id ↔ s.users.Has id

/-- The queue is still empty when it is emptied. -/
def StillEmpty (s : State) : Step → Prop
  | .reset p => s.checked p → s.users.queue.livmsgs = 0
  | _ => True

instance (s : State) (a : Step) : Decidable (s.StillEmpty a) :=
  match a with
  | .reset p => inferInstanceAs (Decidable (s.checked p → _ = _))
  | .user _ => .isTrue trivial
  | .check _ => .isTrue trivial

end State

variable {maxmsgs : Nat} {s t : State}

/-- The queue is as it should be. -/
def State.Wf (maxmsgs : Nat) (s : State) : Prop := ∃ ring, s.users.Wf maxmsgs ring

theorem State.step_wf {a : Step} (h : s.Wf maxmsgs) (hstep : s.step a = some t) : t.Wf maxmsgs := by
  obtain ⟨ring, h⟩ := h
  cases a with
  | user a =>
      obtain ⟨users, husers, heq⟩ := Option.bind_eq_some_iff.mp hstep
      obtain rfl := Option.some.inj heq
      exact Consumers.State.step_wf h husers
  | check p =>
      simp only [step] at hstep
      split_ifs at hstep
      obtain rfl := Option.some.inj hstep
      exact ⟨ring, h⟩
  | reset p =>
      simp only [step] at hstep
      split_ifs at hstep
      obtain rfl := Option.some.inj hstep
      exact ⟨[], { h with post := ⟨numbered_dtaEmptyQ _ _ _, h.post.size⟩ }⟩

/-- A step of `DTA_CLEANQ` keeps the messages exactly when there are none to be lost. -/
theorem State.keeps_iff (h : s.Wf maxmsgs) (a : Step) : s.Keeps a ↔ s.StillEmpty a := by
  obtain ⟨ring, h⟩ := h
  cases a with
  | user a => exact Iff.rfl
  | check p =>
      refine iff_of_true (fun t ht id => ?_) trivial
      simp only [step] at ht
      split_ifs at ht
      obtain rfl := Option.some.inj ht
      exact Iff.rfl
  | reset p =>
      simp only [Keeps, StillEmpty, step]
      by_cases hchecked : s.checked p
      · have hnone : ∀ id, ¬ InQueue (dtaEmptyQ s.users.queue) s.users.number id := by
          intro id hid
          obtain ⟨i, hi, -⟩ := (numbered_dtaEmptyQ s.users.queue _ s.users.puts).inQueue_iff.mp hid
          simp at hi
        have hcount := h.post.numbered.consistent.livmsgs
        simp only [hchecked, if_true, Option.some.injEq, forall_eq', Post.Has, hnone,
          false_iff, forall_const]
        constructor
        · intro hgone
          rw [hcount, List.length_eq_zero_iff, List.eq_nil_iff_forall_not_mem]
          exact fun i hi => hgone _ (h.post.numbered.inQueue_iff.mpr ⟨i, hi, rfl⟩)
        · intro hzero id hid
          obtain ⟨i, hi, -⟩ := h.post.numbered.inQueue_iff.mp hid
          rw [hcount, List.length_eq_zero_iff] at hzero
          rw [hzero] at hi
          simp at hi
      · simp [hchecked]

/-- **Cleaning loses no message** in exactly those runs in which the queue is still empty whenever
it is emptied. -/
theorem cleaning_keeps_iff (maxmsgs : Nat) (steps : List Step) :
    Meets State.step State.Keeps (.created maxmsgs) steps ↔
      Meets State.step State.StillEmpty (.created maxmsgs) steps :=
  meets_iff_of_invariant (fun _ _ _ h hs => State.step_wf h hs) (fun _ a h => State.keeps_iff h a)
    ⟨[], Consumers.State.created_wf maxmsgs⟩

/-- A message is put between the two sections, and thrown away. -/
theorem cleaning_loses :
    ¬ ∀ maxmsgs steps, Meets State.step State.Keeps (.created maxmsgs) steps := by
  intro h
  have hmeets := h 1 [.check 0, .user (.put [65] 0), .reset 0]
  have hkeeps := ((hmeets.2 _ rfl).2 _ rfl).1
  refine absurd ((State.keeps_iff (?_ : State.Wf 1 _) _).mp hkeeps) (by decide)
  have hrun : run State.step (.created 1) [.check 0, .user (.put [65] 0)] = some _ := rfl
  exact run_invariant (fun _ _ _ h hs => State.step_wf h hs)
    ⟨[], Consumers.State.created_wf 1⟩ hrun

end Dta.Cleaning
