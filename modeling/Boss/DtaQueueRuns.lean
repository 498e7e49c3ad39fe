import Boss.DtaQueueConsistent
import Boss.Runs

/-!
# Calls on a queue, one at a time

Any number of handles are open on a queue, each with its cursor, and calls come in any order.  With
the messages kept beside the file, entry by entry, `Consistent` is an invariant of all of them.

Main result: `run_calls_sound`.
-/

namespace Dta

open LinkedChain Runs

inductive Call
  | put (message : Message) (priority : Int)
  | get (h : Nat) (mode : Nat)
  | del (msgn : Nat)
  | empty
  | clean

/-- A message is deleted by an entry of the table. -/
def Call.Valid (maxmsgs : Nat) : Call → Prop
  | .del msgn => 1 ≤ msgn ∧ msgn ≤ maxmsgs
  | _ => True

/-- The file, the cursors of the handles, and the message that was last put into each entry. -/
structure State where
  queue : Queue
  cursor : Nat → Nat
  content : Nat → Message

namespace State

/-- A queue that was just created, and handles that were just opened. -/
def created (maxmsgs : Nat) : State := ⟨createQ maxmsgs, fun _ => 0, fun _ => []⟩

/-- A call. -/
def step (s : State) : Call → Option State
  | .put message priority =>
    let r := dtaPutMsg s.queue message priority
    some { s with
      queue := r.2
      content := if r.1 = .OK then Function.update s.content (currentmsgn s.queue) message
        else s.content }
  | .get h mode => do
    let (_, cursor, queue, _) ← dtaGetMsg s.queue (s.cursor h) mode
    some { s with queue := queue, cursor := Function.update s.cursor h cursor }
  | .del msgn => do
    let (_, queue) ← dtaDelMsg s.queue msgn
    some { s with queue := queue }
  | .empty => some { s with queue := dtaEmptyQ s.queue }
  | .clean => some { s with queue := dtaCleanQ s.queue }

/-- What the table says is true of the file. -/
structure Sound (s : State) : Prop where
  livmsgs : s.queue.livmsgs =
    (List.range (s.queue.maxmsgs + 1)).countP fun i => s.queue.flag i = 1
  ring : ∃ l, Ring s.queue.next s.queue.fore 0 l ∧ ∀ i, i ∈ l ↔ s.queue.Live i
  window : (∃ i, s.queue.Live i) → s.queue.Live s.queue.queuehead.firstmsgn ∧
    s.queue.Live s.queue.queuehead.lastmsgn
  inside : ∀ i, s.queue.Live i →
    s.queue.queuehead.firstmsgn ≤ i ∧ i ≤ s.queue.queuehead.lastmsgn
  idle : (¬ ∃ i, s.queue.Live i) → s.queue.queuehead.firstmsgn = 1 ∧ s.queue.queuehead.lastmsgn = 0
  behind : ∀ i, s.queue.Live i → tablelen s.queue.maxmsgs ≤ (s.queue.queuetable i).offset ∧
    (s.queue.queuetable i).offset + (s.queue.queuetable i).msglen ≤ s.queue.st_size
  apart : ∀ i j, s.queue.Live i → s.queue.Live j → i ≠ j →
    (s.queue.queuetable i).offset + (s.queue.queuetable i).msglen ≤ (s.queue.queuetable j).offset ∨
      (s.queue.queuetable j).offset + (s.queue.queuetable j).msglen ≤
        (s.queue.queuetable i).offset
  stored : ∀ i, s.queue.Live i → s.queue.stored i = s.content i
  room : ∀ message priority,
    (dtaPutMsg s.queue message priority).1 = .OK ↔ s.queue.livmsgs < s.queue.maxmsgs

end State

variable {q : Queue} {content : Nat → Message} {ring : List Nat}

/-- The entries in use are counted by their flags. -/
theorem Consistent.livmsgs_eq (h : Consistent q content ring) :
    q.livmsgs = (List.range (q.maxmsgs + 1)).countP fun i => q.flag i = 1 := by
  have hperm : ((List.range (q.maxmsgs + 1)).filter fun i => q.flag i = 1).Perm ring := by
    refine (List.perm_ext_iff_of_nodup (List.nodup_range.filter _) h.links.nodup).mpr fun i => ?_
    rw [h.live]
    simp only [List.mem_filter, List.mem_range, decide_eq_true_eq, Queue.Live]
    constructor
    · rintro ⟨hlt, hflag⟩
      have hzero : i ≠ 0 := by
        rintro rfl
        have hcentre := h.centre
        omega
      exact ⟨by omega, by omega, hflag⟩
    · rintro ⟨-, hle, hflag⟩
      exact ⟨by omega, hflag⟩
  rw [h.livmsgs, ← hperm.length_eq, List.countP_eq_length_filter]

theorem Consistent.put_ok_iff (h : Consistent q content ring) (message : Message) (priority : Int) :
    (dtaPutMsg q message priority).1 = .OK ↔ q.livmsgs < q.maxmsgs := by
  by_cases hroom : q.livmsgs = q.maxmsgs
  · have hfull : dtaPutMsg q message priority = (.QUEUE_FULL, q) := by
      rw [dtaPutMsg, if_pos hroom]
    rw [hfull]
    simp [hroom]
  · obtain ⟨-, -, t, -, -, hput, -⟩ := h.put hroom message priority
    have hle := h.length_le
    have hcount := h.livmsgs
    rw [hput]
    simp only [true_iff]
    omega

theorem Consistent.sound {cursor : Nat → Nat} (h : Consistent q content ring) :
    State.Sound ⟨q, cursor, content⟩ where
  livmsgs := h.livmsgs_eq
  ring := ⟨ring, h.links, h.live⟩
  window := by
    rintro ⟨i, hi⟩
    obtain ⟨hfirst, hlast⟩ := h.window (List.ne_nil_of_mem ((h.live i).mpr hi))
    exact ⟨(h.live _).mp hfirst, (h.live _).mp hlast⟩
  inside := fun i hi => h.inside i ((h.live i).mpr hi)
  idle := by
    intro hnone
    refine h.idle (List.eq_nil_iff_forall_not_mem.mpr fun i hi => hnone ⟨i, (h.live i).mp hi⟩)
  behind := fun i hi => h.range i ((h.live i).mpr hi)
  apart := fun i j hi hj => h.apart i ((h.live i).mpr hi) j ((h.live j).mpr hj)
  stored := fun i hi => h.stored i ((h.live i).mpr hi)
  room := h.put_ok_iff

/-- An entry of the table is deleted, or it is found dead. -/
theorem Consistent.del_or (h : Consistent q content ring) {msgn : Nat} (hpos : 1 ≤ msgn)
    (hmax : msgn ≤ q.maxmsgs) :
    ∃ rc t rest, dtaDelMsg q msgn = some (rc, t) ∧ t.maxmsgs = q.maxmsgs ∧
      Consistent t content rest ∧ (rc = .OK ↔ msgn ∈ ring) := by
  by_cases hflag : q.flag msgn = 0
  · refine ⟨.MESSAGE_DIED, q, ring, by rw [dtaDelMsg, if_pos hflag], rfl, h, ?_⟩
    have hnot : msgn ∉ ring := by
      intro hmem
      have hone := ((h.live msgn).mp hmem).2.2
      omega
    simp [hnot]
  · have hmem := (h.live msgn).mpr ⟨hpos, hmax, (h.flags msgn hmax).resolve_left hflag⟩
    obtain ⟨pre, post, rfl⟩ := List.append_of_mem hmem
    obtain ⟨t, hdel, hmaxmsgs, hrest⟩ := h.del
    exact ⟨.OK, t, pre ++ post, hdel, hmaxmsgs, hrest, by simp⟩

/-- What every call keeps. -/
def State.Inv (maxmsgs : Nat) (s : State) : Prop :=
  (∃ ring, Consistent s.queue s.content ring) ∧ s.queue.maxmsgs = maxmsgs ∧
    ∀ h, s.cursor h ≤ maxmsgs

theorem State.step_inv {maxmsgs : Nat} {s : State} {c : Call} (h : s.Inv maxmsgs)
    (hvalid : c.Valid maxmsgs) : ∃ t, s.step c = some t ∧ t.Inv maxmsgs := by
  obtain ⟨⟨ring, hq⟩, hmax, hcursor⟩ := h
  cases c with
  | put message priority =>
      refine ⟨_, rfl, ?_⟩
      by_cases hroom : s.queue.livmsgs = s.queue.maxmsgs
      · have hfull : dtaPutMsg s.queue message priority = (.QUEUE_FULL, s.queue) := by
          rw [dtaPutMsg, if_pos hroom]
        rw [hfull]
        exact ⟨⟨ring, hq⟩, hmax, hcursor⟩
      · obtain ⟨pre, post, t, -, -, hput, hmax', ht⟩ := hq.put hroom message priority
        rw [hput]
        exact ⟨⟨_, ht⟩, hmax'.trans hmax, hcursor⟩
  | get h mode =>
      have hread := hq.read (hmax ▸ hcursor h) mode
      cases hget : dtaGetMsgRead s.queue (s.cursor h) mode with
      | mk cursor result =>
          rw [hget, hmax] at hread
          obtain ⟨hle, hresult⟩ := hread
          have hcursor' : ∀ h', Function.update s.cursor h cursor h' ≤ maxmsgs := by
            intro h'
            rw [Function.update_apply]
            split_ifs
            · exact hle
            · exact hcursor h'
          rcases hresult with ⟨rc, hrc, -⟩ | ⟨i, hi, hok⟩
          · dsimp only at hrc
            subst hrc
            refine ⟨{ s with cursor := Function.update s.cursor h cursor }, ?_,
              ⟨ring, hq⟩, hmax, hcursor'⟩
            simp [step, dtaGetMsg, hget]
          · dsimp only at hok
            subst hok
            by_cases hdelete : has mode DTAGMO_DELETEAFTERREAD
            · obtain ⟨hpos, hle', -⟩ := (hq.live i).mp hi
              obtain ⟨rc, t, rest, hdel, hmax', ht, -⟩ := hq.del_or hpos hle'
              refine ⟨{ s with queue := t, cursor := Function.update s.cursor h cursor }, ?_,
                ⟨rest, ht⟩, hmax'.trans hmax, hcursor'⟩
              simp [step, dtaGetMsg, hget, hdelete, hdel]
            · refine ⟨{ s with cursor := Function.update s.cursor h cursor }, ?_,
                ⟨ring, hq⟩, hmax, hcursor'⟩
              simp [step, dtaGetMsg, hget, hdelete]
  | del msgn =>
      obtain ⟨rc, t, rest, hdel, hmax', ht, -⟩ := hq.del_or hvalid.1 (hmax.symm ▸ hvalid.2)
      refine ⟨{ s with queue := t }, ?_, ⟨rest, ht⟩, hmax'.trans hmax, hcursor⟩
      simp [step, hdel]
  | empty => exact ⟨_, rfl, ⟨[], consistent_dtaEmptyQ _ _⟩, hmax, hcursor⟩
  | clean =>
      refine ⟨_, rfl, ?_, ?_, hcursor⟩
      · dsimp only [dtaCleanQ]
        split_ifs
        · exact ⟨[], consistent_dtaEmptyQ _ _⟩
        · exact ⟨ring, hq⟩
      · dsimp only [dtaCleanQ]
        split_ifs
        · exact hmax
        · exact hmax

/-- **The table is sound after any calls**, and no call gets stuck in it. -/
theorem run_calls_sound (maxmsgs : Nat) (calls : List Call)
    (hvalid : ∀ c ∈ calls, c.Valid maxmsgs) :
    ∃ s, run State.step (State.created maxmsgs) calls = some s ∧ s.queue.maxmsgs = maxmsgs ∧
      s.Sound := by
  have hstart : (State.created maxmsgs).Inv maxmsgs :=
    ⟨⟨[], consistent_createQ maxmsgs _⟩, rfl, fun _ => Nat.zero_le _⟩
  have hstep : ∀ (s : State) (c : Call), s.Inv maxmsgs → c.Valid maxmsgs →
      ∃ t, s.step c = some t ∧ t.Inv maxmsgs := fun _ _ h hv => State.step_inv h hv
  obtain ⟨s, hrun, ⟨⟨ring, hq⟩, hmax, -⟩⟩ := run_progress hstep hstart hvalid
  exact ⟨s, hrun, hmax, hq.sound⟩

/-- The table is filled, its first entry is read and freed, and taken again. -/
theorem run_calls_sound_two :
    ∃ s, run State.step (State.created 2) [.put [65] 0, .put [66, 66] 1, .get 7 6, .del 1,
        .put [67] 3, .put [68] 2, .clean] = some s ∧ s.queue.maxmsgs = 2 ∧ s.Sound :=
  run_calls_sound 2 _ (by simp [Call.Valid])

end Dta
