import Boss.DtaQueueRuns

/-!
# Puts that fail

`DTA_PUTMSG` counts the message, takes an entry for it and links it before it writes the bytes.
When the file cannot be positioned, written or flushed, it gives up the lock and returns an error;
what it has done to the head and to the table stays, and so do the bytes that have arrived.  Only a
queue that is full is found so before anything is changed.

Main results: `Consistent.put_live` for one failed put, `leaves_queue_iff` for runs.
-/

namespace Dta

open Runs

/-- What becomes of `fseek`, `fwrite` and `fflush`, with the bytes that arrive in the file before one
of the last two fails. -/
inductive Io
  | done
  | seekFails
  | writeFails (arrived : Nat)
  | flushFails (arrived : Nat)
deriving DecidableEq, Repr

/-- The codes of `DTA_PUTMSG`. -/
inductive PutRc
  | OK | QUEUE_FULL | FILESEEK_ERROR | FILEWRITE_ERROR | FILEFLUSH_ERROR
deriving DecidableEq, Repr

/-- `DTA_PUTMSG` with what becomes of its writing. -/
def dtaPutMsgIo (q : Queue) (message : Message) (priority : Int) (io : Io) : PutRc × Queue :=
  if q.livmsgs = q.maxmsgs then (.QUEUE_FULL, q)
  else
    let t := enter q message.length priority
    match io with
    | .done => (.OK, append t message)
    | .seekFails => (.FILESEEK_ERROR, t)
    | .writeFails arrived => (.FILEWRITE_ERROR, append t (message.take arrived))
    | .flushFails arrived => (.FILEFLUSH_ERROR, append t (message.take arrived))

/-- Head, entries and messages are the same. -/
structure SameQueue (q t : Queue) : Prop where
  queuehead : t.queuehead = q.queuehead
  flags : ∀ i, t.flag i = q.flag i
  links : ∀ i, i = 0 ∨ q.Live i → t.next i = q.next i ∧ t.fore i = q.fore i
  entries : ∀ i, q.Live i → (t.queuetable i).offset = (q.queuetable i).offset ∧
    (t.queuetable i).msglen = (q.queuetable i).msglen ∧
    (t.queuetable i).priority = (q.queuetable i).priority
  messages : ∀ i, q.Live i → t.stored i = q.stored i

theorem SameQueue.refl (q : Queue) : SameQueue q q :=
  ⟨rfl, fun _ => rfl, fun _ _ => ⟨rfl, rfl⟩, fun _ _ => ⟨rfl, rfl, rfl⟩, fun _ _ => rfl⟩

section Put

variable {q : Queue} {message : Message} {priority : Int} {io : Io}

/-- When all goes well this is `DTA_PUTMSG` as it was. -/
theorem dtaPutMsgIo_done (hroom : q.livmsgs ≠ q.maxmsgs) :
    dtaPutMsgIo q message priority .done = (.OK, (dtaPutMsg q message priority).2) := by
  rw [dtaPutMsgIo, if_neg hroom, dtaPutMsg, if_neg hroom]

/-- The message is counted, whatever becomes of its bytes. -/
theorem dtaPutMsgIo_livmsgs (hroom : q.livmsgs ≠ q.maxmsgs) :
    (dtaPutMsgIo q message priority io).2.livmsgs = q.livmsgs + 1 := by
  rw [dtaPutMsgIo, if_neg hroom]
  cases io <;> rfl

theorem dtaPutMsgIo_error (hroom : q.livmsgs ≠ q.maxmsgs) (hio : io ≠ .done) :
    (dtaPutMsgIo q message priority io).1 ≠ .OK := by
  rw [dtaPutMsgIo, if_neg hroom]
  cases io with
  | done => exact absurd rfl hio
  | seekFails => simp
  | writeFails arrived => simp
  | flushFails arrived => simp

/-- A put that returns an error leaves the queue as it was just when the queue is full or nothing
fails. -/
theorem put_error_iff :
    ((dtaPutMsgIo q message priority io).1 ≠ .OK →
        SameQueue q (dtaPutMsgIo q message priority io).2) ↔
      q.livmsgs = q.maxmsgs ∨ io = .done := by
  by_cases hfull : q.livmsgs = q.maxmsgs
  · refine iff_of_true (fun _ => ?_) (.inl hfull)
    rw [dtaPutMsgIo, if_pos hfull]
    exact SameQueue.refl q
  · rw [or_iff_right hfull]
    constructor
    · intro hsame
      by_contra hio
      have hhead := (hsame (dtaPutMsgIo_error hfull hio)).queuehead
      have hcount := congrArg QueueHead.livmsgs hhead
      have hmore : (dtaPutMsgIo q message priority io).2.livmsgs = q.livmsgs + 1 :=
        dtaPutMsgIo_livmsgs hfull
      exact absurd (hmore.symm.trans hcount) (Nat.succ_ne_self _)
    · rintro rfl herror
      rw [dtaPutMsgIo_done hfull] at herror
      exact absurd rfl herror

/-- Head and table are those of a put that went well. -/
theorem dtaPutMsgIo_table (hroom : q.livmsgs ≠ q.maxmsgs) (io : Io) :
    (dtaPutMsgIo q message priority io).2.queuehead = (dtaPutMsg q message priority).2.queuehead ∧
      (dtaPutMsgIo q message priority io).2.queuetable =
        (dtaPutMsg q message priority).2.queuetable := by
  rw [dtaPutMsgIo, if_neg hroom, dtaPutMsg, if_neg hroom]
  cases io <;> exact ⟨rfl, rfl⟩

/-- **The message is in the queue**, whether its bytes are in the file or not. -/
theorem Consistent.put_live {content : Nat → Message} {ring : List Nat}
    (h : Consistent q content ring) (hroom : q.livmsgs ≠ q.maxmsgs) (io : Io) (i : Nat) :
    (dtaPutMsgIo q message priority io).2.Live i ↔ i = currentmsgn q ∨ q.Live i := by
  obtain ⟨pre, post, t, rfl, -, hput, hmax, ht⟩ := h.put hroom message priority
  obtain ⟨hhead, htable⟩ := @dtaPutMsgIo_table q message priority hroom io
  rw [hput] at hhead htable
  have hsame : (dtaPutMsgIo q message priority io).2.Live i ↔ t.Live i := by
    simp only [Queue.Live, Queue.flag, Queue.maxmsgs, hhead, htable]
  rw [hsame, ← ht.live, ← h.live]
  simp only [List.mem_append, List.mem_cons]
  tauto

end Put

namespace Failure

/-- Any call, or a put that may fail. -/
inductive Step
  | call (c : Call)
  | put (message : Message) (priority : Int) (io : Io)

def step (s : State) : Step → Option State
  | .call c => s.step c
  | .put message priority io =>
      let r := dtaPutMsgIo s.queue message priority io
      some { s with
        queue := r.2
        content := if r.1 = .OK then Function.update s.content (currentmsgn s.queue) message
          else s.content }

/-- A put that returns an error leaves the queue as it was. -/
def LeavesQueue (s : State) : Step → Prop
  | .call _ => True
  | .put message priority io =>
      (dtaPutMsgIo s.queue message priority io).1 ≠ .OK →
        SameQueue s.queue (dtaPutMsgIo s.queue message priority io).2

/-- The file is positioned, written and flushed, or not touched because the queue is full. -/
def Untroubled (s : State) : Step → Prop
  | .call _ => True
  | .put _ _ io => s.queue.livmsgs = s.queue.maxmsgs ∨ io = .done

instance (s : State) (a : Step) : Decidable (Untroubled s a) :=
  match a with
  | .call _ => .isTrue trivial
  | .put _ _ _ => inferInstanceAs (Decidable (_ ∨ _))

theorem leavesQueue_iff (s : State) (a : Step) : LeavesQueue s a ↔ Untroubled s a := by
  cases a with
  | call c => exact Iff.rfl
  | put message priority io => exact put_error_iff

/-- **All puts that return an error leave the queue as it was** exactly in the runs in which writing
fails in no put that finds room. -/
theorem leaves_queue_iff (maxmsgs : Nat) (steps : List Step) :
    Meets step LeavesQueue (State.created maxmsgs) steps ↔
      Meets step Untroubled (State.created maxmsgs) steps :=
  meets_congr (fun s a _ => leavesQueue_iff s a)
    (meets_of_all (fun _ _ => trivial : ∀ (_ : State) (_ : Step), True) (State.created maxmsgs) steps)

/-- One byte of two arrives, the put fails, and the next message is put. -/
def halfPut : List Step := [.put [65, 66] 0 (.writeFails 1), .put [67] 0 .done]

/-- The message whose put failed is in the queue, and it is read with the next one's byte. -/
theorem half_put_delivered :
    ¬ Meets step LeavesQueue (State.created 2) halfPut ∧
      (run step (State.created 2) halfPut).map (fun s =>
        (s.queue.livmsgs, (dtaGetMsgRead s.queue 0 0).2)) =
        some (2, .ok (1, ⟨some [65, 67], 2, 0⟩)) := by
  constructor
  · intro h
    exact absurd ((leavesQueue_iff _ _).mp h.1) (by decide)
  · rfl

end Failure

end Dta
