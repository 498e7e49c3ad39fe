import Boss.DtaSendMsg
import Boss.Runs

/-!
# Store and forward

`sendq` empties a send queue over a connection to the server of another host: it inquires the first
message, allocates a buffer, reads the first message, sends it, and, when the server has answered
that the message is in its queue, reads the first message once more to delete it.  Each of these
looks at the queue under a lock of its own, and a message of higher priority that an application puts
in between is the first one from then on.  Then a message is deleted that was not sent, and the one
that was sent stays and is sent again.  As long as the first message is still the one that was sent,
nothing is lost and only what failed is repeated.

What `sendq` takes for the last answer of the server is one only if it has waited for the others, and
if the server has read the message that was written: nothing may end early while the connection
stands, and the header must fit into its fields.

Only one `sendq` runs at a time; it opens the queue anew, reads by priority and never moves its
cursor.  What a server still does when `sendq` has given its connection up is not followed.

Main results:
* `State.step_inv`: what every step keeps;
* `forwards_honestly`: nothing is lost, and only what failed is repeated;
* `forwards_dishonestly`, `long_priority_lost`, `answer_too_early`: what is lost else.
-/

namespace Dta.SendQueue

open Dta Runs SendMsg

/-- What `sendq` has read, and the buffer that was allocated for it. -/
structure Outgoing extends SendMsg.Call where
  buffer : Nat
  deriving DecidableEq, Repr

/-- Where `sendq` is.  `sending m k` is about to write the packet `k` of `m`, `waiting m k` reads the
answer to it. -/
inductive Phase
  | idle
  | connecting
  | inquiring
  | reading (msglen : Nat)
  | sending (m : Outgoing) (k : Nat)
  | waiting (m : Outgoing) (k : Nat)
  | deleting (m : Outgoing)
  | removing (m : Outgoing) (msgn : Nat)
  deriving DecidableEq, Repr

/-- The message that was sent and is not yet removed. -/
def Phase.current : Phase → Option Outgoing
  | .sending m _ | .waiting m _ | .deleting m | .removing m _ => some m
  | _ => none

/-- The message whose last answer is to be read. -/
def Phase.toEnd : Phase → Option Outgoing
  | .waiting m k => if k < 3 then none else some m
  | _ => none

/-- The buffer into which the first message is to be read. -/
def Phase.toRead : Phase → Option Nat
  | .reading buffer => some buffer
  | _ => none

/-- The message that was acknowledged and is to be deleted. -/
def Phase.toDelete : Phase → Option Outgoing
  | .deleting m => some m
  | _ => none

/-- The send queue, `sendq` and its connection.  `sent` are the messages with which `DTA_SENDMSG` was
called and `failed` those of the calls that failed; `acked` is what the server has acknowledged. -/
structure State extends Post where
  remotequeue : Message
  phase : Phase
  conn : Conn
  sent : List Nat
  failed : List Nat
  acked : List (Nat × Message)

/-- A connection to a server whose variables are not set. -/
def opened (msgprio msglen : Int) : Conn := ⟨true, [], [], .start msgprio msglen, 0⟩

def State.created (maxmsgs : Nat) (remotequeue : Message) : State :=
  ⟨.created maxmsgs, remotequeue, .idle, (opened 0 0).close, [], [], []⟩

inductive Step
  | put (message : Message) (priority : Int)
  | start
  | connect (ok : Bool) (msgprio msglen : Int)
  | inquire (memory : Bool)
  | read
  | write (n : Nat)
  | serve (ends ok : Bool) (behind : Nat → Decimal.Byte)
  | cut (server client : Nat)
  | receive
  | reread
  | remove

/-- A call of `DTA_GETMSG` that reads by priority, from the start of the ring. -/
def first (q : Queue) (mode : Nat) : Except Rc (Nat × Reply) :=
  (dtaGetMsgRead q 0 (DTAGMO_READBYPRIORITY ||| mode)).2

namespace State

variable (s : State)

/-- `DTA_SENDMSG` or what follows it fails, and `sendq` ends. -/
def fail (m : Outgoing) : State := { s with phase := .idle, failed := s.failed ++ [m.id] }

/-- One section of a process, or what happens to the connection.  When the message that is read does
not fit into the buffer, there is no next state. -/
def step : Step → Option State
  | .put message priority => some { s with toPost := s.toPost.put message priority }
  | .start =>
    match s.phase with
    | .idle => some (match first s.queue DTAGMO_JUSTINQUIRE with
      | .ok _ => { s with phase := .connecting }
      | .error _ => s)
    | _ => none
  | .connect ok msgprio msglen =>
    match s.phase with
    | .connecting => some (if ok then { s with phase := .inquiring, conn := opened msgprio msglen }
        else { s with phase := .idle })
    | _ => none
  | .inquire memory =>
    match s.phase with
    | .inquiring => some (match first s.queue DTAGMO_JUSTINQUIRE with
      | .ok (_, reply) => { s with phase := if memory then .reading reply.msglen else .idle }
      | .error _ => { s with phase := .idle })
    | _ => none
  | .read =>
    match s.phase with
    | .reading buffer =>
      match first s.queue 0 with
      | .ok (msgn, reply) =>
        if reply.msglen ≤ buffer then some { s with
          phase := .sending ⟨⟨s.number msgn, reply.message.getD [], reply.priority⟩, buffer⟩ 0
          sent := s.sent ++ [s.number msgn] }
        else none
      | .error _ => some { s with phase := .idle }
    | _ => none
  | .write n =>
    match s.phase with
    | .sending m k => some { s with
        phase := .waiting m k
        conn := s.conn.write m.id (packet s.remotequeue m.toCall k) n }
    | _ => none
  | .serve ends ok behind =>
    (s.conn.serve ends ok behind).map fun r =>
      { s with conn := r.1, acked := s.acked ++ r.2.toList }
  | .cut server client => some { s with conn := s.conn.cut server client }
  | .receive =>
    match s.phase with
    | .waiting m k =>
      let r := s.conn.receive
      -- of the first three answers nobody looks whether they came
      if k < 3 then some { s with
        phase := .sending m (k + 1)
        conn := r.2.count 1 (if r.1.isSome then 1 else 0) }
      else
        let t := { s with conn := r.2 }
        some (if r.1 = some true then { t with phase := .deleting m } else t.fail m)
    | _ => none
  | .reread =>
    match s.phase with
    | .deleting m =>
      match first s.queue DTAGMO_DELETEAFTERREAD with
      | .ok (msgn, reply) =>
        if reply.msglen ≤ m.buffer then some { s with phase := .removing m msgn } else none
      | .error _ => some (s.fail m)
    | _ => none
  | .remove =>
    match s.phase with
    | .removing m msgn => do
      let (rc, queue) ← dtaDelMsg s.queue msgn
      let t := { s with queue := queue }
      some (if rc = .OK then { t with phase := .inquiring } else t.fail m)
    | _ => none

/-- The first message still fits into the buffer when it is read, and is still the one that was sent
when it is read to be deleted.  When an answer other than `0` is taken for the last one, the header
fits and nothing has ended early on this connection. -/
def Kept : Step → Prop
  | .read => ∀ buffer ∈ s.phase.toRead, (s.queue.queuetable (s.queue.next 0)).msglen ≤ buffer
  | .receive => ∀ m ∈ s.phase.toEnd, s.conn.toClient.head? = some true →
      m.Fits ∧ s.conn.early = 0
  | .reread => ∀ m ∈ s.phase.toDelete, s.number (s.queue.next 0) = m.id
  | _ => True

instance (a : Step) : Decidable (s.Kept a) := by
  cases a <;> unfold Kept <;> infer_instance

/-- A message that has left the queue was acknowledged by the server, and it was sent once more than
sending it failed. -/
structure Honest (s : State) : Prop where
  acked : ∀ id < s.puts.length, ¬ s.Has id →
    ∃ message, s.puts[id]? = some message ∧ (id, message) ∈ s.acked
  once : ∀ id < s.puts.length, ¬ s.Has id → s.sent.count id = s.failed.count id + 1

end State

/-! ## The first message -/

variable {maxmsgs : Nat} {s t : State} {ring : List Nat}

theorem has_priority (mode : Nat) : has (DTAGMO_READBYPRIORITY ||| mode) DTAGMO_READBYPRIORITY := by
  have hodd : (1 ||| mode) &&& 1 = 1 := by
    rw [Nat.and_comm, Nat.and_or_distrib_left, Nat.and_self, Nat.or_comm]
    have hbit : (1 &&& mode) = 0 ∨ (1 &&& mode) = 1 := by
      rw [Nat.and_comm, Nat.and_one_is_mod]
      omega
    rcases hbit with h | h <;> rw [h] <;> rfl
  simp [has, DTAGMO_READBYPRIORITY, hodd]

/-- Reading by priority from the start of the ring gives the first message. -/
theorem first_eq_next {q : Queue} {mode i : Nat} {reply : Reply}
    (h : first q mode = .ok (i, reply)) : i = q.next 0 := by
  have hstart : startCursor q 0 (DTAGMO_READBYPRIORITY ||| mode) = 0 := by
    unfold startCursor
    dsimp only
    split_ifs <;> rfl
  have hchosen := dtaGetMsgRead_ok h
  rw [hstart, chosenEntry, if_pos (has_priority mode)] at hchosen
  split_ifs at hchosen
  exact (Option.some.inj hchosen).symm

/-- The first message is read, unless there is none. -/
theorem first_spec (h : s.toPost.Wf maxmsgs ring) (mode : Nat) :
    (∃ rc, first s.queue mode = .error rc) ∨
      s.queue.next 0 ∈ ring ∧ ∃ message priority, s.puts[s.number (s.queue.next 0)]? = some message ∧
        (s.queue.queuetable (s.queue.next 0)).msglen = message.length ∧
        first s.queue mode = .ok (s.queue.next 0,
          ⟨if has (DTAGMO_READBYPRIORITY ||| mode) DTAGMO_JUSTINQUIRE then none else some message,
            message.length, priority⟩) := by
  obtain ⟨-, hresult⟩ := h.numbered.consistent.read (Nat.zero_le _) (DTAGMO_READBYPRIORITY ||| mode)
  rcases hresult with ⟨rc, hrc, -⟩ | ⟨i, hi, hok⟩
  · exact Or.inl ⟨rc, hrc⟩
  · right
    obtain rfl := first_eq_next hok
    have hstored := h.numbered.consistent.stored _ hi
    have hlen : (s.queue.queuetable (s.queue.next 0)).msglen =
        (s.puts.getD (s.number (s.queue.next 0)) []).length := by
      rw [← hstored]
      simp [Queue.stored]
    refine ⟨hi, _, (s.queue.queuetable (s.queue.next 0)).priority, ?_, hlen, ?_⟩
    · have hlt := h.numbered.known _ hi
      rw [List.getD_eq_getElem?_getD, List.getElem?_eq_getElem hlt, Option.getD_some]
    · rw [first, hok, hlen]

/-! ## What a run keeps -/

/-- The message that `sendq` has read is in the queue, and it fits into the buffer. -/
structure State.Carries (s : State) (m : Outgoing) : Prop where
  has : s.Has m.id
  message : s.puts[m.id]? = some m.message
  fits : m.message.length ≤ m.buffer

/-- Nothing is under way, unless something has ended early. -/
def State.Rests (s : State) : Prop := s.conn.early = 0 → s.conn.Quiet

/-- `DTA_SENDMSG` and the server are in step, unless something has ended early or the header does not
fit. -/
def State.Sends (s : State) (m : SendMsg.Call) (written read : Nat) : Prop :=
  s.conn.early = 0 → m.Fits → InStep s.remotequeue m s.acked written read s.conn

/-- What holds where `sendq` is. -/
def State.Stage (s : State) : Phase → Prop
  | .idle | .connecting => True
  | .inquiring | .reading _ => s.Rests
  | .sending m k => k ≤ 3 ∧ s.Sends m.toCall k k
  | .waiting m k => k ≤ 3 ∧ s.Sends m.toCall (k + 1) k
  | .deleting m => s.Rests ∧ (m.id, m.message) ∈ s.acked
  | .removing m msgn => s.Rests ∧ (m.id, m.message) ∈ s.acked ∧ s.queue.Live msgn ∧
      s.number msgn = m.id

structure State.Inv (maxmsgs : Nat) (s : State) : Prop where
  wf : ∃ ring, s.toPost.Wf maxmsgs ring
  carries : ∀ m ∈ s.phase.current, s.Carries m
  stage : s.Stage s.phase
  owed : ∀ id, s.Has id →
    s.sent.count id = s.failed.count id + (s.phase.current.map fun m => m.id).toList.count id
  left : ∀ id < s.puts.length, ¬ s.Has id →
    (∃ message, s.puts[id]? = some message ∧ (id, message) ∈ s.acked) ∧
      s.sent.count id = s.failed.count id + 1
  fresh : ∀ id, s.puts.length ≤ id → s.sent.count id = 0 ∧ s.failed.count id = 0

theorem State.Inv.honest (h : s.Inv maxmsgs) : s.Honest where
  acked := fun id hlt hgone => (h.left id hlt hgone).1
  once := fun id hlt hgone => (h.left id hlt hgone).2

theorem State.created_inv (maxmsgs : Nat) (remotequeue : Message) :
    (State.created maxmsgs remotequeue).Inv maxmsgs where
  wf := ⟨[], Post.created_wf maxmsgs⟩
  carries := by simp [created, Phase.current]
  stage := trivial
  owed := by simp [created, Phase.current]
  left := by simp [created, Post.created]
  fresh := by simp [created]

/-- Going on with the same message, or still without one. -/
theorem State.Inv.go (h : s.Inv maxmsgs) {phase : Phase} {conn : Conn} {acked : List (Nat × Message)}
    (hcurrent : phase.current = s.phase.current) (hacked : s.acked ⊆ acked)
    (hstage : State.Stage { s with phase := phase, conn := conn, acked := acked } phase) :
    State.Inv maxmsgs { s with phase := phase, conn := conn, acked := acked } where
  wf := h.wf
  carries := by
    intro m hm
    obtain ⟨hhas, hmessage, hfits⟩ := h.carries m (hcurrent ▸ hm)
    exact ⟨hhas, hmessage, hfits⟩
  stage := hstage
  owed := by
    intro id hid
    rw [hcurrent]
    exact h.owed id hid
  left := by
    intro id hlt hgone
    obtain ⟨⟨message, hmessage, hmem⟩, honce⟩ := h.left id hlt hgone
    exact ⟨⟨message, hmessage, hacked hmem⟩, honce⟩
  fresh := h.fresh

/-- A failure is counted, and the message is in the queue as before. -/
theorem State.Inv.fail (h : s.Inv maxmsgs) {m : Outgoing} (hcurrent : s.phase.current = some m) :
    (s.fail m).Inv maxmsgs where
  wf := h.wf
  carries := by simp [State.fail, Phase.current]
  stage := trivial
  owed := by
    intro id hid
    have howed := h.owed id hid
    rw [hcurrent] at howed
    simp only [State.fail, List.count_append, Phase.current]
    simpa using howed
  left := by
    intro id hlt hgone
    obtain ⟨hacked, honce⟩ := h.left id hlt hgone
    have hne : m.id ≠ id := fun heq => hgone (heq ▸ (h.carries m hcurrent).has)
    refine ⟨hacked, ?_⟩
    simp only [State.fail, List.count_append, List.count_singleton, beq_iff_eq, if_neg hne]
    exact honce
  fresh := by
    intro id hle
    obtain ⟨hsent, hfailed⟩ := h.fresh id hle
    have hne : m.id ≠ id := by
      rintro rfl
      have hlt := (List.getElem?_eq_some_iff.mp (h.carries m hcurrent).message).1
      exact absurd hlt (Nat.not_lt.mpr hle)
    simp only [State.fail, List.count_append, List.count_singleton, beq_iff_eq, if_neg hne]
    exact ⟨hsent, hfailed⟩

/-- A message that is put is in the queue, and was never sent. -/
theorem State.Inv.put (h : s.Inv maxmsgs) (message : Message) (priority : Int) :
    State.Inv maxmsgs { s with toPost := s.toPost.put message priority } := by
  obtain ⟨ring, hwf⟩ := h.wf
  rcases Post.put_spec hwf message priority with heq | ⟨⟨ring', hwf', hstay⟩, hputs, hhas⟩
  · have hsame : { s with toPost := s.toPost.put message priority } = s := by rw [heq]
    rw [hsame]
    exact h
  · have hgrow : ∀ {id : Nat} {m : Message}, s.puts[id]? = some m →
        (s.toPost.put message priority).puts[id]? = some m := by
      intro id m hid
      rw [hputs, List.getElem?_append_left (List.getElem?_eq_some_iff.mp hid).1]
      exact hid
    have hlength : (s.toPost.put message priority).puts.length = s.puts.length + 1 := by
      rw [hputs, List.length_append, List.length_singleton]
    refine ⟨⟨ring', hwf'⟩, fun m hm => ?_, ?_, fun id hid => ?_, fun id hlt hgone => ?_,
      fun id hle => ?_⟩
    · obtain ⟨hin, hmessage, hfits⟩ := h.carries m hm
      exact ⟨(hhas m.id).mpr (Or.inl hin), hgrow hmessage, hfits⟩
    · have hstage := h.stage
      cases hphase : s.phase with
      | removing m msgn =>
          rw [hphase] at hstage
          obtain ⟨hquiet, hacked, hlive, hnumber⟩ := hstage
          obtain ⟨hmem, hsame⟩ := hstay msgn ((hwf.numbered.consistent.live msgn).mpr hlive)
          exact ⟨hquiet, hacked, (hwf'.numbered.consistent.live msgn).mp hmem, hsame.trans hnumber⟩
      | idle => trivial
      | connecting => trivial
      | inquiring => rwa [hphase] at hstage
      | reading buffer => rwa [hphase] at hstage
      | sending m k => rwa [hphase] at hstage
      | waiting m k => rwa [hphase] at hstage
      | deleting m => rwa [hphase] at hstage
    · rcases (hhas id).mp hid with hold | rfl
      · exact h.owed id hold
      · -- nobody has sent it
        obtain ⟨hsent, hfailed⟩ := h.fresh s.puts.length le_rfl
        rw [hsent, hfailed, Nat.zero_add, eq_comm, List.count_eq_zero]
        intro hmem
        simp only [Option.mem_toList, Option.map_eq_some_iff] at hmem
        obtain ⟨m, hm, hlen⟩ := hmem
        have hlt := (List.getElem?_eq_some_iff.mp (h.carries m hm).message).1
        omega
    · have hlt' : id < s.puts.length := by
        have hne : id ≠ s.puts.length := fun heq => hgone ((hhas id).mpr (Or.inr heq))
        rw [hlength] at hlt
        omega
      obtain ⟨⟨m, hm, hmem⟩, honce⟩ :=
        h.left id hlt' fun hid => hgone ((hhas id).mpr (Or.inl hid))
      exact ⟨⟨m, hgrow hm, hmem⟩, honce⟩
    · rw [hlength] at hle
      exact h.fresh id (by omega)

/-- The first message is sent. -/
theorem State.Inv.read (h : s.Inv maxmsgs) (hcurrent : s.phase.current = none) {m : Outgoing}
    (hcarries : s.Carries m) (hrests : s.Rests) :
    State.Inv maxmsgs { s with phase := .sending m 0, sent := s.sent ++ [m.id] } where
  wf := h.wf
  carries := by
    intro m' hm'
    obtain rfl : m = m' := Option.some.inj hm'
    exact ⟨hcarries.has, hcarries.message, hcarries.fits⟩
  stage := ⟨Nat.zero_le 3, fun hearly _ => (hrests hearly).inStep _ _ _⟩
  owed := by
    intro id hid
    have howed := h.owed id hid
    rw [hcurrent] at howed
    simp only [List.count_append, Phase.current]
    simpa using howed
  left := by
    intro id hlt hgone
    obtain ⟨hacked, honce⟩ := h.left id hlt hgone
    have hne : m.id ≠ id := fun heq => hgone (heq ▸ hcarries.has)
    refine ⟨hacked, ?_⟩
    simp only [List.count_append, List.count_singleton, beq_iff_eq, if_neg hne]
    exact honce
  fresh := by
    intro id hle
    obtain ⟨hsent, hfailed⟩ := h.fresh id hle
    have hne : m.id ≠ id := by
      rintro rfl
      have hlt := (List.getElem?_eq_some_iff.mp hcarries.message).1
      exact absurd hlt (Nat.not_lt.mpr hle)
    simp only [List.count_append, List.count_singleton, beq_iff_eq, if_neg hne]
    exact ⟨hsent, hfailed⟩

/-- **The message that is removed is the one that was sent.** -/
theorem State.Inv.remove (h : s.Inv maxmsgs) {m : Outgoing} {msgn : Nat}
    (hphase : s.phase = .removing m msgn) (hstep : s.step .remove = some t) : t.Inv maxmsgs := by
  obtain ⟨ring, hwf⟩ := h.wf
  have hstage := h.stage
  rw [hphase] at hstage
  obtain ⟨hquiet, hacked, hlive, hnumber⟩ := hstage
  have hcarries := h.carries m (by rw [hphase]; rfl)
  rcases hwf.numbered.del_or hlive.1 hlive.2.1 with
    ⟨hfree, -⟩ | ⟨-, q, rest, hdel, hmax, hnum, hgone⟩
  · exact absurd hfree (by rw [hlive.2.2]; omega)
  · simp only [step, hphase, hdel, Option.bind_eq_bind, Option.bind_some, if_true,
      Option.some.injEq] at hstep
    subst hstep
    have hhas : ∀ id, InQueue q s.number id ↔ s.Has id ∧ id ≠ m.id := by
      intro id
      rw [hgone, hnumber]
    refine ⟨⟨rest, hnum, hmax.trans hwf.size⟩, by simp [Phase.current], hquiet, fun id hid => ?_,
      fun id hlt hout => ?_, h.fresh⟩
    · have hne := ((hhas id).mp hid).2.symm
      have howed := h.owed id ((hhas id).mp hid).1
      rw [hphase] at howed
      simpa [Phase.current, hne] using howed
    · by_cases hid : id = m.id
      · subst hid
        have howed := h.owed m.id hcarries.has
        rw [hphase] at howed
        refine ⟨⟨m.message, hcarries.message, hacked⟩, ?_⟩
        simpa [Phase.current] using howed
      · exact h.left id hlt fun hin => hout ((hhas id).mpr ⟨hin, hid⟩)

/-! ## Steps -/

/-- The server goes on. -/
theorem State.Inv.serve (h : s.Inv maxmsgs) {ends ok : Bool} {behind : Nat → Decimal.Byte}
    (hstep : s.step (.serve ends ok behind) = some t) : t.Inv maxmsgs := by
  have hstage := h.stage
  obtain ⟨⟨conn, stored⟩, hserve, rfl⟩ := Option.map_eq_some_iff.mp hstep
  have hsub : s.acked ⊆ s.acked ++ stored.toList := List.subset_append_left _ _
  have hmono : s.conn.early ≤ conn.early := Conn.early_le_serve hserve
  have hrests (hs : s.Rests) : State.Rests { s with conn := conn, acked := s.acked ++ stored.toList } :=
    fun hearly => (hs (by dsimp only at hearly; omega)).serve hserve
  have hsends {m : SendMsg.Call} {written read : Nat} (hs : s.Sends m written read) :
      State.Sends { s with conn := conn, acked := s.acked ++ stored.toList } m written read :=
    fun hearly hfits => (hs (by dsimp only at hearly; omega) hfits).serve hfits hserve hearly
  refine h.go rfl hsub ?_
  cases hphase : s.phase with
  | idle => trivial
  | connecting => trivial
  | inquiring => exact hrests (by rwa [hphase] at hstage)
  | reading buffer => exact hrests (by rwa [hphase] at hstage)
  | sending m k =>
      rw [hphase] at hstage
      exact ⟨hstage.1, hsends hstage.2⟩
  | waiting m k =>
      rw [hphase] at hstage
      exact ⟨hstage.1, hsends hstage.2⟩
  | deleting m =>
      rw [hphase] at hstage
      exact ⟨hrests hstage.1, hsub hstage.2⟩
  | removing m msgn =>
      rw [hphase] at hstage
      exact ⟨hrests hstage.1, hsub hstage.2.1, hstage.2.2⟩

/-- The connection breaks. -/
theorem State.Inv.cut (h : s.Inv maxmsgs) (server client : Nat) :
    State.Inv maxmsgs { s with conn := s.conn.cut server client } := by
  have hstage := h.stage
  have hrests (hs : s.Rests) : State.Rests { s with conn := s.conn.cut server client } :=
    fun hearly => (hs hearly).cut server client
  have hsends {m : SendMsg.Call} {written read : Nat} (hs : s.Sends m written read) :
      State.Sends { s with conn := s.conn.cut server client } m written read :=
    fun hearly hfits => (hs hearly hfits).cut server client
  refine h.go rfl (List.Subset.refl _) ?_
  cases hphase : s.phase with
  | idle => trivial
  | connecting => trivial
  | inquiring => exact hrests (by rwa [hphase] at hstage)
  | reading buffer => exact hrests (by rwa [hphase] at hstage)
  | sending m k =>
      rw [hphase] at hstage
      exact ⟨hstage.1, hsends hstage.2⟩
  | waiting m k =>
      rw [hphase] at hstage
      exact ⟨hstage.1, hsends hstage.2⟩
  | deleting m =>
      rw [hphase] at hstage
      exact ⟨hrests hstage.1, hstage.2⟩
  | removing m msgn =>
      rw [hphase] at hstage
      exact ⟨hrests hstage.1, hstage.2⟩

/-- `sendq` writes a packet, or a part of it. -/
theorem State.Inv.write (h : s.Inv maxmsgs) {n : Nat} (hstep : s.step (.write n) = some t) :
    t.Inv maxmsgs := by
  have hstage := h.stage
  simp only [step] at hstep
  split at hstep
  case h_2 => cases hstep
  case h_1 m k hphase =>
    rw [hphase] at hstage
    obtain ⟨hk, hsends⟩ := hstage
    obtain rfl := Option.some.inj hstep
    refine h.go (by rw [hphase]; rfl) (List.Subset.refl _) ⟨hk, fun hearly hfits => ?_⟩
    have hbefore : s.conn.early = 0 := by
      have hmono := Conn.early_le_write (c := s.conn) m.id (packet s.remotequeue m.toCall k) n
      dsimp only at hearly
      omega
    exact (hsends hbefore hfits).write (Nat.lt_succ_of_le hk) n hearly

/-- `sendq` reads the answer to a packet, or gives up waiting for it. -/
theorem State.Inv.receive (h : s.Inv maxmsgs) (hkept : s.Kept .receive)
    (hstep : s.step .receive = some t) : t.Inv maxmsgs := by
  have hstage := h.stage
  simp only [step] at hstep
  split at hstep
  case h_2 => cases hstep
  case h_1 m k hphase =>
    rw [hphase] at hstage
    obtain ⟨hk, hsends⟩ := hstage
    have hcurrent : s.phase.current = some m := by rw [hphase]; rfl
    by_cases hlast : k < 3
    · rw [if_pos hlast] at hstep
      obtain rfl := Option.some.inj hstep
      refine h.go hcurrent.symm (List.Subset.refl _) ⟨hlast, fun hearly hfits => ?_⟩
      exact InStep.receive_any (fun hbefore => hsends hbefore hfits) (by omega) hearly
    · obtain rfl : k = 3 := by omega
      rw [if_neg hlast] at hstep
      cases hclient : s.conn.toClient with
      | nil =>
          rw [Conn.receive, hclient] at hstep
          obtain rfl := Option.some.inj hstep
          exact (h.fail hcurrent).go rfl (List.Subset.refl _) trivial
      | cons ok rest =>
          rw [Conn.receive, hclient] at hstep
          cases ok with
          | false =>
              obtain rfl := Option.some.inj hstep
              exact (h.fail hcurrent).go rfl (List.Subset.refl _) trivial
          | true =>
              obtain rfl := Option.some.inj hstep
              obtain ⟨hfits, hearly⟩ := hkept m (by rw [hphase]; rfl) (by rw [hclient]; rfl)
              obtain ⟨hacked, hquiet⟩ := (hsends hearly hfits).last hclient
              exact h.go hcurrent.symm (List.Subset.refl _) ⟨fun _ => hquiet, hacked rfl⟩

/-- `sendq` begins, or inquires again. -/
theorem State.Inv.inquire (h : s.Inv maxmsgs) {a : Step}
    (ha : a = .start ∨ (∃ ok msgprio msglen, a = .connect ok msgprio msglen) ∨
      ∃ memory, a = .inquire memory)
    (hstep : s.step a = some t) : t.Inv maxmsgs := by
  have hstage := h.stage
  rcases ha with rfl | ⟨ok, msgprio, msglen, rfl⟩ | ⟨memory, rfl⟩
  · simp only [step] at hstep
    split at hstep
    case h_2 => cases hstep
    case h_1 hphase =>
      obtain rfl := Option.some.inj hstep
      split
      · exact h.go (by rw [hphase]; rfl) (List.Subset.refl _) trivial
      · exact h
  · simp only [step] at hstep
    split at hstep
    case h_2 => cases hstep
    case h_1 hphase =>
      obtain rfl := Option.some.inj hstep
      split_ifs
      · exact h.go (by rw [hphase]; rfl) (List.Subset.refl _) fun _ => ⟨rfl, fun _ => ⟨rfl, rfl⟩⟩
      · exact h.go (by rw [hphase]; rfl) (List.Subset.refl _) trivial
  · simp only [step] at hstep
    split at hstep
    case h_2 => cases hstep
    case h_1 hphase =>
      rw [hphase] at hstage
      obtain rfl := Option.some.inj hstep
      split
      · cases memory with
        | true => exact h.go (by rw [hphase]; rfl) (List.Subset.refl _) hstage
        | false => exact h.go (by rw [hphase]; rfl) (List.Subset.refl _) trivial
      · exact h.go (by rw [hphase]; rfl) (List.Subset.refl _) trivial

/-- The first message is read to be sent. -/
theorem State.Inv.read_step (h : s.Inv maxmsgs) (hstep : s.step .read = some t) :
    t.Inv maxmsgs := by
  obtain ⟨ring, hwf⟩ := h.wf
  have hstage := h.stage
  simp only [step] at hstep
  split at hstep
  case h_2 => cases hstep
  case h_1 buffer hphase =>
    rw [hphase] at hstage
    have hcurrent : s.phase.current = none := by rw [hphase]; rfl
    rcases first_spec hwf 0 with ⟨rc, hrc⟩ | ⟨hmem, message, priority, hmessage, hlen, hok⟩
    · rw [hrc] at hstep
      obtain rfl := Option.some.inj hstep
      exact h.go (by rw [hphase]; rfl) (List.Subset.refl _) trivial
    · rw [if_neg (by decide)] at hok
      rw [hok] at hstep
      dsimp only at hstep
      split_ifs at hstep with hfits
      obtain rfl := Option.some.inj hstep
      have hin : s.Has (s.number (s.queue.next 0)) :=
        ⟨_, (hwf.numbered.consistent.live _).mp hmem, rfl⟩
      exact h.read hcurrent ⟨hin, hmessage, hfits⟩ hstage

/-- The first message is read to be deleted; it is the one that was sent. -/
theorem State.Inv.reread (h : s.Inv maxmsgs) (hkept : s.Kept .reread)
    (hstep : s.step .reread = some t) : t.Inv maxmsgs := by
  obtain ⟨ring, hwf⟩ := h.wf
  have hstage := h.stage
  simp only [step] at hstep
  split at hstep
  case h_2 => cases hstep
  case h_1 m hphase =>
    rw [hphase] at hstage
    have hcurrent : s.phase.current = some m := by rw [hphase]; rfl
    rcases first_spec hwf DTAGMO_DELETEAFTERREAD with
      ⟨rc, hrc⟩ | ⟨hmem, message, priority, hmessage, hlen, hok⟩
    · rw [hrc] at hstep
      obtain rfl := Option.some.inj hstep
      exact h.fail hcurrent
    · rw [hok] at hstep
      dsimp only at hstep
      split_ifs at hstep
      obtain rfl := Option.some.inj hstep
      exact h.go hcurrent.symm (List.Subset.refl _)
        ⟨hstage.1, hstage.2, (hwf.numbered.consistent.live _).mp hmem, hkept m (by rw [hphase]; rfl)⟩

theorem State.step_inv {a : Step} (h : s.Inv maxmsgs) (hkept : s.Kept a)
    (hstep : s.step a = some t) : t.Inv maxmsgs := by
  cases a with
  | put message priority =>
      obtain rfl := Option.some.inj hstep
      exact h.put message priority
  | start => exact h.inquire (Or.inl rfl) hstep
  | connect ok msgprio msglen =>
      exact h.inquire (Or.inr (Or.inl ⟨ok, msgprio, msglen, rfl⟩)) hstep
  | inquire memory => exact h.inquire (Or.inr (Or.inr ⟨memory, rfl⟩)) hstep
  | read => exact h.read_step hstep
  | write n => exact h.write hstep
  | serve ends ok behind => exact h.serve hstep
  | cut server client =>
      obtain rfl := Option.some.inj hstep
      exact h.cut server client
  | receive => exact h.receive hkept hstep
  | reread => exact h.reread hkept hstep
  | remove =>
      cases hphase : s.phase with
      | removing m msgn => exact h.remove hphase hstep
      | _ => simp [step, hphase] at hstep

/-- `sendq` has come to a section that may have no next state. -/
def State.At (s : State) : Step → Prop
  | .read => ∃ buffer, s.phase = .reading buffer
  | .reread => ∃ m, s.phase = .deleting m
  | .remove => ∃ m msgn, s.phase = .removing m msgn
  | _ => False

/-- `sendq` does not write behind its buffer, and it can remove what it has read. -/
theorem State.Inv.goes_on (h : s.Inv maxmsgs) {a : Step} (hkept : s.Kept a) (hat : s.At a) :
    (s.step a).isSome := by
  obtain ⟨ring, hwf⟩ := h.wf
  cases a with
  | read =>
      obtain ⟨buffer, hphase⟩ := hat
      rcases first_spec hwf 0 with ⟨rc, hrc⟩ | ⟨hmem, message, priority, hmessage, hlen, hok⟩
      · simp [step, hphase, hrc]
      · have hfits : message.length ≤ buffer := hlen ▸ hkept buffer (by rw [hphase]; rfl)
        simp [step, hphase, hok, hfits]
  | reread =>
      obtain ⟨m, hphase⟩ := hat
      rcases first_spec hwf DTAGMO_DELETEAFTERREAD with
        ⟨rc, hrc⟩ | ⟨hmem, message, priority, hmessage, hlen, hok⟩
      · simp [step, hphase, hrc]
      · have hcarries := h.carries m (by rw [hphase]; rfl)
        rw [hkept m (by rw [hphase]; rfl), hcarries.message] at hmessage
        obtain rfl := Option.some.inj hmessage
        simp [step, hphase, hok, hcarries.fits]
  | remove =>
      obtain ⟨m, msgn, hphase⟩ := hat
      have hstage := h.stage
      rw [hphase] at hstage
      obtain ⟨-, -, hlive, -⟩ := hstage
      rcases hwf.numbered.del_or hlive.1 hlive.2.1 with ⟨-, hdel⟩ | ⟨-, q, rest, hdel, -⟩
      · simp [step, hphase, hdel]
      · simp [step, hphase, hdel]
  | _ => exact absurd hat id

variable {remotequeue : Message}

/-- **Nothing is lost, and only what failed is repeated**, in every run in which the first message
is still the one that was sent when it is deleted, and fits into the buffer when it is read, and in
which an answer is taken for the last one only if nothing has ended early and the header fits; and
`sendq` can go on at the end of such a run. -/
theorem forwards_honestly {steps : List Step}
    (hkept : Meets State.step State.Kept (.created maxmsgs remotequeue) steps)
    (hrun : run State.step (.created maxmsgs remotequeue) steps = some t) :
    t.Honest ∧ ∀ a, t.Kept a → t.At a → (t.step a).isSome := by
  have h : t.Inv maxmsgs := run_invariant_of_meets (fun _ _ _ h hk hs => State.step_inv h hk hs)
    (State.created_inv maxmsgs remotequeue) hkept hrun
  exact ⟨h.honest, fun a => h.goes_on⟩

/-- Memory full of zeros. -/
def zeros : Nat → Decimal.Byte := fun _ => 0

/-- The packets of a message, and what answers them. -/
def sendingSteps : List Step :=
  [.write 200, .serve false true zeros, .receive, .write 200, .serve false true zeros, .receive,
    .write 200, .serve false true zeros, .receive, .write 200, .serve false true zeros, .receive]

/-- A message is put and forwarded; the connection breaks before the next one is acknowledged, which
is sent again. -/
def brokenOnce : List Step :=
  [.put [65] 0, .start, .connect true 0 0, .inquire true, .read] ++ sendingSteps ++
    [.reread, .remove, .put [66, 66] 0, .inquire true, .read, .write 200, .cut 0 0, .receive,
      .write 200, .receive, .write 200, .receive, .write 200, .receive, .start, .connect true 0 0,
      .inquire true, .read] ++ sendingSteps ++ [.reread, .remove]

set_option maxRecDepth 20000 in
theorem forwards_honestly_two :
    ∃ t, run State.step (.created 2 [81]) brokenOnce = some t ∧
      t.Honest ∧ ∀ a, t.Kept a → t.At a → (t.step a).isSome := by
  have hkept : Meets State.step State.Kept (.created 2 [81]) brokenOnce := by decide +kernel
  exact ⟨_, rfl, forwards_honestly hkept rfl⟩

/-- A message of higher priority is put while another one is being sent. -/
def overtaken : List Step :=
  [.put [65] 0, .start, .connect true 0 0, .inquire true, .read] ++ sendingSteps ++
    [.put [66] 1, .reread, .remove]

set_option maxRecDepth 20000 in
/-- It is removed without having been sent. -/
theorem forwards_dishonestly :
    ¬ ∀ maxmsgs remotequeue steps t,
      run State.step (.created maxmsgs remotequeue) steps = some t → t.Honest := by
  intro h
  have hhonest := h 2 [81] overtaken _ rfl
  have honce := hhonest.once 1 (by decide) (by decide)
  exact absurd honce (by decide)

/-- The priority is 10000000000, of which the server reads 0 as the length of the message. -/
def longPriority : List Step :=
  [.put [65] 10000000000, .start, .connect true 0 0, .inquire true, .read] ++ sendingSteps ++
    [.reread, .remove]

set_option maxRecDepth 20000 in
/-- An empty message is acknowledged in the place of one with a long priority. -/
theorem long_priority_lost :
    ∃ t, run State.step (.created 2 [81]) longPriority = some t ∧ t.acked = [(0, [])] ∧
      ¬ t.Honest := by
  have hrun : (run State.step (.created 2 [81]) longPriority).map
      (fun t => (t.acked, t.puts, decide (t.Has 0))) = some ([(0, [])], [[65]], false) := by
    decide +kernel
  obtain ⟨t, ht, hfacts⟩ := Option.map_eq_some_iff.mp hrun
  obtain ⟨hacked, hputs, hgone⟩ : t.acked = [(0, [])] ∧ t.puts = [[65]] ∧ ¬ t.Has 0 := by
    simpa using hfacts
  refine ⟨t, ht, hacked, fun h => ?_⟩
  obtain ⟨message, hmessage, hmem⟩ := h.acked 0 (by rw [hputs]; decide) hgone
  rw [hputs] at hmessage
  obtain rfl : [65] = message := Option.some.inj hmessage
  rw [hacked] at hmem
  exact absurd hmem (by decide)

/-- `DTA_SENDMSG` gives up waiting for the first answer, and then reads each one too early. -/
def slowServer : List Step :=
  [.put [65] 0, .start, .connect true 0 0, .inquire true, .read, .write 200, .receive,
    .serve false true zeros, .write 200, .receive, .serve false true zeros, .write 200, .receive,
    .serve false true zeros, .write 200, .receive, .reread, .remove]

set_option maxRecDepth 20000 in
/-- A message is removed before the server has taken it. -/
theorem answer_too_early :
    ∃ t, run State.step (.created 2 [81]) slowServer = some t ∧ t.acked = [] ∧ ¬ t.Honest := by
  refine ⟨_, rfl, rfl, fun h => ?_⟩
  obtain ⟨message, -, hacked⟩ := h.acked 0 (by decide) (by decide)
  exact List.not_mem_nil hacked

end Dta.SendQueue
