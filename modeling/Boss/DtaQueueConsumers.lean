import Boss.DtaQueueNumbered
import Boss.Runs

/-!
# Producers and consumers

A consumer reads a message under the read lock and deletes its entry under the write lock.  In
between the entry may be freed by another consumer, and a producer may put a new message into it:
then the consumer deletes a message that it has not read, and returns one that another has returned
already.  As long as no entry is taken again between being read and being deleted, every message is
returned once.

Main results: `State.del_inv` for a deletion, `returned_once` for every run.
-/

namespace Dta.Consumers

open Dta Runs

/-- What a consumer has between its two sections: the entry, the number of the message that was in
it, and what was read. -/
structure Held where
  msgn : Nat
  id : Nat
  reply : Reply

/-- The queue, the handles and calls of the consumers, and the messages that were returned by a call
that reported success. -/
structure State extends Post where
  cursor : Nat → Nat
  held : Nat → Option Held
  returned : List (Nat × Message)

namespace State

def created (maxmsgs : Nat) : State := ⟨.created maxmsgs, fun _ => 0, fun _ => none, []⟩

end State

/-- The sections under a lock: a put, and the two sections of a consumer. -/
inductive Step
  | put (message : Message) (priority : Int)
  | read (c : Nat) (mode : Nat)
  | del (c : Nat)

/-- What a call adds to the messages returned. -/
def answered (rc : Rc) (held : Held) : List (Nat × Message) :=
  match rc, held.reply.message with
  | .OK, some message => [(held.id, message)]
  | _, _ => []

/-- One section; a consumer calls with `DTAGMO_DELETEAFTERREAD`, and one call at a time. -/
def State.step (s : State) : Step → Option State
  | .put message priority => some { s with toPost := s.toPost.put message priority }
  | .read c mode =>
    if has mode DTAGMO_DELETEAFTERREAD ∧ (s.held c).isNone then
      match dtaGetMsgRead s.queue (s.cursor c) mode with
      | (cursor, .error _) => some { s with cursor := Function.update s.cursor c cursor }
      | (cursor, .ok (msgn, reply)) =>
        some { s with
          cursor := Function.update s.cursor c cursor
          held := Function.update s.held c (some ⟨msgn, s.number msgn, reply⟩) }
    else none
  | .del c =>
    match s.held c with
    | none => none
    | some held => do
      let (rc, queue) ← dtaDelMsg s.queue held.msgn
      some { s with
        queue := queue
        held := Function.update s.held c none
        returned := s.returned ++ answered rc held }

/-- The entry is free, or it still holds the message that was read. -/
def State.Kept (s : State) : Step → Prop
  | .put _ _ => True
  | .read _ mode => ¬ has mode DTAGMO_JUSTINQUIRE
  | .del c => ∀ held ∈ s.held c, s.queue.flag held.msgn = 0 ∨ s.number held.msgn = held.id

instance (s : State) (a : Step) : Decidable (s.Kept a) :=
  match a with
  | .put _ _ => .isTrue trivial
  | .read _ mode => inferInstanceAs (Decidable (¬ has mode DTAGMO_JUSTINQUIRE))
  | .del c => inferInstanceAs (Decidable (∀ held ∈ s.held c, _ ∨ _))

/-- How often a message was returned. -/
def State.times (s : State) (id : Nat) : Nat := (s.returned.map Prod.fst).count id

/-- Every message is returned at most once, by a call that got what was put, and a message that has
left the queue was returned. -/
structure State.ExactlyOnce (s : State) : Prop where
  atMost : ∀ id, s.times id ≤ 1
  left : ∀ id < s.puts.length, ¬ s.Has id → s.times id = 1
  same : ∀ r ∈ s.returned, s.puts[r.1]? = some r.2

/-! ## What a section can do -/

/-- What every section keeps, in whatever order they come. -/
structure State.Wf (maxmsgs : Nat) (s : State) (ring : List Nat) : Prop where
  post : s.toPost.Wf maxmsgs ring
  cursor : ∀ c, s.cursor c ≤ maxmsgs
  held : ∀ c, ∀ held ∈ s.held c, 1 ≤ held.msgn ∧ held.msgn ≤ maxmsgs

variable {maxmsgs : Nat} {s t : State} {ring : List Nat}

theorem State.created_wf (maxmsgs : Nat) : (State.created maxmsgs).Wf maxmsgs [] where
  post := Post.created_wf maxmsgs
  cursor := fun _ => Nat.zero_le _
  held := by simp [created]

/-- What a consumer holds then is what it held before, or the message of an entry in use. -/
theorem State.read_spec {c mode : Nat} (h : s.Wf maxmsgs ring)
    (hstep : s.step (.read c mode) = some t) :
    t.Wf maxmsgs ring ∧ t.queue = s.queue ∧ t.number = s.number ∧ t.puts = s.puts ∧
      t.returned = s.returned ∧ ∀ c', ∀ held ∈ t.held c', held ∈ s.held c' ∨
        (¬ has mode DTAGMO_JUSTINQUIRE → ∃ message, s.puts[held.id]? = some message ∧
          held.reply.message = some message) := by
  obtain ⟨hle, hresult⟩ := h.post.numbered.consistent.read (h.post.size.symm ▸ h.cursor c) mode
  simp only [step] at hstep
  split_ifs at hstep with hcall
  cases hget : dtaGetMsgRead s.queue (s.cursor c) mode with
  | mk cursor result =>
      rw [hget] at hle hresult hstep
      have hcursor : ∀ c', Function.update s.cursor c cursor c' ≤ maxmsgs := by
        intro c'
        rw [Function.update_apply]
        split_ifs
        · exact h.post.size ▸ hle
        · exact h.cursor c'
      rcases hresult with ⟨rc, hrc, -⟩ | ⟨i, hi, hok⟩
      · dsimp only at hrc
        subst hrc
        obtain rfl := Option.some.inj hstep
        exact ⟨{ h with cursor := hcursor }, rfl, rfl, rfl, rfl, fun _ _ hheld => Or.inl hheld⟩
      · dsimp only at hok
        subst hok
        obtain rfl := Option.some.inj hstep
        obtain ⟨hpos, hmax, -⟩ := (h.post.numbered.consistent.live i).mp hi
        have hlt := h.post.numbered.known i hi
        have hnow : ∀ c' held new, held ∈ Function.update s.held c (some new) c' →
            held ∈ s.held c' ∨ held = new := by
          intro c' held new hheld
          by_cases hc : c' = c
          · rw [hc, Function.update_self] at hheld
            exact Or.inr (Option.some.inj hheld).symm
          · rw [Function.update_of_ne hc] at hheld
            exact Or.inl hheld
        refine ⟨{ h with cursor := hcursor, held := fun c' held hheld => ?_ }, rfl, rfl, rfl, rfl,
          fun c' held hheld => ?_⟩
        · rcases hnow c' held _ hheld with hold | rfl
          · exact h.held c' held hold
          · exact ⟨hpos, h.post.size ▸ hmax⟩
        · refine (hnow c' held _ hheld).imp id fun heq hmode => ⟨s.puts.getD (s.number i) [], ?_⟩
          subst heq
          dsimp only
          rw [if_neg hmode, List.getD_eq_getElem?_getD, List.getElem?_eq_getElem hlt,
            Option.getD_some]
          exact ⟨rfl, rfl⟩

/-- The message of the entry is deleted, whichever it is by now, or the entry is free. -/
theorem State.del_spec {c : Nat} (h : s.Wf maxmsgs ring) (hstep : s.step (.del c) = some t) :
    ∃ held, s.held c = some held ∧ (∃ ring', t.Wf maxmsgs ring') ∧ t.puts = s.puts ∧
      (∀ c', ∀ other ∈ t.held c', other ∈ s.held c') ∧
      (t.returned = s.returned ∧ (∀ id, t.Has id ↔ s.Has id) ∨
        s.queue.Live held.msgn ∧ t.returned = s.returned ++ answered .OK held ∧
          ∀ id, t.Has id ↔ s.Has id ∧ id ≠ s.number held.msgn) := by
  simp only [step] at hstep
  cases hheld : s.held c with
  | none =>
      rw [hheld] at hstep
      cases hstep
  | some held =>
      rw [hheld] at hstep
      obtain ⟨hpos, hle⟩ := h.held c held hheld
      have hothers : ∀ c', ∀ other ∈ Function.update s.held c none c', other ∈ s.held c' := by
        intro c' other hother
        by_cases hc : c' = c
        · simp [hc] at hother
        · rwa [Function.update_of_ne hc] at hother
      refine ⟨held, rfl, ?_⟩
      rcases h.post.numbered.del_or hpos (h.post.size.symm ▸ hle) with
        ⟨-, hdel⟩ | ⟨hlive, q, rest, hdel, hmax, hnum, hgone⟩
      · simp only [hdel, Option.bind_eq_bind, Option.bind_some, Option.some.injEq] at hstep
        subst hstep
        exact ⟨⟨ring, { h with held := fun c' other hother => h.held c' other (hothers c' other hother) }⟩,
          rfl, hothers, Or.inl ⟨List.append_nil _, fun _ => Iff.rfl⟩⟩
      · simp only [hdel, Option.bind_eq_bind, Option.bind_some, Option.some.injEq] at hstep
        subst hstep
        exact ⟨⟨rest, ⟨hnum, hmax.trans h.post.size⟩, h.cursor,
          fun c' other hother => h.held c' other (hothers c' other hother)⟩, rfl, hothers,
          Or.inr ⟨hlive, rfl, hgone⟩⟩

/-- Every section leaves the queue as it should be. -/
theorem State.step_wf {a : Step} (h : s.Wf maxmsgs ring) (hstep : s.step a = some t) :
    ∃ ring', t.Wf maxmsgs ring' := by
  cases a with
  | put message priority =>
      obtain rfl := Option.some.inj hstep
      rcases Post.put_spec h.post message priority with heq | ⟨⟨ring', ht, -⟩, -⟩
      · exact ⟨ring, heq.symm ▸ h.post, h.cursor, h.held⟩
      · exact ⟨ring', ht, h.cursor, h.held⟩
  | read c mode => exact ⟨ring, (State.read_spec h hstep).1⟩
  | del c =>
      obtain ⟨_, -, ht, -⟩ := State.del_spec h hstep
      exact ht

/-- A consumer that has read can always go on. -/
theorem State.Wf.goes_on (h : s.Wf maxmsgs ring) {c : Nat} (hheld : (s.held c).isSome) :
    (s.step (.del c)).isSome := by
  obtain ⟨held, hheld⟩ := Option.isSome_iff_exists.mp hheld
  obtain ⟨hpos, hle⟩ := h.held c held hheld
  rcases h.post.numbered.del_or hpos (h.post.size.symm ▸ hle) with ⟨-, hdel⟩ | ⟨-, q, rest, hdel, -⟩
  · simp [step, hheld, hdel]
  · simp [step, hheld, hdel]

/-! ## As long as entries are kept -/

/-- What the sections keep as long as they meet `Kept`. -/
structure State.Inv (maxmsgs : Nat) (s : State) : Prop where
  wf : ∃ ring, s.Wf maxmsgs ring
  read : ∀ c, ∀ held ∈ s.held c, ∃ message, s.puts[held.id]? = some message ∧
    held.reply.message = some message
  atMost : ∀ id, s.times id ≤ 1
  gone : ∀ id, 0 < s.times id ↔ id < s.puts.length ∧ ¬ s.Has id
  same : ∀ r ∈ s.returned, s.puts[r.1]? = some r.2

theorem State.Inv.exactlyOnce (h : s.Inv maxmsgs) : s.ExactlyOnce where
  atMost := h.atMost
  left := by
    intro id hlt hleft
    have hpos := (h.gone id).mpr ⟨hlt, hleft⟩
    have hle := h.atMost id
    omega
  same := h.same

theorem State.created_inv (maxmsgs : Nat) : (State.created maxmsgs).Inv maxmsgs where
  wf := ⟨[], State.created_wf maxmsgs⟩
  read := by simp [created]
  atMost := by simp [created, times]
  gone := by simp [created, Post.created, times]
  same := by simp [created]

/-- A put does not change what was returned. -/
theorem State.put_inv {message : Message} {priority : Int} (h : s.Inv maxmsgs)
    (hstep : s.step (.put message priority) = some t) : t.Inv maxmsgs := by
  have hwf : ∃ ring', t.Wf maxmsgs ring' := h.wf.elim fun ring hring => State.step_wf hring hstep
  obtain ⟨ring, hring⟩ := h.wf
  obtain rfl := Option.some.inj hstep
  rcases Post.put_spec hring.post message priority with heq | ⟨-, hputs, hhas⟩
  · have hsame : { s with toPost := s.toPost.put message priority } = s := by rw [heq]
    rw [hsame]
    exact h
  · have hgrow : ∀ {id : Nat} {m : Message}, s.puts[id]? = some m →
        (s.toPost.put message priority).puts[id]? = some m := by
      intro id m hid
      rw [hputs, List.getElem?_append_left (List.getElem?_eq_some_iff.mp hid).1]
      exact hid
    refine ⟨hwf, fun c held hc => ?_, h.atMost, fun id => ?_, fun r hr => hgrow (h.same r hr)⟩
    · obtain ⟨m, hm, hreply⟩ := h.read c held hc
      exact ⟨m, hgrow hm, hreply⟩
    · refine (h.gone id).trans ?_
      simp only [hhas, hputs, List.length_append, List.length_singleton]
      constructor
      · rintro ⟨hlt, hnot⟩
        refine ⟨by omega, fun hor => hor.elim hnot fun heq => ?_⟩
        omega
      · rintro ⟨hlt, hnot⟩
        have hne : id ≠ s.puts.length := fun heq => hnot (Or.inr heq)
        exact ⟨by omega, fun hin => hnot (Or.inl hin)⟩

theorem State.read_inv {c mode : Nat} (h : s.Inv maxmsgs)
    (hmode : ¬ has mode DTAGMO_JUSTINQUIRE) (hstep : s.step (.read c mode) = some t) :
    t.Inv maxmsgs := by
  obtain ⟨ring, hwf⟩ := h.wf
  obtain ⟨ht, hqueue, hnumber, hputs, hreturned, hheld⟩ := State.read_spec hwf hstep
  have htimes : ∀ id, t.times id = s.times id := by
    intro id
    rw [times, times, hreturned]
  refine ⟨⟨ring, ht⟩, fun c' held hc => ?_, fun id => htimes id ▸ h.atMost id, fun id => ?_,
    fun r hr => ?_⟩
  · rw [hputs]
    rcases hheld c' held hc with hold | hnew
    · exact h.read c' held hold
    · exact hnew hmode
  · rw [htimes, h.gone, Post.Has, Post.Has, hqueue, hnumber, hputs]
  · rw [hputs]
    exact h.same r (hreturned ▸ hr)

/-- **A consumer that deletes what it has read** returns a message that nobody has returned. -/
theorem State.del_inv {c : Nat} (h : s.Inv maxmsgs) (hkept : s.Kept (.del c))
    (hstep : s.step (.del c) = some t) : t.Inv maxmsgs := by
  obtain ⟨ring, hwf⟩ := h.wf
  obtain ⟨held, hheld, ht, hputs, hothers, hresult⟩ := State.del_spec hwf hstep
  obtain ⟨message, hmessage, hreply⟩ := h.read c held hheld
  have hread : ∀ c', ∀ other ∈ t.held c', ∃ message, t.puts[other.id]? = some message ∧
      other.reply.message = some message := by
    intro c' other hother
    rw [hputs]
    exact h.read c' other (hothers c' other hother)
  rcases hresult with ⟨hreturned, hhas⟩ | ⟨hlive, hreturned, hhas⟩
  · -- it was deleted by another consumer, and the call fails
    have htimes : ∀ id, t.times id = s.times id := by
      intro id
      rw [times, times, hreturned]
    refine ⟨ht, hread, fun id => htimes id ▸ h.atMost id, fun id => ?_, fun r hr => ?_⟩
    · rw [htimes, h.gone, hhas, hputs]
    · rw [hputs]
      exact h.same r (hreturned ▸ hr)
  · have hid : s.number held.msgn = held.id := by
      refine (hkept held hheld).resolve_left fun hfree => ?_
      have hused := hlive.2.2
      omega
    have hin : s.Has held.id := ⟨held.msgn, hlive, hid⟩
    have hone : answered .OK held = [(held.id, message)] := by
      simp only [answered, hreply]
    have hzero : s.times held.id = 0 := by
      by_contra hpos
      exact ((h.gone held.id).mp (Nat.pos_of_ne_zero hpos)).2 hin
    have htimes : ∀ id, t.times id = s.times id + if held.id = id then 1 else 0 := by
      intro id
      rw [times, hreturned, hone]
      simp only [List.map_append, List.count_append, times, List.map_cons, List.map_nil,
        List.count_singleton, beq_iff_eq]
    refine ⟨ht, hread, fun id => ?_, fun id => ?_, fun r hr => ?_⟩
    · rw [htimes]
      have hmost := h.atMost id
      split_ifs with heq
      · rw [← heq, hzero]
      · exact hmost
    · have hlt := hwf.post.numbered.inQueue_lt hin
      rw [htimes, hhas, hputs, hid]
      by_cases heq : held.id = id
      · subst heq
        simp [hlt]
      · rw [if_neg heq, Nat.add_zero, h.gone]
        have hne : id ≠ held.id := fun h => heq h.symm
        simp [hne]
    · rw [hputs]
      rw [hreturned, hone] at hr
      rcases List.mem_append.mp hr with hr | hr
      · exact h.same r hr
      · rw [List.mem_singleton.mp hr]
        exact hmessage

theorem State.step_inv {a : Step} (h : s.Inv maxmsgs) (hkept : s.Kept a)
    (hstep : s.step a = some t) : t.Inv maxmsgs := by
  cases a with
  | put message priority => exact State.put_inv h hstep
  | read c mode => exact State.read_inv h hkept hstep
  | del c => exact State.del_inv h hkept hstep

/-- **Every message is returned once** in a run in which no entry is taken again between being read
and being deleted, and no consumer just inquires; and in such a run no consumer gets stuck. -/
theorem returned_once {steps : List Step}
    (hkept : Meets State.step State.Kept (.created maxmsgs) steps)
    (hrun : run State.step (.created maxmsgs) steps = some t) :
    t.ExactlyOnce ∧ ∀ c, (t.held c).isSome → (t.step (.del c)).isSome := by
  have h : t.Inv maxmsgs := run_invariant_of_meets (fun _ _ _ h hk hs => State.step_inv h hk hs)
    (State.created_inv maxmsgs) hkept hrun
  obtain ⟨ring, hwf⟩ := h.wf
  exact ⟨h.exactlyOnce, fun c => hwf.goes_on⟩

/-- Of two consumers that have read the same message one deletes it, and the other finds the entry
free; the next message is consumed by the latter. -/
theorem returned_once_two :
    ∃ t, run State.step (.created 1) [.put [65] 0, .read 1 4, .read 2 4, .del 1, .del 2, .put [66] 0,
        .read 2 4, .del 2] = some t ∧ t.ExactlyOnce ∧ ∀ c, (t.held c).isSome →
          (t.step (.del c)).isSome := by
  have hkept : Meets State.step State.Kept (.created 1) [.put [65] 0, .read 1 4, .read 2 4, .del 1,
      .del 2, .put [66] 0, .read 2 4, .del 2] := by decide
  exact ⟨_, rfl, returned_once hkept rfl⟩

/-- Two consumers have read the same message; the first one deletes it, a producer takes the entry,
and the second one deletes the new message, which nobody has read. -/
theorem returned_twice :
    ¬ ∀ maxmsgs steps t, run State.step (.created maxmsgs) steps = some t → t.ExactlyOnce := by
  intro h
  have hrun := h 1 [.put [65] 0, .read 1 4, .read 2 4, .del 1, .put [66] 0, .del 2] _ rfl
  exact absurd (hrun.atMost 0) (by decide)

end Dta.Consumers
