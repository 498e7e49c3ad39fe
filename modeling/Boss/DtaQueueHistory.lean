import Boss.DtaQueueOrder

/-!
# Histories of puts and deletes

The messages of a history are numbered by their puts and have the priorities they were put with.
`ReadInOrder` says what reading a queue is to give: by order the messages as they were put, by
priority those of a higher one first and those of one priority as they were put.

A put keeps that order exactly when it fits (`Fits`): the last entry of the table is not in use, and
the priority is at most that of every message or above that of every message.  Deleting keeps it
always.

Main results: `Wf.reads_once` for one state, `read_in_order_iff` for histories.
-/

namespace Dta

open LinkedChain Fuel Runs

/-- A queue with the numbers of its messages, and the priorities of all puts. -/
structure History extends Post where
  priorities : List Int

namespace History

def created (maxmsgs : Nat) : History := ⟨.created maxmsgs, []⟩

inductive Step
  | put (message : Message) (priority : Int)
  | del (msgn : Nat)

/-- A put that is refused leaves no trace; what is deleted is an entry of the table. -/
def step (s : History) : Step → Option History
  | .put message priority =>
      some {
        toPost := s.toPost.put message priority
        priorities :=
          if (dtaPutMsg s.queue message priority).1 = .OK then s.priorities ++ [priority]
          else s.priorities }
  | .del msgn =>
      if 1 ≤ msgn ∧ msgn ≤ s.queue.maxmsgs then
        (dtaDelMsg s.queue msgn).map fun r => { s with queue := r.2 }
      else none

/-- The priority of a put. -/
def priorityOf (s : History) (id : Nat) : Int := s.priorities.getD id 0

/-- One message is to be read before another. -/
def Precedes (s : History) : Order → Nat → Nat → Prop
  | .time, a, b => a < b
  | .priority, a, b => s.priorityOf b < s.priorityOf a ∨ s.priorityOf a = s.priorityOf b ∧ a < b

/-- What is read is every message in the queue, once, in this order. -/
structure ReadsAs (s : History) (order : Order) (out : List (Nat × Reply)) : Prop where
  once : (out.map fun r => s.number r.1).Nodup
  all : ∀ id, id ∈ out.map (fun r => s.number r.1) ↔ s.Has id
  replies : ∀ r ∈ out, r.2 = ⟨some (s.puts.getD (s.number r.1) []),
    (s.puts.getD (s.number r.1) []).length, s.priorityOf (s.number r.1)⟩
  sorted : (out.map fun r => s.number r.1).Pairwise (s.Precedes order)

/-- Reading from the start, wherever the cursor was, comes to an end and gives that. -/
def ReadInOrder (s : History) : Prop :=
  ∀ order cursor, ∃ out rc, Settles (readFromStart s.queue order.mode cursor) (out, rc) ∧
    s.ReadsAs order out

/-- The message that is put belongs behind all others, or in front of all by its priority, and the
table has not been used to its end. -/
def Fits (s : History) : Step → Prop
  | .put _ priority =>
      s.queue.livmsgs = s.queue.maxmsgs ∨
        s.queue.queuehead.lastmsgn ≠ s.queue.maxmsgs ∧
          ((∀ i ≤ s.queue.maxmsgs, s.queue.Live i → priority ≤ (s.queue.queuetable i).priority) ∨
            ∀ i ≤ s.queue.maxmsgs, s.queue.Live i → (s.queue.queuetable i).priority < priority)
  | .del _ => True

instance (s : History) (a : Step) : Decidable (s.Fits a) :=
  match a with
  | .put _ _ => inferInstanceAs (Decidable (_ ∨ _ ∧ (_ ∨ _)))
  | .del _ => .isTrue trivial

/-- After the step the queue is read in order. -/
def Leaves (s : History) (a : Step) : Prop := ∀ t, s.step a = some t → t.ReadInOrder

structure Wf (maxmsgs : Nat) (s : History) (ring : List Nat) : Prop where
  post : s.toPost.Wf maxmsgs ring
  length : s.priorities.length = s.puts.length
  priority : ∀ i ∈ ring, (s.queue.queuetable i).priority = s.priorityOf (s.number i)

/-- The entries stand in the order in which they are to be read. -/
def Sorted (s : History) (ring : List Nat) (order : Order) : Prop :=
  ((order.entries s.queue ring).map s.number).Pairwise (s.Precedes order)

end History

/-! ## Priorities of the entries -/

section Priority

variable {q t : Queue} {message : Message} {priority : Int} {msgn : Nat} {rc : Rc}

/-- A put writes the priority of the entry that it takes. -/
theorem dtaPutMsg_priority (hroom : q.livmsgs ≠ q.maxmsgs) (i : Nat) :
    ((dtaPutMsg q message priority).2.queuetable i).priority =
      if i = currentmsgn q then priority else (q.queuetable i).priority := by
  have hlinks (table : Entries) (cur a b c d : Nat) :
      QueueTable.priority ∘ setFore (setNext (setNext (setFore table cur a) cur b) c cur) d cur =
        QueueTable.priority ∘ table := by
    rw [setFore_same _ fun _ _ => rfl, setNext_same _ fun _ _ => rfl, setNext_same _ fun _ _ => rfl,
      setFore_same _ fun _ _ => rfl]
  unfold dtaPutMsg enter
  rw [if_neg hroom]
  dsimp only [append]
  refine (congrFun (hlinks _ _ _ _ _ _) i).trans ?_
  rw [Function.comp_apply, Function.update_apply]
  split_ifs <;> rfl

/-- Deleting leaves the queue as it is, or the table without the entry. -/
theorem dtaDelMsg_table (h : dtaDelMsg q msgn = some (rc, t)) :
    t = q ∨ t.queuetable = (unlinkEntry q msgn).queuetable := by
  unfold dtaDelMsg at h
  by_cases hdead : q.flag msgn = 0
  · rw [if_pos hdead] at h
    obtain ⟨-, rfl⟩ := Prod.mk.inj (Option.some.inj h)
    exact .inl rfl
  · right
    rw [if_neg hdead] at h
    simp only [Option.bind_eq_bind] at h
    by_cases hlive : 0 < q.livmsgs - 1
    · rw [if_pos hlive] at h
      split_ifs at h <;> simp only [Option.bind_eq_some_iff, Option.some.injEq, Prod.mk.injEq] at h
      all_goals
        obtain ⟨_, -, _, -, _, -, -, rfl⟩ := h
        rfl
    · rw [if_neg hlive] at h
      simp only [Option.bind_eq_some_iff, Option.some.injEq, Prod.mk.injEq] at h
      obtain ⟨_, -, -, rfl⟩ := h
      rfl

/-- A deletion leaves the priorities. -/
theorem dtaDelMsg_priority (h : dtaDelMsg q msgn = some (rc, t)) (i : Nat) :
    (t.queuetable i).priority = (q.queuetable i).priority := by
  have hunlink : QueueTable.priority ∘ (unlinkEntry q msgn).queuetable =
      QueueTable.priority ∘ q.queuetable := by
    have hflag (table : Entries) : QueueTable.priority ∘
        Function.update table msgn { table msgn with flag := 0 } = QueueTable.priority ∘ table := by
      rw [Function.comp_update]
      exact Function.update_eq_self msgn (QueueTable.priority ∘ table)
    dsimp only [unlinkEntry]
    rw [hflag, setFore_same _ fun _ _ => rfl, setNext_same _ fun _ _ => rfl]
  rcases dtaDelMsg_table h with rfl | htable
  · rfl
  · rw [htable]
    exact congrFun hunlink i

end Priority

/-- In a list that grows, a relation holds along it when it holds of the smaller and the greater. -/
theorem pairwise_iff_of_sorted {l : List Nat} (hsorted : l.Pairwise (· < ·))
    {R : Nat → Nat → Prop} : l.Pairwise R ↔ ∀ i ∈ l, ∀ j ∈ l, i < j → R i j := by
  induction l with
  | nil => simp
  | cons a l ih =>
      obtain ⟨hlow, hl⟩ := List.pairwise_cons.mp hsorted
      rw [List.pairwise_cons, ih hl]
      constructor
      · rintro ⟨hfirst, hrest⟩ i hi j hj hij
        rcases List.mem_cons.mp hi with rfl | hi
        · exact hfirst j ((List.mem_cons.mp hj).resolve_left (by omega))
        · rcases List.mem_cons.mp hj with hja | hj
          · have hai := hlow i hi
            omega
          · exact hrest i hi j hj hij
      · intro h
        exact ⟨fun j hj => h a List.mem_cons_self j (List.mem_cons_of_mem _ hj) (hlow j hj),
          fun i hi j hj => h i (List.mem_cons_of_mem _ hi) j (List.mem_cons_of_mem _ hj)⟩

namespace History

variable {maxmsgs : Nat} {s t : History} {ring : List Nat}

/-! ## Reading -/

/-- From the start every message is read once, in the order of the mode, and then the end is told.
-/
theorem Wf.readFromStart (h : s.Wf maxmsgs ring) (order : Order) (cursor : Nat) :
    Settles (readFromStart s.queue order.mode cursor)
      ((order.entries s.queue ring).map fun i =>
          (i, replyOf s.queue (fun i => s.puts.getD (s.number i) []) i),
        if ring = [] then .QUEUE_EMPTY else .QUEUE_END) :=
  h.post.numbered.consistent.readFromStart_eq order cursor

/-- No entry is read twice. -/
theorem Wf.entries_nodup (h : s.Wf maxmsgs ring) (order : Order) :
    (order.entries s.queue ring).Nodup := by
  cases order with
  | time => exact liveEntries_sorted.imp fun hlt => Nat.ne_of_lt hlt
  | priority => exact h.post.numbered.consistent.links.nodup

/-- **Every message is read once**, with its bytes and its priority, whatever the order. -/
theorem Wf.reads_once (h : s.Wf maxmsgs ring) (order : Order) :
    let out := (order.entries s.queue ring).map fun i =>
      (i, replyOf s.queue (fun i => s.puts.getD (s.number i) []) i)
    s.ReadsAs order out ↔ s.Sorted ring order := by
  intro out
  have hnum := h.post.numbered
  have hmem (i : Nat) : i ∈ order.entries s.queue ring ↔ i ∈ ring :=
    hnum.consistent.mem_entries order
  have hnumbers : out.map (fun r => s.number r.1) = (order.entries s.queue ring).map s.number := by
    simp only [out, List.map_map]
    rfl
  constructor
  · intro hreads
    have hsorted := hreads.sorted
    rwa [hnumbers] at hsorted
  · intro hsorted
    refine ⟨?_, fun id => ?_, fun r hr => ?_, ?_⟩
    · rw [hnumbers]
      refine List.Nodup.map_on ?_ (h.entries_nodup order)
      intro i hi j hj heq
      exact hnum.distinct i ((hmem i).mp hi) j ((hmem j).mp hj) heq
    · rw [hnumbers, List.mem_map, Post.Has, hnum.inQueue_iff]
      simp only [hmem]
    · obtain ⟨i, hi, rfl⟩ := List.mem_map.mp hr
      have hin := (hmem i).mp hi
      have hlen : (s.queue.queuetable i).msglen = (s.puts.getD (s.number i) []).length := by
        have hstored := congrArg List.length (hnum.consistent.stored i hin)
        simpa [Queue.stored] using hstored
      simp only [replyOf, hlen, h.priority i hin]
    · rw [hnumbers]
      exact hsorted

/-- A queue is read in order exactly when its ring is sorted for both orders. -/
theorem Wf.readInOrder_iff (h : s.Wf maxmsgs ring) :
    s.ReadInOrder ↔ ∀ order, s.Sorted ring order := by
  constructor
  · intro hread order
    obtain ⟨out, rc, hsettles, hout⟩ := hread order 0
    obtain ⟨rfl, -⟩ := Prod.mk.inj (hsettles.unique (h.readFromStart order 0))
    exact (h.reads_once order).mp hout
  · intro hsorted order cursor
    exact ⟨_, _, h.readFromStart order cursor, (h.reads_once order).mpr (hsorted order)⟩

end History

/-! ## Putting -/

section Place

variable {q : Queue} {content : Nat → Message} {ring pre post : List Nat} {priority : Int}

/-- A message is put behind all others if its priority is at most that of the first one, and in
front of them otherwise. -/
theorem Consistent.place (h : Consistent q content (pre ++ post))
    (hbefore : insertBefore q priority = headOf 0 post) :
    pre ++ post = [] ∨ ∃ first ∈ pre ++ post,
      (post = [] ∧ priority ≤ (q.queuetable first).priority ∨
        pre = [] ∧ (q.queuetable first).priority < priority) := by
  by_cases hnil : pre ++ post = []
  · exact .inl hnil
  · have hpos : ∀ i ∈ pre ++ post, i ≠ 0 := fun i hi => by
      have hlive := ((h.live i).mp hi).1
      omega
    have hhead : headOf 0 (pre ++ post) ∈ pre ++ post := by
      obtain ⟨i, l, hl⟩ := List.exists_cons_of_ne_nil hnil
      rw [hl, headOf_cons]
      exact List.mem_cons_self
    refine .inr ⟨_, hhead, ?_⟩
    unfold insertBefore at hbefore
    rw [h.links.first] at hbefore
    split_ifs at hbefore with hle
    · refine .inl ⟨?_, hle⟩
      cases post with
      | nil => rfl
      | cons i post =>
          have hi := hpos i (by simp)
          rw [headOf_cons] at hbefore
          omega
    · refine .inr ⟨?_, not_le.mp hle⟩
      cases pre with
      | nil => rfl
      | cons a pre =>
          rw [List.cons_append, headOf_cons] at hbefore
          cases post with
          | nil => exact absurd hbefore (hpos a (by simp))
          | cons b post =>
              obtain ⟨hnot, -⟩ := List.nodup_cons.mp h.links.nodup
              exact absurd (by simp [hbefore]) hnot

/-- The new entry is behind all others just when the table has not been used to its end. -/
theorem Consistent.behind_iff (h : Consistent q content ring) (hroom : q.livmsgs ≠ q.maxmsgs) :
    (∀ i ∈ ring, i < currentmsgn q) ↔ q.queuehead.lastmsgn ≠ q.maxmsgs := by
  obtain ⟨hpos, hmax, hfree⟩ := h.currentmsgn_spec hroom
  constructor
  · intro hbehind hlast
    have hne : ring ≠ [] := by
      intro hnil
      have hzero := (h.idle hnil).2
      have hcount := h.livmsgs
      rw [hnil, List.length_nil] at hcount
      omega
    have hlt := hbehind _ (h.window hne).2
    omega
  · intro hlast i hi
    have hle := (h.inside i hi).2
    rw [currentmsgn, if_neg hlast]
    omega

end Place

namespace History

variable {maxmsgs : Nat} {s t : History} {ring pre post : List Nat} {cur : Nat} {message : Message}
  {priority : Int}

/-- One message has been put, into entry `cur`. -/
structure Grown (s t : History) (cur : Nat) (priority : Int) : Prop where
  length : s.priorities.length = s.puts.length
  number : t.number = Function.update s.number cur s.puts.length
  priorities : t.priorities = s.priorities ++ [priority]

section Grown

variable (hgrown : Grown s t cur priority) {a b : Nat}

include hgrown

/-- The messages that were there keep their number. -/
theorem Grown.number_old {l : List Nat} (hnew : cur ∉ l) {i : Nat} (hi : i ∈ l) :
    t.number i = s.number i := by
  have hne : i ≠ cur := fun heq => hnew (heq ▸ hi)
  rw [hgrown.number, Function.update_of_ne hne]

/-- The new message has the number of the puts before it. -/
theorem Grown.number_new : t.number cur = s.puts.length := by
  rw [hgrown.number, Function.update_self]

/-- The messages that were there keep their priority. -/
theorem Grown.priorityOf_old (ha : a < s.puts.length) : t.priorityOf a = s.priorityOf a := by
  have hlen : a < s.priorities.length := hgrown.length ▸ ha
  rw [priorityOf, priorityOf, hgrown.priorities, List.getD_eq_getElem?_getD,
    List.getD_eq_getElem?_getD, List.getElem?_append_left hlen]

/-- The new message has the priority that it was put with. -/
theorem Grown.priorityOf_new : t.priorityOf s.puts.length = priority := by
  rw [priorityOf, hgrown.priorities, ← hgrown.length]
  simp

/-- The messages that were there keep their order. -/
theorem Grown.precedes_old (order : Order) (ha : a < s.puts.length) (hb : b < s.puts.length) :
    t.Precedes order a b ↔ s.Precedes order a b := by
  cases order with
  | time => exact Iff.rfl
  | priority => simp only [Precedes, hgrown.priorityOf_old ha, hgrown.priorityOf_old hb]

/-- The new message follows one that has at least its priority. -/
theorem Grown.precedes_new (ha : a < s.puts.length) :
    t.Precedes .priority a s.puts.length ↔ priority ≤ s.priorityOf a := by
  simp only [Precedes, hgrown.priorityOf_old ha, hgrown.priorityOf_new]
  omega

/-- By priority the new message precedes those of lower priority only. -/
theorem Grown.new_precedes (hb : b < s.puts.length) :
    t.Precedes .priority s.puts.length b ↔ s.priorityOf b < priority := by
  simp only [Precedes, hgrown.priorityOf_old hb, hgrown.priorityOf_new]
  omega

end Grown

/-- **What a put can do.** -/
theorem Wf.step_put (h : s.Wf maxmsgs ring) (hstep : s.step (.put message priority) = some t) :
    s.queue.livmsgs = s.queue.maxmsgs ∧ t = s ∨
      s.queue.livmsgs ≠ s.queue.maxmsgs ∧ ∃ pre post, ring = pre ++ post ∧
        insertBefore s.queue priority = headOf 0 post ∧ currentmsgn s.queue ∉ ring ∧
        Grown s t (currentmsgn s.queue) priority ∧
        t.Wf maxmsgs (pre ++ currentmsgn s.queue :: post) := by
  obtain rfl := (Option.some.inj hstep).symm
  by_cases hroom : s.queue.livmsgs = s.queue.maxmsgs
  · refine .inl ⟨hroom, ?_⟩
    have hfull : dtaPutMsg s.queue message priority = (.QUEUE_FULL, s.queue) := by
      rw [dtaPutMsg, if_pos hroom]
    simp [Post.put, hfull]
  · refine .inr ⟨hroom, ?_⟩
    obtain ⟨pre, post, q, rfl, hbefore, hput, hmax, hnew, hnum⟩ :=
      h.post.numbered.put hroom message priority
    refine ⟨pre, post, rfl, hbefore, hnew, ⟨h.length, by simp [Post.put, hput], by simp [hput]⟩, ?_⟩
    have hgrown : Grown s ⟨s.toPost.put message priority, s.priorities ++ [priority]⟩
        (currentmsgn s.queue) priority :=
      ⟨h.length, by simp [Post.put, hput], rfl⟩
    simp only [hput, if_true]
    refine ⟨⟨by simpa [Post.put, hput] using hnum,
      by simpa [Post.put, hput] using hmax.trans h.post.size⟩, by simp [Post.put, hput, h.length],
      fun i hi => ?_⟩
    have hpriority := @dtaPutMsg_priority s.queue message priority hroom i
    have hqueue : (s.toPost.put message priority).queue = q := by simp [Post.put, hput]
    rw [hput] at hpriority
    dsimp only at hpriority ⊢
    rw [hqueue, hpriority]
    by_cases hcur : i = currentmsgn s.queue
    · rw [if_pos hcur, hcur, hgrown.number, Function.update_self, hgrown.priorityOf_new]
    · have hold : i ∈ pre ++ post := by
        simp only [List.mem_append, List.mem_cons] at hi ⊢
        tauto
      rw [if_neg hcur, h.priority i hold, hgrown.number, Function.update_of_ne hcur,
        hgrown.priorityOf_old (h.post.numbered.known i hold)]

/-- By time the ring is sorted exactly when the entries have the order of their puts. -/
theorem Wf.sorted_time_iff (h : s.Wf maxmsgs ring) :
    s.Sorted ring .time ↔ ∀ i ∈ ring, ∀ j ∈ ring, i < j → s.number i < s.number j := by
  have hmem (i : Nat) : i ∈ liveEntries s.queue ↔ i ∈ ring :=
    h.post.numbered.consistent.mem_liveEntries
  rw [Sorted, List.pairwise_map]
  exact (pairwise_iff_of_sorted liveEntries_sorted).trans (by simp only [hmem]; rfl)

section Put

variable (h : s.Wf maxmsgs (pre ++ post)) (hgrown : Grown s t cur priority)
  (hnew : cur ∉ pre ++ post)

include h hgrown hnew

/-- The entries stay in the order of the puts just when the new one is behind all others. -/
theorem Wf.sorted_time_put (ht : t.Wf maxmsgs (pre ++ cur :: post)) :
    t.Sorted (pre ++ cur :: post) .time ↔
      s.Sorted (pre ++ post) .time ∧ ∀ i ∈ pre ++ post, i < cur := by
  have hold : ∀ i ∈ pre ++ post, t.number i = s.number i := fun i hi => hgrown.number_old hnew hi
  have hcur := hgrown.number_new
  have hknown := h.post.numbered.known
  have hmem (i : Nat) : i ∈ pre ++ cur :: post ↔ i = cur ∨ i ∈ pre ++ post := by
    simp only [List.mem_append, List.mem_cons]
    tauto
  rw [ht.sorted_time_iff, h.sorted_time_iff]
  constructor
  · intro hsorted
    refine ⟨fun i hi j hj hij => ?_, fun i hi => ?_⟩
    · have hlt := hsorted i ((hmem i).mpr (.inr hi)) j ((hmem j).mpr (.inr hj)) hij
      rwa [hold i hi, hold j hj] at hlt
    · by_contra hnot
      have hne : i ≠ cur := fun heq => hnew (heq ▸ hi)
      have hlt := hsorted cur ((hmem cur).mpr (.inl rfl)) i ((hmem i).mpr (.inr hi)) (by omega)
      have hsmall := hknown i hi
      rw [hcur, hold i hi] at hlt
      omega
  · rintro ⟨hsorted, hbehind⟩ i hi j hj hij
    rcases (hmem i).mp hi with hicur | hi
    · rcases (hmem j).mp hj with hjcur | hj
      · omega
      · have hlt := hbehind j hj
        omega
    · rcases (hmem j).mp hj with hjcur | hj
      · rw [hjcur, hcur, hold i hi]
        exact hknown i hi
      · rw [hold i hi, hold j hj]
        exact hsorted i hi j hj hij

/-- The ring stays in its order just when those in front of the new message have at least its
priority, and those behind it a lower one. -/
theorem Wf.sorted_priority_put :
    t.Sorted (pre ++ cur :: post) .priority ↔ s.Sorted (pre ++ post) .priority ∧
      (∀ i ∈ pre, priority ≤ (s.queue.queuetable i).priority) ∧
      ∀ i ∈ post, (s.queue.queuetable i).priority < priority := by
  have hnumbers (l : List Nat) (hl : ∀ i ∈ l, i ∈ pre ++ post) :
      l.map t.number = l.map s.number :=
    List.map_congr_left fun i hi => hgrown.number_old hnew (hl i hi)
  have hpre := hnumbers pre fun i hi => List.mem_append_left _ hi
  have hpost := hnumbers post fun i hi => List.mem_append_right _ hi
  have hcur := hgrown.number_new
  have hknown : ∀ id ∈ (pre ++ post).map s.number, id < s.puts.length := by
    intro id hid
    obtain ⟨i, hi, rfl⟩ := List.mem_map.mp hid
    exact h.post.numbered.known i hi
  have hfront : (∀ id ∈ pre.map s.number, t.Precedes .priority id s.puts.length) ↔
      ∀ i ∈ pre, priority ≤ (s.queue.queuetable i).priority := by
    rw [List.forall_mem_map]
    refine forall₂_congr fun i hi => ?_
    rw [hgrown.precedes_new (hknown _ (List.mem_map_of_mem (List.mem_append_left _ hi))),
      h.priority i (List.mem_append_left _ hi)]
  have hback : (∀ id ∈ post.map s.number, t.Precedes .priority s.puts.length id) ↔
      ∀ i ∈ post, (s.queue.queuetable i).priority < priority := by
    rw [List.forall_mem_map]
    refine forall₂_congr fun i hi => ?_
    rw [hgrown.new_precedes (hknown _ (List.mem_map_of_mem (List.mem_append_right _ hi))),
      h.priority i (List.mem_append_right _ hi)]
  have hthere : (pre.map s.number ++ post.map s.number).Pairwise (t.Precedes .priority) ↔
      (pre.map s.number ++ post.map s.number).Pairwise (s.Precedes .priority) := by
    refine List.Pairwise.iff_of_mem fun {a b} ha hb => ?_
    rw [← List.map_append] at ha hb
    exact hgrown.precedes_old .priority (hknown a ha) (hknown b hb)
  have hsplit : t.Sorted (pre ++ cur :: post) .priority ↔
      (pre.map s.number ++ post.map s.number).Pairwise (t.Precedes .priority) ∧
        (∀ id ∈ pre.map s.number, t.Precedes .priority id s.puts.length) ∧
        ∀ id ∈ post.map s.number, t.Precedes .priority s.puts.length id := by
    rw [Sorted, Order.entries, List.map_append, List.map_cons, hcur, hpre, hpost,
      List.pairwise_append, List.pairwise_append, List.pairwise_cons]
    simp only [List.mem_cons, forall_eq_or_imp]
    constructor
    · rintro ⟨hp, ⟨hb, hq⟩, hcross⟩
      exact ⟨⟨hp, hq, fun a ha b hbmem => (hcross a ha).2 b hbmem⟩, fun a ha => (hcross a ha).1, hb⟩
    · rintro ⟨⟨hp, hq, hcross⟩, hf, hb⟩
      exact ⟨hp, ⟨hb, hq⟩, fun a ha => ⟨hf a ha, hcross a ha⟩⟩
  rw [hsplit, hthere, hfront, hback, Sorted, Order.entries, List.map_append]

end Put

/-- A put leaves the queue in order just when it fits. -/
theorem Wf.put_sorted_iff (h : s.Wf maxmsgs ring) (hsorted : ∀ order, s.Sorted ring order)
    (hstep : s.step (.put message priority) = some t) :
    t.ReadInOrder ↔ s.Fits (.put message priority) := by
  rcases h.step_put hstep with ⟨hfull, rfl⟩ | ⟨hroom, pre, post, rfl, hbefore, hnew, hgrown, ht⟩
  · exact iff_of_true (h.readInOrder_iff.mpr hsorted) (.inl hfull)
  · have hq := h.post.numbered.consistent
    have hlive (P : Nat → Prop) : (∀ i ≤ s.queue.maxmsgs, s.queue.Live i → P i) ↔
        ∀ i ∈ pre ++ post, P i :=
      ⟨fun hall i hi => hall i ((hq.live i).mp hi).2.1 ((hq.live i).mp hi),
        fun hall i _ hi => hall i ((hq.live i).mpr hi)⟩
    have hplace : ((∀ i ∈ pre, priority ≤ (s.queue.queuetable i).priority) ∧
        ∀ i ∈ post, (s.queue.queuetable i).priority < priority) ↔
        (∀ i ∈ pre ++ post, priority ≤ (s.queue.queuetable i).priority) ∨
          ∀ i ∈ pre ++ post, (s.queue.queuetable i).priority < priority := by
      rcases hq.place hbefore with hnil | ⟨first, hfirst, ⟨rfl, hle⟩ | ⟨rfl, hlt⟩⟩
      · obtain ⟨rfl, rfl⟩ := List.append_eq_nil_iff.mp hnil
        simp
      · rw [List.append_nil] at hfirst ⊢
        constructor
        · exact fun hboth => .inl hboth.1
        · rintro (hall | hall)
          · exact ⟨hall, by simp⟩
          · exact absurd (hall first hfirst) (not_lt.mpr hle)
      · rw [List.nil_append] at hfirst ⊢
        constructor
        · exact fun hboth => .inr hboth.2
        · rintro (hall | hall)
          · exact absurd (hall first hfirst) (not_le.mpr hlt)
          · exact ⟨by simp, hall⟩
    have htime := h.sorted_time_put hgrown hnew ht
    have hpriority := h.sorted_priority_put hgrown hnew
    rw [hq.behind_iff hroom] at htime
    rw [hplace] at hpriority
    rw [ht.readInOrder_iff, Fits, or_iff_right hroom, hlive, hlive]
    constructor
    · intro hall
      exact ⟨(htime.mp (hall .time)).2, (hpriority.mp (hall .priority)).2⟩
    · rintro ⟨hbehind, hfits⟩ order
      cases order with
      | time => exact htime.mpr ⟨hsorted .time, hbehind⟩
      | priority => exact hpriority.mpr ⟨hsorted .priority, hfits⟩

/-! ## Deleting -/

/-- A deletion leaves a part of the ring, and numbers and priorities as they are. -/
theorem Wf.step_del (h : s.Wf maxmsgs ring) {msgn : Nat} (hstep : s.step (.del msgn) = some t) :
    ∃ rest, rest.Sublist ring ∧ t.Wf maxmsgs rest ∧ t.number = s.number ∧
      t.priorities = s.priorities := by
  simp only [step] at hstep
  split_ifs at hstep with hvalid
  obtain ⟨⟨rc, q⟩, hdel, rfl⟩ := Option.map_eq_some_iff.mp hstep
  by_cases hflag : s.queue.flag msgn = 0
  · rw [dtaDelMsg, if_pos hflag] at hdel
    obtain ⟨-, rfl⟩ := Prod.mk.inj (Option.some.inj hdel)
    exact ⟨ring, List.Sublist.refl _, h, rfl, rfl⟩
  · have hq := h.post.numbered.consistent
    have hlive : s.queue.Live msgn :=
      ⟨hvalid.1, hvalid.2, (hq.flags msgn hvalid.2).resolve_left hflag⟩
    obtain ⟨pre, post, rfl⟩ := List.append_of_mem ((hq.live msgn).mpr hlive)
    obtain ⟨q', hdel', hmax, hnum, -⟩ := h.post.numbered.del
    obtain ⟨-, rfl⟩ := Prod.mk.inj (Option.some.inj (hdel.symm.trans hdel'))
    have hsub : (pre ++ post).Sublist (pre ++ msgn :: post) :=
      (List.Sublist.refl pre).append (List.sublist_cons_self msgn post)
    refine ⟨pre ++ post, hsub, ⟨⟨hnum, hmax.trans h.post.size⟩, h.length, fun i hi => ?_⟩, rfl, rfl⟩
    exact (dtaDelMsg_priority hdel i).trans (h.priority i (hsub.subset hi))

/-- What is left stays in order. -/
theorem Wf.del_sorted {rest : List Nat} (h : s.Wf maxmsgs ring) (ht : t.Wf maxmsgs rest)
    (hsub : rest.Sublist ring) (hnumber : t.number = s.number)
    (hpriorities : t.priorities = s.priorities) (hsorted : ∀ order, s.Sorted ring order)
    (order : Order) : t.Sorted rest order := by
  cases order with
  | time =>
      rw [ht.sorted_time_iff, hnumber]
      have hall := h.sorted_time_iff.mp (hsorted .time)
      exact fun i hi j hj => hall i (hsub.subset hi) j (hsub.subset hj)
  | priority =>
      have hsame : t.Precedes .priority = s.Precedes .priority := by
        funext a b
        simp only [Precedes, priorityOf, hpriorities]
      rw [Sorted, hsame, hnumber]
      exact (hsorted .priority).sublist (hsub.map s.number)

/-! ## Runs -/

/-- A queue that is read in order. -/
def InOrder (maxmsgs : Nat) (s : History) : Prop :=
  ∃ ring, s.Wf maxmsgs ring ∧ ∀ order, s.Sorted ring order

/-- A queue that has just been created is in order. -/
theorem created_inOrder (maxmsgs : Nat) : (created maxmsgs).InOrder maxmsgs := by
  have hwf : (created maxmsgs).Wf maxmsgs [] := ⟨Post.created_wf maxmsgs, rfl, by simp⟩
  refine ⟨[], hwf, fun order => ?_⟩
  cases order with
  | time =>
      rw [hwf.sorted_time_iff]
      simp
  | priority => exact List.Pairwise.nil

/-- From a queue in order a step leaves it in order exactly when it fits. -/
theorem InOrder.leaves_iff (h : s.InOrder maxmsgs) (a : Step) : s.Leaves a ↔ s.Fits a := by
  obtain ⟨ring, hwf, hsorted⟩ := h
  cases a with
  | put message priority =>
      constructor
      · exact fun hleaves => (hwf.put_sorted_iff hsorted rfl).mp (hleaves _ rfl)
      · exact fun hfits t hstep => (hwf.put_sorted_iff hsorted hstep).mpr hfits
  | del msgn =>
      refine iff_of_true (fun t hstep => ?_) trivial
      obtain ⟨rest, hsub, ht, hnumber, hpriorities⟩ := hwf.step_del hstep
      exact ht.readInOrder_iff.mpr (hwf.del_sorted ht hsub hnumber hpriorities hsorted)

/-- A step that fits keeps the queue in order. -/
theorem InOrder.step_fits {a : Step} (h : s.InOrder maxmsgs) (hfits : s.Fits a)
    (hstep : s.step a = some t) : t.InOrder maxmsgs := by
  have hread := (h.leaves_iff a).mpr hfits t hstep
  obtain ⟨ring, hwf, -⟩ := h
  cases a with
  | put message priority =>
      rcases hwf.step_put hstep with ⟨-, rfl⟩ | ⟨-, pre, post, -, -, -, -, ht⟩
      · exact ⟨ring, hwf, hwf.readInOrder_iff.mp hread⟩
      · exact ⟨_, ht, ht.readInOrder_iff.mp hread⟩
  | del msgn =>
      obtain ⟨rest, -, ht, -, -⟩ := hwf.step_del hstep
      exact ⟨rest, ht, ht.readInOrder_iff.mp hread⟩

/-- From a queue in order all steps of a run leave it in order exactly when all fit. -/
theorem InOrder.meets_iff (h : s.InOrder maxmsgs) (steps : List Step) :
    Meets step Leaves s steps ↔ Meets step Fits s steps :=
  meets_iff_of_meets (fun _ _ _ h hfits hstep => h.step_fits hfits hstep)
    (fun _ a h => h.leaves_iff a) h

/-- **A queue is read in order after every step of a history** exactly in the histories all of whose
puts fit. -/
theorem read_in_order_iff (maxmsgs : Nat) (steps : List Step) :
    Meets step Leaves (created maxmsgs) steps ↔ Meets step Fits (created maxmsgs) steps :=
  (created_inOrder maxmsgs).meets_iff steps

/-- A table of two entries is filled, the first one is freed, and what is put there is read before
the older message; a message of priority 2 is put behind those of priorities 3 and 1. -/
theorem not_read_in_order :
    ¬ Meets step Leaves (created 2) [.put [65] 0, .put [66] 0, .del 1, .put [67] 0] ∧
      ¬ Meets step Leaves (created 3) [.put [65] 3, .put [66] 1, .put [67] 2] := by
  rw [(created_inOrder 2).meets_iff, (created_inOrder 3).meets_iff]
  decide +kernel

example :
    ((run step (created 3) [.put [65] 3, .put [66] 1, .put [67] 2]).bind fun t =>
        readFromStart t.queue byPriority 2 5).map (fun r => r.1.map fun e => e.2.priority) =
      some [3, 1, 2] := by
  decide +kernel

end History

end Dta
