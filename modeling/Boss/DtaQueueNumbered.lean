import Boss.DtaQueueConsistent

/-!
# Numbered messages

An entry of the table is used again and again.  To follow a message through the queue it gets the
number under which it was put: `puts` is the list of the messages that were put, and `number` says
which of them an entry holds.

Main results: `Numbered.put` and `Numbered.del`.
-/

namespace Dta

open LinkedChain

/-- A queue with its messages numbered. -/
structure Post where
  queue : Queue
  number : Nat → Nat
  puts : List Message

def Post.created (maxmsgs : Nat) : Post := ⟨createQ maxmsgs, fun _ => 0, []⟩

/-- `DTA_PUTMSG`. -/
def Post.put (s : Post) (message : Message) (priority : Int) : Post :=
  let r := dtaPutMsg s.queue message priority
  if r.1 = .OK then
    { queue := r.2
      number := Function.update s.number (currentmsgn s.queue) s.puts.length
      puts := s.puts ++ [message] }
  else s

structure Numbered (q : Queue) (number : Nat → Nat) (puts : List Message) (ring : List Nat) :
    Prop where
  consistent : Consistent q (fun i => puts.getD (number i) []) ring
  known : ∀ i ∈ ring, number i < puts.length
  distinct : ∀ i ∈ ring, ∀ j ∈ ring, number i = number j → i = j

/-- Message `id` is in the queue. -/
def InQueue (q : Queue) (number : Nat → Nat) (id : Nat) : Prop := ∃ i, q.Live i ∧ number i = id

instance (q : Queue) (number : Nat → Nat) (id : Nat) : Decidable (InQueue q number id) :=
  decidable_of_iff (∃ i < q.maxmsgs + 1, q.Live i ∧ number i = id)
    ⟨fun ⟨i, _, hi⟩ => ⟨i, hi⟩, fun ⟨i, hi⟩ => ⟨i, Nat.lt_succ_of_le hi.1.2.1, hi⟩⟩

/-- What every section keeps, in whatever order they come. -/
structure Post.Wf (maxmsgs : Nat) (s : Post) (ring : List Nat) : Prop where
  numbered : Numbered s.queue s.number s.puts ring
  size : s.queue.maxmsgs = maxmsgs

/-- The message is in the queue. -/
abbrev Post.Has (s : Post) (id : Nat) : Prop := InQueue s.queue s.number id

variable {q : Queue} {number : Nat → Nat} {puts : List Message} {ring : List Nat}

theorem Consistent.congr {content content' : Nat → Message} (h : Consistent q content ring)
    (hsame : ∀ i ∈ ring, content' i = content i) : Consistent q content' ring :=
  { h with stored := fun i hi => (h.stored i hi).trans (hsame i hi).symm }

theorem numbered_createQ (maxmsgs : Nat) (number : Nat → Nat) (puts : List Message) :
    Numbered (createQ maxmsgs) number puts [] where
  consistent := consistent_createQ maxmsgs _
  known := by simp
  distinct := by simp

theorem numbered_dtaEmptyQ (q : Queue) (number : Nat → Nat) (puts : List Message) :
    Numbered (dtaEmptyQ q) number puts [] where
  consistent := consistent_dtaEmptyQ q _
  known := by simp
  distinct := by simp

theorem Numbered.inQueue_iff (h : Numbered q number puts ring) {id : Nat} :
    InQueue q number id ↔ ∃ i ∈ ring, number i = id := by
  simp only [InQueue, h.consistent.live]

/-- The numbers in the queue were given out. -/
theorem Numbered.inQueue_lt (h : Numbered q number puts ring) {id : Nat}
    (hid : InQueue q number id) : id < puts.length := by
  obtain ⟨i, hi, rfl⟩ := h.inQueue_iff.mp hid
  exact h.known i hi

/-- **A message that is put gets the next number.** -/
theorem Numbered.put (h : Numbered q number puts ring) (hroom : q.livmsgs ≠ q.maxmsgs)
    (message : Message) (priority : Int) :
    ∃ pre post t, ring = pre ++ post ∧ insertBefore q priority = headOf 0 post ∧
      dtaPutMsg q message priority = (.OK, t) ∧ t.maxmsgs = q.maxmsgs ∧
      currentmsgn q ∉ ring ∧
      Numbered t (Function.update number (currentmsgn q) puts.length) (puts ++ [message])
        (pre ++ currentmsgn q :: post) := by
  obtain ⟨pre, post, t, rfl, hbefore, hput, hmax, ht⟩ := h.consistent.put hroom message priority
  have hnew : currentmsgn q ∉ pre ++ post := by
    intro hmem
    have hused := ((h.consistent.live _).mp hmem).2.2
    have hfree := (h.consistent.currentmsgn_spec hroom).2.2
    omega
  have hmem : ∀ j, j ∈ pre ++ currentmsgn q :: post ↔ j = currentmsgn q ∨ j ∈ pre ++ post := by
    intro j
    simp only [List.mem_append, List.mem_cons]
    tauto
  have hne : ∀ j ∈ pre ++ post, j ≠ currentmsgn q := fun j hj heq => hnew (heq ▸ hj)
  refine ⟨pre, post, t, rfl, hbefore, hput, hmax, hnew, ht.congr ?_, ?_, ?_⟩
  · intro j hj
    rcases (hmem j).mp hj with rfl | hold
    · simp
    · rw [Function.update_of_ne (hne j hold), Function.update_of_ne (hne j hold)]
      have hlt := h.known j hold
      rw [List.getD_eq_getElem?_getD, List.getD_eq_getElem?_getD, List.getElem?_append_left hlt]
  · intro j hj
    rw [List.length_append, List.length_singleton]
    rcases (hmem j).mp hj with rfl | hold
    · rw [Function.update_self]
      omega
    · rw [Function.update_of_ne (hne j hold)]
      have hlt := h.known j hold
      omega
  · intro j hj k hk heq
    rcases (hmem j).mp hj with hjnew | hjold
    · rcases (hmem k).mp hk with hknew | hkold
      · rw [hjnew, hknew]
      · rw [hjnew, Function.update_self, Function.update_of_ne (hne k hkold)] at heq
        have hlt := h.known k hkold
        omega
    · rcases (hmem k).mp hk with hknew | hkold
      · rw [hknew, Function.update_self, Function.update_of_ne (hne j hjold)] at heq
        have hlt := h.known j hjold
        omega
      · rw [Function.update_of_ne (hne j hjold), Function.update_of_ne (hne k hkold)] at heq
        exact h.distinct j hjold k hkold heq

/-- The messages in the queue after one was put. -/
theorem Numbered.inQueue_put (h : Numbered q number puts ring) {pre post : List Nat} {cur : Nat}
    {t : Queue} {message : Message} (hring : ring = pre ++ post) (hnew : cur ∉ ring)
    (ht : Numbered t (Function.update number cur puts.length) (puts ++ [message])
      (pre ++ cur :: post)) {id : Nat} :
    InQueue t (Function.update number cur puts.length) id ↔
      InQueue q number id ∨ id = puts.length := by
  subst hring
  rw [ht.inQueue_iff, h.inQueue_iff]
  constructor
  · rintro ⟨i, hi, rfl⟩
    by_cases hcur : i = cur
    · right
      rw [hcur, Function.update_self]
    · left
      refine ⟨i, ?_, (Function.update_of_ne hcur _ _).symm⟩
      simp only [List.mem_append, List.mem_cons] at hi ⊢
      tauto
  · rintro (⟨i, hi, rfl⟩ | rfl)
    · have hne : i ≠ cur := fun heq => hnew (heq ▸ hi)
      refine ⟨i, ?_, Function.update_of_ne hne _ _⟩
      simp only [List.mem_append, List.mem_cons] at hi ⊢
      tauto
    · exact ⟨cur, by simp, Function.update_self _ _ _⟩

/-- **What a put can do**: the queue is full, or the message is in it under the next number.  The
messages that are in the queue stay where they are. -/
theorem Post.put_spec {maxmsgs : Nat} {s : Post} (h : s.Wf maxmsgs ring) (message : Message)
    (priority : Int) :
    s.put message priority = s ∨
      (∃ ring', (s.put message priority).Wf maxmsgs ring' ∧
        ∀ i ∈ ring, i ∈ ring' ∧ (s.put message priority).number i = s.number i) ∧
      (s.put message priority).puts = s.puts ++ [message] ∧
      ∀ id, (s.put message priority).Has id ↔ s.Has id ∨ id = s.puts.length := by
  by_cases hroom : s.queue.livmsgs = s.queue.maxmsgs
  · left
    have hfull : dtaPutMsg s.queue message priority = (.QUEUE_FULL, s.queue) := by
      rw [dtaPutMsg, if_pos hroom]
    simp [put, hfull]
  · right
    obtain ⟨pre, post, q, hring, -, hput, hmax, hnew, hnum⟩ :=
      h.numbered.put hroom message priority
    have hresult : s.put message priority = ⟨q, Function.update s.number (currentmsgn s.queue)
        s.puts.length, s.puts ++ [message]⟩ := by
      simp only [Post.put, hput, if_true]
    rw [hresult]
    refine ⟨⟨_, ⟨hnum, hmax.trans h.size⟩, fun i hi => ⟨?_, ?_⟩⟩, rfl,
      fun id => h.numbered.inQueue_put hring hnew hnum⟩
    · rw [hring] at hi
      simp only [List.mem_append, List.mem_cons] at hi ⊢
      tauto
    · have hne : i ≠ currentmsgn s.queue := fun heq => hnew (heq ▸ hi)
      exact Function.update_of_ne hne _ _

theorem Post.created_wf (maxmsgs : Nat) : (Post.created maxmsgs).Wf maxmsgs [] :=
  ⟨numbered_createQ maxmsgs _ _, rfl⟩

/-- **A message that is deleted is gone**, and no other one. -/
theorem Numbered.del {pre post : List Nat} {msgn : Nat}
    (h : Numbered q number puts (pre ++ msgn :: post)) :
    ∃ t, dtaDelMsg q msgn = some (.OK, t) ∧ t.maxmsgs = q.maxmsgs ∧
      Numbered t number puts (pre ++ post) ∧
      ∀ id, InQueue t number id ↔ InQueue q number id ∧ id ≠ number msgn := by
  obtain ⟨t, hdel, hmax, ht⟩ := h.consistent.del
  have hrest : ∀ i, i ∈ pre ++ post ↔ i ∈ pre ++ msgn :: post ∧ i ≠ msgn :=
    fun i => mem_without_iff h.consistent.links.nodup
  have hsub : ∀ i, i ∈ pre ++ post → i ∈ pre ++ msgn :: post := fun i hi => ((hrest i).mp hi).1
  have hnum : Numbered t number puts (pre ++ post) :=
    ⟨ht, fun i hi => h.known i (hsub i hi),
      fun i hi j hj => h.distinct i (hsub i hi) j (hsub j hj)⟩
  refine ⟨t, hdel, hmax, hnum, fun id => ?_⟩
  rw [hnum.inQueue_iff, h.inQueue_iff]
  constructor
  · rintro ⟨i, hi, rfl⟩
    refine ⟨⟨i, hsub i hi, rfl⟩, fun heq => ((hrest i).mp hi).2 ?_⟩
    exact h.distinct i (hsub i hi) msgn (by simp) heq
  · rintro ⟨⟨i, hi, rfl⟩, hne⟩
    have hother : i ≠ msgn := fun heq => hne (heq ▸ rfl)
    exact ⟨i, (hrest i).mpr ⟨hi, hother⟩, rfl⟩

/-- An entry of the table is deleted with its message, or it is found dead. -/
theorem Numbered.del_or (h : Numbered q number puts ring) {msgn : Nat} (hpos : 1 ≤ msgn)
    (hmax : msgn ≤ q.maxmsgs) :
    (q.flag msgn = 0 ∧ dtaDelMsg q msgn = some (.MESSAGE_DIED, q)) ∨
      (q.Live msgn ∧ ∃ t rest, dtaDelMsg q msgn = some (.OK, t) ∧ t.maxmsgs = q.maxmsgs ∧
        Numbered t number puts rest ∧
        ∀ id, InQueue t number id ↔ InQueue q number id ∧ id ≠ number msgn) := by
  by_cases hflag : q.flag msgn = 0
  · exact Or.inl ⟨hflag, by rw [dtaDelMsg, if_pos hflag]⟩
  · have hlive : q.Live msgn := ⟨hpos, hmax, (h.consistent.flags msgn hmax).resolve_left hflag⟩
    obtain ⟨pre, post, rfl⟩ := List.append_of_mem ((h.consistent.live msgn).mpr hlive)
    obtain ⟨t, hdel, hmax', ht, hgone⟩ := h.del
    exact Or.inr ⟨hlive, t, pre ++ post, hdel, hmax', ht, hgone⟩

end Dta
