import Boss.DtaQueue
import Mathlib.Data.Finset.Card

/-!
# The queue keeps its order

`Consistent q content ring` says everything about a queue file at once: the entries in use are the
positions of `ring`, in the order in which they are read by priority, the window ends at the first
and at the last of them, and the bytes of each are those of the message `content` of it.

Main results: `Consistent.put`, `Consistent.del` and `Consistent.read`.
-/

namespace Dta

open LinkedChain

/-- The bytes of a message. -/
abbrev Message := List UInt8

structure Consistent (q : Queue) (content : Nat → Message) (ring : List Nat) : Prop where
  links : Ring q.next q.fore 0 ring
  live : ∀ i, i ∈ ring ↔ q.Live i
  flags : ∀ i ≤ q.maxmsgs, q.flag i = 0 ∨ q.flag i = 1
  centre : q.flag 0 = 0
  livmsgs : q.livmsgs = ring.length
  idle : ring = [] → q.queuehead.firstmsgn = 1 ∧ q.queuehead.lastmsgn = 0
  window : ring ≠ [] → q.queuehead.firstmsgn ∈ ring ∧ q.queuehead.lastmsgn ∈ ring
  inside : ∀ i ∈ ring, q.queuehead.firstmsgn ≤ i ∧ i ≤ q.queuehead.lastmsgn
  size : tablelen q.maxmsgs ≤ q.st_size
  range : ∀ i ∈ ring, tablelen q.maxmsgs ≤ (q.queuetable i).offset ∧
    (q.queuetable i).offset + (q.queuetable i).msglen ≤ q.st_size
  apart : ∀ i ∈ ring, ∀ j ∈ ring, i ≠ j →
    (q.queuetable i).offset + (q.queuetable i).msglen ≤ (q.queuetable j).offset ∨
      (q.queuetable j).offset + (q.queuetable j).msglen ≤ (q.queuetable i).offset
  stored : ∀ i ∈ ring, q.stored i = content i

variable {q : Queue} {content : Nat → Message} {ring : List Nat}

/-! ## Nothing in it -/

theorem consistent_createQ (maxmsgs : Nat) (content : Nat → Message) :
    Consistent (createQ maxmsgs) content [] where
  links := ring_nil rfl rfl
  live := by
    intro i
    simp [Queue.Live, Queue.flag, createQ, emptyEntry]
  flags := fun _ _ => Or.inl rfl
  centre := rfl
  livmsgs := rfl
  idle := fun _ => ⟨rfl, rfl⟩
  window := fun h => absurd rfl h
  inside := by simp
  size := le_rfl
  range := by simp
  apart := by simp
  stored := by simp

theorem consistent_dtaEmptyQ (q : Queue) (content : Nat → Message) :
    Consistent (dtaEmptyQ q) content [] where
  links := ring_nil (by simp [Queue.next, dtaEmptyQ, emptyEntry])
    (by simp [Queue.fore, dtaEmptyQ, emptyEntry])
  live := by
    intro i
    simp only [List.not_mem_nil, false_iff]
    rintro ⟨-, hle, hflag⟩
    have hle' : i ≤ q.maxmsgs := hle
    simp [Queue.flag, dtaEmptyQ, hle', emptyEntry] at hflag
  flags := by
    intro i hi
    have hi' : i ≤ q.maxmsgs := hi
    left
    simp [Queue.flag, dtaEmptyQ, hi', emptyEntry]
  centre := by simp [Queue.flag, dtaEmptyQ, emptyEntry]
  livmsgs := rfl
  idle := fun _ => ⟨rfl, rfl⟩
  window := fun h => absurd rfl h
  inside := by simp
  size := le_rfl
  range := by simp
  apart := by simp
  stored := by simp

/-! ## The entry for a new message -/

theorem Consistent.length_le (h : Consistent q content ring) : ring.length ≤ q.maxmsgs := by
  have hsub : ring ⊆ List.range' 1 q.maxmsgs := by
    intro i hi
    obtain ⟨hpos, hle, -⟩ := (h.live i).mp hi
    simp
    omega
  have hle := (h.links.nodup.subperm hsub).length_le
  simpa using hle

/-- A free entry is found as long as the table is not full, and it is outside of the window unless
the window reaches to the end. -/
theorem Consistent.currentmsgn_spec (h : Consistent q content ring) (hroom : q.livmsgs ≠ q.maxmsgs) :
    1 ≤ currentmsgn q ∧ currentmsgn q ≤ q.maxmsgs ∧ q.flag (currentmsgn q) = 0 := by
  have hlen := h.length_le
  have hlt : ring.length < q.maxmsgs := by
    have hcount := h.livmsgs
    omega
  unfold currentmsgn
  by_cases hend : q.queuehead.lastmsgn = q.maxmsgs
  · rw [if_pos hend]
    cases hfind : (List.range' 1 (q.maxmsgs - 1)).find? fun i => q.flag i = 0 with
    | some i =>
        have hflag : q.flag i = 0 := by simpa using List.find?_some hfind
        have hmem := List.mem_of_find?_eq_some hfind
        simp at hmem
        simp only [Option.getD_some]
        exact ⟨by omega, by omega, hflag⟩
    | none =>
        -- then all entries are in use, more than there are messages
        exfalso
        have hall : List.range' 1 q.maxmsgs ⊆ ring := by
          intro i hi
          simp at hi
          by_cases hlast : i = q.maxmsgs
          · have hne : ring ≠ [] := by
              intro hnil
              have hzero := (h.idle hnil).2
              omega
            rw [hlast, ← hend]
            exact (h.window hne).2
          · have hnone := List.find?_eq_none.mp hfind i (by simp; omega)
            refine (h.live i).mpr ⟨by omega, by omega, ?_⟩
            exact (h.flags i (by omega)).resolve_left (by simpa using hnone)
        have hnodup : (List.range' 1 q.maxmsgs).Nodup := List.nodup_range'
        have hle := (hnodup.subperm hall).length_le
        simp at hle
        omega
  · rw [if_neg hend]
    have hlast : q.queuehead.lastmsgn ≤ q.maxmsgs := by
      by_cases hne : ring = []
      · rw [(h.idle hne).2]
        omega
      · exact ((h.live _).mp (h.window hne).2).2.1
    refine ⟨by omega, by omega, ?_⟩
    refine (h.flags _ (by omega)).resolve_right fun hflag => ?_
    have hmem := (h.live (q.queuehead.lastmsgn + 1)).mpr ⟨by omega, by omega, hflag⟩
    have hle := (h.inside _ hmem).2
    omega

/-! ## Putting -/

/-- The entry in front of which a message is linked, as a place in the ring. -/
theorem Consistent.insertBefore_spec (h : Consistent q content ring) (priority : Int) :
    ∃ pre post, ring = pre ++ post ∧ insertBefore q priority = headOf 0 post ∧
      (post = [] ∨ pre = []) := by
  unfold insertBefore
  by_cases hle : priority ≤ (q.queuetable (q.next 0)).priority
  · rw [if_pos hle]
    exact ⟨ring, [], by simp, rfl, Or.inl rfl⟩
  · rw [if_neg hle]
    exact ⟨[], ring, rfl, h.links.first, Or.inr rfl⟩

/-- What `DTA_PUTMSG` writes. -/
theorem dtaPutMsg_spec {priority : Int} (message : Message) {cur i : Nat}
    (hroom : q.livmsgs ≠ q.maxmsgs) (hcur : currentmsgn q = cur)
    (hi : insertBefore q priority = i) (hne : cur ≠ i) (hhead : cur ≠ q.next 0) :
    ∃ t, dtaPutMsg q message priority = (.OK, t) ∧
      t.next = Function.update (Function.update q.next cur i) (q.fore i) cur ∧
      t.fore = Function.update (Function.update q.fore cur (q.fore i)) i cur ∧
      QueueTable.message ∘ t.queuetable = Function.update (QueueTable.message ∘ q.queuetable) cur
        (1, q.st_size, message.length, priority) ∧
      t.queuehead = { q.queuehead with
        livmsgs := q.livmsgs + 1
        firstmsgn := if cur < q.queuehead.firstmsgn then cur else q.queuehead.firstmsgn
        lastmsgn := if cur > q.queuehead.lastmsgn then cur else q.queuehead.lastmsgn } ∧
      t.st_size = q.st_size + message.length ∧ t.byte = (append q message).byte := by
  subst hcur
  unfold dtaPutMsg
  rw [if_neg hroom]
  refine ⟨_, rfl, ?_⟩
  unfold enter
  dsimp only
  generalize hcur : currentmsgn q = cur at *
  generalize htable : Function.update q.queuetable cur { q.queuetable cur with
    flag := 1, offset := q.st_size, msglen := message.length, priority := priority } = table
  have hnext : QueueTable.nextprioidx ∘ table = q.next := by
    rw [← htable, Function.comp_update]
    exact Function.update_eq_self cur q.next
  have hfore : QueueTable.foreprioidx ∘ table = q.fore := by
    rw [← htable, Function.comp_update]
    exact Function.update_eq_self cur q.fore
  have hmessage : QueueTable.message ∘ table = Function.update (QueueTable.message ∘ q.queuetable)
      cur (1, q.st_size, message.length, priority) := by
    rw [← htable, Function.comp_update]
    rfl
  have hother : ∀ j, j ≠ cur → table j = q.queuetable j := by
    intro j hj
    rw [← htable, Function.update_of_ne hj]
  have hbefore : insertBefore { q with queuetable := table } priority = i := by
    have hfirst : (table 0).nextprioidx = q.next 0 := congrFun hnext 0
    have hsame : (table (table 0).nextprioidx).priority = (q.queuetable (q.next 0)).priority := by
      rw [hfirst, hother _ hhead.symm]
    rw [← hi]
    refine ite_congr ?_ (fun _ => rfl) fun _ => hfirst
    exact congrArg (priority ≤ ·) hsame
  simp only [hbefore]
  have hforei : (table i).foreprioidx = q.fore i := congrFun hfore i
  have hforei' : (setNext (setFore table cur (table i).foreprioidx) cur i i).foreprioidx =
      q.fore i := by
    have hcomp : QueueTable.foreprioidx ∘
        setNext (setFore table cur (table i).foreprioidx) cur i =
        Function.update q.fore cur (q.fore i) := by
      rw [fore_setNext, fore_setFore, hfore, hforei]
    have happly := congrFun hcomp i
    rwa [Function.update_of_ne hne.symm] at happly
  refine ⟨?_, ?_, ?_, rfl, rfl, rfl⟩
  · simp only [Queue.next, append, next_setFore, next_setNext, hforei']
    rw [hnext]
    rfl
  · simp only [Queue.fore, append, fore_setFore, fore_setNext, hforei]
    rw [hfore]
    rfl
  · simp only [append, message_setFore, message_setNext]
    exact hmessage

/-- The bytes behind the end are those of the message. -/
theorem append_stored (message : Message) :
    ((List.range message.length).map fun k => (append q message).byte (q.st_size + k)) = message := by
  refine List.ext_getElem (by simp) fun k hk _ => ?_
  have hlt : k < message.length := by simpa using hk
  simp [append, hlt]

theorem append_byte {message : Message} {p : Nat} (hp : p < q.st_size) :
    (append q message).byte p = q.byte p := by
  simp only [append]
  rw [if_neg (by omega)]

/-- The new window holds the new entry as well as those from before. -/
theorem Consistent.window_put (h : Consistent q content ring) {cur first last : Nat}
    (hcur : currentmsgn q = cur) (hroom : q.livmsgs ≠ q.maxmsgs)
    (hfirst : (if cur < q.queuehead.firstmsgn then cur else q.queuehead.firstmsgn) = first)
    (hlast : (if cur > q.queuehead.lastmsgn then cur else q.queuehead.lastmsgn) = last) :
    (first = cur ∨ first ∈ ring) ∧ (last = cur ∨ last ∈ ring) ∧ first ≤ cur ∧ cur ≤ last ∧
      ∀ i ∈ ring, first ≤ i ∧ i ≤ last := by
  refine ⟨?_, ?_, by split_ifs at hfirst <;> omega, by split_ifs at hlast <;> omega, fun i hi => ?_⟩
  · by_cases hnil : ring = []
    · obtain ⟨hone, hzero⟩ := h.idle hnil
      have hlen := h.livmsgs
      rw [hnil, List.length_nil] at hlen
      -- the first message of an empty queue gets the first entry
      have hcurOne : cur = 1 := by rw [← hcur, currentmsgn, if_neg (by omega), hzero]
      left
      split_ifs at hfirst <;> omega
    · have hmem := (h.window hnil).1
      split_ifs at hfirst
      · exact Or.inl hfirst.symm
      · exact Or.inr (hfirst ▸ hmem)
  · by_cases hnil : ring = []
    · obtain ⟨hone, hzero⟩ := h.idle hnil
      have hpos := (h.currentmsgn_spec hroom).1
      left
      split_ifs at hlast <;> omega
    · have hmem := (h.window hnil).2
      split_ifs at hlast
      · exact Or.inl hlast.symm
      · exact Or.inr (hlast ▸ hmem)
  · have hin := h.inside i hi
    split_ifs at hfirst hlast <;> omega

/-- The table and the bytes with a new message at the end of the queue. -/
structure Entered (q t : Queue) (cur : Nat) (message : Message) : Prop where
  entry : (t.queuetable cur).flag = 1 ∧ (t.queuetable cur).offset = q.st_size ∧
    (t.queuetable cur).msglen = message.length
  other : ∀ j, j ≠ cur → (t.queuetable j).flag = q.flag j ∧
    (t.queuetable j).offset = (q.queuetable j).offset ∧
    (t.queuetable j).msglen = (q.queuetable j).msglen
  size : t.st_size = q.st_size + message.length
  byte : t.byte = (append q message).byte

section Entered

variable {t : Queue} {cur : Nat} {message : Message}

theorem entered_of_message {priority : Int}
    (hmessage : QueueTable.message ∘ t.queuetable =
      Function.update (QueueTable.message ∘ q.queuetable) cur
        (1, q.st_size, message.length, priority))
    (hsize : t.st_size = q.st_size + message.length) (hbyte : t.byte = (append q message).byte) :
    Entered q t cur message where
  entry := by
    have hsame := congrFun hmessage cur
    rw [Function.update_self] at hsame
    simp only [Function.comp_apply, QueueTable.message, Prod.mk.injEq] at hsame
    exact ⟨hsame.1, hsame.2.1, hsame.2.2.1⟩
  other := by
    intro j hj
    have hsame := congrFun hmessage j
    rw [Function.update_of_ne hj] at hsame
    simp only [Function.comp_apply, QueueTable.message, Prod.mk.injEq] at hsame
    exact ⟨hsame.1, hsame.2.1, hsame.2.2.1⟩
  size := hsize
  byte := hbyte

/-- The new message lies behind the others. -/
theorem Entered.range (ht : Entered q t cur message) (h : Consistent q content ring)
    (hnew : cur ∉ ring) {j : Nat} (hj : j = cur ∨ j ∈ ring) :
    tablelen q.maxmsgs ≤ (t.queuetable j).offset ∧
      (t.queuetable j).offset + (t.queuetable j).msglen ≤ t.st_size := by
  rw [ht.size]
  rcases hj with rfl | hj
  · rw [ht.entry.2.1, ht.entry.2.2]
    exact ⟨h.size, le_rfl⟩
  · obtain ⟨-, hoffset, hlen⟩ := ht.other j fun heq => hnew (heq ▸ hj)
    have hrange := h.range j hj
    rw [hoffset, hlen]
    omega

theorem Entered.apart (ht : Entered q t cur message) (h : Consistent q content ring)
    (hnew : cur ∉ ring) {j k : Nat} (hj : j = cur ∨ j ∈ ring) (hk : k = cur ∨ k ∈ ring)
    (hjk : j ≠ k) :
    (t.queuetable j).offset + (t.queuetable j).msglen ≤ (t.queuetable k).offset ∨
      (t.queuetable k).offset + (t.queuetable k).msglen ≤ (t.queuetable j).offset := by
  have hne : ∀ i ∈ ring, i ≠ cur := fun i hi heq => hnew (heq ▸ hi)
  rcases hj with rfl | hjold
  · have hkold := hk.resolve_left hjk.symm
    obtain ⟨-, hoffset, hlen⟩ := ht.other k (hne k hkold)
    rw [ht.entry.2.1, ht.entry.2.2, hoffset, hlen]
    exact Or.inr (h.range k hkold).2
  · obtain ⟨-, hoffset, hlen⟩ := ht.other j (hne j hjold)
    rcases hk with rfl | hkold
    · rw [ht.entry.2.1, ht.entry.2.2, hoffset, hlen]
      exact Or.inl (h.range j hjold).2
    · obtain ⟨-, hoffset', hlen'⟩ := ht.other k (hne k hkold)
      rw [hoffset, hlen, hoffset', hlen']
      exact h.apart j hjold k hkold hjk

/-- The bytes of the others are where they were. -/
theorem Entered.stored (ht : Entered q t cur message) (h : Consistent q content ring)
    (hnew : cur ∉ ring) {j : Nat} (hj : j = cur ∨ j ∈ ring) :
    t.stored j = Function.update content cur message j := by
  rcases hj with rfl | hj
  · rw [Function.update_self, Queue.stored, ht.entry.2.1, ht.entry.2.2, ht.byte]
    exact append_stored message
  · have hne : j ≠ cur := fun heq => hnew (heq ▸ hj)
    obtain ⟨-, hoffset, hlen⟩ := ht.other j hne
    rw [Function.update_of_ne hne, ← h.stored j hj, Queue.stored, Queue.stored, hoffset, hlen,
      ht.byte]
    refine List.map_congr_left fun k hk => append_byte ?_
    have hrange := (h.range j hj).2
    have hlt := List.mem_range.mp hk
    omega

end Entered

/-- **A message that is put takes a free entry and leaves the others as they are.** -/
theorem Consistent.put (h : Consistent q content ring) (hroom : q.livmsgs ≠ q.maxmsgs)
    (message : Message) (priority : Int) :
    ∃ pre post t, ring = pre ++ post ∧ insertBefore q priority = headOf 0 post ∧
      dtaPutMsg q message priority = (.OK, t) ∧ t.maxmsgs = q.maxmsgs ∧
      Consistent t (Function.update content (currentmsgn q) message)
        (pre ++ currentmsgn q :: post) := by
  obtain ⟨hpos, hmax, hfree⟩ := h.currentmsgn_spec hroom
  obtain ⟨pre, post, rfl, hi, -⟩ := h.insertBefore_spec priority
  generalize hcur : currentmsgn q = cur at *
  have hnew : cur ∉ pre ++ post := by
    intro hmem
    have hflag := ((h.live cur).mp hmem).2.2
    omega
  have hlinked : ∀ j, j = 0 ∨ j ∈ pre ++ post → cur ≠ j := by
    rintro j (rfl | hj) rfl
    · omega
    · exact hnew hj
  have hhead : ∀ l ⊆ pre ++ post, headOf 0 l = 0 ∨ headOf 0 l ∈ pre ++ post := by
    intro l hl
    by_cases hzero : headOf 0 l = 0
    · exact Or.inl hzero
    · exact Or.inr (hl (headOf_mem hzero))
  obtain ⟨t, hput, hnext, hfore, hmessage, hqueuehead, hsize, hbyte⟩ := dtaPutMsg_spec
    message hroom hcur hi (hlinked _ (hhead post (List.subset_append_right _ _)))
    (by
      rw [h.links.first]
      exact hlinked _ (hhead _ (List.Subset.refl _)))
  refine ⟨pre, post, t, rfl, hi, hput, by rw [Queue.maxmsgs, hqueuehead], ?_⟩
  have ht := entered_of_message hmessage hsize hbyte
  have hmem : ∀ j, j ∈ pre ++ cur :: post ↔ j = cur ∨ j ∈ pre ++ post := by
    intro j
    simp only [List.mem_append, List.mem_cons]
    tauto
  have hmaxmsgs : t.maxmsgs = q.maxmsgs := by rw [Queue.maxmsgs, hqueuehead]
  obtain ⟨hfirst, hlast, hbefore, hbehind, hinside⟩ := h.window_put hcur hroom rfl rfl
  constructor
  case links =>
    rw [hnext, hfore]
    exact h.links.link (by omega) hnew rfl
  case live =>
    intro j
    rw [hmem, Queue.Live, hmaxmsgs, Queue.flag]
    by_cases hj : j = cur
    · subst hj
      simp [ht.entry.1, hmax]
      omega
    · rw [(ht.other j hj).1]
      simp only [hj, false_or]
      exact h.live j
  case flags =>
    intro j hle
    rw [hmaxmsgs] at hle
    by_cases hj : j = cur
    · exact Or.inr (hj ▸ ht.entry.1)
    · rw [Queue.flag, (ht.other j hj).1]
      exact h.flags j hle
  case centre =>
    rw [Queue.flag, (ht.other 0 (by omega)).1]
    exact h.centre
  case livmsgs =>
    rw [Queue.livmsgs, hqueuehead]
    have hcount := h.livmsgs
    simp only [List.length_append, List.length_cons] at hcount ⊢
    omega
  case idle => simp
  case window =>
    intro _
    rw [hqueuehead, hmem, hmem]
    exact ⟨hfirst, hlast⟩
  case inside =>
    intro j hj
    rw [hqueuehead]
    rcases (hmem j).mp hj with rfl | hj
    · exact ⟨hbefore, hbehind⟩
    · exact hinside j hj
  case size =>
    rw [hmaxmsgs, hsize]
    have hle := h.size
    omega
  case range =>
    intro j hj
    rw [hmaxmsgs]
    exact ht.range h hnew ((hmem j).mp hj)
  case apart =>
    intro j hj k hk hjk
    exact ht.apart h hnew ((hmem j).mp hj) ((hmem k).mp hk) hjk
  case stored =>
    intro j hj
    exact ht.stored h hnew ((hmem j).mp hj)

/-! ## Deleting -/

/-- The scan upwards ends at the next entry in use. -/
theorem scanUp_spec {t : Queue} {j : Nat} (hj : t.flag j ≠ 0) :
    ∀ rounds i : Nat, i < j → j ≤ i + rounds →
      ∃ k, scanUp t rounds i = some k ∧ k ≤ j ∧ t.flag k ≠ 0 ∧ i < k ∧
        ∀ m, i < m → m < k → t.flag m = 0 := by
  intro rounds
  induction rounds with
  | zero =>
      intro i hlt hle
      omega
  | succ rounds ih =>
      intro i hlt hle
      unfold scanUp
      by_cases hfree : t.flag (i + 1) = 0
      · rw [if_pos hfree]
        have hne : i + 1 ≠ j := fun heq => hj (heq ▸ hfree)
        obtain ⟨k, hk, hkj, hused, hik, hbetween⟩ := ih (i + 1) (by omega) (by omega)
        refine ⟨k, hk, hkj, hused, by omega, fun m him hmk => ?_⟩
        by_cases hm : m = i + 1
        · exact hm ▸ hfree
        · exact hbetween m (by omega) hmk
      · rw [if_neg hfree]
        exact ⟨i + 1, rfl, hlt, hfree, by omega, fun m him hmk => by omega⟩

theorem scanDown_spec {t : Queue} {j : Nat} (hj : t.flag j ≠ 0) :
    ∀ {i : Nat}, j < i →
      ∃ k, scanDown t i = some k ∧ j ≤ k ∧ t.flag k ≠ 0 ∧ k < i ∧
        ∀ m, k < m → m < i → t.flag m = 0 := by
  intro i
  induction i with
  | zero =>
      intro hlt
      omega
  | succ i ih =>
      intro hlt
      unfold scanDown
      by_cases hfree : t.flag i = 0
      · rw [if_pos hfree]
        have hne : i ≠ j := fun heq => hj (heq ▸ hfree)
        obtain ⟨k, hk, hjk, hused, hki, hbetween⟩ := ih (by omega)
        refine ⟨k, hk, hjk, hused, by omega, fun m hkm hmi => ?_⟩
        by_cases hm : m = i
        · exact hm ▸ hfree
        · exact hbetween m hkm (by omega)
      · rw [if_neg hfree]
        exact ⟨i, rfl, by omega, hfree, by omega, fun m hkm hmi => by omega⟩

/-- What an entry says of its bytes. -/
def QueueTable.extent (e : QueueTable) : Nat × Nat := (e.offset, e.msglen)

/-- What unlinking writes. -/
theorem unlinkEntry_spec {msgn : Nat} (hself : q.fore msgn ≠ msgn) :
    (unlinkEntry q msgn).next = Function.update q.next (q.fore msgn) (q.next msgn) ∧
      (unlinkEntry q msgn).fore = Function.update q.fore (q.next msgn) (q.fore msgn) ∧
      (unlinkEntry q msgn).flag = Function.update q.flag msgn 0 ∧
      QueueTable.extent ∘ (unlinkEntry q msgn).queuetable = QueueTable.extent ∘ q.queuetable := by
  have hnext : (setNext q.queuetable (q.fore msgn) (q.next msgn) msgn).nextprioidx =
      q.next msgn := by
    have hat := congrFun (next_setNext q.queuetable (q.fore msgn) (q.next msgn)) msgn
    rwa [Function.update_of_ne hself.symm] at hat
  have hfore : (setNext q.queuetable (q.fore msgn) (q.next msgn) msgn).foreprioidx =
      q.fore msgn :=
    congrFun (fore_setNext q.queuetable (q.fore msgn) (q.next msgn)) msgn
  have htable : (unlinkEntry q msgn).queuetable =
      let table := setFore (setNext q.queuetable (q.fore msgn) (q.next msgn)) (q.next msgn)
        (q.fore msgn)
      Function.update table msgn { table msgn with flag := 0 } := by
    have hraw : (unlinkEntry q msgn).queuetable =
        let linked := setNext q.queuetable (q.fore msgn) (q.next msgn)
        let table := setFore linked (linked msgn).nextprioidx (linked msgn).foreprioidx
        Function.update table msgn { table msgn with flag := 0 } := rfl
    rw [hraw]
    simp only [hnext, hfore]
  have hkeep : ∀ {α : Type} (f : QueueTable → α), (∀ e v, f { e with flag := v } = f e) →
      ∀ table : Entries, f ∘ Function.update table msgn { table msgn with flag := 0 } =
        f ∘ table := by
    intro α f hf table
    rw [Function.comp_update, hf]
    exact Function.update_eq_self msgn (f ∘ table)
  refine ⟨?_, ?_, ?_, ?_⟩
  · rw [Queue.next, htable, hkeep _ fun _ _ => rfl, next_setFore, next_setNext]
    rfl
  · rw [Queue.fore, htable, hkeep _ fun _ _ => rfl, fore_setFore, fore_setNext]
    rfl
  · have hflag : (unlinkEntry q msgn).flag = QueueTable.flag ∘ (unlinkEntry q msgn).queuetable :=
      rfl
    rw [hflag, htable, Function.comp_update, setFore_same _ fun _ _ => rfl,
      setNext_same _ fun _ _ => rfl]
    rfl
  · rw [htable, hkeep _ fun _ _ => rfl, setFore_same _ fun _ _ => rfl,
      setNext_same _ fun _ _ => rfl]

/-- The new window holds what remains, from the first to the last of it. -/
theorem Consistent.window_after (h : Consistent q content ring) {msgn : Nat} {rest : List Nat}
    {t : Queue} (hrest : ∀ i, i ∈ rest ↔ i ∈ ring ∧ i ≠ msgn) (hmsgn : msgn ∈ ring)
    (hne : rest ≠ []) (hflag : t.flag = Function.update q.flag msgn 0) :
    ∃ first last,
      (if msgn = q.queuehead.firstmsgn then scanUp t q.maxmsgs msgn
        else some q.queuehead.firstmsgn) = some first ∧
      (if msgn = q.queuehead.lastmsgn then scanDown t msgn
        else some q.queuehead.lastmsgn) = some last ∧
      first ∈ rest ∧ last ∈ rest ∧ ∀ i ∈ rest, first ≤ i ∧ i ≤ last := by
  obtain ⟨x, hx⟩ := List.exists_mem_of_ne_nil rest hne
  have hring : ring ≠ [] := List.ne_nil_of_mem hmsgn
  obtain ⟨hfirstmem, hlastmem⟩ := h.window hring
  have hused : ∀ i, i ≤ q.maxmsgs → i ≠ 0 → (t.flag i ≠ 0 ↔ i ∈ rest) := by
    intro i hi hpos
    rw [hrest, h.live, hflag, Function.update_apply]
    by_cases heq : i = msgn
    · simp [heq]
    · rw [if_neg heq]
      have hbit := h.flags i hi
      constructor
      · exact fun hflagi => ⟨⟨by omega, hi, hbit.resolve_left hflagi⟩, heq⟩
      · rintro ⟨⟨-, -, hone⟩, -⟩
        omega
  have hlive : ∀ i ∈ rest, 1 ≤ i ∧ i ≤ q.maxmsgs := by
    intro i hi
    obtain ⟨hpos, hle, -⟩ := (h.live i).mp ((hrest i).mp hi).1
    exact ⟨hpos, hle⟩
  have hin : ∀ i ∈ rest, q.queuehead.firstmsgn ≤ i ∧ i ≤ q.queuehead.lastmsgn ∧ i ≠ msgn :=
    fun i hi => ⟨(h.inside i ((hrest i).mp hi).1).1, (h.inside i ((hrest i).mp hi).1).2,
      ((hrest i).mp hi).2⟩
  have hup : ∃ first, (if msgn = q.queuehead.firstmsgn then scanUp t q.maxmsgs msgn
      else some q.queuehead.firstmsgn) = some first ∧ first ∈ rest ∧ ∀ i ∈ rest, first ≤ i := by
    by_cases hfirst : msgn = q.queuehead.firstmsgn
    · rw [if_pos hfirst]
      obtain ⟨hpos, hle⟩ := hlive x hx
      have hxflag : t.flag x ≠ 0 := (hused x hle (by omega)).mpr hx
      have hbeyond := hin x hx
      obtain ⟨k, hk, hkx, hkflag, hlt, hbetween⟩ :=
        scanUp_spec hxflag q.maxmsgs msgn (by omega) (by omega)
      refine ⟨k, hk, (hused k (by omega) (by omega)).mp hkflag, fun i hi => ?_⟩
      by_contra hlow
      have hini := hin i hi
      have hfree := hbetween i (by omega) (by omega)
      obtain ⟨hpos', hle'⟩ := hlive i hi
      exact (hused i hle' (by omega)).mpr hi hfree
    · rw [if_neg hfirst]
      exact ⟨_, rfl, (hrest _).mpr ⟨hfirstmem, fun heq => hfirst heq.symm⟩,
        fun i hi => (hin i hi).1⟩
  have hdown : ∃ last, (if msgn = q.queuehead.lastmsgn then scanDown t msgn
      else some q.queuehead.lastmsgn) = some last ∧ last ∈ rest ∧ ∀ i ∈ rest, i ≤ last := by
    by_cases hlast : msgn = q.queuehead.lastmsgn
    · rw [if_pos hlast]
      obtain ⟨hpos, hle⟩ := hlive x hx
      have hxflag : t.flag x ≠ 0 := (hused x hle (by omega)).mpr hx
      have hbelow := hin x hx
      have hmax := ((h.live msgn).mp hmsgn).2.1
      obtain ⟨k, hk, hxk, hkflag, hlt, hbetween⟩ := scanDown_spec hxflag (i := msgn) (by omega)
      refine ⟨k, hk, (hused k (by omega) (by omega)).mp hkflag, fun i hi => ?_⟩
      by_contra hhigh
      have hini := hin i hi
      have hfree := hbetween i (by omega) (by omega)
      obtain ⟨hpos', hle'⟩ := hlive i hi
      exact (hused i hle' (by omega)).mpr hi hfree
    · rw [if_neg hlast]
      exact ⟨_, rfl, (hrest _).mpr ⟨hlastmem, fun heq => hlast heq.symm⟩,
        fun i hi => (hin i hi).2.1⟩
  obtain ⟨first, hfirst, hfirst', hmin⟩ := hup
  obtain ⟨last, hlast, hlast', hmax⟩ := hdown
  exact ⟨first, last, hfirst, hlast, hfirst', hlast', fun i hi => ⟨hmin i hi, hmax i hi⟩⟩

/-- What `DTA_DELMSG` does to an entry in use, where the scans of the window end. -/
theorem dtaDelMsg_spec {msgn first last : Nat} (hflag : q.flag msgn ≠ 0)
    (hwindow : q.livmsgs - 1 = 0 ∧ first = 1 ∧ last = 0 ∨
      0 < q.livmsgs - 1 ∧ first ≤ last ∧
      (if msgn = q.queuehead.firstmsgn then scanUp (unlinkEntry q msgn) q.maxmsgs msgn
        else some q.queuehead.firstmsgn) = some first ∧
      (if msgn = q.queuehead.lastmsgn then scanDown (unlinkEntry q msgn) msgn
        else some q.queuehead.lastmsgn) = some last) :
    dtaDelMsg q msgn = some (.OK, { unlinkEntry q msgn with
      queuehead := ⟨q.maxmsgs, q.livmsgs - 1, first, last⟩ }) := by
  unfold dtaDelMsg
  rw [if_neg hflag]
  rcases hwindow with ⟨hnone, rfl, rfl⟩ | ⟨hsome, hle, hfirst, hlast⟩
  · simp [hnone]
  · have hgt : ¬ first > last := by omega
    by_cases hup : msgn = q.queuehead.firstmsgn
    · rw [if_pos hup] at hfirst
      by_cases hdown : msgn = q.queuehead.lastmsgn
      · rw [if_pos hdown] at hlast
        simp only [if_pos hsome, if_pos hup, if_pos hdown, hfirst, hlast]
        simp [hgt]
      · rw [if_neg hdown] at hlast
        obtain rfl := Option.some.inj hlast
        simp only [if_pos hsome, if_pos hup, if_neg hdown, hfirst]
        simp [hgt]
    · rw [if_neg hup] at hfirst
      obtain rfl := Option.some.inj hfirst
      by_cases hdown : msgn = q.queuehead.lastmsgn
      · rw [if_pos hdown] at hlast
        simp only [if_pos hsome, if_neg hup, if_pos hdown, hlast]
        simp [hgt]
      · rw [if_neg hdown] at hlast
        obtain rfl := Option.some.inj hlast
        simp only [if_pos hsome, if_neg hup, if_neg hdown]
        simp [hgt]

/-- Deleting moves the window to the messages that stay. -/
theorem Consistent.del_window {pre post : List Nat} {msgn : Nat}
    (h : Consistent q content (pre ++ msgn :: post))
    (hflag : (unlinkEntry q msgn).flag = Function.update q.flag msgn 0) :
    ∃ first last,
      dtaDelMsg q msgn = some (.OK, { unlinkEntry q msgn with
        queuehead := ⟨q.maxmsgs, q.livmsgs - 1, first, last⟩ }) ∧
      (pre ++ post = [] → first = 1 ∧ last = 0) ∧
      (pre ++ post ≠ [] → first ∈ pre ++ post ∧ last ∈ pre ++ post) ∧
      ∀ i ∈ pre ++ post, first ≤ i ∧ i ≤ last := by
  have hmsgn : msgn ∈ pre ++ msgn :: post := by simp
  have hused := ((h.live msgn).mp hmsgn).2.2
  have hcount := h.livmsgs
  simp only [List.length_append, List.length_cons] at hcount
  by_cases hnil : pre ++ post = []
  · have hzero : q.livmsgs - 1 = 0 := by
      have hlen : (pre ++ post).length = 0 := by rw [hnil, List.length_nil]
      rw [List.length_append] at hlen
      omega
    refine ⟨1, 0, dtaDelMsg_spec (by omega) (Or.inl ⟨hzero, rfl, rfl⟩), fun _ => ⟨rfl, rfl⟩,
      fun hne => absurd hnil hne, ?_⟩
    rw [hnil]
    simp
  · obtain ⟨first, last, hfirst, hlast, hfirstmem, hlastmem, hin⟩ :=
      h.window_after (fun i => mem_without_iff h.links.nodup) hmsgn hnil hflag
    have hsome : 0 < q.livmsgs - 1 := by
      have hlen := List.length_pos_iff.mpr hnil
      rw [List.length_append] at hlen
      omega
    exact ⟨first, last, dtaDelMsg_spec (by omega)
      (Or.inr ⟨hsome, (hin last hlastmem).1, hfirst, hlast⟩), fun h => absurd h hnil,
      fun _ => ⟨hfirstmem, hlastmem⟩, hin⟩

/-- **A message that is deleted leaves the others as they are.** -/
theorem Consistent.del {pre post : List Nat} {msgn : Nat}
    (h : Consistent q content (pre ++ msgn :: post)) :
    ∃ t, dtaDelMsg q msgn = some (.OK, t) ∧ t.maxmsgs = q.maxmsgs ∧
      Consistent t content (pre ++ post) := by
  have hmsgn : msgn ∈ pre ++ msgn :: post := by simp
  have hrest : ∀ i, i ∈ pre ++ post ↔ i ∈ pre ++ msgn :: post ∧ i ≠ msgn :=
    fun i => mem_without_iff h.links.nodup
  obtain ⟨hpos, hmax, hused⟩ := (h.live msgn).mp hmsgn
  have hself : q.fore msgn ≠ msgn := by
    have hback : q.fore (headOf 0 (msgn :: post)) = lastOf 0 pre := h.links.before
    intro heq
    have hlast : lastOf 0 pre = msgn := hback.symm.trans heq
    have hmem : msgn ∈ pre := hlast ▸ lastOf_mem (by rw [hlast]; omega)
    exact ((hrest msgn).mp (List.mem_append_left _ hmem)).2 rfl
  obtain ⟨hnext, hfore, hflag, hextent⟩ := unlinkEntry_spec hself
  have hcount := h.livmsgs
  simp only [List.length_append, List.length_cons] at hcount
  obtain ⟨first, last, hdel, hnone, hwindow, hinside⟩ := h.del_window hflag
  refine ⟨_, hdel, rfl, ?_⟩
  have hsame : ∀ j, ((unlinkEntry q msgn).queuetable j).offset = (q.queuetable j).offset ∧
      ((unlinkEntry q msgn).queuetable j).msglen = (q.queuetable j).msglen := by
    intro j
    have hat := congrFun hextent j
    simpa [QueueTable.extent] using hat
  have hflags : ∀ j, ((unlinkEntry q msgn).queuetable j).flag = if j = msgn then 0 else q.flag j := by
    intro j
    rw [← Function.update_apply, ← hflag]
    rfl
  constructor
  case links =>
    refine Ring.congr h.links.unlink (fun y _ => congrFun hnext y) fun y _ => congrFun hfore y
  case live =>
    intro j
    simp only [Queue.Live, Queue.flag, hflags, hrest, h.live j]
    split_ifs with heq <;> simp [heq]
  case flags =>
    intro j hj
    simp only [Queue.flag, hflags]
    split_ifs
    · exact Or.inl rfl
    · exact h.flags j hj
  case centre =>
    simp only [Queue.flag, hflags]
    split_ifs
    · rfl
    · exact h.centre
  case livmsgs =>
    simp only [Queue.livmsgs, List.length_append] at hcount ⊢
    omega
  case idle => exact hnone
  case window => exact hwindow
  case inside => exact hinside
  case size => exact h.size
  case range =>
    intro j hj
    simp only [hsame]
    exact h.range j ((hrest j).mp hj).1
  case apart =>
    intro j hj k hk hjk
    simp only [hsame]
    exact h.apart j ((hrest j).mp hj).1 k ((hrest k).mp hk).1 hjk
  case stored =>
    intro j hj
    rw [← h.stored j ((hrest j).mp hj).1]
    simp only [Queue.stored, hsame]
    rfl

/-! ## Reading -/

theorem nextInOrder_spec {rounds curmsgn i : Nat} (h : nextInOrder q rounds curmsgn = some i) :
    q.flag i = 1 ∧ curmsgn < i ∧ i ≤ q.queuehead.lastmsgn := by
  induction rounds generalizing curmsgn with
  | zero => exact absurd h (by simp [nextInOrder])
  | succ rounds ih =>
      unfold nextInOrder at h
      split_ifs at h with hend hflag
      · obtain rfl := Option.some.inj h
        exact ⟨hflag, by omega, by omega⟩
      · obtain ⟨hi, hlt, hle⟩ := ih h
        exact ⟨hi, by omega, hle⟩

/-- The entry that is read is in use. -/
theorem Consistent.chosenEntry_mem (h : Consistent q content ring) {cursor mode i : Nat}
    (hsome : q.livmsgs ≠ 0) (hcursor : cursor ≤ q.maxmsgs)
    (hi : chosenEntry q (startCursor q cursor mode) mode = some i) : i ∈ ring := by
  have hne : ring ≠ [] := by
    intro hnil
    have hcount := h.livmsgs
    rw [hnil, List.length_nil] at hcount
    exact hsome hcount
  obtain ⟨hfirst, hlast⟩ := h.window hne
  have hstart : startCursor q cursor mode ≤ q.maxmsgs := by
    unfold startCursor
    dsimp only
    split_ifs <;> omega
  unfold chosenEntry at hi
  by_cases hpriority : has mode DTAGMO_READBYPRIORITY
  · rw [if_pos hpriority] at hi
    have hcase : startCursor q cursor mode = 0 ∨ startCursor q cursor mode ∈ ring := by
      by_cases hzero : startCursor q cursor mode = 0
      · exact Or.inl hzero
      · refine Or.inr ((h.live _).mpr ⟨by omega, hstart, ?_⟩)
        refine (h.flags _ hstart).resolve_left fun hdead => hzero ?_
        unfold startCursor at hdead ⊢
        simp only [hpriority, true_and] at hdead ⊢
        split_ifs at hdead ⊢ with hreset hflag hflag
        · rfl
        · rfl
        · rfl
        · exact absurd hdead hflag
    split_ifs at hi with hend
    obtain rfl := Option.some.inj hi
    rcases hcase with hzero | hmem
    · rw [hzero] at hend ⊢
      rw [h.links.first] at hend ⊢
      exact headOf_mem hend
    · exact (DList.links_mem h.links hmem).2 hend
  · rw [if_neg hpriority] at hi
    dsimp only at hi
    split_ifs at hi with hzero hone
    · obtain rfl := Option.some.inj hi
      have hpos := ((h.live _).mp hfirst).1
      have hfirst1 : q.queuehead.firstmsgn = 1 := by omega
      rwa [hfirst1] at hfirst
    · obtain ⟨hflag, hlt, hle⟩ := nextInOrder_spec hi
      have hmax := ((h.live _).mp hlast).2.1
      exact (h.live i).mpr ⟨by omega, by omega, hflag⟩
    · obtain ⟨hflag, hlt, hle⟩ := nextInOrder_spec hi
      have hmax := ((h.live _).mp hlast).2.1
      exact (h.live i).mpr ⟨by omega, by omega, hflag⟩

/-- What is read is the entry that was chosen. -/
theorem dtaGetMsgRead_ok {cursor mode i : Nat} {reply : Reply}
    (h : (dtaGetMsgRead q cursor mode).2 = .ok (i, reply)) :
    chosenEntry q (startCursor q cursor mode) mode = some i := by
  unfold dtaGetMsgRead at h
  by_cases hempty : q.livmsgs = 0
  · rw [if_pos hempty] at h
    cases h
  · rw [if_neg hempty] at h
    dsimp only at h
    cases hchosen : chosenEntry q (startCursor q cursor mode) mode with
    | none =>
        rw [hchosen] at h
        cases h
    | some j =>
        rw [hchosen] at h
        dsimp only at h
        split at h
        · cases h
        · simp only [Except.ok.injEq, Prod.mk.injEq] at h
          rw [h.1]

/-- **What reading can do**: either there is nothing to be read, or an entry in use is read, and its
message unless it is just inquired. -/
theorem Consistent.read (h : Consistent q content ring) {cursor : Nat}
    (hcursor : cursor ≤ q.maxmsgs) (mode : Nat) :
    (dtaGetMsgRead q cursor mode).1 ≤ q.maxmsgs ∧
      ((∃ rc, (dtaGetMsgRead q cursor mode).2 = .error rc ∧ (rc = .QUEUE_EMPTY ∨ rc = .QUEUE_END)) ∨
        ∃ i ∈ ring, (dtaGetMsgRead q cursor mode).2 = .ok (i,
          ⟨if has mode DTAGMO_JUSTINQUIRE then none else some (content i),
            (q.queuetable i).msglen, (q.queuetable i).priority⟩)) := by
  have hstart : startCursor q cursor mode ≤ q.maxmsgs := by
    unfold startCursor
    dsimp only
    split_ifs <;> omega
  unfold dtaGetMsgRead
  by_cases hempty : q.livmsgs = 0
  · rw [if_pos hempty]
    exact ⟨hcursor, Or.inl ⟨_, rfl, Or.inl rfl⟩⟩
  · rw [if_neg hempty]
    dsimp only
    cases hchosen : chosenEntry q (startCursor q cursor mode) mode with
    | none => exact ⟨hstart, Or.inl ⟨_, rfl, Or.inr rfl⟩⟩
    | some i =>
        have hmem := h.chosenEntry_mem hempty hcursor hchosen
        have hin := (h.range i hmem).2
        have hmax := ((h.live i).mp hmem).2.1
        dsimp only
        rw [if_neg (by rintro ⟨-, hlt⟩; omega)]
        refine ⟨?_, Or.inr ⟨i, hmem, ?_⟩⟩
        · dsimp only
          split_ifs <;> omega
        · rw [h.stored i hmem]

end Dta
