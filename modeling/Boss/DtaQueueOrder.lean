import Boss.DtaQueueNumbered
import Boss.Fuel
import Boss.Runs

/-!
# The order in which a queue is read

A handle reads from the start of a queue to its end.  By order it goes through the table, entry by
entry; by priority it goes along the ring.  Either way it gets every message once (`readAll_eq`).

The entries are in the order of the puts as long as each new message is behind all others, and they
are not when the table was used to its end and a free entry in front of it is taken.  The ring is in
the order of the priorities as long as each new message belongs behind all others or in front of
them: the loop that should find its place in between is left in its first round.

Main result: `Consistent.readFromStart_eq`.
-/

namespace Dta

open LinkedChain Fuel Runs

/-! ## Reading to the end -/

/-- Read until there is no message: what is read, entry by entry, and the code of the last call.
The first call has a mode of its own. -/
def readAll (q : Queue) (mode : Nat) : Nat → Nat → Nat → Option (List (Nat × Reply) × Rc)
  | 0, _, _ => none
  | n + 1, first, cursor =>
      match dtaGetMsgRead q cursor first with
      | (_, .error rc) => some ([], rc)
      | (cursor, .ok r) => (readAll q mode n mode cursor).map fun (out, rc) => (r :: out, rc)

/-- `DTAGMO_READBYORDER` is 0. -/
def byOrder : Nat := DTAGMO_SKIPWHILEREAD

def byPriority : Nat := DTAGMO_READBYPRIORITY ||| DTAGMO_SKIPWHILEREAD

/-- Read everything, from a cursor that is reset. -/
def readFromStart (q : Queue) (mode cursor n : Nat) : Option (List (Nat × Reply) × Rc) :=
  readAll q mode n (mode ||| DTAGMO_RESETCURSOR) cursor

/-- What is read of an entry. -/
def replyOf (q : Queue) (content : Nat → Message) (i : Nat) : Reply :=
  ⟨some (content i), (q.queuetable i).msglen, (q.queuetable i).priority⟩

/-- The entries `l` follow one another from `c` to the end. -/
def Follows (next : Nat → Option Nat) : Nat → List Nat → Prop
  | c, [] => next c = none
  | c, i :: l => next c = some i ∧ Follows next i l

/-- The two modes. -/
inductive Order
  | time | priority

def Order.mode : Order → Nat
  | .time => byOrder
  | .priority => byPriority

/-- A mode that leaves the cursor where it has read. -/
structure Skips (mode : Nat) : Prop where
  skips : has mode DTAGMO_SKIPWHILEREAD = true
  keeps : has mode DTAGMO_DELETEAFTERREAD = false
  reads : has mode DTAGMO_JUSTINQUIRE = false

/-- What the modes are when the cursor is reset. -/
theorem Order.skips (order : Order) :
    Skips order.mode ∧ Skips (order.mode ||| DTAGMO_RESETCURSOR) ∧
      has order.mode DTAGMO_RESETCURSOR = false ∧
      has (order.mode ||| DTAGMO_RESETCURSOR) DTAGMO_RESETCURSOR = true ∧
      has (order.mode ||| DTAGMO_RESETCURSOR) DTAGMO_READBYPRIORITY =
        has order.mode DTAGMO_READBYPRIORITY := by
  cases order <;> exact ⟨⟨rfl, rfl, rfl⟩, ⟨rfl, rfl, rfl⟩, rfl, rfl, rfl⟩

section Reading

variable {q : Queue} {content : Nat → Message} {ring l : List Nat} {mode first c i : Nat}

/-- A queue with messages is not empty. -/
theorem Consistent.not_empty (h : Consistent q content ring) (hne : ring ≠ []) : q.livmsgs ≠ 0 := by
  rw [h.livmsgs]
  exact fun hzero => hne (List.length_eq_zero_iff.mp hzero)

/-- A read gives the message that the mode chooses. -/
theorem Consistent.read_some (h : Consistent q content ring) (hne : ring ≠ []) (hmode : Skips mode)
    (hi : chosenEntry q (startCursor q c mode) mode = some i) (hmem : i ∈ ring) :
    dtaGetMsgRead q c mode = (i, .ok (i, replyOf q content i)) := by
  have hin := (h.range i hmem).2
  unfold dtaGetMsgRead
  rw [if_neg (h.not_empty hne)]
  dsimp only
  rw [hi]
  dsimp only
  rw [if_neg (by rintro ⟨-, hlt⟩; omega), if_pos (by simp [hmode.skips, hmode.keeps]),
    h.stored i hmem]
  simp [replyOf, hmode.reads]

/-- A read that chooses nothing tells the end of the queue. -/
theorem Consistent.read_none (h : Consistent q content ring) (hne : ring ≠ [])
    (hend : chosenEntry q (startCursor q c mode) mode = none) :
    dtaGetMsgRead q c mode = (startCursor q c mode, .error .QUEUE_END) := by
  unfold dtaGetMsgRead
  rw [if_neg (h.not_empty hne)]
  dsimp only
  rw [hend]

/-- Where the cursor stands on an entry in use it is not moved first. -/
theorem startCursor_live (hmode : has mode DTAGMO_RESETCURSOR = false) (hc : q.flag c ≠ 0) :
    startCursor q c mode = c := by
  simp [startCursor, hmode, hc]

/-- A reset begins at the start. -/
theorem startCursor_reset (hmode : has mode DTAGMO_RESETCURSOR = true) :
    startCursor q c mode = 0 := by
  simp [startCursor, hmode]

/-- Entries that follow one another are read one after another. -/
theorem Consistent.readAll_follows (h : Consistent q content ring) (hne : ring ≠ [])
    (hmode : Skips mode) (hnot : has mode DTAGMO_RESETCURSOR = false)
    (hl : ∀ i ∈ l, i ∈ ring) (hc : c ∈ ring)
    (hfollows : Follows (fun c => chosenEntry q c mode) c l) {n : Nat} (hn : l.length < n) :
    readAll q mode n mode c = some (l.map fun i => (i, replyOf q content i), .QUEUE_END) := by
  induction l generalizing c n with
  | nil =>
      obtain ⟨m, rfl⟩ : ∃ m, n = m + 1 := ⟨n - 1, by omega⟩
      have hflag : q.flag c ≠ 0 := by
        have hone := ((h.live c).mp hc).2.2
        omega
      have hend : chosenEntry q (startCursor q c mode) mode = none := by
        rw [startCursor_live hnot hflag]
        exact hfollows
      rw [readAll, h.read_none hne hend]
      rfl
  | cons i l ih =>
      obtain ⟨m, rfl⟩ : ∃ m, n = m + 1 := ⟨n - 1, by omega⟩
      have hflag : q.flag c ≠ 0 := by
        have hone := ((h.live c).mp hc).2.2
        omega
      have hi := hl i List.mem_cons_self
      have hnext : chosenEntry q (startCursor q c mode) mode = some i := by
        rw [startCursor_live hnot hflag]
        exact hfollows.1
      have hrest := ih (fun j hj => hl j (List.mem_cons_of_mem _ hj)) hi hfollows.2
        (n := m) (by simpa using hn)
      rw [readAll, h.read_some hne hmode hnext hi]
      dsimp only
      rw [hrest]
      rfl

/-- All entries that follow one another from the start are read, wherever the cursor was. -/
theorem Consistent.readFromStart_follows (h : Consistent q content ring) (order : Order)
    (hl : ∀ i, i ∈ l ↔ i ∈ ring)
    (hfollows : ring ≠ [] → Follows (fun c => chosenEntry q c order.mode) 0 l) (c : Nat) :
    Settles (readFromStart q order.mode c) (l.map fun i => (i, replyOf q content i),
      if ring = [] then .QUEUE_EMPTY else .QUEUE_END) := by
  obtain ⟨hmode, hfirst, hnot, hreset, hpriority⟩ := order.skips
  by_cases hne : ring = []
  · refine ⟨1, fun n hn => ?_⟩
    obtain ⟨m, rfl⟩ : ∃ m, n = m + 1 := ⟨n - 1, by omega⟩
    have hnil : l = [] := List.eq_nil_iff_forall_not_mem.mpr fun i hi => by
      have hin := (hl i).mp hi
      rw [hne] at hin
      exact absurd hin List.not_mem_nil
    have hempty : q.livmsgs = 0 := by rw [h.livmsgs, hne, List.length_nil]
    rw [readFromStart, readAll, dtaGetMsgRead, if_pos hempty, if_pos hne, hnil]
    rfl
  · rw [if_neg hne]
    have hfollows := hfollows hne
    cases l with
    | nil =>
        obtain ⟨i, hi⟩ := List.exists_mem_of_ne_nil ring hne
        exact absurd ((hl i).mpr hi) List.not_mem_nil
    | cons i l =>
        refine ⟨l.length + 2, fun n hn => ?_⟩
        obtain ⟨m, rfl⟩ : ∃ m, n = m + 1 := ⟨n - 1, by omega⟩
        have hi : i ∈ ring := (hl i).mp List.mem_cons_self
        have hsame : chosenEntry q 0 (order.mode ||| DTAGMO_RESETCURSOR) =
            chosenEntry q 0 order.mode := by
          simp only [chosenEntry, hpriority]
        have hnext : chosenEntry q (startCursor q c (order.mode ||| DTAGMO_RESETCURSOR))
            (order.mode ||| DTAGMO_RESETCURSOR) = some i := by
          rw [startCursor_reset hreset, hsame]
          exact hfollows.1
        have hrest := h.readAll_follows hne hmode hnot
          (fun j hj => (hl j).mp (List.mem_cons_of_mem _ hj)) hi hfollows.2 (n := m) (by omega)
        rw [readFromStart, readAll, h.read_some hne hfirst hnext hi]
        dsimp only
        rw [hrest]
        rfl

/-! ## By order -/

/-- The last entry is one of the table. -/
theorem Consistent.last_le (h : Consistent q content ring) : q.queuehead.lastmsgn ≤ q.maxmsgs := by
  by_cases hne : ring = []
  · rw [(h.idle hne).2]
    exact Nat.zero_le _
  · exact ((h.live _).mp (h.window hne).2).2.1

/-- The loop finds the first of the entries in use behind `c`. -/
theorem Consistent.nextInOrder_eq (h : Consistent q content ring)
    (hl : ∀ i, i ∈ l ↔ c < i ∧ i ∈ ring) (hsorted : l.Pairwise (· < ·)) {rounds : Nat}
    (hrounds : q.queuehead.lastmsgn < c + rounds) : nextInOrder q rounds c = l.head? := by
  have hlast : ∀ i ∈ l, i ≤ q.queuehead.lastmsgn := fun i hi => (h.inside i ((hl i).mp hi).2).2
  induction rounds generalizing c with
  | zero =>
      have hnil : l = [] := List.eq_nil_iff_forall_not_mem.mpr fun i hi => by
        have hle := hlast i hi
        have hlt := ((hl i).mp hi).1
        omega
      rw [hnil]
      rfl
  | succ rounds ih =>
      rw [nextInOrder]
      split_ifs with hend hflag
      · have hnil : l = [] := List.eq_nil_iff_forall_not_mem.mpr fun i hi => by
          have hle := hlast i hi
          have hlt := ((hl i).mp hi).1
          omega
        rw [hnil]
        rfl
      · have hmax := h.last_le
        have hin : c + 1 ∈ l := (hl _).mpr ⟨by omega, (h.live _).mpr ⟨by omega, by omega, hflag⟩⟩
        cases l with
        | nil => exact absurd hin List.not_mem_nil
        | cons i rest =>
            have hlt := ((hl i).mp List.mem_cons_self).1
            rcases List.mem_cons.mp hin with heq | hrest
            · rw [List.head?_cons, heq]
            · have hbehind := List.rel_of_pairwise_cons hsorted hrest
              omega
      · refine ih (fun i => ?_) (by omega)
        rw [hl]
        constructor
        · rintro ⟨hlt, hi⟩
          refine ⟨lt_of_le_of_ne hlt ?_, hi⟩
          rintro rfl
          exact hflag ((h.live _).mp hi).2.2
        · rintro ⟨hlt, hi⟩
          exact ⟨by omega, hi⟩

/-- By order the next entry behind the cursor is chosen. -/
theorem Consistent.chosenEntry_byOrder (h : Consistent q content ring) (hne : ring ≠ [])
    (hl : ∀ i, i ∈ l ↔ c < i ∧ i ∈ ring) (hsorted : l.Pairwise (· < ·)) :
    chosenEntry q c byOrder = l.head? := by
  have hmode : has byOrder DTAGMO_READBYPRIORITY = false := rfl
  have hpos : ∀ i ∈ ring, 1 ≤ i := fun i hi => ((h.live i).mp hi).1
  obtain ⟨hfirst, hlast⟩ := h.window hne
  unfold chosenEntry
  rw [if_neg (by simp [hmode])]
  dsimp only
  by_cases hzero : c = 0
  · rw [if_pos hzero]
    have hfrom : ∀ i, i ∈ l ↔ q.queuehead.firstmsgn - 1 < i ∧ i ∈ ring := by
      intro i
      rw [hl, and_congr_left_iff]
      intro hi
      have hlow := (h.inside i hi).1
      have hfirstPos := hpos _ hfirst
      omega
    have hnext : nextInOrder q (q.queuehead.lastmsgn + 1) (q.queuehead.firstmsgn - 1) = l.head? :=
      h.nextInOrder_eq hfrom hsorted (by omega)
    by_cases hone : q.queuehead.firstmsgn - 1 = 0
    · -- The loop is not entered, and entry 1 is in use.
      have hfirstPos := hpos _ hfirst
      have hfirstOne : q.queuehead.firstmsgn = 1 := by omega
      rw [if_pos hone]
      rw [hfirstOne] at hfirst
      have hin : 1 ∈ l := (hfrom 1).mpr ⟨by omega, hfirst⟩
      cases l with
      | nil => exact absurd hin List.not_mem_nil
      | cons i rest =>
          have hi := hpos i ((hfrom i).mp List.mem_cons_self).2
          rcases List.mem_cons.mp hin with heq | hrest
          · rw [List.head?_cons, heq]
          · have hbehind := List.rel_of_pairwise_cons hsorted hrest
            omega
    · rw [if_neg hone]
      exact hnext
  · rw [if_neg hzero, if_neg hzero]
    exact h.nextInOrder_eq hl hsorted (by omega)

/-- The entries in use as they stand in the table. -/
def liveEntries (q : Queue) : List Nat := (List.range' 1 q.maxmsgs).filter fun i => q.flag i = 1

theorem liveEntries_sorted : (liveEntries q).Pairwise (· < ·) :=
  List.Pairwise.filter _ List.pairwise_lt_range'

/-- The live entries are those of the ring. -/
theorem Consistent.mem_liveEntries (h : Consistent q content ring) :
    i ∈ liveEntries q ↔ i ∈ ring := by
  rw [h.live, liveEntries, List.mem_filter, List.mem_range'_1, decide_eq_true_eq, Queue.Live]
  constructor
  · rintro ⟨⟨hpos, hlt⟩, hflag⟩
    exact ⟨hpos, by omega, hflag⟩
  · rintro ⟨hpos, hle, hflag⟩
    exact ⟨⟨hpos, by omega⟩, hflag⟩

/-- By order the entries are read one after the other. -/
theorem Consistent.follows_byOrder (h : Consistent q content ring) (hne : ring ≠ [])
    (hl : ∀ i, i ∈ l ↔ c < i ∧ i ∈ ring) (hsorted : l.Pairwise (· < ·)) :
    Follows (fun c => chosenEntry q c byOrder) c l := by
  induction l generalizing c with
  | nil => exact h.chosenEntry_byOrder hne hl hsorted
  | cons i l ih =>
      obtain ⟨hlow, hrest⟩ := List.pairwise_cons.mp hsorted
      have hi := (hl i).mp List.mem_cons_self
      refine ⟨h.chosenEntry_byOrder hne hl hsorted, ih (fun j => ?_) hrest⟩
      constructor
      · intro hj
        exact ⟨hlow j hj, ((hl j).mp (List.mem_cons_of_mem _ hj)).2⟩
      · rintro ⟨hij, hj⟩
        have hin := (hl j).mpr ⟨hi.1.trans hij, hj⟩
        exact (List.mem_cons.mp hin).resolve_left (by omega)

/-! ## By priority -/

/-- What follows the part of a ring before a position. -/
theorem ring_next {next prev : Nat → Nat} {pre post : List Nat}
    (h : Ring next prev 0 (pre ++ post)) : next (lastOf 0 pre) = headOf 0 post := by
  rcases lastOf_cases 0 pre with rfl | ⟨front, hpre⟩
  · exact h.first
  · rw [hpre, List.append_assoc, List.singleton_append] at h
    exact h.links.1

/-- By priority the ring is read on from where the cursor is. -/
theorem Consistent.follows_byPriority {pre post : List Nat}
    (h : Consistent q content (pre ++ post)) :
    Follows (fun c => chosenEntry q c byPriority) (lastOf 0 pre) post := by
  have hmode : has byPriority DTAGMO_READBYPRIORITY = true := rfl
  have hchosen (c : Nat) :
      chosenEntry q c byPriority = if q.next c = 0 then none else some (q.next c) := by
    unfold chosenEntry
    rw [if_pos hmode]
  induction post generalizing pre with
  | nil =>
      rw [Follows, hchosen, ring_next h.links, if_pos headOf_nil]
  | cons i post ih =>
      have hi : i ≠ 0 := by
        have hpos := ((h.live i).mp (by simp)).1
        omega
      refine ⟨?_, ?_⟩
      · dsimp only
        rw [hchosen, ring_next h.links, headOf_cons, if_neg hi]
      · have hrest : Follows _ (lastOf 0 (pre ++ [i])) post := ih (by simpa using h)
        rwa [lastOf_concat] at hrest

/-- The entries in the order in which a mode reads them. -/
def Order.entries (q : Queue) (ring : List Nat) : Order → List Nat
  | .time => liveEntries q
  | .priority => ring

/-- Both orders have the entries of the ring. -/
theorem Consistent.mem_entries (h : Consistent q content ring) (order : Order) :
    i ∈ order.entries q ring ↔ i ∈ ring := by
  cases order with
  | time => exact h.mem_liveEntries
  | priority => exact Iff.rfl

/-- **Reading to the end** reads each entry in use once, in the order of the mode. -/
theorem Consistent.readFromStart_eq (h : Consistent q content ring) (order : Order) (c : Nat) :
    Settles (readFromStart q order.mode c)
      ((order.entries q ring).map fun i => (i, replyOf q content i),
        if ring = [] then .QUEUE_EMPTY else .QUEUE_END) := by
  refine h.readFromStart_follows order (fun i => h.mem_entries order) (fun hne => ?_) c
  cases order with
  | time =>
      refine h.follows_byOrder hne (fun i => ?_) liveEntries_sorted
      rw [Order.entries, h.mem_liveEntries, iff_and_self]
      exact fun hi => ((h.live i).mp hi).1
  | priority => exact Consistent.follows_byPriority (show Consistent q content ([] ++ ring) from h)

end Reading

end Dta
