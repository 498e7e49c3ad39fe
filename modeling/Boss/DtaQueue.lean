import Boss.LinkedRing

/-!
# The message queue file

A queue is a file: a head, a table of `maxmsgs + 1` entries and the bytes of the messages behind it.
Head and table are mapped into the memory of every process that has opened the queue.  A message
takes an entry, and its bytes are appended to the file; its entry is flagged and linked into a ring
through entry 0, in front of the others if its priority is above that of the first one and behind
them otherwise.  Entries are taken behind the last one in use until the table is exhausted, then
wherever one is free.  `firstmsgn` and `lastmsgn` are the window that holds all entries in use.  The
bytes of a message that was deleted stay in the file until the queue is emptied.

The functions below are the stretches between taking and releasing the lock of the queue.  What is
read is read under the read lock; a message that is to be deleted after it was read is deleted under
the write lock, which is taken anew.
-/

namespace Dta

open LinkedChain

/-- Four longs. -/
def sizeofQueueHead : Nat := 32

/-- Six longs. -/
def sizeofQueueTable : Nat := 48

structure QueueHead where
  maxmsgs : Nat
  livmsgs : Nat
  firstmsgn : Nat
  lastmsgn : Nat
  deriving DecidableEq, Repr

structure QueueTable where
  flag : Nat
  offset : Nat
  msglen : Nat
  priority : Int
  foreprioidx : Nat
  nextprioidx : Nat
  deriving DecidableEq, Repr

/-- The file of a queue: the mapped head and table, the length and the bytes. -/
structure Queue where
  queuehead : QueueHead
  queuetable : Nat → QueueTable
  st_size : Nat
  byte : Nat → UInt8

/-- The return codes. -/
inductive Rc
  | OK
  | QUEUE_EMPTY
  | QUEUE_FULL
  | QUEUE_END
  | MESSAGE_DIED
  | INTERNAL_ERROR
  | FILEREAD_ERROR
  deriving DecidableEq, Repr

def DTAGMO_READBYPRIORITY : Nat := 1

def DTAGMO_SKIPWHILEREAD : Nat := 2

def DTAGMO_DELETEAFTERREAD : Nat := 4

def DTAGMO_RESETCURSOR : Nat := 8

def DTAGMO_JUSTINQUIRE : Nat := 16

/-- `mode & option`. -/
def has (mode option : Nat) : Bool := mode &&& option ≠ 0

/-- Where the table ends. -/
def tablelen (maxmsgs : Nat) : Nat := sizeofQueueHead + sizeofQueueTable * (maxmsgs + 1)

/-! ## Creating and emptying -/

/-- Entry `i` of a table without messages. -/
def emptyEntry (maxmsgs i : Nat) : QueueTable where
  flag := 0
  offset := if i = 0 then tablelen maxmsgs else 0
  msglen := 0
  priority := 0
  foreprioidx := 0
  nextprioidx := 0

/-- `createq`. -/
def createQ (maxmsgs : Nat) : Queue where
  queuehead := ⟨maxmsgs, 0, 1, 0⟩
  queuetable := emptyEntry maxmsgs
  st_size := tablelen maxmsgs
  byte := fun _ => 0

namespace Queue

variable (q : Queue)

abbrev maxmsgs : Nat := q.queuehead.maxmsgs

abbrev livmsgs : Nat := q.queuehead.livmsgs

/-- The links of the ring. -/
def next : Nat → Nat := QueueTable.nextprioidx ∘ q.queuetable

def fore : Nat → Nat := QueueTable.foreprioidx ∘ q.queuetable

def flag (i : Nat) : Nat := (q.queuetable i).flag

/-- An entry of the table with a message. -/
def Live (i : Nat) : Prop := 1 ≤ i ∧ i ≤ q.maxmsgs ∧ q.flag i = 1

instance (i : Nat) : Decidable (q.Live i) := inferInstanceAs (Decidable (_ ∧ _))

/-- The bytes of the message of an entry. -/
def stored (i : Nat) : List UInt8 :=
  (List.range (q.queuetable i).msglen).map fun k => q.byte ((q.queuetable i).offset + k)

end Queue

/-- `DTA_EMPTYQ`, and the second section of `DTA_CLEANQ`. -/
def dtaEmptyQ (q : Queue) : Queue where
  queuehead := ⟨q.maxmsgs, 0, 1, 0⟩
  queuetable := fun i => if i ≤ q.maxmsgs then emptyEntry q.maxmsgs i else q.queuetable i
  st_size := tablelen q.maxmsgs
  byte := q.byte

/-- `DTA_CLEANQ` when nobody comes between its two sections. -/
def dtaCleanQ (q : Queue) : Queue := if q.livmsgs = 0 then dtaEmptyQ q else q

/-! ## Links -/

/-- A table, entry by entry. -/
abbrev Entries := Nat → QueueTable

def setNext (table : Entries) (i v : Nat) : Entries :=
  Function.update table i { table i with nextprioidx := v }

def setFore (table : Entries) (i v : Nat) : Entries :=
  Function.update table i { table i with foreprioidx := v }

@[simp] theorem next_setNext (table : Entries) (i v : Nat) :
    QueueTable.nextprioidx ∘ setNext table i v =
      Function.update (QueueTable.nextprioidx ∘ table) i v := by
  rw [setNext, Function.comp_update]

@[simp] theorem fore_setFore (table : Entries) (i v : Nat) :
    QueueTable.foreprioidx ∘ setFore table i v =
      Function.update (QueueTable.foreprioidx ∘ table) i v := by
  rw [setFore, Function.comp_update]

/-- A link that is written changes nothing else. -/
theorem setNext_same {α : Type} (f : QueueTable → α)
    (hf : ∀ e v, f { e with nextprioidx := v } = f e) (table : Entries) (i v : Nat) :
    f ∘ setNext table i v = f ∘ table := by
  rw [setNext, Function.comp_update, hf]
  exact Function.update_eq_self i (f ∘ table)

theorem setFore_same {α : Type} (f : QueueTable → α)
    (hf : ∀ e v, f { e with foreprioidx := v } = f e) (table : Entries) (i v : Nat) :
    f ∘ setFore table i v = f ∘ table := by
  rw [setFore, Function.comp_update, hf]
  exact Function.update_eq_self i (f ∘ table)

@[simp] theorem fore_setNext (table : Entries) (i v : Nat) :
    QueueTable.foreprioidx ∘ setNext table i v = QueueTable.foreprioidx ∘ table :=
  setNext_same _ (fun _ _ => rfl) table i v

@[simp] theorem next_setFore (table : Entries) (i v : Nat) :
    QueueTable.nextprioidx ∘ setFore table i v = QueueTable.nextprioidx ∘ table :=
  setFore_same _ (fun _ _ => rfl) table i v

/-- What an entry says about its message. -/
def QueueTable.message (e : QueueTable) : Nat × Nat × Nat × Int :=
  (e.flag, e.offset, e.msglen, e.priority)

@[simp] theorem message_setNext (table : Entries) (i v : Nat) :
    QueueTable.message ∘ setNext table i v = QueueTable.message ∘ table :=
  setNext_same _ (fun _ _ => rfl) table i v

@[simp] theorem message_setFore (table : Entries) (i v : Nat) :
    QueueTable.message ∘ setFore table i v = QueueTable.message ∘ table :=
  setFore_same _ (fun _ _ => rfl) table i v

/-! ## Putting -/

/-- The entry that the next message takes. -/
def currentmsgn (q : Queue) : Nat :=
  if q.queuehead.lastmsgn = q.maxmsgs then
    ((List.range' 1 (q.maxmsgs - 1)).find? fun i => q.flag i = 0).getD q.maxmsgs
  else q.queuehead.lastmsgn + 1

/-- The entry in front of which a message is linked: the first one, or the centre of the ring.  The
loop over the ring is left in its first round. -/
def insertBefore (q : Queue) (priority : Int) : Nat :=
  if priority ≤ (q.queuetable (q.next 0)).priority then 0 else q.next 0

/-- `fwrite` at the end of the file. -/
def append (q : Queue) (message : List UInt8) : Queue :=
  { q with
    st_size := q.st_size + message.length
    byte := fun p =>
      if q.st_size ≤ p ∧ p < q.st_size + message.length then message.getD (p - q.st_size) 0
      else q.byte p }

/-- What `DTA_PUTMSG` does to head and table. -/
def enter (q : Queue) (msglen : Nat) (priority : Int) : Queue :=
  let cur := currentmsgn q
  let table := Function.update q.queuetable cur { q.queuetable cur with
    flag := 1, offset := q.st_size, msglen := msglen, priority := priority }
  let i := insertBefore { q with queuetable := table } priority
  let table := setFore table cur (table i).foreprioidx
  let table := setNext table cur i
  let table := setNext table (table i).foreprioidx cur
  let table := setFore table i cur
  { q with
    queuehead := { q.queuehead with
      livmsgs := q.livmsgs + 1
      firstmsgn := if cur < q.queuehead.firstmsgn then cur else q.queuehead.firstmsgn
      lastmsgn := if cur > q.queuehead.lastmsgn then cur else q.queuehead.lastmsgn }
    queuetable := table }

/-- `DTA_PUTMSG`. -/
def dtaPutMsg (q : Queue) (message : List UInt8) (priority : Int) : Rc × Queue :=
  if q.livmsgs = q.maxmsgs then (.QUEUE_FULL, q)
  else (.OK, append (enter q message.length priority) message)

/-! ## Reading -/

/-- The next entry in use behind `curmsgn`; each round of the loop goes one entry on. -/
def nextInOrder (q : Queue) : Nat → Nat → Option Nat
  | 0, _ => none
  | rounds + 1, curmsgn =>
    if curmsgn + 1 > q.queuehead.lastmsgn then none
    else if q.flag (curmsgn + 1) = 1 then some (curmsgn + 1)
    else nextInOrder q rounds (curmsgn + 1)

/-- What a call of `DTA_GETMSG` fills in.  The message is not read when it is just inquired. -/
structure Reply where
  message : Option (List UInt8)
  msglen : Nat
  priority : Int
  deriving DecidableEq, Repr

/-- Where the cursor is when the entry is looked for. -/
def startCursor (q : Queue) (cursor mode : Nat) : Nat :=
  let cursor := if has mode DTAGMO_RESETCURSOR then 0 else cursor
  if has mode DTAGMO_READBYPRIORITY ∧ q.flag cursor = 0 then 0 else cursor

/-- The entry that is read.  The loop over the window ends at once when `curmsgn` is 0: then
`firstmsgn` is 1. -/
def chosenEntry (q : Queue) (cursor mode : Nat) : Option Nat :=
  if has mode DTAGMO_READBYPRIORITY then
    if q.next cursor = 0 then none else some (q.next cursor)
  else
    let curmsgn := if cursor = 0 then q.queuehead.firstmsgn - 1 else cursor
    if curmsgn = 0 then some 1 else nextInOrder q (q.queuehead.lastmsgn + 1) curmsgn

/-- `DTA_GETMSG` under the read lock: the cursor afterwards, and the entry with what is read of
it. -/
def dtaGetMsgRead (q : Queue) (cursor mode : Nat) : Nat × Except Rc (Nat × Reply) :=
  if q.livmsgs = 0 then (cursor, .error .QUEUE_EMPTY)
  else
    let cursor := startCursor q cursor mode
    match chosenEntry q cursor mode with
    | none => (cursor, .error .QUEUE_END)
    | some curmsgn =>
      let entry := q.queuetable curmsgn
      if ¬ has mode DTAGMO_JUSTINQUIRE ∧ q.st_size < entry.offset + entry.msglen then
        (cursor, .error .FILEREAD_ERROR)
      else
        let skips := has mode DTAGMO_SKIPWHILEREAD ∧ ¬ has mode DTAGMO_DELETEAFTERREAD
        (if skips then curmsgn else cursor,
          .ok (curmsgn, ⟨if has mode DTAGMO_JUSTINQUIRE then none else some (q.stored curmsgn),
            entry.msglen, entry.priority⟩))

/-! ## Deleting -/

/-- `while(queuetable[++firstmsgn].flag==0)`, as long as it stays in the table. -/
def scanUp (q : Queue) : Nat → Nat → Option Nat
  | 0, _ => none
  | rounds + 1, i => if q.flag (i + 1) = 0 then scanUp q rounds (i + 1) else some (i + 1)

/-- `while(queuetable[--lastmsgn].flag==0)`. -/
def scanDown (q : Queue) : Nat → Option Nat
  | 0 => none
  | i + 1 => if q.flag i = 0 then scanDown q i else some i

/-- The table without the entry. -/
def unlinkEntry (q : Queue) (msgn : Nat) : Queue :=
  let table := q.queuetable
  let table := setNext table (table msgn).foreprioidx (table msgn).nextprioidx
  let table := setFore table (table msgn).nextprioidx (table msgn).foreprioidx
  { q with queuetable := Function.update table msgn { table msgn with flag := 0 } }

/-- `DTA_DELMSG`; there is no result when a scan leaves the table. -/
def dtaDelMsg (q : Queue) (msgn : Nat) : Option (Rc × Queue) :=
  if q.flag msgn = 0 then some (.MESSAGE_DIED, q)
  else do
    let t := unlinkEntry q msgn
    let livmsgs := q.livmsgs - 1
    let (firstmsgn, lastmsgn) ←
      if 0 < livmsgs then do
        let firstmsgn ← if msgn = q.queuehead.firstmsgn then scanUp t q.maxmsgs msgn
          else some q.queuehead.firstmsgn
        let lastmsgn ← if msgn = q.queuehead.lastmsgn then scanDown t msgn
          else some q.queuehead.lastmsgn
        some (firstmsgn, lastmsgn)
      else some (1, 0)
    let (firstmsgn, lastmsgn) := if firstmsgn > lastmsgn then (1, 0) else (firstmsgn, lastmsgn)
    some (.OK, { t with queuehead := ⟨q.maxmsgs, livmsgs, firstmsgn, lastmsgn⟩ })

/-- `DTA_GETMSG` when nobody comes between its two sections: the code, the cursor and the queue
afterwards, and the reply. -/
def dtaGetMsg (q : Queue) (cursor mode : Nat) : Option (Rc × Nat × Queue × Option Reply) :=
  match dtaGetMsgRead q cursor mode with
  | (cursor, .error rc) => some (rc, cursor, q, none)
  | (cursor, .ok (curmsgn, reply)) =>
    if has mode DTAGMO_DELETEAFTERREAD then do
      let (rc, t) ← dtaDelMsg q curmsgn
      some (if rc = .OK then .OK else .INTERNAL_ERROR, cursor, t, some reply)
    else some (.OK, cursor, q, some reply)

end Dta
