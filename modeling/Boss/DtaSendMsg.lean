import Boss.Decimal
import Boss.DtaQueueNumbered

/-!
# Sending a message

`DTA_SENDMSG` writes four packets: the command, the name of the queue and a header, each in
`SMSGLEN` bytes, and the message.  After each it reads a byte; of the first three answers it looks at
neither the byte nor whether there is one.  At the other end `tcpget` reads the same four, whatever
there is of them, and answers the last one with `0` when the message did not get into its queue.

The header is printed and read in fields of 10 characters.  A number that needs more is read as two.

Main results:
* `sscanf_header`: the server reads the numbers of a header that fits;
* `Sync.serve`: as long as no `readn` and no `writen` ends early, both sides speak of the same packet,
  and a last answer that is not `0` is given for the message itself.
-/

namespace Dta.SendMsg

open Decimal

def SMSGLEN : Nat := 200

/-- A text in a buffer that was cleared. -/
def inBuffer (text : Message) : Message := (text ++ List.replicate SMSGLEN 0).take SMSGLEN

/-- What is read, over what was in the buffer. -/
def overlay (smsgbuf got : Message) : Message := (got ++ smsgbuf.drop got.length).take SMSGLEN

def cstr (s : Message) : Message := s.takeWhile (· ≠ 0)

def ascii (text : List Char) : Message := text.map Char.toUInt8

def sendmsg : Message := ascii ['s', 'e', 'n', 'd', 'm', 's', 'g']

/-- What else `tcpget` knows; it is not followed there. -/
def otherCommands : List Message :=
  [ascii ['s', 't', 'a', 't', 'u', 's'], ascii ['p', 'u', 't', 'f', 'i', 'l', 'e'],
    ascii ['g', 'e', 't', 'f', 'i', 'l', 'e'], ascii ['e', 'x', 'e', 'c', 'r', 'c', 'm', 'd']]

/-- A message that `DTA_SENDMSG` is called with, and its number. -/
structure Call where
  id : Nat
  message : Message
  priority : Int
  deriving DecidableEq, Repr

/-- The text of `sprintf` with `%10ld %10ld`. -/
def header (m : Call) : Message := printWidth 10 m.priority ++ 32 :: printWidth 10 m.message.length

/-- What `DTA_SENDMSG` writes in its four `writen`. -/
def packet (remotequeue : Message) (m : Call) : Nat → Message
  | 0 => inBuffer sendmsg
  | 1 => inBuffer remotequeue
  | 2 => inBuffer (header m)
  | _ => m.message

/-- `sscanf` with `%10ld %10ld`; what cannot be read stays as it is. -/
def sscanf (text : Message) (msgprio msglen : Int) : Int × Int :=
  match scanLong 10 text with
  | none => (msgprio, msglen)
  | some (msgprio, rest) =>
    match scanLong 10 rest with
    | none => (msgprio, msglen)
    | some (msglen, _) => (msgprio, msglen)

/-! ## The two ends of a connection -/

/-- What `tcpget` reads next. -/
inductive Stage
  | command
  | queuename
  | header
  | body
  deriving DecidableEq, Repr

/-- The variables of `tcpget`; `call` is the number of the message whose header it has read. -/
structure Server where
  stage : Stage
  smsgbuf : Message
  msgprio : Int
  msglen : Int
  call : Nat
  deriving DecidableEq, Repr

/-- `tcpget` begins; two of its variables are not set. -/
def Server.start (msgprio msglen : Int) : Server :=
  ⟨.command, List.replicate SMSGLEN 0, msgprio, msglen, 0⟩

/-- A connection with what is under way on it: bytes, each with the number of the message that it was
written for, and answers, of which is told whether they are not `0`.  `early` counts the `readn` and
`writen` that ended early while the connection stood, and which nobody noticed. -/
structure Conn where
  up : Bool
  toServer : List (Nat × Byte)
  toClient : List Bool
  server : Server
  early : Nat
  deriving DecidableEq, Repr

namespace Conn

variable (c : Conn)

/-- A `readn` or `writen` is over; it was to be for `n` bytes, and was for `done`. -/
def count (n done : Nat) : Conn :=
  { c with early := if c.up ∧ done < n then c.early + 1 else c.early }

/-- `writen` of the first `n` bytes; `DTA_SENDMSG` is told that it was all.  What is written to a
broken connection is lost. -/
def write (id : Nat) (bytes : Message) (n : Nat) : Conn :=
  { c.count bytes.length n with
    toServer := if c.up then c.toServer ++ (bytes.take n).map fun b => (id, b) else c.toServer }

/-- `readn` of the server: `n` bytes, or those that have come when there come no more. -/
def readn (n : Nat) (ends : Bool) : Option (List (Nat × Byte) × Conn) :=
  if n ≤ c.toServer.length then
    some (c.toServer.take n, { c with toServer := c.toServer.drop n })
  else if ends || !c.up then some (c.toServer, { c with toServer := [] })
  else none

/-- The server writes a byte. -/
def answer (ok : Bool) : Conn :=
  { c with toClient := if c.up then c.toClient ++ [ok] else c.toClient }

/-- The server ends. -/
def close : Conn := { c with up := false, toServer := [], server := { c.server with stage := .command } }

/-- A command, or a part of one.  Other commands are not followed. -/
def command (got : Message) : Option Conn :=
  if got = [] then some c.close
  else
    let c := c.count SMSGLEN got.length
    let smsgbuf := overlay c.server.smsgbuf got
    let what := cstr smsgbuf
    if what = sendmsg then
      let smsgbuf : Message := List.replicate SMSGLEN 0
      let c := { c with server := { c.server with stage := .queuename, smsgbuf := smsgbuf } }
      some (c.answer true)
    else if what ∈ otherCommands then none
    else some { c with server := { c.server with smsgbuf := smsgbuf } }

def queuename (got : Message) : Conn :=
  let c := c.count SMSGLEN got.length
  let smsgbuf := overlay c.server.smsgbuf got
  let c := { c with server := { c.server with stage := .header, smsgbuf := smsgbuf } }
  c.answer true

/-- The header; memory for the message is allocated. -/
def header (call : Nat) (got : Message) (memory : Bool) : Conn :=
  let c := c.count SMSGLEN got.length
  let smsgbuf := overlay c.server.smsgbuf got
  let r := sscanf (cstr smsgbuf) c.server.msgprio c.server.msglen
  let c := { c with server := ⟨.body, smsgbuf, r.1, r.2, call⟩ }
  if memory ∧ 0 ≤ r.2 then c.answer true else c.close

/-- The message, which goes into the queue or does not; `behind` is what is in memory behind the bytes
that were read. -/
def body (got : Message) (put : Bool) (behind : Nat → Byte) : Conn × Option (Nat × Message) :=
  let msglen := c.server.msglen.toNat
  let c := c.count msglen got.length
  let message := got ++ (List.range (msglen - got.length)).map behind
  if put then
    let c := { c with server := { c.server with stage := .command } }
    (c.answer true, some (c.server.call, message))
  else ((c.answer false).close, none)

/-- A part of `tcpget`, from one `readn` to the next: `ends` is whether the `readn` gives up, and `ok`
whether memory is allocated or the message gets into the queue.  A message that is acknowledged comes
with the number in its header. -/
def serve (ends ok : Bool) (behind : Nat → Byte) : Option (Conn × Option (Nat × Message)) :=
  match c.server.stage with
  | .command =>
    (c.readn SMSGLEN ends).bind fun r => (r.2.command (r.1.map Prod.snd)).map fun c => (c, none)
  | .queuename =>
    (c.readn SMSGLEN ends).map fun r => (r.2.queuename (r.1.map Prod.snd), none)
  | .header =>
    (c.readn SMSGLEN ends).map fun r =>
      (r.2.header ((r.1.head?.map Prod.fst).getD c.server.call) (r.1.map Prod.snd) ok, none)
  | .body =>
    (c.readn c.server.msglen.toNat ends).map fun r => r.2.body (r.1.map Prod.snd) ok behind

/-- `readn` of `DTA_SENDMSG`, which may give up as well. -/
def receive : Option Bool × Conn :=
  match c.toClient with
  | ok :: rest => (some ok, { c with toClient := rest })
  | [] => (none, c)

/-- The connection breaks, with so much of what is under way. -/
def cut (server client : Nat) : Conn :=
  { c with
    up := false
    toServer := c.toServer.take server
    toClient := c.toClient.take client }

end Conn

/-- Both numbers of the header are printed in 10 characters. -/
def Call.Fits (m : Call) : Prop :=
  (printLong m.priority).length ≤ 10 ∧ (printLong m.message.length).length ≤ 10

instance (m : Call) : Decidable m.Fits := inferInstanceAs (Decidable (_ ∧ _))

/-- What the server reads next when it has read so many packets. -/
def stageAt : Nat → Stage
  | 1 => .queuename
  | 2 => .header
  | 3 => .body
  | _ => .command

/-- The bytes of the packets from one number to another. -/
def underWay (remotequeue : Message) (m : Call) (served written : Nat) : List (Nat × Byte) :=
  (List.range' served (written - served)).flatMap fun k =>
    (packet remotequeue m k).map fun b => (m.id, b)

/-- `written` packets of a message are written and `read` answers are read, and the server is at the
packet `served` of the same message.  `acked` is what it has acknowledged. -/
structure Sync (remotequeue : Message) (m : Call) (acked : List (Nat × Message))
    (written read served : Nat) (c : Conn) : Prop where
  read_le : read ≤ served
  served_le : served ≤ 4
  written_le : written ≤ 4
  answers : c.toClient.length = served - read
  last : served = 4 → c.toClient.getLast? = some true → (m.id, m.message) ∈ acked
  bytes : c.up → c.toServer = underWay remotequeue m served written
  stage : c.up → c.server.stage = stageAt served
  body : c.up → served = 3 → c.server.msglen = m.message.length ∧ c.server.call = m.id
  /-- An empty message is there before it is written. -/
  ahead : c.up → written < served → written = 3 ∧ m.message = []

attribute [grind =] Conn.count Conn.answer Conn.close Conn.cut stageAt

/-! ## Headers -/

variable {remotequeue : Message} {m : Call} {acked : List (Nat × Message)}
  {written read served : Nat} {c c' : Conn} {ends ok : Bool} {behind : Nat → Byte}
  {stored : Option (Nat × Message)}

theorem length_inBuffer (text : Message) : (inBuffer text).length = SMSGLEN := by
  simp [inBuffer]

/-- A text that fits into its buffer is read up to its end. -/
theorem cstr_inBuffer {text : Message} (hlen : text.length < SMSGLEN) (hnul : ∀ c ∈ text, c ≠ 0) :
    cstr (inBuffer text) = text := by
  have hall : ∀ c ∈ text, decide (c ≠ 0) = true := fun c hc => decide_eq_true (hnul c hc)
  have hzeros : (List.replicate SMSGLEN (0 : Byte)).take (SMSGLEN - text.length) =
      0 :: List.replicate (SMSGLEN - text.length - 1) 0 := by
    rw [List.take_replicate, Nat.min_eq_left (Nat.sub_le _ _), ← List.replicate_succ]
    congr 1
    omega
  unfold cstr inBuffer
  rw [List.take_append, List.take_of_length_le hlen.le, hzeros,
    List.takeWhile_append_of_pos hall]
  simp

/-- A whole packet takes the place of what was in the buffer. -/
theorem overlay_full {smsgbuf got : Message} (h : got.length = SMSGLEN) :
    overlay smsgbuf got = got := by
  unfold overlay
  rw [← h, List.take_left]

/-- **The server reads the numbers of a header that fits.** -/
theorem sscanf_header (h : m.Fits) (msgprio msglen : Int) :
    sscanf (cstr (inBuffer (header m))) msgprio msglen =
      (m.priority, (m.message.length : Int)) := by
  obtain ⟨hprio, hlen⟩ := h
  have hwidth (z : Int) (hz : (printLong z).length ≤ 10) : (printWidth 10 z).length = 10 := by
    rw [printWidth, List.length_append, List.length_replicate]
    omega
  have hnul (z : Int) : ∀ c ∈ printWidth 10 z, c ≠ 0 := by
    intro c hc
    rcases List.mem_append.mp hc with hc | hc
    · obtain ⟨-, rfl⟩ := List.mem_replicate.mp hc
      decide
    · exact printLong_ne_zero z c hc
  have htext : cstr (inBuffer (header m)) = header m := by
    apply cstr_inBuffer
    · rw [header, List.length_append, List.length_cons, hwidth _ hprio, hwidth _ hlen]
      decide
    · intro c hc
      rcases List.mem_append.mp hc with hc | hc
      · exact hnul _ c hc
      · rcases List.mem_cons.mp hc with rfl | hc
        · decide
        · exact hnul _ c hc
  have hfirst := @scanLong_printWidth _ _ (32 :: printWidth 10 m.message.length) hprio
    (by rintro c hc; obtain rfl := Option.some.inj hc; decide)
  have hsecond : scanLong 10 (32 :: printWidth 10 m.message.length) =
      some ((m.message.length : Int), []) := by
    have hspace := @scanLong_printWidth _ _ [] hlen (by simp)
    rw [List.append_nil] at hspace
    unfold scanLong at hspace ⊢
    rw [List.dropWhile_cons_of_pos (by decide)]
    exact hspace
  rw [htext, sscanf, header, hfirst]
  dsimp only
  rw [hsecond]

/-! ## In step -/

theorem underWay_of_le (h : written ≤ served) : underWay remotequeue m served written = [] := by
  rw [underWay, Nat.sub_eq_zero_of_le h]
  rfl

/-- The packet that the server is at comes first. -/
theorem underWay_of_lt (h : served < written) : underWay remotequeue m served written =
    ((packet remotequeue m served).map fun b => (m.id, b)) ++
      underWay remotequeue m (served + 1) written := by
  have hsub : written - served = written - (served + 1) + 1 := by omega
  rw [underWay, hsub, List.range'_succ, List.flatMap_cons]
  rfl

/-- A packet that is written is the last under way. -/
theorem underWay_succ (h : served ≤ written) : underWay remotequeue m served (written + 1) =
    underWay remotequeue m served written ++
      (packet remotequeue m written).map fun b => (m.id, b) := by
  have hsub : written + 1 - served = written - served + 1 := by omega
  rw [underWay, hsub, List.range'_concat, List.flatMap_append, Nat.one_mul, Nat.add_sub_cancel' h]
  simp [underWay]

/-- `readn` of a packet that is there. -/
theorem Conn.readn_packet (ends : Bool) {id : Nat} {bytes : Message} {rest : List (Nat × Byte)}
    (h : c.toServer = (bytes.map fun b => (id, b)) ++ rest) :
    c.readn bytes.length ends = some (bytes.map fun b => (id, b), { c with toServer := rest }) := by
  have hlength : bytes.length = (bytes.map fun b => (id, b)).length := (List.length_map _).symm
  unfold readn
  rw [h, if_pos (by simp)]
  conv_lhs => rw [hlength]
  rw [List.take_left, List.drop_left]

/-- `readn` that waits in vain. -/
theorem Conn.readn_none {n : Nat} (h : c.toServer = []) (hn : 0 < n)
    {r : List (Nat × Byte) × Conn} (hread : c.readn n ends = some r) : r = ([], c) := by
  obtain ⟨up, toServer, toClient, server, early⟩ := c
  obtain rfl : toServer = [] := h
  simp only [readn, List.length_nil] at hread
  rw [if_neg (by omega)] at hread
  split_ifs at hread
  exact (Option.some.inj hread).symm

/-- A packet is answered, and what is behind it is under way. -/
theorem Sync.served_succ (h : Sync remotequeue m acked written read served c) (hserved : served < 4)
    {ok : Bool} (hclient : c'.toClient = c.toClient ++ [ok]) {acked' : List (Nat × Message)}
    (hacked : served = 3 → ok → (m.id, m.message) ∈ acked')
    (hbytes : c'.up → c'.toServer = underWay remotequeue m (served + 1) written)
    (hstage : c'.up → c'.server.stage = stageAt (served + 1))
    (hbody : c'.up → served + 1 = 3 → c'.server.msglen = m.message.length ∧ c'.server.call = m.id)
    (hahead : c'.up → written ≤ served → written = 3 ∧ m.message = []) :
    Sync remotequeue m acked' written read (served + 1) c' where
  read_le := Nat.le_succ_of_le h.read_le
  served_le := hserved
  written_le := h.written_le
  answers := by
    have hread := h.read_le
    rw [hclient, List.length_append, h.answers, List.length_singleton]
    omega
  last := by
    intro hfour hlast
    rw [hclient, List.getLast?_append, List.getLast?_singleton, Option.some_or] at hlast
    exact hacked (by omega) (Option.some.inj hlast)
  bytes := hbytes
  stage := hstage
  body := hbody
  ahead := fun hup hlt => hahead hup (Nat.le_of_lt_succ hlt)

/-- A server that finds nothing where a command is due ends; the answers that it has written stay. -/
theorem Sync.serve_idle (h : Sync remotequeue m acked written read served c)
    (hnone : c.toServer = []) (hstage : c.server.stage = .command)
    (hserve : c.serve ends ok behind = some (c', stored)) :
    Sync remotequeue m (acked ++ stored.toList) written read served c' := by
  have hread : ∀ r, c.readn SMSGLEN ends = some r → r = ([], c) := fun r hr =>
    Conn.readn_none hnone (by decide) hr
  simp only [Conn.serve, hstage] at hserve
  obtain ⟨r, hr, hserve⟩ := Option.bind_eq_some_iff.mp hserve
  obtain rfl := hread r hr
  obtain ⟨rfl, rfl⟩ : c.close = c' ∧ none = stored := by simpa [Conn.command] using hserve
  rw [Option.toList_none, List.append_nil]
  exact ⟨h.read_le, h.served_le, h.written_le, h.answers, h.last, nofun, nofun, nofun, nofun⟩

theorem Conn.count_self (n : Nat) : c.count n n = c := by
  unfold count
  rw [if_neg fun h => Nat.lt_irrefl n h.2]

/-- What `tcpget` does with a whole command. -/
theorem Conn.command_whole : c.command (inBuffer sendmsg) =
    some (({ c with server := { c.server with
      stage := .queuename, smsgbuf := List.replicate SMSGLEN 0 } } : Conn).answer true) := by
  have htext : cstr (overlay c.server.smsgbuf (inBuffer sendmsg)) = sendmsg := by
    rw [overlay_full (length_inBuffer _)]
    exact cstr_inBuffer (by decide) (List.forall_iff_forall_mem.mp (by decide))
  have hne : inBuffer sendmsg ≠ [] := List.ne_nil_of_length_pos (by rw [length_inBuffer]; decide)
  unfold command
  rw [if_neg hne, length_inBuffer, count_self]
  dsimp only
  rw [htext, if_pos rfl]

/-- What it does with a whole name. -/
theorem Conn.queuename_whole (text : Message) : c.queuename (inBuffer text) =
    ({ c with server := { c.server with
      stage := .header, smsgbuf := inBuffer text } } : Conn).answer true := by
  unfold queuename
  rw [length_inBuffer, count_self]
  dsimp only
  rw [overlay_full (length_inBuffer _)]

/-- What it does with a whole header that fits. -/
theorem Conn.header_whole (hfits : m.Fits) (call : Nat) :
    c.header call (inBuffer (SendMsg.header m)) ok =
      if ok then
        ({ c with server := ⟨.body, inBuffer (SendMsg.header m), m.priority, m.message.length, call⟩ } :
          Conn).answer true
      else
        ({ c with server := ⟨.body, inBuffer (SendMsg.header m), m.priority, m.message.length, call⟩ } :
          Conn).close := by
  unfold header
  rw [length_inBuffer, count_self]
  dsimp only
  rw [overlay_full (length_inBuffer _), sscanf_header hfits]
  simp

/-- What it does with a whole message. -/
theorem Conn.body_whole (c : Conn) (hlen : c.server.msglen = m.message.length) :
    c.body m.message ok behind =
      if ok then (({ c with server := { c.server with stage := .command } } : Conn).answer true,
        some (c.server.call, m.message))
      else ((c.answer false).close, none) := by
  unfold body
  simp only [hlen, Int.toNat_natCast, count_self, Nat.sub_self, List.range_zero, List.map_nil,
    List.append_nil]

/-- A packet is answered while the connection stands, and what is behind it is under way. -/
theorem Sync.answered (h : Sync remotequeue m acked written read served c) (hup : c.up)
    (hserved : served < 4) {server : Server} (hstage : server.stage = stageAt (served + 1))
    (hbody : served + 1 = 3 → server.msglen = m.message.length ∧ server.call = m.id)
    (hahead : written ≤ served → written = 3 ∧ m.message = [])
    {acked' : List (Nat × Message)} (hacked : served = 3 → (m.id, m.message) ∈ acked') :
    Sync remotequeue m acked' written read (served + 1)
      (({ c with toServer := underWay remotequeue m (served + 1) written, server := server } :
        Conn).answer true) :=
  h.served_succ hserved (if_pos hup) (fun hthree _ => hacked hthree) (fun _ => rfl)
    (fun _ => hstage) (fun _ => hbody) fun _ => hahead

theorem map_snd_tagged (id : Nat) (bytes : Message) :
    (bytes.map fun b => (id, b)).map Prod.snd = bytes := by
  rw [List.map_map]
  exact List.map_id _

/-- **The message itself is acknowledged**, or refused. -/
theorem Sync.serve_body (h : Sync remotequeue m acked written read 3 c) (hup : c.up)
    (hread : c.readn m.message.length ends = some (m.message.map fun b => (m.id, b),
      { c with toServer := underWay remotequeue m 4 written }))
    (hahead : written ≤ 3 → written = 3 ∧ m.message = [])
    (hserve : c.serve ends ok behind = some (c', stored)) :
    Sync remotequeue m (acked ++ stored.toList) written read 4 c' := by
  have hstage : c.server.stage = .body := h.stage hup
  obtain ⟨hlen, hcall⟩ := h.body hup rfl
  simp only [Conn.serve, hstage, hlen, Int.toNat_natCast, hread, Option.map_some, Option.some.injEq,
    map_snd_tagged] at hserve
  rw [Conn.body_whole { c with toServer := underWay remotequeue m 4 written } hlen] at hserve
  cases ok with
  | true =>
      obtain ⟨rfl, rfl⟩ := Prod.mk.inj hserve
      refine h.answered hup (by omega) rfl (by omega) hahead fun _ => ?_
      simp [hcall]
  | false =>
      obtain ⟨rfl, rfl⟩ := Prod.mk.inj hserve
      exact h.served_succ (by omega) (if_pos hup) nofun nofun nofun nofun nofun

/-- **The server takes the packet that it is due**, or ends there. -/
theorem Sync.serve_packet (h : Sync remotequeue m acked written read served c) (hup : c.up)
    (hw : served < written) (hfits : m.Fits)
    (hserve : c.serve ends ok behind = some (c', stored)) :
    ∃ served', Sync remotequeue m (acked ++ stored.toList) written read served' c' := by
  have hstage := h.stage hup
  have hbytes := h.bytes hup
  have hbody := h.body hup
  rw [underWay_of_lt hw] at hbytes
  have hlt : served < 4 := Nat.lt_of_lt_of_le hw h.written_le
  have hread := Conn.readn_packet ends hbytes
  have hbuffered (text : Message) (hpacket : packet remotequeue m served = inBuffer text) :
      c.readn SMSGLEN ends = some ((inBuffer text).map fun b => (m.id, b),
        { c with toServer := underWay remotequeue m (served + 1) written }) := by
    rw [hpacket, length_inBuffer] at hread
    exact hread
  obtain rfl | rfl | rfl | rfl : served = 0 ∨ served = 1 ∨ served = 2 ∨ served = 3 := by omega
  · have hstage' : c.server.stage = .command := hstage
    simp only [Conn.serve, hstage', hbuffered sendmsg rfl, Option.bind_some, map_snd_tagged,
      Conn.command_whole, Option.map_some, Option.some.injEq, Prod.mk.injEq] at hserve
    obtain ⟨rfl, rfl⟩ := hserve
    exact ⟨1, h.answered hup hlt rfl (by omega) (by omega) (by omega)⟩
  · have hstage' : c.server.stage = .queuename := hstage
    simp only [Conn.serve, hstage', hbuffered remotequeue rfl, map_snd_tagged,
      Conn.queuename_whole, Option.map_some, Option.some.injEq, Prod.mk.injEq] at hserve
    obtain ⟨rfl, rfl⟩ := hserve
    exact ⟨2, h.answered hup hlt rfl (by omega) (by omega) (by omega)⟩
  · have hstage' : c.server.stage = .header := hstage
    have hcall : (((inBuffer (header m)).map fun b => (m.id, b)).head?.map Prod.fst).getD
        c.server.call = m.id := by
      obtain ⟨b, rest, hcons⟩ := List.exists_cons_of_ne_nil
        (List.ne_nil_of_length_pos (by rw [length_inBuffer]; decide : 0 < (inBuffer (header m)).length))
      rw [hcons]
      rfl
    simp only [Conn.serve, hstage', hbuffered (header m) rfl, map_snd_tagged, hcall,
      Conn.header_whole hfits, Option.map_some, Option.some.injEq, Prod.mk.injEq] at hserve
    obtain ⟨hserve, rfl⟩ := hserve
    cases ok with
    | true =>
        obtain rfl := hserve
        exact ⟨3, h.answered hup hlt rfl (fun _ => ⟨rfl, rfl⟩) (by omega) (by omega)⟩
    | false =>
        obtain rfl := hserve
        rw [Option.toList_none, List.append_nil]
        exact ⟨2, h.read_le, h.served_le, h.written_le, h.answers, h.last, nofun, nofun, nofun, nofun⟩
  · exact ⟨4, h.serve_body hup hread (by omega) hserve⟩

/-- A `readn` that gives up while the connection stands is counted. -/
theorem Conn.count_ne_zero (hup : c.up) {n k : Nat} (hlt : k < n) : (c.count n k).early ≠ 0 := by
  unfold count
  rw [if_pos ⟨hup, hlt⟩]
  exact Nat.succ_ne_zero _

/-- What is counted at the `readn` of the header stays counted. -/
theorem Conn.early_header (call : Nat) (got : Message) :
    (c.header call got ok).early = (c.count SMSGLEN got.length).early := by
  unfold header
  dsimp only
  split_ifs <;> rfl

/-- What is counted at the `readn` of the message stays counted. -/
theorem Conn.early_body (got : Message) :
    (c.body got ok behind).1.early = (c.count c.server.msglen.toNat got.length).early := by
  unfold body
  dsimp only
  split_ifs <;> rfl

/-- A server that waits in vain has read less than a packet, unless the message is empty. -/
theorem Sync.serve_waiting (h : Sync remotequeue m acked written read served c) (hup : c.up)
    (hw : written ≤ served) (hserve : c.serve ends ok behind = some (c', stored))
    (hearly : c'.early = 0) :
    ∃ served', Sync remotequeue m (acked ++ stored.toList) written read served' c' := by
  have hstage := h.stage hup
  have hbytes := h.bytes hup
  have hnone : c.toServer = [] := hbytes.trans (underWay_of_le hw)
  have hle := h.served_le
  have hread (n : Nat) (hn : 0 < n) (r) (hr : c.readn n ends = some r) : r = ([], c) :=
    Conn.readn_none hnone hn hr
  have hshort : ([] : Message).length < SMSGLEN := by decide
  obtain hends | rfl | rfl | rfl : (served = 0 ∨ served = 4) ∨ served = 1 ∨ served = 2 ∨ served = 3 := by
    omega
  · refine ⟨served, h.serve_idle hnone ?_ hserve⟩
    rw [hstage]
    rcases hends with rfl | rfl <;> rfl
  · have hstage' : c.server.stage = .queuename := hstage
    simp only [Conn.serve, hstage'] at hserve
    obtain ⟨r, hr, hserve⟩ := Option.map_eq_some_iff.mp hserve
    obtain rfl := hread SMSGLEN (by decide) r hr
    rw [← (Prod.mk.inj hserve).1] at hearly
    exact absurd hearly (Conn.count_ne_zero hup hshort)
  · have hstage' : c.server.stage = .header := hstage
    simp only [Conn.serve, hstage'] at hserve
    obtain ⟨r, hr, hserve⟩ := Option.map_eq_some_iff.mp hserve
    obtain rfl := hread SMSGLEN (by decide) r hr
    rw [← (Prod.mk.inj hserve).1, Conn.early_header] at hearly
    exact absurd hearly (Conn.count_ne_zero hup hshort)
  · have hstage' : c.server.stage = .body := hstage
    obtain ⟨hlen, hcall⟩ := h.body hup rfl
    by_cases hempty : m.message = []
    · -- nothing is to be read of an empty message
      have hwritten : written = 3 ∨ written < 3 := by omega
      refine ⟨4, h.serve_body hup ?_ (fun _ => ?_) hserve⟩
      · rw [hempty, underWay_of_le (by omega)]
        obtain ⟨up, toServer, toClient, server, early⟩ := c
        obtain rfl : toServer = [] := hnone
        rfl
      · rcases hwritten with hthree | hlt
        · exact ⟨hthree, hempty⟩
        · exact h.ahead hup hlt
    · have hpos : 0 < c.server.msglen.toNat := by
        have hlength := List.length_pos_iff.mpr hempty
        omega
      simp only [Conn.serve, hstage'] at hserve
      obtain ⟨r, hr, hserve⟩ := Option.map_eq_some_iff.mp hserve
      obtain rfl := hread _ hpos r hr
      have hsame : (c.body [] ok behind).1 = c' := congrArg Prod.fst hserve
      rw [← hsame, Conn.early_body] at hearly
      exact absurd hearly (Conn.count_ne_zero hup hpos)

/-- A server cannot be heard over a broken connection, and cannot mend it. -/
theorem Conn.serve_down (hdown : c.up = false)
    (hserve : c.serve ends ok behind = some (c', stored)) :
    c'.up = false ∧ c'.toClient = c.toClient := by
  have hread (n : Nat) (r) (hr : c.readn n ends = some r) :
      r.2.up = false ∧ r.2.toClient = c.toClient := by
    unfold readn at hr
    split_ifs at hr <;> obtain rfl := Option.some.inj hr <;> exact ⟨hdown, rfl⟩
  unfold serve at hserve
  cases hstage : c.server.stage with
  | command =>
      rw [hstage] at hserve
      obtain ⟨r, hr, hserve⟩ := Option.bind_eq_some_iff.mp hserve
      obtain ⟨d, hd, hserve⟩ := Option.map_eq_some_iff.mp hserve
      obtain ⟨rfl, -⟩ := Prod.mk.inj hserve
      grind [command]
  | queuename =>
      rw [hstage] at hserve
      obtain ⟨r, hr, hserve⟩ := Option.map_eq_some_iff.mp hserve
      obtain ⟨rfl, -⟩ := Prod.mk.inj hserve
      grind [queuename]
  | header =>
      rw [hstage] at hserve
      obtain ⟨r, hr, hserve⟩ := Option.map_eq_some_iff.mp hserve
      obtain ⟨rfl, -⟩ := Prod.mk.inj hserve
      grind [header]
  | body =>
      rw [hstage] at hserve
      obtain ⟨r, hr, hserve⟩ := Option.map_eq_some_iff.mp hserve
      grind [body]

/-! ## What the rest needs -/

/-- `DTA_SENDMSG` has written and read so much, and the server is at the same message. -/
def InStep (remotequeue : Message) (m : Call) (acked : List (Nat × Message)) (written read : Nat)
    (c : Conn) : Prop :=
  ∃ served, Sync remotequeue m acked written read served c

/-- No message is under way. -/
def Conn.Quiet (c : Conn) : Prop :=
  c.toClient = [] ∧ (c.up → c.toServer = [] ∧ c.server.stage = .command)

/-- **The server takes what it is due** as long as nothing ends early. -/
theorem InStep.serve (h : InStep remotequeue m acked written read c) (hfits : m.Fits)
    (hserve : c.serve ends ok behind = some (c', stored)) (hearly : c'.early = 0) :
    InStep remotequeue m (acked ++ stored.toList) written read c' := by
  obtain ⟨served, h⟩ := h
  cases hup : c.up with
  | true =>
      by_cases hw : served < written
      · exact h.serve_packet hup hw hfits hserve
      · exact h.serve_waiting hup (Nat.le_of_not_lt hw) hserve hearly
  | false =>
      obtain ⟨hdown, hclient⟩ := Conn.serve_down hup hserve
      have hnot : ¬ c'.up := by simp [hdown]
      exact ⟨served, h.read_le, h.served_le, h.written_le, hclient ▸ h.answers,
        fun hfour hlast => List.mem_append_left _ (h.last hfour (hclient ▸ hlast)),
        fun hup => absurd hup hnot, fun hup => absurd hup hnot, fun hup => absurd hup hnot,
        fun hup => absurd hup hnot⟩

theorem Conn.Quiet.serve (h : c.Quiet) (hserve : c.serve ends ok behind = some (c', stored)) :
    c'.Quiet := by
  obtain ⟨hclient, hquiet⟩ := h
  cases hup : c.up with
  | true =>
      obtain ⟨hnone, hstage⟩ := hquiet hup
      unfold Conn.serve at hserve
      rw [hstage] at hserve
      obtain ⟨r, hr, hserve⟩ := Option.bind_eq_some_iff.mp hserve
      obtain rfl := readn_none hnone (by decide) hr
      obtain ⟨rfl, rfl⟩ : c.close = c' ∧ none = stored := by simpa [command] using hserve
      exact ⟨hclient, nofun⟩
  | false =>
      obtain ⟨hdown, hsame⟩ := serve_down hup hserve
      exact ⟨hsame.trans hclient, fun hup => absurd hup (by simp [hdown])⟩

/-- A message is begun. -/
theorem Conn.Quiet.inStep (h : c.Quiet) (remotequeue : Message) (m : Call)
    (acked : List (Nat × Message)) : InStep remotequeue m acked 0 0 c :=
  ⟨0, le_rfl, Nat.zero_le 4, Nat.zero_le 4, by rw [h.1]; rfl, nofun,
    fun hup => (h.2 hup).1.trans (underWay_of_le le_rfl).symm, fun hup => (h.2 hup).2, nofun,
    fun _ hlt => absurd hlt (Nat.lt_irrefl 0)⟩

/-- A packet is written whole, or the connection is broken. -/
theorem InStep.write (h : InStep remotequeue m acked written read c) (hw : written < 4) (n : Nat)
    (hearly : (c.write m.id (packet remotequeue m written) n).early = 0) :
    InStep remotequeue m acked (written + 1) read (c.write m.id (packet remotequeue m written) n) := by
  obtain ⟨served, h⟩ := h
  refine ⟨served, h.read_le, h.served_le, hw, h.answers, h.last, fun hup => ?_, h.stage, h.body,
    fun hup hlt => ?_⟩
  · have hall : (packet remotequeue m written).length ≤ n := by
      by_contra hn
      exact Conn.count_ne_zero (c := c) hup (Nat.lt_of_not_le hn) hearly
    have hbytes := h.bytes hup
    have hup' : c.up := hup
    simp only [Conn.write]
    rw [if_pos hup', List.take_of_length_le hall, hbytes]
    by_cases hle : served ≤ written
    · exact (underWay_succ hle).symm
    · obtain ⟨rfl, hempty⟩ := h.ahead hup (Nat.lt_of_not_le hle)
      rw [underWay_of_le (Nat.le_of_not_le hle), underWay_of_le (Nat.lt_of_not_le hle)]
      simp [packet, hempty]
  · obtain ⟨rfl, -⟩ := h.ahead hup (Nat.lt_of_succ_lt hlt)
    have hle := h.served_le
    omega

/-- An answer is read. -/
theorem InStep.receive (h : InStep remotequeue m acked written read c) {rest : List Bool}
    (hclient : c.toClient = ok :: rest) :
    InStep remotequeue m acked written (read + 1) { c with toClient := rest } := by
  obtain ⟨served, h⟩ := h
  have hanswers := h.answers
  rw [hclient, List.length_cons] at hanswers
  refine ⟨served, by omega, h.served_le, h.written_le, ?_, fun hfour hlast => h.last hfour ?_,
    h.bytes, h.stage, h.body, h.ahead⟩
  · dsimp only
    omega
  · rw [hclient, List.getLast?_cons, hlast]
    rfl

/-- What is counted stays counted. -/
theorem Conn.early_le_count (n k : Nat) : c.early ≤ (c.count n k).early := by
  unfold count
  dsimp only
  split_ifs <;> omega

theorem Conn.early_le_write (id : Nat) (bytes : Message) (n : Nat) :
    c.early ≤ (c.write id bytes n).early := c.early_le_count bytes.length n

theorem Conn.early_le_serve (hserve : c.serve ends ok behind = some (c', stored)) :
    c.early ≤ c'.early := by
  have hread {n : Nat} {r : List (Nat × Byte) × Conn} (hr : c.readn n ends = some r) (k l : Nat) :
      c.early ≤ (r.2.count k l).early := by
    have hcount := r.2.early_le_count k l
    unfold readn at hr
    split_ifs at hr <;> obtain rfl := Option.some.inj hr <;> exact hcount
  unfold serve at hserve
  cases hstage : c.server.stage with
  | command =>
      rw [hstage] at hserve
      obtain ⟨r, hr, hserve⟩ := Option.bind_eq_some_iff.mp hserve
      obtain ⟨d, hd, hserve⟩ := Option.map_eq_some_iff.mp hserve
      obtain ⟨rfl, -⟩ := Prod.mk.inj hserve
      have hcount := hread hr SMSGLEN (r.1.map Prod.snd).length
      have hsame := hread hr 0 0
      rw [count_self] at hsame
      grind [command]
  | queuename =>
      rw [hstage] at hserve
      obtain ⟨r, hr, hserve⟩ := Option.map_eq_some_iff.mp hserve
      obtain ⟨rfl, -⟩ := Prod.mk.inj hserve
      exact hread hr _ _
  | header =>
      rw [hstage] at hserve
      obtain ⟨r, hr, hserve⟩ := Option.map_eq_some_iff.mp hserve
      obtain ⟨rfl, -⟩ := Prod.mk.inj hserve
      rw [early_header]
      exact hread hr _ _
  | body =>
      rw [hstage] at hserve
      obtain ⟨r, hr, hserve⟩ := Option.map_eq_some_iff.mp hserve
      have hsame : (r.2.body (r.1.map Prod.snd) ok behind).1 = c' := congrArg Prod.fst hserve
      rw [← hsame, early_body]
      exact hread hr _ _

/-- No answer is read from a broken connection. -/
theorem InStep.receive_none (h : InStep remotequeue m acked written read c) (hread : read < 4)
    (hup : c.up = false) (hclient : c.toClient = []) :
    InStep remotequeue m acked written (read + 1) c := by
  obtain ⟨served, h⟩ := h
  have hnot : ¬ c.up := by simp [hup]
  exact ⟨read + 1, le_rfl, hread, h.written_le, by simp [hclient], by simp [hclient],
    fun hup => absurd hup hnot, fun hup => absurd hup hnot, fun hup => absurd hup hnot,
    fun hup => absurd hup hnot⟩

/-- An answer is read, or `DTA_SENDMSG` gives up waiting for it, which is counted. -/
theorem InStep.receive_any (h : c.early = 0 → InStep remotequeue m acked written read c)
    (hread : read < 4)
    (hearly : (c.receive.2.count 1 (if c.receive.1.isSome then 1 else 0)).early = 0) :
    InStep remotequeue m acked written (read + 1)
      (c.receive.2.count 1 (if c.receive.1.isSome then 1 else 0)) := by
  unfold Conn.receive at *
  cases hclient : c.toClient with
  | cons ok rest =>
      rw [hclient] at hearly
      dsimp only at hearly ⊢
      rw [Option.isSome_some, if_pos rfl, Conn.count_self] at *
      exact (h hearly).receive hclient
  | nil =>
      rw [hclient] at hearly
      dsimp only at hearly ⊢
      rw [Option.isSome_none, if_neg Bool.false_ne_true] at *
      cases hup : c.up with
      | true => exact absurd hearly (Conn.count_ne_zero hup Nat.one_pos)
      | false =>
          have hsame : c.count 1 0 = c := by
            unfold Conn.count
            rw [if_neg fun h => absurd h.1 (by simp [hup])]
          rw [hsame] at hearly ⊢
          exact (h hearly).receive_none hread hup hclient

/-- **The last answer is given for the message itself.** -/
theorem InStep.last (h : InStep remotequeue m acked 4 3 c) {rest : List Bool}
    (hclient : c.toClient = ok :: rest) :
    (ok → (m.id, m.message) ∈ acked) ∧ Conn.Quiet { c with toClient := rest } := by
  obtain ⟨served, h⟩ := h
  have hanswers := h.answers
  have hle := h.served_le
  rw [hclient, List.length_cons] at hanswers
  obtain rfl : served = 4 := by omega
  obtain rfl : rest = [] := List.length_eq_zero_iff.mp (by omega)
  refine ⟨fun hok => h.last rfl ?_, rfl, fun hup => ⟨?_, h.stage hup⟩⟩
  · rw [hclient, hok]
    rfl
  · exact (h.bytes hup).trans (underWay_of_le le_rfl)

/-- A connection that breaks. -/
theorem InStep.cut (h : InStep remotequeue m acked written read c) (server client : Nat) :
    InStep remotequeue m acked written read (c.cut server client) := by
  obtain ⟨served, h⟩ := h
  have hanswers := h.answers
  have hread := h.read_le
  have hle := h.served_le
  have hlength : (c.toClient.take client).length = min client (served - read) := by
    rw [List.length_take, hanswers]
  refine ⟨read + (c.toClient.take client).length, by omega, by omega, h.written_le, ?_, ?_, nofun,
    nofun, nofun, nofun⟩
  · exact (Nat.add_sub_cancel_left _ _).symm
  · intro hfour hlast
    have hall : c.toClient.take client = c.toClient := List.take_of_length_le (by omega)
    exact h.last (by omega) (hall ▸ hlast)

theorem Conn.Quiet.cut (h : c.Quiet) (server client : Nat) : (c.cut server client).Quiet :=
  ⟨by simp [Conn.cut, h.1], nofun⟩

end Dta.SendMsg
