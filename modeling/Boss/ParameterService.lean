import Boss.Decimal
import Boss.Runs

/-!
# Requests and answers of the parameter service

A request and its answer are each sent as their length, in ten characters, and the text.  The server
takes what one `read` gives for the request.  The client takes what one `read` gives for the
beginning of the answer, and if the answer is a page or longer, it reads what is behind the first
page: it counts on a full one.

The streams hold what was written and not read yet.  A `read` of the operating system gives what has
arrived, a chunk of any size that is not empty; behind the chunks that are listed everything has
arrived.  Definitions give `none` where a `read` never ends and where a buffer is overrun.

Main results: `read_exact`, `sound_iff_whole` and, for runs, `exchanges_synced_iff`.
-/

namespace ParameterService

open Runs Decimal

/-- The size of the client's pages. -/
def MAXSIZE : Nat := 2048

def cstr (s : List Byte) : List Byte := s.takeWhile (· ≠ 0)

/-- `%10d` -/
def header (n : Nat) : List Byte := List.replicate (10 - (digitText n).length) 32 ++ digitText n

def frame (text : List Byte) : List Byte := header text.length ++ text

/-! ## The socket -/

/-- The loop of `UnixSocket::read`, whose chunks have the sizes `cuts`.  What was read, what is left
of the stream, and the chunks behind. -/
def readLoop (min_size max_size : Nat) :
    Nat → List Nat → List Byte → List Byte → Option (List Byte × List Byte × List Nat)
  | 0, _, _, _ => none
  | rounds + 1, cuts, buf, stream =>
    let arrived := max 1 (cuts.headD stream.length)
    let rc := min arrived (min (max_size - buf.length) stream.length)
    if rc = 0 then none
    else if buf.length + rc < min_size then
      readLoop min_size max_size rounds cuts.tail (buf ++ stream.take rc) (stream.drop rc)
    else some (buf ++ stream.take rc, stream.drop rc, cuts.tail)

def read (cuts : List Nat) (min_size max_size : Nat) (stream : List Byte) :
    Option (List Byte × List Byte × List Nat) :=
  readLoop min_size max_size (stream.length + 1) cuts [] stream

/-- What `strcpy` finds behind the header of a chunk in a buffer of `room` zeros, after a zero was
put at `last`. -/
def behindHeader (room last : Nat) (chunk : List Byte) : List Byte :=
  cstr (((chunk ++ List.replicate (room - chunk.length) 0).set last 0).drop 10)

/-! ## The two sides -/

/-- What `Session::run` makes of a chunk: its `size`, and the request that it handles. -/
def request (maxSize : Nat) (size : Int) (chunk : List Byte) : Option (Int × List Byte) :=
  let size := if cstr chunk = [] then size else atol (chunk.take 10)
  if 0 ≤ size + 10 ∧ size + 10 < maxSize then
    some (size, behindHeader maxSize (size + 10).toNat chunk)
  else none

/-- The loop over the full pages. -/
def readPages :
    Nat → List Nat → List Byte → List Byte → Option (List Byte × List Byte × List Nat)
  | 0, cuts, result, stream => some (result, stream, cuts)
  | page + 1, cuts, result, stream =>
    (read cuts MAXSIZE MAXSIZE stream).bind fun r =>
      readPages page r.2.2 (result ++ cstr r.1) r.2.1

/-- How `Client::handleRequest` reads the answer; `size + 10` is an `unsigned long`.  What it
returns, and what is left of the stream. -/
def handleRequest (cuts : List Nat) (stream : List Byte) : Option (List Byte × List Byte) :=
  (read cuts 1 MAXSIZE stream).bind fun first =>
    let size10 := ((atol (first.1.take 10) + 10) % 18446744073709551616).toNat
    let result := behindHeader (MAXSIZE + 2) (min size10 MAXSIZE) first.1
    let page := size10 / MAXSIZE
    let flag := size10 % MAXSIZE
    if page = 0 then some (result, first.2.1)
    else
      (readPages (page - 1) first.2.2 result first.2.1).bind fun pages =>
        if flag = 0 then some (pages.1, pages.2.1)
        else
          (read pages.2.2 flag flag pages.2.1).map fun r => (pages.1 ++ cstr r.1, r.2.1)

/-! ## The service -/

/-- A request that fits into the buffers of both sides. -/
structure Request (maxSize : Nat) where
  text : List Byte
  nul : 0 ∉ text
  client : text.length + 11 ≤ 1024
  server : text.length + 10 < maxSize

/-- An answer that fits into the buffers of both sides. -/
structure Answer where
  text : List Byte
  nul : 0 ∉ text
  short : text.length < 1024 * 32

structure State where
  toServer : List Byte
  toClient : List Byte
  /-- The variable of `Session::run`. -/
  size : Int
  /-- The client waits for an answer. -/
  waiting : Bool
  sent : List (List Byte)
  handled : List (List Byte)
  answered : List (List Byte)
  returned : List (List Byte)

def init (size : Int) : State := ⟨[], [], size, false, [], [], [], []⟩

inductive Label (maxSize : Nat)
  | send (reqs : Request maxSize)
  | serve (cuts : List Nat) (answer : Answer)
  | receive (cuts : List Nat)

variable {maxSize : Nat}

def step (s : State) : Label maxSize → Option State
  | .send reqs =>
    if s.waiting then none
    else some { s with
      toServer := s.toServer ++ frame reqs.text, waiting := true, sent := s.sent ++ [reqs.text] }
  | .serve cuts answer =>
    (read cuts 1 maxSize s.toServer).bind fun r =>
      (request maxSize s.size r.1).map fun (size, text) =>
        { s with
          toServer := r.2.1
          size := size
          handled := s.handled ++ [text]
          toClient := s.toClient ++ frame answer.text
          answered := s.answered ++ [answer.text] }
  | .receive cuts =>
    if s.waiting then
      (handleRequest cuts s.toClient).map fun (result, stream) =>
        { s with toClient := stream, waiting := false, returned := s.returned ++ [result] }
    else none

/-- The side whose turn the label is has something to do. -/
def Possible (s : State) : Label maxSize → Prop
  | .send _ => s.waiting = false
  | .serve _ _ => s.toServer ≠ []
  | .receive _ => s.waiting = true ∧ s.toClient ≠ []

/-- The requests sent were handled and the answers written were returned, in order, except for the
one that is under way: all of it, and nothing else. -/
def Synced (maxSize : Nat) (s : State) : Prop :=
  (s.waiting = false ∧ s.toServer = [] ∧ s.toClient = [] ∧
    s.handled = s.sent ∧ s.returned = s.answered) ∨
  (s.waiting = true ∧ s.toClient = [] ∧ s.returned = s.answered ∧
    ∃ reqs : Request maxSize, s.sent = s.handled ++ [reqs.text] ∧ s.toServer = frame reqs.text) ∨
  (s.waiting = true ∧ s.toServer = [] ∧ s.handled = s.sent ∧
    ∃ answer : Answer, s.answered = s.returned ++ [answer.text] ∧ s.toClient = frame answer.text)

/-- What can be done succeeds and keeps the two sides together. -/
def Sound (s : State) (label : Label maxSize) : Prop :=
  Possible s label → ∃ t, step s label = some t ∧ Synced maxSize t

/-- The first chunk is the whole request; it is the whole answer or a full page. -/
def Whole (s : State) : Label maxSize → Prop
  | .send _ => True
  | .serve cuts _ => s.toServer.length ≤ cuts.headD s.toServer.length
  | .receive cuts => s.waiting = true →
    min MAXSIZE s.toClient.length ≤ cuts.headD s.toClient.length

/-! ## Reading -/

/-- What arrives is at most what there is room for, and at most what is there. -/
theorem chunk_le (cut room rest : Nat) :
    min (max 1 cut) (min room rest) ≤ room ∧ min (max 1 cut) (min room rest) ≤ rest :=
  ⟨(Nat.min_le_right _ _).trans (Nat.min_le_left _ _),
    (Nat.min_le_right _ _).trans (Nat.min_le_right _ _)⟩

/-- A `read` that finds something and has room for it returns something. -/
theorem chunk_pos (cut : Nat) {room rest : Nat} (hroom : 0 < room) (hrest : 0 < rest) :
    0 < min (max 1 cut) (min room rest) :=
  Nat.lt_min.mpr ⟨Nat.lt_of_lt_of_le Nat.one_pos (Nat.le_max_left 1 cut),
    Nat.lt_min.mpr ⟨hroom, hrest⟩⟩

/-- The first chunk, if one byte is enough. -/
theorem read_first (cuts : List Nat) {max_size : Nat} {stream : List Byte} (hmax : 0 < max_size)
    (hstream : stream ≠ []) :
    let k := min (max 1 (cuts.headD stream.length)) (min max_size stream.length)
    read cuts 1 max_size stream = some (stream.take k, stream.drop k, cuts.tail) := by
  have hpos := List.length_pos_iff.mpr hstream
  unfold read readLoop
  dsimp only
  rw [List.length_nil, Nat.sub_zero, Nat.zero_add, List.nil_append, if_neg (by omega),
    if_neg (by omega)]

/-- **A number of bytes that the stream holds is read, however it arrives.** -/
theorem read_exact (cuts : List Nat) {n : Nat} {stream : List Byte} (hn : 0 < n)
    (hstream : n ≤ stream.length) :
    ∃ cuts', read cuts n n stream = some (stream.take n, stream.drop n, cuts') := by
  have hloop : ∀ (rounds : Nat) (cuts : List Nat) (buf stream : List Byte), buf.length < n →
      n - buf.length ≤ stream.length → n - buf.length < rounds →
      ∃ cuts', readLoop n n rounds cuts buf stream =
        some (buf ++ stream.take (n - buf.length), stream.drop (n - buf.length), cuts') := by
    intro rounds
    induction rounds with
    | zero =>
        intro cuts buf stream _ _ hrounds
        exact absurd hrounds (Nat.not_lt_zero _)
    | succ rounds ih =>
        intro cuts buf stream hbuf hstream hrounds
        unfold readLoop
        dsimp only
        have hpos := chunk_pos (cuts.headD stream.length) (Nat.sub_pos_of_lt hbuf)
          ((Nat.sub_pos_of_lt hbuf).trans_le hstream)
        obtain ⟨hroom, -⟩ := chunk_le (cuts.headD stream.length) (n - buf.length) stream.length
        generalize min (max 1 (cuts.headD stream.length)) (min (n - buf.length) stream.length) = rc
          at hpos hroom ⊢
        rw [if_neg (Nat.ne_of_gt hpos)]
        by_cases hmore : buf.length + rc < n
        · have hlength : (buf ++ stream.take rc).length = buf.length + rc := by
            rw [List.length_append, List.length_take, Nat.min_eq_left (hroom.trans hstream)]
          obtain ⟨cuts', hrest⟩ := ih cuts.tail (buf ++ stream.take rc) (stream.drop rc)
            (by omega) (by rw [List.length_drop]; omega) (by omega)
          have hsum : rc + (n - (buf.length + rc)) = n - buf.length := by omega
          refine ⟨cuts', ?_⟩
          rw [if_pos hmore, hrest, hlength, List.append_assoc, ← List.take_add, List.drop_drop,
            hsum]
        · have hall : rc = n - buf.length := by omega
          refine ⟨cuts.tail, ?_⟩
          rw [if_neg hmore, hall]
  obtain ⟨cuts', hread⟩ := hloop (stream.length + 1) cuts [] stream hn hstream
    (show n - 0 < stream.length + 1 by omega)
  exact ⟨cuts', hread⟩

/-- A `read` takes at most as many bytes as there is room for. -/
theorem read_rest_le {min_size max_size : Nat} {cuts : List Nat} {stream : List Byte}
    {r : List Byte × List Byte × List Nat} (h : read cuts min_size max_size stream = some r) :
    stream.length ≤ r.2.1.length + max_size := by
  have hloop : ∀ {rounds : Nat} {cuts : List Nat} {buf stream : List Byte},
      buf.length ≤ max_size → readLoop min_size max_size rounds cuts buf stream = some r →
      stream.length + buf.length ≤ r.2.1.length + max_size := by
    intro rounds
    induction rounds with
    | zero =>
        intro cuts buf stream _ h
        cases h
    | succ rounds ih =>
        intro cuts buf stream hbuf h
        unfold readLoop at h
        dsimp only at h
        obtain ⟨hroom, hthere⟩ :=
          chunk_le (cuts.headD stream.length) (max_size - buf.length) stream.length
        generalize min (max 1 (cuts.headD stream.length))
          (min (max_size - buf.length) stream.length) = rc at h hroom hthere
        have hlength : (buf ++ stream.take rc).length = buf.length + rc := by
          rw [List.length_append, List.length_take, Nat.min_eq_left hthere]
        by_cases hzero : rc = 0
        · rw [if_pos hzero] at h
          cases h
        · rw [if_neg hzero] at h
          by_cases hmore : buf.length + rc < min_size
          · rw [if_pos hmore] at h
            have hrest := ih (by omega) h
            rw [List.length_drop] at hrest
            omega
          · rw [if_neg hmore] at h
            rw [← Option.some.inj h]
            dsimp only
            rw [List.length_drop]
            omega
  have hread := hloop (Nat.zero_le _) h
  rwa [List.length_nil, Nat.add_zero] at hread

/-! ## Headers -/

theorem digitText_short {n : Nat} (hn : n < 10 ^ 10) : (digitText n).length ≤ 10 :=
  digitText_length (by decide) hn

/-- The header has ten characters. -/
theorem length_header {n : Nat} (hn : n < 10 ^ 10) : (header n).length = 10 := by
  have hshort := digitText_short hn
  rw [header, List.length_append, List.length_replicate]
  omega

/-- Blanks in front do not matter. -/
theorem atol_blanks (k : Nat) (text : List Byte) :
    atol (List.replicate k 32 ++ text) = atol text := by
  have hblank : isSpace 32 = true := by decide
  unfold atol
  rw [List.dropWhile_append_of_pos]
  intro c hc
  rw [List.eq_of_mem_replicate hc]
  exact hblank

/-- The digits of a number read as the number. -/
theorem atol_digitText (n : Nat) : atol (digitText n) = n := by
  have hread := @atol_printLong (.ofNat n) [] (by simp)
  rwa [List.append_nil] at hread

/-- The header reads as the number it was printed from. -/
theorem atol_header (n : Nat) : atol (header n) = n := by
  rw [header, atol_blanks, atol_digitText]

/-- The beginning of a header stands for no more than the header. -/
theorem atol_take_header (n k : Nat) :
    0 ≤ atol ((header n).take k) ∧ atol ((header n).take k) ≤ n := by
  rw [header, List.take_append, List.take_replicate, atol_blanks, List.length_replicate]
  generalize k - (10 - (digitText n).length) = m
  cases htext : (digitText n).take m with
  | nil => exact ⟨Int.le_refl 0, Int.natCast_nonneg n⟩
  | cons c rest =>
      have hdigits : ∀ d ∈ (digitText n).take m, isDigit d = true :=
        fun d hd => digitText_digits n d (List.mem_of_mem_take hd)
      have hbehind : ∀ d ∈ (digitText n).drop m, isDigit d = true :=
        fun d hd => digitText_digits n d (List.mem_of_mem_drop hd)
      have hc : isDigit c = true := hdigits c (htext ▸ List.mem_cons_self)
      have hwhole : readDigits (digitText n) = n := by
        have hread : readDigits (digitText n ++ []) = n := readDigits_digitText n (by simp)
        rwa [List.append_nil] at hread
      have hsplit := readDigits_append hdigits hbehind
      rw [List.take_append_drop, hwhole, htext] at hsplit
      have hpow : 0 < 10 ^ ((digitText n).drop m).length := Nat.pow_pos (by decide)
      have hle : readDigits (c :: rest) ≤ readDigits (c :: rest) *
          10 ^ ((digitText n).drop m).length := Nat.le_mul_of_pos_right _ hpow
      rw [atol_digits hc]
      exact ⟨Int.natCast_nonneg _, by omega⟩

/-! ## What is behind a header -/

theorem cstr_eq_self {s : List Byte} (h : 0 ∉ s) : cstr s = s :=
  List.takeWhile_eq_self_iff.mpr fun _ hb => decide_eq_true fun hzero => h (hzero ▸ hb)

/-- The text behind a header, in a buffer that has room for a zero behind it. -/
theorem behindHeader_eq {room last : Nat} {start text : List Byte} (hstart : start.length = 10)
    (hnul : 0 ∉ text) (hlast : last = start.length + text.length) (hroom : last < room) :
    behindHeader room last (start ++ text) = text := by
  have hlength : (start ++ text).length = last := by rw [List.length_append, hlast]
  obtain ⟨more, hmore⟩ : ∃ more, room - last = more + 1 := ⟨room - last - 1, by omega⟩
  have hself : ∀ b ∈ text, (decide (b ≠ 0)) = true :=
    fun b hb => decide_eq_true fun hzero => hnul (hzero ▸ hb)
  unfold behindHeader cstr
  rw [hlength, List.set_append_right _ _ (by omega), List.set_replicate_self, List.append_assoc,
    ← hstart, List.drop_left, hmore, List.replicate_succ, List.takeWhile_append_of_pos hself]
  exact List.append_nil text

/-! ## One request -/

variable {s : State}

/-- A frame is longer than its text by the header. -/
theorem length_frame {text : List Byte} (h : text.length < 10 ^ 10) :
    (frame text).length = text.length + 10 := by
  rw [frame, List.length_append, length_header h]
  omega

/-- A frame is not empty. -/
theorem frame_ne_nil (text : List Byte) : frame text ≠ [] := by
  have hdigits := digitText_cons text.length
  obtain ⟨c, rest, hdigits⟩ := hdigits
  unfold frame header
  rw [hdigits]
  simp

/-- A frame of a text without zeros has none. -/
theorem frame_nul {text : List Byte} (h : 0 ∉ text) : 0 ∉ frame text := by
  unfold frame header
  intro hzero
  rcases List.mem_append.mp hzero with hheader | htext
  · rcases List.mem_append.mp hheader with hblank | hdigit
    · exact absurd (List.eq_of_mem_replicate hblank) (by decide)
    · exact printLong_ne_zero (.ofNat text.length) 0 hdigit rfl
  · exact h htext

/-- In step, only one direction has something under way. -/
theorem Synced.not_both (h : Synced maxSize s) (hserver : s.toServer ≠ [])
    (hclient : s.toClient ≠ []) : False := by
  rcases h with ⟨-, hempty, -⟩ | ⟨-, hempty, -⟩ | ⟨-, hempty, -⟩
  · exact hserver hempty
  · exact hclient hempty
  · exact hserver hempty

/-- A request that comes in one chunk is handled as it is. -/
theorem request_frame (reqs : Request maxSize) (size : Int) :
    request maxSize size (frame reqs.text) = some ((reqs.text.length : Int), reqs.text) := by
  have hshort : reqs.text.length < 10 ^ 10 := by
    have hclient := reqs.client
    omega
  have hheader := length_header hshort
  have hserver := reqs.server
  have hne : cstr (frame reqs.text) ≠ [] := by
    rw [cstr_eq_self (frame_nul reqs.nul)]
    exact frame_ne_nil reqs.text
  have hsize : atol ((frame reqs.text).take 10) = reqs.text.length := by
    rw [frame, ← hheader, List.take_left, atol_header]
  have hlast : ((reqs.text.length : Int) + 10).toNat =
      (header reqs.text.length).length + reqs.text.length := by
    rw [hheader]
    omega
  unfold request
  rw [if_neg hne, hsize]
  dsimp only
  rw [if_pos (by omega), frame, behindHeader_eq hheader reqs.nul hlast (by omega)]

/-! ## One answer -/

/-- Full pages are read as they are. -/
theorem readPages_spec (page : Nat) (cuts : List Nat) (result : List Byte) {stream : List Byte}
    (hstream : page * MAXSIZE ≤ stream.length) (hnul : 0 ∉ stream) :
    ∃ cuts', readPages page cuts result stream =
      some (result ++ stream.take (page * MAXSIZE), stream.drop (page * MAXSIZE), cuts') := by
  induction page generalizing cuts result stream with
  | zero =>
      refine ⟨cuts, ?_⟩
      rw [readPages, Nat.zero_mul, List.take_zero, List.append_nil, List.drop_zero]
  | succ page ih =>
      rw [Nat.succ_mul] at hstream ⊢
      obtain ⟨cuts', hread⟩ := read_exact cuts (show 0 < MAXSIZE by decide)
        (show MAXSIZE ≤ stream.length by omega)
      have hpage : cstr (stream.take MAXSIZE) = stream.take MAXSIZE :=
        cstr_eq_self fun h => hnul (List.mem_of_mem_take h)
      have hbehind : page * MAXSIZE ≤ (stream.drop MAXSIZE).length := by
        rw [List.length_drop]
        omega
      obtain ⟨cuts'', hpages⟩ := ih cuts' (result ++ stream.take MAXSIZE) hbehind
        (fun h => hnul (List.mem_of_mem_drop h))
      refine ⟨cuts'', ?_⟩
      rw [readPages, hread, Option.bind_some]
      dsimp only
      rw [hpage, hpages, List.append_assoc, ← List.take_add, List.drop_drop,
        Nat.add_comm MAXSIZE]

/-- Pages do not hold more than their size. -/
theorem readPages_rest_le {page : Nat} {cuts : List Nat} {result stream : List Byte}
    {r : List Byte × List Byte × List Nat} (h : readPages page cuts result stream = some r) :
    stream.length ≤ r.2.1.length + page * MAXSIZE := by
  induction page generalizing cuts result stream with
  | zero =>
      rw [← Option.some.inj h]
      exact Nat.le_add_right _ _
  | succ page ih =>
      obtain ⟨first, hfirst, hrest⟩ := Option.bind_eq_some_iff.mp h
      have hle := read_rest_le hfirst
      have hpages := ih hrest
      rw [Nat.succ_mul]
      omega

/-- A header, or its beginning, and ten: no `unsigned long` is exceeded. -/
theorem size10_eq {z : Int} (hz : 0 ≤ z) (hlt : z < 2 ^ 32) :
    ((z + 10) % 18446744073709551616).toNat = z.toNat + 10 := by
  omega

/-- Of an answer that is longer than a page the first page, the full pages behind it, and what is
left. -/
theorem pages_split {length : Nat} (hpage : ¬ (length + 10) / MAXSIZE = 0) :
    2038 ≤ length ∧ ((length + 10) / MAXSIZE - 1) * MAXSIZE ≤ length - 2038 ∧
      length - 2038 - ((length + 10) / MAXSIZE - 1) * MAXSIZE =
        (length + 10) % MAXSIZE := by
  unfold MAXSIZE at *
  omega

/-- **An answer of which the first chunk is the whole, or a full page, is returned as it is.** -/
theorem handleRequest_frame (answer : Answer) {cuts : List Nat}
    (hwhole : min MAXSIZE (frame answer.text).length ≤ cuts.headD (frame answer.text).length) :
    handleRequest cuts (frame answer.text) = some (answer.text, []) := by
  have hshort := answer.short
  have hheader := length_header (show answer.text.length < 10 ^ 10 by omega)
  have hlength := length_frame (show answer.text.length < 10 ^ 10 by omega)
  have hnul := frame_nul answer.nul
  have hpageMin : min (answer.text.length + 10) MAXSIZE = 10 + min 2038 answer.text.length := by
    rw [Nat.min_comm, Nat.add_comm answer.text.length]
    exact Nat.add_min_add_left 10 2038 _
  -- the first chunk is the header and what of the text is on the first page
  have hread := read_first cuts (show 0 < MAXSIZE by decide) (frame_ne_nil answer.text)
  have hfirst : min (max 1 (cuts.headD (frame answer.text).length))
      (min MAXSIZE (frame answer.text).length) = 10 + min 2038 answer.text.length := by
    rw [Nat.min_eq_right (hwhole.trans (Nat.le_max_right _ _)), hlength, Nat.min_comm, hpageMin]
  have hchunk : (frame answer.text).take (10 + min 2038 answer.text.length) =
      header answer.text.length ++ answer.text.take (min 2038 answer.text.length) := by
    rw [frame, ← hheader, List.take_length_add_append]
  have hbehind : (frame answer.text).drop (10 + min 2038 answer.text.length) =
      answer.text.drop (min 2038 answer.text.length) := by
    rw [frame, ← hheader, List.drop_length_add_append]
  have hsize : atol ((header answer.text.length ++
      answer.text.take (min 2038 answer.text.length)).take 10) = answer.text.length := by
    rw [← hheader, List.take_left, atol_header]
  have hsize10 : (((answer.text.length : Int) + 10) % 18446744073709551616).toNat =
      answer.text.length + 10 := size10_eq (Int.natCast_nonneg _) (by omega)
  have hresult : behindHeader (MAXSIZE + 2) (min (answer.text.length + 10) MAXSIZE)
      (header answer.text.length ++ answer.text.take (min 2038 answer.text.length)) =
      answer.text.take (min 2038 answer.text.length) :=
    behindHeader_eq hheader (fun h => answer.nul (List.mem_of_mem_take h))
      (by rw [hpageMin, hheader, List.length_take, Nat.min_eq_left (Nat.min_le_right _ _)])
      (Nat.lt_of_le_of_lt (Nat.min_le_right _ _) (Nat.lt_add_of_pos_right Nat.two_pos))
  dsimp only at hread
  rw [hfirst, hchunk, hbehind] at hread
  unfold handleRequest
  rw [hread, Option.bind_some]
  dsimp only
  rw [hsize, hsize10, hresult]
  by_cases hpage : (answer.text.length + 10) / MAXSIZE = 0
  · have hlt := (Nat.div_eq_zero_iff_lt (by decide)).mp hpage
    have hall : min 2038 answer.text.length = answer.text.length :=
      Nat.min_eq_right (Nat.le_of_lt (Nat.lt_of_add_lt_add_right hlt))
    rw [if_pos hpage, hall, List.take_length, List.drop_length]
  · obtain ⟨hfull, hpagesLe, hleft⟩ := pages_split hpage
    have hrestNul : 0 ∉ answer.text.drop 2038 := fun h => answer.nul (List.mem_of_mem_drop h)
    rw [← List.length_drop] at hpagesLe hleft
    obtain ⟨cuts', hpages⟩ := readPages_spec _ cuts.tail (answer.text.take 2038) hpagesLe hrestNul
    rw [if_neg hpage, Nat.min_eq_left hfull, hpages, Option.bind_some]
    dsimp only
    generalize ((answer.text.length + 10) / MAXSIZE - 1) * MAXSIZE = n at hleft ⊢
    by_cases hflag : (answer.text.length + 10) % MAXSIZE = 0
    · have hn : (answer.text.drop 2038).length ≤ n := Nat.le_of_sub_eq_zero (hleft.trans hflag)
      rw [if_pos hflag, List.take_of_length_le hn, List.drop_eq_nil_of_le hn,
        List.take_append_drop]
    · have hlast : ((answer.text.drop 2038).drop n).length =
          (answer.text.length + 10) % MAXSIZE := List.length_drop.trans hleft
      obtain ⟨cuts'', hlastRead⟩ := read_exact cuts' (Nat.pos_of_ne_zero hflag)
        (Nat.le_of_eq hlast.symm)
      have hlastNul : 0 ∉ (answer.text.drop 2038).drop n :=
        fun h => hrestNul (List.mem_of_mem_drop h)
      rw [if_neg hflag, hlastRead, Option.map_some, ← hlast, List.take_length, List.drop_length,
        cstr_eq_self hlastNul, List.append_assoc, List.take_append_drop, List.take_append_drop]

/-- Behind a smaller first chunk more is left than what the last chunk takes. -/
theorem pages_short {size chunk length rest : Nat} (hchunk : chunk < MAXSIZE) (hsize : size ≤ length)
    (hpage : ¬ (size + 10) / MAXSIZE = 0)
    (hrest : length + 10 - chunk ≤ rest + ((size + 10) / MAXSIZE - 1) * MAXSIZE) :
    (size + 10) % MAXSIZE < rest := by
  unfold MAXSIZE at *
  omega

/-- **Behind a first chunk that is smaller something of the answer is left.** -/
theorem handleRequest_rest (answer : Answer) {cuts : List Nat} {r : List Byte × List Byte}
    (hcut : cuts.headD (frame answer.text).length < min MAXSIZE (frame answer.text).length)
    (h : handleRequest cuts (frame answer.text) = some r) : r.2 ≠ [] := by
  have hshort := answer.short
  have hheader := length_header (show answer.text.length < 10 ^ 10 by omega)
  have hlength := length_frame (show answer.text.length < 10 ^ 10 by omega)
  have hread := read_first cuts (show 0 < MAXSIZE by decide) (frame_ne_nil answer.text)
  dsimp only at hread
  have hlong : 1 < min MAXSIZE (frame answer.text).length :=
    Nat.lt_min.mpr ⟨by decide, by omega⟩
  have hfirst : min (max 1 (cuts.headD (frame answer.text).length))
      (min MAXSIZE (frame answer.text).length) < min MAXSIZE (frame answer.text).length :=
    (Nat.min_le_left _ _).trans_lt (Nat.max_lt.mpr ⟨hlong, hcut⟩)
  generalize min (max 1 (cuts.headD (frame answer.text).length))
    (min MAXSIZE (frame answer.text).length) = k at hread hfirst
  obtain ⟨hchunk, hframe⟩ := Nat.lt_min.mp hfirst
  have hstart : ((frame answer.text).take k).take 10 = (header answer.text.length).take k := by
    rw [List.take_take, Nat.min_comm, ← List.take_take, frame, ← hheader, List.take_left]
  have hbehind : ((frame answer.text).drop k).length = answer.text.length + 10 - k := by
    rw [List.length_drop, hlength]
  -- the length that the client takes from the chunk is at most that of the text
  obtain ⟨hnonneg, hle⟩ := atol_take_header answer.text.length k
  obtain ⟨size, hsize⟩ := Int.eq_ofNat_of_zero_le hnonneg
  rw [hsize] at hle
  have hsizeLe : size ≤ answer.text.length := Int.ofNat_le.mp hle
  have hsize10 : (((size : Int) + 10) % 18446744073709551616).toNat = size + 10 :=
    size10_eq (Int.natCast_nonneg _) (by omega)
  apply List.length_pos_iff.mp
  unfold handleRequest at h
  rw [hread, Option.bind_some] at h
  dsimp only at h
  rw [hstart, hsize, hsize10] at h
  by_cases hpage : (size + 10) / MAXSIZE = 0
  · rw [if_pos hpage] at h
    rw [← Option.some.inj h]
    dsimp only
    rw [List.length_drop]
    exact Nat.sub_pos_of_lt hframe
  · rw [if_neg hpage] at h
    obtain ⟨pages, hpages, hlast⟩ := Option.bind_eq_some_iff.mp h
    have hpagesLe := readPages_rest_le hpages
    rw [hbehind] at hpagesLe
    have hmore := pages_short hchunk hsizeLe hpage hpagesLe
    by_cases hflag : (size + 10) % MAXSIZE = 0
    · rw [if_pos hflag] at hlast
      rw [← Option.some.inj hlast]
      exact Nat.zero_lt_of_lt hmore
    · rw [if_neg hflag] at hlast
      obtain ⟨last, hlastRead, hr⟩ := Option.map_eq_some_iff.mp hlast
      have hlastLe := read_rest_le hlastRead
      rw [← hr]
      exact Nat.lt_of_add_lt_add_right ((Nat.zero_add _).trans_lt (hmore.trans_le hlastLe))

/-! ## Exchanges -/

/-- Sending a request is always sound. -/
theorem sound_send (hsynced : Synced maxSize s) (reqs : Request maxSize) :
    Sound s (.send reqs) := by
  intro hpossible
  have hwaiting : s.waiting = false := hpossible
  have hstep : step s (.send reqs) = some { s with
      toServer := s.toServer ++ frame reqs.text, waiting := true,
      sent := s.sent ++ [reqs.text] } := by
    have hidle : ¬ s.waiting = true := by
      rw [hwaiting]
      exact Bool.false_ne_true
    change (if s.waiting = true then none else some _) = _
    rw [if_neg hidle]
  rcases hsynced with ⟨-, hserver, hclient, hhandled, hreturned⟩ | ⟨hbusy, -⟩ | ⟨hbusy, -⟩
  · refine ⟨_, hstep, .inr (.inl ⟨rfl, hclient, hreturned, reqs, ?_, ?_⟩)⟩
    · rw [hhandled]
    · rw [hserver]
      rfl
  · rw [hwaiting] at hbusy
    cases hbusy
  · rw [hwaiting] at hbusy
    cases hbusy

/-- Serving a request is sound exactly when its first chunk is the whole request. -/
theorem sound_serve_iff (hsynced : Synced maxSize s) (cuts : List Nat) (answer : Answer) :
    Sound s (.serve cuts answer : Label maxSize) ↔
      Whole s (.serve cuts answer : Label maxSize) := by
  unfold Sound Whole Possible
  by_cases hserver : s.toServer = []
  · rw [hserver]
    exact iff_of_true (fun h => absurd rfl h) (Nat.zero_le _)
  · -- a request is under way
    obtain ⟨hwaiting, hclient, hreturned, reqs, hsent, hframe⟩ : s.waiting = true ∧
        s.toClient = [] ∧ s.returned = s.answered ∧ ∃ reqs : Request maxSize,
          s.sent = s.handled ++ [reqs.text] ∧ s.toServer = frame reqs.text := by
      rcases hsynced with ⟨-, hempty, -⟩ | h | ⟨-, hempty, -⟩
      · exact absurd hempty hserver
      · exact h
      · exact absurd hempty hserver
    have hfits := reqs.server
    have hlength := length_frame (show reqs.text.length < 10 ^ 10 by
      have hshort := reqs.client
      omega)
    have hread := read_first cuts (show 0 < maxSize by omega)
      (frame_ne_nil reqs.text)
    dsimp only at hread
    generalize hk : min (max 1 (cuts.headD (frame reqs.text).length))
      (min maxSize (frame reqs.text).length) = k at hread
    rw [hframe]
    constructor
    · intro hsound
      obtain ⟨t, hstep, ht⟩ := hsound (frame_ne_nil reqs.text)
      by_contra hcut
      change (read cuts 1 maxSize s.toServer).bind _ = some t at hstep
      rw [hframe, hread, Option.bind_some] at hstep
      obtain ⟨⟨size, text⟩, -, rfl⟩ := Option.map_eq_some_iff.mp hstep
      refine ht.not_both ?_ ?_
      · apply List.length_pos_iff.mp
        dsimp only
        rw [List.length_drop]
        omega
      · exact List.append_ne_nil_of_right_ne_nil _ (frame_ne_nil answer.text)
    · intro hcut _
      have hall : k = (frame reqs.text).length := by omega
      have hstep : step s (.serve cuts answer : Label maxSize) = some { s with
          toServer := []
          size := reqs.text.length
          handled := s.handled ++ [reqs.text]
          toClient := s.toClient ++ frame answer.text
          answered := s.answered ++ [answer.text] } := by
        change (read cuts 1 maxSize s.toServer).bind _ = _
        rw [hframe, hread, hall, List.take_length, List.drop_length, Option.bind_some,
          request_frame, Option.map_some]
      refine ⟨_, hstep, .inr (.inr ⟨hwaiting, rfl, hsent.symm, answer, ?_, ?_⟩)⟩
      · rw [hreturned]
      · rw [hclient]
        rfl

/-- Receiving an answer is sound exactly when its first chunk is the whole answer or a full page. -/
theorem sound_receive_iff (hsynced : Synced maxSize s) (cuts : List Nat) :
    Sound s (.receive cuts : Label maxSize) ↔ Whole s (.receive cuts : Label maxSize) := by
  unfold Sound Whole Possible
  by_cases hpossible : s.waiting = true ∧ s.toClient ≠ []
  · -- an answer is under way
    obtain ⟨hwaiting, hclient⟩ := hpossible
    obtain ⟨-, hserver, hhandled, answer, hanswered, hframe⟩ : s.waiting = true ∧
        s.toServer = [] ∧ s.handled = s.sent ∧ ∃ answer : Answer,
          s.answered = s.returned ++ [answer.text] ∧ s.toClient = frame answer.text := by
      rcases hsynced with ⟨-, -, hempty, -⟩ | ⟨-, hempty, -⟩ | h
      · exact absurd hempty hclient
      · exact absurd hempty hclient
      · exact h
    have hstep : step s (.receive cuts : Label maxSize) =
        (handleRequest cuts (frame answer.text)).map fun r =>
          { s with toClient := r.2, waiting := false, returned := s.returned ++ [r.1] } := by
      change (if s.waiting = true then (handleRequest cuts s.toClient).map _ else none) = _
      rw [if_pos hwaiting, hframe]
    rw [hframe]
    constructor
    · intro hsound _
      obtain ⟨t, ht, hsyncedT⟩ := hsound ⟨hwaiting, frame_ne_nil answer.text⟩
      by_contra hcut
      rw [hstep] at ht
      obtain ⟨r, hr, rfl⟩ := Option.map_eq_some_iff.mp ht
      have hleft := handleRequest_rest answer (not_le.mp hcut) hr
      rcases hsyncedT with ⟨-, -, hempty, -⟩ | ⟨hbusy, -⟩ | ⟨hbusy, -⟩
      · exact hleft hempty
      · cases hbusy
      · cases hbusy
    · intro hwhole _
      rw [handleRequest_frame answer (hwhole hwaiting), Option.map_some] at hstep
      exact ⟨_, hstep, .inl ⟨rfl, hserver, rfl, hhandled, hanswered.symm⟩⟩
  · refine iff_of_true (fun h => absurd h hpossible) fun hwaiting => ?_
    have hclient : s.toClient = [] := by
      by_contra hclient
      exact hpossible ⟨hwaiting, hclient⟩
    rw [hclient, List.length_nil, Nat.min_zero]
    exact Nat.zero_le _

/-- **A step keeps the two sides together exactly when its first chunk is whole.** -/
theorem sound_iff_whole (hsynced : Synced maxSize s) (label : Label maxSize) :
    Sound s label ↔ Whole s label := by
  cases label with
  | send reqs => exact iff_of_true (sound_send hsynced reqs) trivial
  | serve cuts answer => exact sound_serve_iff hsynced cuts answer
  | receive cuts => exact sound_receive_iff hsynced cuts

/-- A side whose stream is empty waits. -/
theorem read_nil (cuts : List Nat) (min_size max_size : Nat) :
    read cuts min_size max_size [] = none := by
  unfold read readLoop
  dsimp only
  rw [if_pos (by rw [List.length_nil]; omega)]

/-- A step that is taken was possible. -/
theorem possible_of_step {label : Label maxSize} {t : State} (h : step s label = some t) :
    Possible s label := by
  cases label with
  | send reqs =>
      change (if s.waiting = true then none else some _) = some t at h
      by_cases hwaiting : s.waiting = true
      · rw [if_pos hwaiting] at h
        cases h
      · exact Bool.eq_false_iff.mpr hwaiting
  | serve cuts answer =>
      intro hempty
      change (read cuts 1 maxSize s.toServer).bind _ = some t at h
      rw [hempty, read_nil] at h
      cases h
  | receive cuts =>
      change (if s.waiting = true then
        (handleRequest cuts s.toClient).map _ else none) = some t at h
      by_cases hwaiting : s.waiting = true
      · refine ⟨hwaiting, fun hempty => ?_⟩
        rw [if_pos hwaiting, hempty, handleRequest, read_nil] at h
        cases h
      · rw [if_neg hwaiting] at h
        cases h

/-- A step that reads all that it should keeps both ends in step. -/
theorem synced_step {label : Label maxSize} {t : State} (hsynced : Synced maxSize s)
    (hwhole : Whole s label) (h : step s label = some t) : Synced maxSize t := by
  obtain ⟨t', ht', hsynced'⟩ := (sound_iff_whole hsynced label).mpr hwhole (possible_of_step h)
  obtain rfl : t = t' := Option.some.inj (h.symm.trans ht')
  exact hsynced'

theorem synced_init (size : Int) : Synced maxSize (init size) :=
  .inl ⟨rfl, rfl, rfl, rfl, rfl⟩

/-- **Through any run the two sides stay together exactly when every first chunk is whole**; then
what was sent was handled and what was answered was returned. -/
theorem exchanges_synced_iff (size : Int) (labels : List (Label maxSize)) :
    (Meets step Sound (init size) labels ↔ Meets step Whole (init size) labels) ∧
      ∀ t, Meets step Whole (init size) labels → run step (init size) labels = some t →
        Synced maxSize t := by
  constructor
  · exact meets_iff_of_meets (fun _ _ _ hs hwhole h => synced_step hs hwhole h)
      (fun _ label hs => sound_iff_whole hs label) (synced_init size)
  · intro t hwhole hrun
    exact run_invariant_of_meets (fun _ _ _ hs hok h => synced_step hs hok h)
      (synced_init size) hwhole hrun

/-- `AB` -/
def ab : Request 2048 := ⟨[65, 66], by decide, by decide, by decide⟩

/-- The request arrives in two chunks, the second of one byte. -/
theorem exchanges_not_synced :
    ¬ Meets step Sound (init 0) [.send ab, .serve [11] ⟨[], by decide, by decide⟩] := by
  intro h
  have hsynced : Synced 2048 { init 0 with
      toServer := frame ab.text, waiting := true, sent := [ab.text] } :=
    .inr (.inl ⟨rfl, rfl, rfl, ab, rfl, rfl⟩)
  have hwhole : (frame ab.text).length ≤ 11 :=
    (sound_serve_iff hsynced [11] ⟨[], by decide, by decide⟩).mp (h.2 _ rfl).1
  rw [length_frame (show ab.text.length < 10 ^ 10 by decide)] at hwhole
  exact absurd hwhole (by decide)

end ParameterService
