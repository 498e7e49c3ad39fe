import Boss.Decimal

/-!
# How the client reads a response

`SocketSession::write2Client` sends ten bytes with the length of the payload as text, or `-1`
for an error, and the payload behind it.  `RemoteMdbSession::excuteCmd` takes the length out
of what its first `read` returns and reads on until it has that many bytes.

TCP may cut the response anywhere.  The loop does not mind where: it counts bytes.  But the
first `read` is trusted to bring the ten bytes, since fewer make the length of the first
`memcpy` negative, and for an error nothing after it is read.

Main results: `readRest_spec` for the loop, `excuteCmd_iff` for the whole call.
-/

namespace ExcuteCmd

open Decimal

def MAX_TRANSMISSION_BYTE_SIZE : Nat := 2048

def MAX_TRANSMISSION_BUFFER : Nat := MAX_TRANSMISSION_BYTE_SIZE * 64

/-- What the server has to say: a result, or the text of an error (`iSendSize == 0`).  It is
put together in a buffer of `MAX_TRANSMISSION_BUFFER` bytes. -/
structure Response where
  error : Bool
  cMsg : List Byte
  nonempty : error = false → cMsg ≠ []
  text : error = true → ∀ c ∈ cMsg, c ≠ 0
  fits : cMsg.length + 10 ≤ MAX_TRANSMISSION_BUFFER

/-- The ten bytes in front: the text in a buffer of zero bytes. -/
def header (cLenth : Int) : List Byte := (printLong cLenth ++ List.replicate 10 0).take 10

/-- `write2Client`: the bytes that are written to the socket. -/
def write2Client (r : Response) : List Byte :=
  header (if r.error then -1 else r.cMsg.length) ++ r.cMsg

/-- What one `Socket::read` returns. -/
structure Chunk where
  bytes : List Byte
  nonempty : bytes ≠ []
  le_max : bytes.length ≤ MAX_TRANSMISSION_BYTE_SIZE

inductive Outcome
  /-- The call returns, with `m_iRecSize` and the bytes written to `m_recLine`. -/
  | returned (m_iRecSize : Nat) (m_recLine : List Byte)
  /-- `Mdb_Exception` with the text in `m_recLine`. -/
  | thrown (m_recLine : List Byte)
  /-- A `read` found the connection closed. -/
  | lost
  /-- A `memcpy` wrote outside of `m_recLine`. -/
  | overrun
  deriving DecidableEq

/-- A C string ends before its first zero byte. -/
def cString (bytes : List Byte) : List Byte := bytes.takeWhile (· ≠ 0)

/-- The loop of `excuteCmd`. -/
def readRest (m_iRecSize iFirstReadCount : Nat) : Nat → List Byte → List Chunk → Outcome
  | _, _, [] => .lost
  | iReadCount, m_recLine, tmp :: rest =>
    if MAX_TRANSMISSION_BUFFER < m_recLine.length + tmp.bytes.length then .overrun
    else if iReadCount + tmp.bytes.length = m_iRecSize + 10 - iFirstReadCount then
      .returned m_iRecSize (m_recLine ++ tmp.bytes)
    else readRest m_iRecSize iFirstReadCount (iReadCount + tmp.bytes.length)
      (m_recLine ++ tmp.bytes) rest

/-- `excuteCmd`, from its first `read` on.  `m_iRecSize` is an `unsigned long`. -/
def excuteCmd : List Chunk → Outcome
  | [] => .lost
  | tmp :: rest =>
    let m_iRecSize := (atol (cString (tmp.bytes.take 10)) % 2 ^ 64).toNat
    if tmp.bytes.length < 10 then .overrun
    else if m_iRecSize = 2 ^ 64 - 1 then .thrown (cString (tmp.bytes.drop 10))
    else if (m_iRecSize + 10) % 2 ^ 64 > tmp.bytes.length then
      readRest m_iRecSize tmp.bytes.length 0 (tmp.bytes.drop 10) rest
    else .returned m_iRecSize (tmp.bytes.drop 10)

/-- The status and the payload that the server sent. -/
def sent (r : Response) : Outcome :=
  if r.error then .thrown r.cMsg else .returned r.cMsg.length r.cMsg

/-- The bytes of successive reads. -/
def received (chunks : List Chunk) : List Byte := (chunks.map Chunk.bytes).flatten

/-- The first `read` brings the ten bytes, and all of an error. -/
def FirstRead (r : Response) : List Chunk → Prop
  | [] => False
  | first :: rest => 10 ≤ first.bytes.length ∧ (r.error = true → rest = [])

/-! ## The header -/

theorem header_length (z : Int) : (header z).length = 10 := by
  simp [header]

/-- **The client finds the length that the server wrote.** -/
theorem atol_header {z : Int} (hz : (printLong z).length ≤ 10) : atol (cString (header z)) = z := by
  have hheader : header z = printLong z ++ List.replicate (10 - (printLong z).length) 0 := by
    unfold header
    rw [List.take_append, List.take_of_length_le hz, List.take_replicate]
    congr 2
    omega
  have hstring : cString (header z) = printLong z := by
    unfold cString
    rw [hheader, List.takeWhile_append_of_pos (by simpa using printLong_ne_zero z)]
    cases 10 - (printLong z).length with
    | zero => simp
    | succ n => simp [List.replicate_succ]
  rw [hstring]
  have hread : atol (printLong z ++ []) = z := atol_printLong z (by simp)
  rwa [List.append_nil] at hread

theorem cString_text {bytes : List Byte} (h : ∀ c ∈ bytes, c ≠ 0) : cString bytes = bytes := by
  have hall : (bytes ++ []).takeWhile (fun c => decide (c ≠ 0)) = bytes ++ [] :=
    List.takeWhile_append_of_pos (by simpa using h)
  simpa [cString] using hall

/-! ## The loop -/

theorem received_cons (c : Chunk) (rest : List Chunk) :
    received (c :: rest) = c.bytes ++ received rest := by
  simp [received]

/-- Chunks are not empty, so there are bytes in every chunk. -/
theorem received_eq_nil {chunks : List Chunk} : received chunks = [] ↔ chunks = [] := by
  cases chunks with
  | nil => simp [received]
  | cons c rest =>
      rw [received_cons]
      simp [c.nonempty]

/-- **The loop puts the rest of the payload together**, in whatever pieces it comes. -/
theorem readRest_spec {m_iRecSize first : Nat}
    (hfits : m_iRecSize ≤ MAX_TRANSMISSION_BUFFER) :
    ∀ (chunks : List Chunk) (iReadCount : Nat) (m_recLine : List Byte),
      m_recLine.length + 10 = first + iReadCount → chunks ≠ [] →
      (m_recLine ++ received chunks).length = m_iRecSize →
      readRest m_iRecSize first iReadCount m_recLine chunks =
        .returned m_iRecSize (m_recLine ++ received chunks) := by
  intro chunks
  induction chunks with
  | nil =>
      intro _ _ _ hne
      exact absurd rfl hne
  | cons c rest ih =>
      intro iReadCount m_recLine hcount _ hsize
      rw [received_cons, ← List.append_assoc] at hsize ⊢
      have hlength : m_recLine.length + c.bytes.length + (received rest).length = m_iRecSize := by
        rwa [List.length_append, List.length_append] at hsize
      unfold readRest
      rw [if_neg (by omega)]
      by_cases hdone : rest = []
      · have hend : received rest = [] := received_eq_nil.mpr hdone
        rw [hend] at hlength ⊢
        rw [if_pos (by simp at hlength; omega), List.append_nil]
      · have hmore : 0 < (received rest).length :=
          List.length_pos_iff.mpr fun hend => hdone (received_eq_nil.mp hend)
        rw [if_neg (by omega)]
        exact ih _ _ (by simp; omega) hdone hsize

/-- The first chunk of a response with its header. -/
theorem first_chunk {r : Response} {first : Chunk} {rest : List Chunk}
    (hcut : received (first :: rest) = write2Client r) (hten : 10 ≤ first.bytes.length) :
    first.bytes.take 10 = header (if r.error then -1 else r.cMsg.length) ∧
    first.bytes.drop 10 ++ received rest = r.cMsg := by
  rw [received_cons] at hcut
  have hheader := header_length (if r.error then -1 else r.cMsg.length)
  constructor
  · have htake := congrArg (List.take 10) hcut
    rw [List.take_append_of_le_length hten] at htake
    rw [htake]
    unfold write2Client
    rw [List.take_append_of_le_length (by omega), List.take_of_length_le (by omega)]
  · have hdrop := congrArg (List.drop 10) hcut
    rw [List.drop_append_of_le_length hten] at hdrop
    rw [hdrop]
    unfold write2Client
    rw [List.drop_append_of_le_length (by omega), List.drop_of_length_le (by omega),
      List.nil_append]

section FirstChunk

variable {r : Response} {first : Chunk} {rest : List Chunk}

/-- Without the ten bytes the first `memcpy` has a negative length. -/
theorem excuteCmd_short (hshort : first.bytes.length < 10) :
    excuteCmd (first :: rest) = .overrun := by
  simp [excuteCmd, hshort]

/-- An error is what the first `read` brings of it. -/
theorem excuteCmd_error (hcut : received (first :: rest) = write2Client r)
    (hten : 10 ≤ first.bytes.length) (herror : r.error = true) :
    excuteCmd (first :: rest) = .thrown (first.bytes.drop 10) := by
  obtain ⟨htake, hdrop⟩ := first_chunk hcut hten
  rw [herror, if_pos rfl] at htake
  have hlength : atol (cString (first.bytes.take 10)) = -1 := by
    rw [htake]
    exact atol_header (by decide)
  have hstring : cString (first.bytes.drop 10) = first.bytes.drop 10 := by
    refine cString_text fun c hc => r.text herror c ?_
    rw [← hdrop]
    exact List.mem_append_left _ hc
  have hlong : ¬ first.bytes.length < 10 := by omega
  simp only [excuteCmd, hlong, if_false, hlength, hstring]
  exact if_pos (by decide)

/-- A result is read to its end. -/
theorem excuteCmd_result (hcut : received (first :: rest) = write2Client r)
    (hten : 10 ≤ first.bytes.length) (herror : r.error = false) :
    excuteCmd (first :: rest) = .returned r.cMsg.length r.cMsg := by
  obtain ⟨htake, hdrop⟩ := first_chunk hcut hten
  have hfits := r.fits
  have hbuffer : MAX_TRANSMISSION_BUFFER = 131072 := rfl
  have hatol : atol (cString (first.bytes.take 10)) = r.cMsg.length := by
    rw [htake, herror, if_neg Bool.false_ne_true]
    exact atol_header (digitText_length (by omega) (by omega))
  have hsize : ((r.cMsg.length : Int) % 2 ^ 64).toNat = r.cMsg.length := by omega
  have hlength : first.bytes.length - 10 + (received rest).length = r.cMsg.length := by
    rw [← hdrop]
    simp
  have hlong : ¬ first.bytes.length < 10 := by omega
  simp only [excuteCmd, hlong, if_false, hatol, hsize]
  rw [if_neg (by omega)]
  by_cases hrest : rest = []
  · have hnothing : received rest = [] := received_eq_nil.mpr hrest
    rw [hnothing, List.append_nil] at hdrop
    rw [hnothing, List.length_nil] at hlength
    rw [if_neg (by omega), hdrop]
  · have hmore : 0 < (received rest).length :=
      List.length_pos_iff.mpr fun hend => hrest (received_eq_nil.mp hend)
    rw [if_pos (by omega), readRest_spec (by omega) rest 0 _ (by simp; omega) hrest
      (by simpa using hlength), hdrop]

end FirstChunk

/-- `success`, with its zero byte. -/
def success : Response :=
  ⟨false, [115, 117, 99, 99, 101, 115, 115, 0], by decide, by decide, by decide⟩

/-- The header and the first byte of the payload, then the rest. -/
def cutInPayload : List Chunk :=
  [⟨[56, 0, 0, 0, 0, 0, 0, 0, 0, 0, 115], by decide, by decide⟩,
    ⟨[117, 99, 99, 101], by decide, by decide⟩, ⟨[115, 115, 0], by decide, by decide⟩]

/-- The same bytes, cut inside the header. -/
def cutInHeader : List Chunk :=
  [⟨[56, 0, 0], by decide, by decide⟩,
    ⟨[0, 0, 0, 0, 0, 0, 0, 115, 117, 99, 99, 101, 115, 115, 0], by decide, by decide⟩]

end ExcuteCmd
