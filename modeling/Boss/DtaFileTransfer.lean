import Boss.Runs
import Mathlib.Data.List.Infix

/-!
# Resumed file transfers

A transfer that was broken off leaves a partial file, and the next one goes on from its length.
`DTA_PUT` sends the source to a server, which collects it in a file of its own and moves this file
to the target when it is complete; `DTA_GET` collects what the server sends in the target itself.
The receiver counts up to the length of the source, which it is told as an `int`; the sender sends
whatever is behind the position it is told.  Nobody looks at what the partial file holds.

A connection breaks after any number of bytes of the file, or not at all.

Main results: `putExact_iff` and `getExact_iff` for one transfer, `transfers_exact_iff` for all.
-/

namespace Dta.Transfer

open Runs

abbrev Bytes := List UInt8

def BUFFERLENGTH : Nat := 16384

/-- What an `int` makes of a length. -/
def int32 (n : Nat) : Int :=
  if n % 4294967296 < 2147483648 then (n % 4294967296 : Nat)
  else (n % 4294967296 : Nat) - 4294967296

/-- The loop of the receiver, which ends at `filelength` or when nothing more comes.  The file, what
is unread, and whether it is complete. -/
def receive : Nat → Int → Int → Bytes → Bytes → Bytes × Bytes × Bool
  | 0, _, _, stream, file => (file, stream, false)
  | rounds + 1, readtotal, filelength, stream, file =>
    if readtotal < filelength then
      let size := min (filelength - readtotal).toNat BUFFERLENGTH
      let buf := stream.take size
      if buf = [] then (file, stream, false)
      else receive rounds (readtotal + buf.length) filelength (stream.drop size) (file ++ buf)
    else (file, stream, true)

/-- The loop from `startpos` on, with as many rounds as it may need. -/
def receiveFrom (startpos filelength : Int) (stream file : Bytes) : Bytes × Bytes × Bool :=
  receive ((filelength - startpos).toNat + 1) startpos filelength stream file

/-- What gets through when the connection breaks after `cut` bytes. -/
def arriving (cut : Option Nat) (sent : Bytes) : Bytes :=
  match cut with
  | none => sent
  | some n => sent.take n

/-- The source, the partial file and the target. -/
structure Files where
  source : Bytes
  tmpfile : Option Bytes
  targetfile : Option Bytes
  deriving DecidableEq, Repr

/-- What a call that reports success leaves: the target, and how many of the bytes that were sent
nobody has read. -/
structure Report where
  targetfile : Option Bytes
  unread : Nat
  deriving DecidableEq, Repr

/-- What there is of the partial file. -/
def Files.partial' (s : Files) : Bytes := s.tmpfile.getD []

/-! ## Putting -/

/-- `putfile` in the server: collect what arrives and move it; the files, what is unread, and
whether the answer is `1`. -/
def putServer (s : Files) (startpos filelength : Int) (stream : Bytes) (moves : Bool) :
    Files × Bytes × Bool :=
  match receiveFrom startpos filelength stream s.partial' with
  | (file, unread, false) => ({ s with tmpfile := some file }, unread, false)
  | (file, unread, true) =>
    if moves then ({ s with tmpfile := none, targetfile := some file }, unread, true)
    else ({ s with tmpfile := some file }, unread, false)

/-- `DTA_PUT` with the server.  The client fails when it cannot seek to the position, and when the
answer does not come. -/
def dtaPut (s : Files) (cut : Option Nat) (moves : Bool) : Files × Option Report :=
  let filelength := int32 s.source.length
  let startpos := int32 s.partial'.length
  if startpos < 0 then ((putServer s startpos filelength [] moves).1, none)
  else
    let r := putServer s startpos filelength (arriving cut (s.source.drop startpos.toNat)) moves
    (r.1, if r.2.2 ∧ cut = none then some ⟨r.1.targetfile, r.2.1.length⟩ else none)

/-! ## Getting -/

/-- `DTA_GET` with the server.  The target, which is under `tmp` when its name is bare, is the
partial file itself.  The server does not look whether it can seek to the position. -/
def dtaGet (s : Files) (cut : Option Nat) : Files × Option Report :=
  let startpos := int32 s.partial'.length
  let filelength := int32 s.source.length
  if filelength < 0 then (s, none)
  else
    let sent := if startpos < 0 then s.source else s.source.drop startpos.toNat
    let (file, unread, complete) := receiveFrom startpos filelength (arriving cut sent) s.partial'
    -- what is still under way counts as unread
    ({ s with tmpfile := some file },
      if complete then
        some ⟨some file, unread.length + (sent.length - (arriving cut sent).length)⟩
      else none)

/-! ## Histories -/

inductive PutStep
  | replace (source : Bytes)
  | put (cut : Option Nat) (moves : Bool)
  | lost (filelength : Int) (moves : Bool)

/-- When the connection breaks before the length has come, the server goes on with whatever is in
its variable, and nothing arrives. -/
def putStep (s : Files) : PutStep → Option Files
  | .replace source => some { s with source := source }
  | .put cut moves => some (dtaPut s cut moves).1
  | .lost filelength moves =>
    some (putServer s (int32 s.partial'.length) filelength [] moves).1

inductive GetStep
  | replace (source : Bytes)
  | get (cut : Option Nat)

def getStep (s : Files) : GetStep → Option Files
  | .replace source => some { s with source := source }
  | .get cut => some (dtaGet s cut).1

/-- A call that reports success leaves a copy, and nothing is unread. -/
def Exact (s : Files) (report : Option Report) : Prop :=
  ∀ r ∈ report, r.targetfile = some s.source ∧ r.unread = 0

/-- The partial file is the beginning of the source, whose length is an `int`. -/
def Resumable (s : Files) : Prop := s.partial' <+: s.source ∧ s.source.length < 2147483648

instance (s : Files) (report : Option Report) : Decidable (Exact s report) :=
  inferInstanceAs (Decidable (∀ r ∈ report, _))

instance (s : Files) : Decidable (Resumable s) := inferInstanceAs (Decidable (_ ∧ _))

def PutExact (s : Files) : PutStep → Prop
  | .put cut moves => Exact s (dtaPut s cut moves).2
  | _ => True

/-- Whenever a put runs through, and the length of the partial file is no negative `int`, it is
resumable. -/
def PutResumable (s : Files) : PutStep → Prop
  | .put cut moves => cut = none → moves → 0 ≤ int32 s.partial'.length → Resumable s
  | _ => True

def GetExact (s : Files) : GetStep → Prop
  | .get cut => Exact s (dtaGet s cut).2
  | _ => True

/-- What the server sends from a position on. -/
def sentFrom (s : Files) (startpos : Int) : Bytes :=
  if startpos < 0 then s.source else s.source.drop startpos.toNat

/-- Whenever the length of the source is no negative `int` and as many bytes get through as are
missing, the get is resumable. -/
def GetResumable (s : Files) : GetStep → Prop
  | .get cut => 0 ≤ int32 s.source.length →
    int32 s.source.length - int32 s.partial'.length ≤
      (arriving cut (sentFrom s (int32 s.partial'.length))).length → Resumable s
  | _ => True

instance (s : Files) (a : PutStep) : Decidable (PutExact s a) := by
  cases a <;> unfold PutExact <;> infer_instance

instance (s : Files) (a : PutStep) : Decidable (PutResumable s a) := by
  cases a <;> unfold PutResumable <;> infer_instance

/-! ## The receiver -/

/-- The loop takes what is missing, if so much comes. -/
theorem receive_spec {rounds : Nat} {readtotal filelength : Int} {stream file : Bytes}
    (hrounds : (filelength - readtotal).toNat < rounds) :
    receive rounds readtotal filelength stream file =
      if (filelength - readtotal).toNat ≤ stream.length then
        (file ++ stream.take (filelength - readtotal).toNat,
          stream.drop (filelength - readtotal).toNat, true)
      else (file ++ stream, [], false) := by
  induction rounds generalizing readtotal stream file with
  | zero => omega
  | succ rounds ih =>
      unfold receive
      by_cases hmissing : readtotal < filelength
      · rw [if_pos hmissing]
        generalize hneed : (filelength - readtotal).toNat = need at *
        have hneedPos : 0 < need := by omega
        have hroom : 0 < min need BUFFERLENGTH := Nat.lt_min.mpr ⟨hneedPos, by decide⟩
        have hle := Nat.min_le_left need BUFFERLENGTH
        dsimp only
        generalize min need BUFFERLENGTH = room at hroom hle ⊢
        by_cases hnil : stream = []
        · rw [if_pos (by rw [hnil, List.take_nil]), if_neg (by rw [hnil]; exact hneedPos.not_ge),
            hnil, List.append_nil]
        · have hpos := List.length_pos_iff.mpr hnil
          -- what is missing behind the buffer
          have hbufPos : 0 < (stream.take room).length := by
            rw [List.length_take]
            exact Nat.lt_min.mpr ⟨hroom, hpos⟩
          have hbufLe : (stream.take room).length ≤ need := (List.length_take_le _ _).trans hle
          have hneed' : (filelength - (readtotal + (stream.take room).length)).toNat =
              need - (stream.take room).length := by omega
          rw [if_neg (List.length_pos_iff.mp hbufPos), ih (by omega), hneed', List.length_drop]
          clear ih hneed hneed' hrounds hmissing
          by_cases henough : need ≤ stream.length
          · have hbuf : (stream.take room).length = room :=
              List.length_take_of_le (hle.trans henough)
            rw [hbuf, if_pos (Nat.sub_le_sub_right henough _), if_pos henough, List.append_assoc,
              List.drop_drop, ← List.take_add, Nat.add_sub_of_le hle]
          · rw [if_neg (by rw [List.length_take]; omega), if_neg henough, List.append_assoc,
              List.take_append_drop]
      · have hzero : (filelength - readtotal).toNat = 0 := by omega
        rw [if_neg hmissing, hzero, if_pos (Nat.zero_le _), List.take_zero, List.append_nil,
          List.drop_zero]

theorem receiveFrom_spec (startpos filelength : Int) (stream file : Bytes) :
    receiveFrom startpos filelength stream file =
      if (filelength - startpos).toNat ≤ stream.length then
        (file ++ stream.take (filelength - startpos).toNat,
          stream.drop (filelength - startpos).toNat, true)
      else (file ++ stream, [], false) :=
  receive_spec (Nat.lt_succ_self _)

/-! ## One transfer -/

theorem int32_of_lt {n : Nat} (h : n < 2147483648) : int32 n = n := by
  unfold int32
  split_ifs <;> omega

/-- A length that is not that small is taken for another one. -/
theorem int32_lt (n : Nat) : int32 n < 2147483648 := by
  unfold int32
  split_ifs <;> omega

/-- Appending the rest of the source gives the source when what is there is its beginning. -/
theorem append_drop_iff {file source : Bytes} (hle : file.length ≤ source.length) :
    file ++ source.drop file.length = source ↔ file <+: source := by
  constructor
  · intro heq
    exact ⟨_, heq⟩
  · rintro ⟨rest, rfl⟩
    rw [List.drop_left]

/-- **What a complete transfer leaves is a copy exactly when it was resumable.**  The sender sends
what is behind the position, or everything when it cannot seek to it. -/
theorem exact_iff_resumable {s : Files} {sent : Bytes}
    (hsent : sent = sentFrom s (int32 s.partial'.length))
    (hneed : int32 s.source.length - int32 s.partial'.length ≤ sent.length) :
    (s.partial' ++ sent.take (int32 s.source.length - int32 s.partial'.length).toNat = s.source ∧
      (sent.drop (int32 s.source.length - int32 s.partial'.length).toNat).length = 0) ↔
      Resumable s := by
  have hfl : int32 s.source.length < 2147483648 := int32_lt _
  have hsp : int32 s.partial'.length < 2147483648 := int32_lt _
  constructor
  · rintro ⟨hcopy, hunread⟩
    have hlength := congrArg List.length hcopy
    rw [List.length_append, List.length_take] at hlength
    rw [List.length_drop] at hunread
    by_cases hseek : int32 s.partial'.length < 0
    · -- then everything was sent and nothing had been there
      have hall : sent = s.source := by rw [hsent, sentFrom, if_pos hseek]
      rw [hall] at hlength hunread hneed
      have hempty : s.partial'.length = 0 := by omega
      rw [hempty] at hseek
      exact absurd hseek (by decide)
    · have hdrop : sent = s.source.drop (int32 s.partial'.length).toNat := by
        rw [hsent, sentFrom, if_neg hseek]
      have hsentLength : sent.length = s.source.length - (int32 s.partial'.length).toNat := by
        rw [hdrop, List.length_drop]
      have hsmall : s.source.length < 2147483648 := by omega
      have hle : s.partial'.length ≤ s.source.length := by omega
      have hpos : int32 s.partial'.length = s.partial'.length := int32_of_lt (by omega)
      refine ⟨(append_drop_iff hle).mp ?_, hsmall⟩
      have htake : sent.take (int32 s.source.length - int32 s.partial'.length).toNat = sent :=
        List.take_of_length_le (by omega)
      rw [htake, hdrop, hpos, Int.toNat_natCast] at hcopy
      exact hcopy
  · rintro ⟨hbegins, hsmall⟩
    have hle : s.partial'.length ≤ s.source.length := hbegins.length_le
    have hpos : int32 s.partial'.length = s.partial'.length := int32_of_lt (by omega)
    have hdrop : sent = s.source.drop s.partial'.length := by
      rw [hsent, sentFrom, if_neg (by omega), hpos, Int.toNat_natCast]
    have hsentLength : sent.length = s.source.length - s.partial'.length := by
      rw [hdrop, List.length_drop]
    rw [int32_of_lt hsmall, hpos]
    rw [List.take_of_length_le (by omega), List.length_drop, hdrop]
    exact ⟨(append_drop_iff hle).mpr hbegins, by rw [List.length_drop]; omega⟩

theorem arriving_length_le (cut : Option Nat) (sent : Bytes) :
    (arriving cut sent).length ≤ sent.length := by
  cases cut with
  | none => exact Nat.le_refl _
  | some n =>
      rw [arriving, List.length_take]
      exact Nat.min_le_right _ _

theorem arriving_take {cut : Option Nat} {sent : Bytes} {n : Nat}
    (h : n ≤ (arriving cut sent).length) : (arriving cut sent).take n = sent.take n := by
  cases cut with
  | none => rfl
  | some m =>
      rw [arriving, List.length_take] at h
      rw [arriving, List.take_take, Nat.min_eq_left (by omega)]

/-- What a get reports. -/
theorem dtaGet_report (s : Files) (cut : Option Nat) {startpos filelength : Int} {sent : Bytes}
    (hstart : int32 s.partial'.length = startpos) (hlength : int32 s.source.length = filelength)
    (hsent : sentFrom s startpos = sent) :
    (dtaGet s cut).2 =
      if filelength < 0 ∨ (arriving cut sent).length < filelength - startpos then none
      else some ⟨some (s.partial' ++ sent.take (filelength - startpos).toNat),
        (sent.drop (filelength - startpos).toNat).length⟩ := by
  unfold sentFrom at hsent
  unfold dtaGet
  rw [hstart, hlength]
  by_cases hfl : filelength < 0
  · simp only [hfl, if_true, true_or]
  · simp only [hfl, if_false, false_or]
    rw [hsent, receiveFrom_spec]
    by_cases hneed : (filelength - startpos).toNat ≤ (arriving cut sent).length
    · have henough : ¬ ((arriving cut sent).length : Int) < filelength - startpos := by omega
      have hle := arriving_length_le cut sent
      rw [if_pos hneed, if_neg henough, arriving_take hneed]
      simp only [if_true, List.length_drop]
      congr 2
      omega
    · have hmissing : ((arriving cut sent).length : Int) < filelength - startpos := by omega
      rw [if_neg hneed, if_pos hmissing]
      rfl

theorem int32_le (n : Nat) : int32 n ≤ n := by
  unfold int32
  split_ifs <;> omega

/-- What a put reports.  Behind the position there is as much as is missing. -/
theorem dtaPut_report (s : Files) (cut : Option Nat) (moves : Bool) {startpos filelength : Int}
    {sent : Bytes} (hstart : int32 s.partial'.length = startpos)
    (hlength : int32 s.source.length = filelength) (hsent : sentFrom s startpos = sent) :
    (dtaPut s cut moves).2 =
      if cut = none ∧ moves ∧ 0 ≤ startpos then
        some ⟨some (s.partial' ++ sent.take (filelength - startpos).toNat),
          (sent.drop (filelength - startpos).toNat).length⟩
      else none := by
  unfold dtaPut
  rw [hstart, hlength]
  by_cases hseek : startpos < 0
  · have hfails : ¬ (cut = none ∧ moves ∧ 0 ≤ startpos) := fun h => absurd h.2.2 (by omega)
    rw [if_neg hfails]
    dsimp only
    rw [if_pos hseek]
  · rw [sentFrom, if_neg hseek] at hsent
    dsimp only
    rw [if_neg hseek, hsent]
    cases cut with
    | some n => simp only [reduceCtorEq, and_false, false_and, if_false]
    | none =>
        have henough : (filelength - startpos).toNat ≤ (arriving none sent).length := by
          have hle := int32_le s.source.length
          rw [arriving, ← hsent, List.length_drop]
          omega
        unfold putServer
        rw [receiveFrom_spec, if_pos henough]
        cases moves with
        | true =>
            have hruns : (none : Option Nat) = none ∧ true = true ∧ 0 ≤ startpos :=
              ⟨rfl, rfl, by omega⟩
            rw [if_pos hruns]
            rfl
        | false =>
            have hfails : ¬ ((none : Option Nat) = none ∧ false = true ∧ 0 ≤ startpos) :=
              fun h => Bool.false_ne_true h.2.1
            rw [if_neg hfails]
            rfl

/-- **A put that reports success leaves a copy exactly when it was resumable.** -/
theorem putExact_iff (s : Files) (a : PutStep) : PutExact s a ↔ PutResumable s a := by
  cases a with
  | replace source => exact iff_of_true trivial trivial
  | lost filelength moves => exact iff_of_true trivial trivial
  | put cut moves =>
      change Exact s (dtaPut s cut moves).2 ↔
        (cut = none → moves → 0 ≤ int32 s.partial'.length → Resumable s)
      unfold Exact
      rw [dtaPut_report s cut moves rfl rfl rfl]
      by_cases hruns : cut = none ∧ moves ∧ 0 ≤ int32 s.partial'.length
      · have hneed : int32 s.source.length - int32 s.partial'.length ≤
            (sentFrom s (int32 s.partial'.length)).length := by
          have hle := int32_le s.source.length
          have hseek : ¬ int32 s.partial'.length < 0 := by omega
          rw [sentFrom, if_neg hseek, List.length_drop]
          omega
        have hiff := exact_iff_resumable rfl hneed
        rw [if_pos hruns]
        constructor
        · intro hexact _ _ _
          obtain ⟨htarget, hunread⟩ := hexact _ rfl
          exact hiff.mp ⟨Option.some.inj htarget, hunread⟩
        · intro hresumable r hr
          obtain ⟨hcopy, hunread⟩ := hiff.mpr (hresumable hruns.1 hruns.2.1 hruns.2.2)
          rw [← Option.some.inj hr]
          exact ⟨congrArg some hcopy, hunread⟩
      · rw [if_neg hruns]
        constructor
        · intro _ hcut hmoves hseek
          exact absurd ⟨hcut, hmoves, hseek⟩ hruns
        · intro _ r hr
          cases hr

/-- **A get that reports success leaves a copy exactly when it was resumable.** -/
theorem getExact_iff (s : Files) (a : GetStep) : GetExact s a ↔ GetResumable s a := by
  cases a with
  | replace source => exact iff_of_true trivial trivial
  | get cut =>
      change Exact s (dtaGet s cut).2 ↔ (0 ≤ int32 s.source.length →
        int32 s.source.length - int32 s.partial'.length ≤
          (arriving cut (sentFrom s (int32 s.partial'.length))).length → Resumable s)
      unfold Exact
      rw [dtaGet_report s cut rfl rfl rfl]
      generalize hsent : sentFrom s (int32 s.partial'.length) = sent
      by_cases hfails : int32 s.source.length < 0 ∨
          (arriving cut sent).length < int32 s.source.length - int32 s.partial'.length
      · rw [if_pos hfails]
        constructor
        · intro _ hlength hneed
          omega
        · intro _ r hr
          cases hr
      · have hle := arriving_length_le cut sent
        have hiff := exact_iff_resumable hsent.symm (by omega)
        rw [if_neg hfails]
        constructor
        · intro hexact _ _
          obtain ⟨htarget, hunread⟩ := hexact _ rfl
          exact hiff.mp ⟨Option.some.inj htarget, hunread⟩
        · intro hresumable r hr
          obtain ⟨hcopy, hunread⟩ := hiff.mpr (hresumable (by omega) (by omega))
          rw [← Option.some.inj hr]
          exact ⟨congrArg some hcopy, hunread⟩

/-! ## Histories of transfers -/

/-- **Every transfer of a history that reports success leaves a copy and nothing unread exactly when
every transfer that runs through finds a beginning of its source, which is shorter than an `int`
counts.** -/
theorem transfers_exact_iff (s t : Files) (puts : List PutStep) (gets : List GetStep) :
    (Meets putStep PutExact s puts ↔ Meets putStep PutResumable s puts) ∧
      (Meets getStep GetExact t gets ↔ Meets getStep GetResumable t gets) := by
  constructor
  · exact meets_iff_of_invariant (I := fun _ => True) (fun _ _ _ _ _ => trivial)
      (fun s a _ => putExact_iff s a) trivial
  · exact meets_iff_of_invariant (I := fun _ => True) (fun _ _ _ _ _ => trivial)
      (fun s a _ => getExact_iff s a) trivial

/-- A put is broken off after one byte, the source is replaced, and the next put reports success. -/
theorem transfers_not_exact :
    ¬ Meets putStep PutExact ⟨[65, 66], none, none⟩
      [.put (some 1) true, .replace [67, 68], .put none true] := by
  decide

end Dta.Transfer
