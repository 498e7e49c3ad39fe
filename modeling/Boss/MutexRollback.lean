import Boss.MutexDoubleLockRuns

/-!
# Recovery after the death of a process

When a process dies, `rollbackSrc` takes back from the shared counters what the
process's registry says it holds.  This is right as long as the registry and the
counters tell the same story about the dead process.  `RegOk` is that story on
the registry's side: one entry per resource, holding exactly the one count that
the process's phase calls for.  On the counters' side it is `Counted`.

The two sides disagree in three phases.  `getReadLock` registers before it is
counted, so a process that dies registered or waiting is taken off a counter it
never entered; `releaseReadLock` unregisters after it is counted out, so a
process that dies in between is taken off twice.  A registry that is full drops
an acquisition silently, which loses the holder for the recovery.  Runs that
avoid these recover (`rollback_recovers`); one reader that dies while it
registers is enough to let a writer in beside another reader
(`rollback_breaks_exclusion`).
-/

namespace MutexDoubleLock

open Census

/-- The entry that has one count of the given kind. -/
def single (sid : Int) : Option SrcKind → MsrcInfo
  | none => ⟨sid, 0, 0, 0⟩
  | some kind => MsrcInfo.add ⟨sid, 0, 0, 0⟩ kind 1

/-- Adding to an entry leaves its mutex. -/
@[simp] theorem add_m_sid (e : MsrcInfo) (kind : SrcKind) (d : Int) :
    (e.add kind d).m_sid = e.m_sid := by
  cases kind <;> rfl

/-- An entry with one lock is one of its mutex. -/
@[simp] theorem single_m_sid (sid : Int) (k : Option SrcKind) : (single sid k).m_sid = sid := by
  cases k <;> simp [single]

/-- The one lock is taken off again. -/
theorem single_add_neg (sid : Int) (kind : SrcKind) :
    (single sid (some kind)).add kind (-1) = single sid none := by
  cases kind <;> simp [single, MsrcInfo.add]

theorem single_add_one (sid : Int) (kind : SrcKind) :
    (single sid none).add kind 1 = single sid (some kind) := rfl

/-- The registry of a process matches its phases: one entry per resource, with
the count that the phase calls for. -/
structure RegOk (info : ProcessMSrcInfo) (ph : Int → Phase) : Prop where
  nodup : (info.map (·.m_sid)).Nodup
  range : ∀ e ∈ info, 0 ≤ e.m_sid ∧ e.m_sid < maxMutexNum
  entry : ∀ e ∈ info, e = single e.m_sid (regKind (ph e.m_sid))
  held : ∀ sid, regKind (ph sid) ≠ none → ∃ e ∈ info, e.m_sid = sid
  room : info.length ≤ maxPsrcNum

/-- `bump` on a registry without repeated resources. -/
theorem bump_eq {info : ProcessMSrcInfo} (kind : SrcKind) (sid d : Int)
    (hnodup : (info.map (·.m_sid)).Nodup) :
    bump kind sid d info =
      if ∃ e ∈ info, e.m_sid = sid then
        some (info.map fun e => if e.m_sid = sid then e.add kind d else e)
      else none := by
  induction info with
  | nil => simp [bump]
  | cons e rest ih =>
      rw [List.map_cons, List.nodup_cons] at hnodup
      by_cases he : e.m_sid = sid
      · have hrest : rest.map (fun f => if f.m_sid = sid then f.add kind d else f) = rest := by
          rw [List.map_congr_left (g := id) ?_, List.map_id]
          intro f hf
          have hne : f.m_sid ≠ sid := fun h =>
            hnodup.1 (List.mem_map.mpr ⟨f, hf, h.trans he.symm⟩)
          simp [hne]
        simp [bump, he, hrest]
      · simp only [bump, he, if_false, ih hnodup.2, List.mem_cons, exists_eq_or_imp, false_or]
        by_cases hex : ∃ f ∈ rest, f.m_sid = sid
        · simp [hex, he]
        · simp [hex]

/-- Taking the only count off the entry of a resource removes the entry. -/
theorem takeOff_eq {info : ProcessMSrcInfo} {kind : SrcKind} {sid : Int}
    (hnodup : (info.map (·.m_sid)).Nodup) (hex : ∃ e ∈ info, e.m_sid = sid)
    (hentry : ∀ e ∈ info, e.m_sid = sid → e = single sid (some kind)) :
    takeOff kind sid info = some (info.filter fun e => e.m_sid ≠ sid) := by
  induction info with
  | nil => simp at hex
  | cons e rest ih =>
      rw [List.map_cons, List.nodup_cons] at hnodup
      by_cases he : e.m_sid = sid
      · have hzero : (e.add kind (-1)).total = 0 := by
          rw [hentry e List.mem_cons_self he, single_add_neg]
          rfl
        have hrest : rest.filter (fun f => f.m_sid ≠ sid) = rest := by
          refine List.filter_eq_self.mpr fun f hf => ?_
          have hne : f.m_sid ≠ sid := fun h =>
            hnodup.1 (List.mem_map.mpr ⟨f, hf, h.trans he.symm⟩)
          simpa using hne
        rw [takeOff, if_pos he, if_neg (by omega), List.filter_cons_of_neg (by simpa using he),
          hrest]
      · have hex' : ∃ f ∈ rest, f.m_sid = sid := by simpa [he] using hex
        have htail := ih hnodup.2 hex' fun f hf => hentry f (List.mem_cons_of_mem e hf)
        rw [takeOff, if_neg he, htail, Option.map_some,
          List.filter_cons_of_pos (by simpa using he)]

/-- A phase that is registered in the same way keeps the register right. -/
theorem RegOk.keep {info : ProcessMSrcInfo} {ph : Int → Phase} (h : RegOk info ph) {sid : Int}
    {b : Phase} (hb : regKind (ph sid) = regKind b) : RegOk info (Function.update ph sid b) := by
  have hsame : ∀ t, regKind (Function.update ph sid b t) = regKind (ph t) := by
    intro t
    by_cases ht : t = sid
    · subst ht; simp [hb]
    · simp [ht]
  refine ⟨h.nodup, h.range, fun e he => ?_, fun t ht => ?_, h.room⟩
  · rw [hsame]; exact h.entry e he
  · exact h.held t (by rwa [hsame] at ht)

/-- Changing the entry of a resource to what the new phase calls for. -/
theorem RegOk.changeEntry {info : ProcessMSrcInfo} {ph : Int → Phase}
    (h : RegOk info ph) {sid d : Int}
    {b : Phase} {k : SrcKind} (hex : ∃ e ∈ info, e.m_sid = sid)
    (hadd : (single sid (regKind (ph sid))).add k d = single sid (regKind b)) :
    RegOk (info.map fun e => if e.m_sid = sid then e.add k d else e)
      (Function.update ph sid b) := by
  have hids : (info.map fun e => if e.m_sid = sid then e.add k d else e).map (·.m_sid) =
      info.map (·.m_sid) := by
    rw [List.map_map]
    refine List.map_congr_left fun e _ => ?_
    by_cases he : e.m_sid = sid <;> simp [he]
  refine ⟨by rw [hids]; exact h.nodup, ?_, ?_, ?_, by simpa using h.room⟩
  · intro e' he'
    obtain ⟨e, he, rfl⟩ := List.mem_map.mp he'
    have hin := h.range e he
    by_cases heq : e.m_sid = sid
    · rwa [if_pos heq, add_m_sid]
    · rwa [if_neg heq]
  · intro e' he'
    obtain ⟨e, he, rfl⟩ := List.mem_map.mp he'
    have hentry := h.entry e he
    by_cases heq : e.m_sid = sid
    · rw [heq] at hentry
      rw [if_pos heq, add_m_sid, heq, Function.update_self, hentry, hadd]
    · rw [if_neg heq, Function.update_of_ne heq]; exact hentry
  · intro t ht
    by_cases hts : t = sid
    · obtain ⟨e, he, heq⟩ := hex
      exact ⟨_, List.mem_map.mpr ⟨e, he, rfl⟩, by simp [heq, hts]⟩
    · obtain ⟨e, he, heq⟩ := h.held t (by rwa [Function.update_of_ne hts] at ht)
      have hne : e.m_sid ≠ sid := fun hc => hts (heq.symm.trans hc)
      exact ⟨_, List.mem_map.mpr ⟨e, he, rfl⟩, by rw [if_neg hne, heq]⟩

/-- Registering keeps the registry in step, provided there is room. -/
theorem RegOk.lock {info : ProcessMSrcInfo} {ph : Int → Phase} (h : RegOk info ph) {sid : Int}
    {b : Phase} {k : SrcKind} (hidle : regKind (ph sid) = none) (hb : regKind b = some k)
    (hsid : 0 ≤ sid ∧ sid < maxMutexNum)
    (hroom : (∃ e ∈ info, e.m_sid = sid) ∨ info.length < maxPsrcNum) :
    RegOk (lockSrc k info sid).2 (Function.update ph sid b) := by
  unfold lockSrc
  rw [bump_eq k sid 1 h.nodup]
  by_cases hex : ∃ e ∈ info, e.m_sid = sid
  · rw [if_pos hex]
    exact h.changeEntry hex (by rw [hidle, hb, single_add_one])
  · have hlen : info.length < maxPsrcNum := hroom.resolve_left hex
    rw [if_neg hex]
    dsimp only
    rw [if_neg (by omega)]
    have hnew : MsrcInfo.add ⟨sid, 0, 0, 0⟩ k 1 = single sid (some k) := rfl
    refine ⟨?_, ?_, ?_, ?_, ?_⟩
    · rw [List.map_append, List.nodup_append]
      refine ⟨h.nodup, by simp, ?_⟩
      intro a ha c hc hac
      obtain ⟨e, he, rfl⟩ := List.mem_map.mp ha
      exact hex ⟨e, he, by simpa [hac] using hc⟩
    · intro e he
      rcases List.mem_append.mp he with he | he
      · exact h.range e he
      · rw [List.mem_singleton.mp he]; simpa using hsid
    · intro e he
      rcases List.mem_append.mp he with he | he
      · have hne : e.m_sid ≠ sid := fun hc => hex ⟨e, he, hc⟩
        rw [Function.update_of_ne hne]; exact h.entry e he
      · rw [List.mem_singleton.mp he, hnew, single_m_sid, Function.update_self, hb]
    · intro t ht
      by_cases hts : t = sid
      · exact ⟨_, List.mem_append_right _ (List.mem_singleton_self _), by simp [hts]⟩
      · obtain ⟨e, he, heq⟩ := h.held t (by rwa [Function.update_of_ne hts] at ht)
        exact ⟨e, List.mem_append_left _ he, heq⟩
    · simp only [List.length_append, List.length_singleton]; omega

/-- Unregistering removes the entry and so keeps the registry in step. -/
theorem RegOk.unlock {info : ProcessMSrcInfo} {ph : Int → Phase} (h : RegOk info ph) {sid : Int}
    {k : SrcKind} (hk : regKind (ph sid) = some k) :
    RegOk (unlockSrc k info sid).2 (Function.update ph sid .idle) ∧
      (unlockSrc k info sid).2.length < maxPsrcNum := by
  have hex := h.held sid (by simp [hk])
  have hoff : takeOff k sid info = some (info.filter fun e => e.m_sid ≠ sid) := by
    refine takeOff_eq h.nodup hex fun e he heq => ?_
    have hentry := h.entry e he
    rwa [heq, hk] at hentry
  unfold unlockSrc
  rw [hoff]
  have hsub : (info.filter fun e => e.m_sid ≠ sid).Sublist info := List.filter_sublist
  refine ⟨⟨h.nodup.sublist (hsub.map _), fun e he => h.range e (hsub.subset he), ?_, ?_,
    le_trans hsub.length_le h.room⟩, ?_⟩
  · intro e he
    have hne : e.m_sid ≠ sid := by simpa using (List.mem_filter.mp he).2
    rw [Function.update_of_ne hne]
    exact h.entry e (hsub.subset he)
  · intro t ht
    have hts : t ≠ sid := by rintro rfl; simp [regKind] at ht
    obtain ⟨e, he, heq⟩ := h.held t (by rwa [Function.update_of_ne hts] at ht)
    exact ⟨e, List.mem_filter.mpr ⟨he, by simpa [heq] using hts⟩, heq⟩
  · obtain ⟨e, he, heq⟩ := hex
    refine lt_of_lt_of_le ?_ h.room
    exact List.length_filter_lt_length_iff_exists.mpr ⟨e, he, by simpa using heq⟩

/-- Every way in which a registry moves keeps it in step with the phases. -/
theorem RegOk.regMove {info info' : ProcessMSrcInfo} {ph : Int → Phase} {sid : Int} {b : Phase}
    (h : RegOk info ph) (hmove : RegMove sid info (ph sid) info' b)
    (hsid : 0 ≤ sid ∧ sid < maxMutexNum)
    (hroom : ph sid = .idle → (∃ e ∈ info, e.m_sid = sid) ∨ info.length < maxPsrcNum) :
    RegOk info' (Function.update ph sid b) := by
  generalize ha : ph sid = a at hmove hroom
  cases hmove with
  | keep hkind => exact h.keep (by rw [ha, hkind])
  | lock hb => exact h.lock (by rw [ha]; rfl) hb hsid (hroom rfl)
  | unlock hk => exact (h.unlock (by rw [ha, hk])).1
  | write =>
      obtain ⟨hout, hlen⟩ := h.unlock (k := .wwait) (by rw [ha]; rfl)
      have hin := hout.lock (b := .writing) (k := .wd) (by simp [regKind]) rfl hsid (.inr hlen)
      rw [Function.update_idem] at hin
      exact hin
  | writeAtOnce =>
      have hwait := h.lock (b := .wtWaiting) (k := .wwait) (by rw [ha]; rfl) rfl hsid (hroom rfl)
      obtain ⟨hout, hlen⟩ := hwait.unlock (k := .wwait) (by rw [Function.update_self]; rfl)
      have hin := hout.lock (b := .writing) (k := .wd) (by simp [regKind]) rfl hsid (.inr hlen)
      rw [Function.update_idem, Function.update_idem] at hin
      exact hin

/-- The phases in which the registry and the counters disagree about a reader. -/
def inReadGap (ph : Phase) : Bool := ph ∈ [Phase.rdRegistered, .rdWaiting, .rdReleased]

/-- Which count of an entry is positive says which kind the phase calls for. -/
theorem single_counts {e : MsrcInfo} {k : Option SrcKind} (h : e = single e.m_sid k) :
    (0 < e.m_rcount ↔ k = some .rd) ∧ (0 < e.m_wcount ↔ k = some .wd) ∧
      (0 < e.m_wwait ↔ k = some .wwait) := by
  rw [h]
  rcases k with _ | ⟨_ | _ | _⟩ <;> simp [single, MsrcInfo.add]

/-- The count that is rolled back next is the one the phase calls for. -/
theorem rollbackNext_some {info : ProcessMSrcInfo} {ph : Int → Phase} {k : SrcKind} {sid : Int}
    (hentry : ∀ e ∈ info, e = single e.m_sid (regKind (ph e.m_sid)))
    (h : rollbackNext info = some (k, sid)) :
    regKind (ph sid) = some k ∧ ∃ e ∈ info, e.m_sid = sid := by
  induction info with
  | nil => cases h
  | cons e rest ih =>
      have hlater : rollbackNext rest = some (k, sid) →
          regKind (ph sid) = some k ∧ ∃ f ∈ e :: rest, f.m_sid = sid := by
        intro hnext
        obtain ⟨hk, f, hf, hsid⟩ := ih (fun f hf => hentry f (List.mem_cons_of_mem e hf)) hnext
        exact ⟨hk, f, List.mem_cons_of_mem e hf, hsid⟩
      obtain ⟨hr, hw, hww⟩ := single_counts (hentry e List.mem_cons_self)
      unfold rollbackNext at h
      split at h
      · exact hlater h
      split at h
      · obtain ⟨rfl, rfl⟩ := Prod.mk.inj (Option.some.inj h)
        exact ⟨hr.mp ‹_›, e, List.mem_cons_self, rfl⟩
      split at h
      · obtain ⟨rfl, rfl⟩ := Prod.mk.inj (Option.some.inj h)
        exact ⟨hw.mp ‹_›, e, List.mem_cons_self, rfl⟩
      split at h
      · obtain ⟨rfl, rfl⟩ := Prod.mk.inj (Option.some.inj h)
        exact ⟨hww.mp ‹_›, e, List.mem_cons_self, rfl⟩
      · exact hlater h

/-- When nothing is left to roll back, no entry calls for a count. -/
theorem rollbackNext_none {info : ProcessMSrcInfo} {ph : Int → Phase}
    (hrange : ∀ e ∈ info, 0 ≤ e.m_sid ∧ e.m_sid < maxMutexNum)
    (hentry : ∀ e ∈ info, e = single e.m_sid (regKind (ph e.m_sid)))
    (h : rollbackNext info = none) : ∀ e ∈ info, regKind (ph e.m_sid) = none := by
  induction info with
  | nil => intro e he; cases he
  | cons e rest ih =>
      have hin := hrange e List.mem_cons_self
      obtain ⟨hr, hw, hww⟩ := single_counts (hentry e List.mem_cons_self)
      unfold rollbackNext at h
      rw [if_neg (by omega)] at h
      split at h
      · cases h
      split at h
      · cases h
      split at h
      · cases h
      intro f hf
      rcases List.mem_cons.mp hf with rfl | hf
      · rcases hk : regKind (ph f.m_sid) with _ | ⟨_ | _ | _⟩
        · rfl
        · exact absurd (hr.mpr hk) ‹_›
        · exact absurd (hw.mpr hk) ‹_›
        · exact absurd (hww.mpr hk) ‹_›
      · exact ih (fun g hg => hrange g (List.mem_cons_of_mem e hg))
          (fun g hg => hentry g (List.mem_cons_of_mem e hg)) h f hf

/-- Only an idle process is not registered. -/
theorem regKind_eq_none {ph : Phase} (h : regKind ph = none) : ph = .idle := by
  cases ph <;> first | rfl | cases h

/-- Taking one count off the registry and the process out of its phase keeps
them in step; the emptied entry stays until the final `memset`. -/
theorem RegOk.rollback {info : ProcessMSrcInfo} {ph : Int → Phase} (h : RegOk info ph)
    {k : SrcKind} {sid : Int} (hk : regKind (ph sid) = some k) :
    RegOk ((bump k sid (-1) info).getD info) (Function.update ph sid .idle) := by
  have hex := h.held sid (by simp [hk])
  rw [bump_eq k sid (-1) h.nodup, if_pos hex, Option.getD_some]
  exact h.changeEntry hex (by rw [hk, single_add_neg]; rfl)

variable {Pid : Type} [DecidableEq Pid]

/-- **When recovery is right.**  A process registers only a resource it has an
entry for or has room for, and no process dies in a phase in which its registry
entry stands for a reader that the counters do not have. -/
def RecoveryOk (s : State Pid) : Act Pid → Prop
  | .registerRead p sid | .tryRead p sid | .enterWrite p sid | .tryWrite p sid =>
      (∃ e ∈ s.info p, e.m_sid = sid) ∨ (s.info p).length < maxPsrcNum
  | .die p => ∀ sid, inReadGap (s.phase p sid) = false
  | _ => True

/-- Only a process outside the lock registers, and the side condition gives it
room. -/
theorem room_of_ok {s t : State Pid} {a : Act Pid} {p : Pid} {sid : Int}
    (htarget : a.target = some (p, sid)) (hok : RecoveryOk s a) (h : step s a = some t)
    (hidle : s.phase p sid = .idle) :
    (∃ e ∈ s.info p, e.m_sid = sid) ∨ (s.info p).length < maxPsrcNum := by
  cases a with
  | registerRead q r | tryRead q r | enterWrite q r | tryWrite q r =>
      cases htarget
      exact hok
  | testRead q r | leaveRead q r | unregisterRead q r | testWrite q r | leaveWrite q r =>
      cases htarget
      have hph := (perform_some h).2.1
      rw [hidle] at hph
      exact absurd hph (by decide)
  | die q => cases htarget
  | rollback q => cases htarget

variable [Fintype Pid]

/-- The recovery invariant: counters and registries tell the phases of all
processes, and a dead process is in no phase about which they disagree. -/
structure Recoverable (s : State Pid) : Prop where
  counted : Counted s
  reg : ∀ p, RegOk (s.info p) (s.phase p)
  dead : ∀ p, s.alive p = false → ∀ sid, inReadGap (s.phase p sid) = false

omit [DecidableEq Pid] in
/-- At first nothing is held. -/
theorem recoverable_init : Recoverable (init : State Pid) where
  counted := counted_init
  reg := fun _ => ⟨by simp [init], by simp [init], by simp [init], by simp [init, regKind],
    by simp [init, maxPsrcNum]⟩
  dead := fun _ h => by cases h

/-- A move of a live process that has room in its register can be taken back. -/
theorem Recoverable.movedFrom {s t : State Pid} {p : Pid} {sid : Int} (hinv : Recoverable s)
    (hlive : s.alive p = true) (hsid : 0 ≤ sid ∧ sid < maxMutexNum)
    (hroom : s.phase p sid = .idle →
      (∃ e ∈ s.info p, e.m_sid = sid) ∨ (s.info p).length < maxPsrcNum)
    (hmoved : MovedFrom s p sid t) : Recoverable t := by
  refine ⟨hinv.counted.movedFrom hmoved, ?_, ?_⟩
  · obtain ⟨n, info, ph, rfl, -, hreg⟩ := hmoved
    intro q
    by_cases hq : q = p
    · subst hq
      simpa [State.moved, State.setInfo, State.setPhase, State.setNode] using
        (hinv.reg q).regMove hreg hsid hroom
    · simpa [State.moved, State.setInfo, State.setPhase, State.setNode, hq] using hinv.reg q
  · obtain ⟨n, info, ph, rfl, -, -⟩ := hmoved
    intro q hdead
    have hq : q ≠ p := by
      rintro rfl
      have halive : s.alive q = false := hdead
      rw [hlive] at halive
      cases halive
    simpa [State.moved, State.setInfo, State.setPhase, State.setNode, hq] using hinv.dead q hdead

/-- A rollback round takes the dead process out of the counter that its phase is
in, so the guard against negative counters never matters. -/
theorem rollbackNode_share {n : MutexNode} {ph : Phase} {k : SrcKind}
    (hk : regKind ph = some k) (hgap : inReadGap ph = false)
    (hrd : (share ph).m_rdCount ≤ n.m_rdCount) (hwt : (share ph).m_wtCount ≤ n.m_wtCount)
    (hww : (share ph).m_wtWait ≤ n.m_wtWait) :
    (rollbackNode n k).m_rdCount = n.m_rdCount - (share ph).m_rdCount ∧
    (rollbackNode n k).m_wtCount = n.m_wtCount - (share ph).m_wtCount ∧
    (rollbackNode n k).m_wtWait = n.m_wtWait - (share ph).m_wtWait := by
  cases ph with
  | idle => cases hk
  | rdRegistered => cases hgap
  | rdWaiting => cases hgap
  | rdReleased => cases hgap
  | reading =>
      cases hk
      simp only [share, reduceCtorEq, if_true, if_false] at *
      refine ⟨?_, ?_, ?_⟩ <;> simp only [rollbackNode, decCount] <;> grind
  | wtWaiting =>
      cases hk
      simp only [share, reduceCtorEq, if_true, if_false] at *
      refine ⟨?_, ?_, ?_⟩ <;> simp only [rollbackNode, decCount] <;> grind
  | writing =>
      cases hk
      simp only [share, reduceCtorEq, if_true, if_false] at *
      refine ⟨?_, ?_, ?_⟩ <;> simp only [rollbackNode, decCount] <;> grind

/-- Rolling back a dead process leaves what is held by the others. -/
theorem Recoverable.rollbackSrc {s : State Pid} {p : Pid} (hinv : Recoverable s)
    (hdead : s.alive p = false) : Recoverable (rollbackSrc s p) := by
  have hreg := hinv.reg p
  unfold MutexDoubleLock.rollbackSrc
  cases hnext : rollbackNext (s.info p) with
  | none =>
      have hidle : ∀ sid, regKind (s.phase p sid) = none := by
        intro sid
        by_contra hne
        obtain ⟨e, he, rfl⟩ := hreg.held sid hne
        exact hne (rollbackNext_none hreg.range hreg.entry hnext e he)
      refine ⟨⟨hinv.counted.rd, hinv.counted.wt, hinv.counted.ww, hinv.counted.one_writer,
        hinv.counted.no_reader⟩, ?_, hinv.dead⟩
      intro q
      by_cases hq : q = p
      · subst hq
        refine ⟨by simp [State.setInfo], by simp [State.setInfo], by simp [State.setInfo], ?_,
          by simp [State.setInfo, maxPsrcNum]⟩
        intro sid hne
        exact absurd (hidle sid) hne
      · simpa [State.setInfo, hq] using hinv.reg q
  | some next =>
      obtain ⟨k, sid⟩ := next
      have hk := (rollbackNext_some hreg.entry hnext).1
      have hgap := hinv.dead p hdead sid
      obtain ⟨hrd, hwt⟩ := share_le s p sid hinv.counted
      have hww : (share (s.phase p sid)).m_wtWait ≤ (s.node sid).m_wtWait := by
        rw [hinv.counted.ww]
        by_cases h : s.phase p sid = .wtWaiting
        · simpa [share, h] using count_pos h
        · simpa [share, h] using count_nonneg s sid .wtWaiting
      have hnode := rollbackNode_share hk hgap hrd hwt hww
      refine ⟨?_, ?_, ?_⟩
      · refine hinv.counted.moved (by simpa [share] using hnode) ?_
        have hone := hinv.counted.one_writer sid
        have hno := hinv.counted.no_reader sid
        have hrd0 : 0 ≤ (share (s.phase p sid)).m_rdCount := by
          unfold share; dsimp only; split <;> omega
        have hwt0 : 0 ≤ (share (s.phase p sid)).m_wtCount := by
          unfold share; dsimp only; split <;> omega
        omega
      · intro q
        by_cases hq : q = p
        · subst hq
          simpa [State.setInfo, State.setPhase, State.setNode] using hreg.rollback hk
        · simpa [State.setInfo, State.setPhase, State.setNode, hq] using hinv.reg q
      · intro q hq other
        have hold := hinv.dead q hq other
        by_cases hqp : q = p
        · subst hqp
          by_cases hs : other = sid
          · subst hs; simp [State.setPhase, inReadGap]
          · simpa [State.setPhase, State.setInfo, State.setNode, hs] using hold
        · simpa [State.setPhase, State.setInfo, State.setNode, hqp] using hold

/-- A step that meets the condition can be taken back. -/
theorem Recoverable.step {s t : State Pid} {a : Act Pid} (hinv : Recoverable s)
    (hok : RecoveryOk s a) (h : step s a = some t) : Recoverable t := by
  cases htarget : a.target with
  | some target =>
      obtain ⟨p, sid⟩ := target
      obtain ⟨⟨hlive, hsid⟩, hmoved⟩ := step_cases htarget h
      exact hinv.movedFrom hlive hsid (room_of_ok htarget hok h) hmoved
  | none =>
      cases a with
      | die p =>
          simp only [MutexDoubleLock.step] at h
          split at h
          · obtain rfl := Option.some.inj h
            refine ⟨⟨hinv.counted.rd, hinv.counted.wt, hinv.counted.ww, hinv.counted.one_writer,
              hinv.counted.no_reader⟩, hinv.reg, ?_⟩
            intro q hq
            by_cases hqp : q = p
            · subst hqp; exact hok
            · exact hinv.dead q (by simpa [hqp] using hq)
          · cases h
      | rollback p =>
          simp only [MutexDoubleLock.step] at h
          split at h
          · cases h
          · rename_i hdead
            obtain rfl := Option.some.inj h
            exact hinv.rollbackSrc (by simpa using hdead)
      | registerRead q r | testRead q r | tryRead q r | leaveRead q r | unregisterRead q r
      | enterWrite q r | testWrite q r | tryWrite q r | leaveWrite q r => cases htarget

/-- The number of live processes in a phase on a resource. -/
def State.liveCount (s : State Pid) (sid : Int) (ph : Phase) : Int :=
  (Finset.univ.filter fun p => s.alive p = true ∧ s.phase p sid = ph).card

omit [DecidableEq Pid] in
/-- A dead process whose registry is empty is out of every phase. -/
theorem Recoverable.idle_of_recovered {s : State Pid} (hinv : Recoverable s) {p : Pid}
    (hempty : s.info p = []) (sid : Int) : s.phase p sid = .idle := by
  refine regKind_eq_none ?_
  by_contra hne
  obtain ⟨e, he, -⟩ := (hinv.reg p).held sid hne
  rw [hempty] at he
  cases he

omit [DecidableEq Pid] in
/-- Once the dead are rolled back, only the live ones are counted. -/
theorem Recoverable.count_eq_liveCount {s : State Pid} (hinv : Recoverable s)
    (hrec : ∀ p, s.alive p = false → s.info p = []) (sid : Int) {ph : Phase}
    (hne : ph ≠ .idle) : s.count sid ph = s.liveCount sid ph := by
  unfold State.count State.liveCount census
  congr 2
  ext p
  have hlive : s.phase p sid = ph → s.alive p = true := by
    intro hph
    by_contra hdead
    have hidle := hinv.idle_of_recovered (hrec p (by simpa using hdead)) sid
    exact hne (hph.symm.trans hidle)
  rw [Finset.mem_filter, Finset.mem_filter]
  exact ⟨fun h => ⟨h.1, hlive h.2, h.2⟩, fun h => ⟨h.1, h.2.2⟩⟩

/-- What recovery is for, on one resource: live holders exclude each other, also
while dead processes still wait to be rolled back; and once every dead process
has been, the shared counters are the numbers of live processes reading, writing
and waiting to write. -/
def Recovered (s : State Pid) (sid : Int) : Prop :=
  (∀ p q, s.alive p = true → s.alive q = true → s.phase p sid = .writing →
    s.phase q sid = .writing → q = p) ∧
  (∀ p q, s.alive p = true → s.alive q = true → s.phase p sid = .writing →
    s.phase q sid ≠ .reading) ∧
  ((∀ p, s.alive p = false → s.info p = []) →
    (s.node sid).m_rdCount = s.liveCount sid .reading ∧
    (s.node sid).m_wtCount = s.liveCount sid .writing ∧
    (s.node sid).m_wtWait = s.liveCount sid .wtWaiting)

/-- **Recovery.**  Every state of every run in which deaths and registrations
meet `RecoveryOk` is recovered. -/
theorem rollback_recovers {acts : List (Act Pid)} {s : State Pid}
    (hmeets : Runs.Meets step RecoveryOk init acts) (hrun : runFrom acts = some s) (sid : Int) :
    Recovered s sid := by
  have hinv : Recoverable s :=
    Runs.run_invariant_of_meets (fun _ _ _ hs hok h => hs.step hok h) recoverable_init hmeets hrun
  refine ⟨fun p q _ _ hp hq => (hinv.counted.exclusive hp).1 q hq,
    fun p q _ _ hp => (hinv.counted.exclusive hp).2 q, fun hrec => ⟨?_, ?_, ?_⟩⟩
  · rw [hinv.counted.rd, hinv.count_eq_liveCount hrec sid (by decide)]
  · rw [hinv.counted.wt, hinv.count_eq_liveCount hrec sid (by decide)]
  · rw [hinv.counted.ww, hinv.count_eq_liveCount hrec sid (by decide)]

/-- One of two readers dies while it reads and is rolled back. -/
def deadReader : List (Act (Fin 2)) :=
  [.tryRead 0 5, .tryRead 1 5, .die 0, .rollback 0, .rollback 0]

/-- One of two readers dies: the other one is counted. -/
theorem rollback_recovers_deadReader :
    ∃ s, runFrom deadReader = some s ∧ s.alive 0 = false ∧ s.phase 1 5 = .reading ∧
      (s.node 5).m_rdCount = s.liveCount 5 .reading := by
  have hmeets : Runs.Meets step RecoveryOk init deadReader := by
    refine Runs.meets_cons rfl (.inr (by decide)) ?_
    refine Runs.meets_cons rfl (.inr (by decide)) ?_
    refine Runs.meets_cons rfl ?_ ?_
    · intro sid
      by_cases hsid : sid = 5
      · subst hsid; decide
      · have hidle : (tryRead (tryRead init 0 5) 1 5 : State (Fin 2)).phase 0 sid = .idle := by
          simp [tryRead, readBlocked, init, MutexNode.zero, State.setNode, State.setInfo,
            State.setPhase, hsid]
        exact congrArg inReadGap hidle
    refine Runs.meets_cons rfl trivial ?_
    exact Runs.meets_cons rfl trivial trivial
  obtain ⟨s, hs⟩ : ∃ s, runFrom deadReader = some s := Option.isSome_iff_exists.mp (by decide)
  have hfacts : (runFrom deadReader).map
      (fun s => (s.alive 0, s.phase 1 5, s.alive 1, s.info 0)) =
        some (false, .reading, true, []) := by decide
  rw [hs] at hfacts
  simp only [Option.map_some, Option.some.injEq, Prod.mk.injEq] at hfacts
  obtain ⟨h0, h1, hlive, hinfo⟩ := hfacts
  refine ⟨s, hs, h0, h1, ((rollback_recovers hmeets hs 5).2.2 ?_).1⟩
  intro p hp
  have hcases : p = 0 ∨ p = 1 := by omega
  rcases hcases with rfl | rfl
  · exact hinfo
  · rw [hlive] at hp; cases hp

/-- **The gap of `getReadLock`.**  Process `0` reads; process `1` dies between its
registration and its critical section and is rolled back, which takes process `0`
off the reader counter; process `2` then gets the write lock beside the live
reader. -/
theorem rollback_breaks_exclusion :
    ¬ ∀ (acts : List (Act (Fin 3))) (s : State (Fin 3)), runFrom acts = some s →
      ∀ sid : Int, Recovered s sid := by
  intro hclaim
  let acts : List (Act (Fin 3)) :=
    [.tryRead 0 5, .registerRead 1 5, .die 1, .rollback 1, .rollback 1, .tryWrite 2 5]
  obtain ⟨s, hs⟩ : ∃ s, runFrom acts = some s := Option.isSome_iff_exists.mp (by decide)
  have hfacts : (runFrom acts).map
      (fun s => (s.alive 0, s.phase 0 5, s.alive 2, s.phase 2 5)) =
        some (true, .reading, true, .writing) := by decide
  rw [hs] at hfacts
  simp only [Option.map_some, Option.some.injEq, Prod.mk.injEq] at hfacts
  obtain ⟨h0, hread, h2, hwrite⟩ := hfacts
  exact (hclaim acts s hs 5).2.1 2 0 h2 h0 hwrite hread

end MutexDoubleLock
