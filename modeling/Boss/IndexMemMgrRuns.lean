import Boss.IndexMemMgrDrop
import Boss.Runs

/-!
# Runs of an index space

Indexes are created and dropped in any order, starting from a space that `f_init` made one
idle segment.  Along every run of safe calls the segments stay in order: this is
`segments_tile`.  `segments_not_tile` is a run of two indexes in which the last drop
dereferences the offset `-1`.
-/

namespace IndexMemMgr

open LinkedChain Tiling Runs

variable {sp : SpaceInfo} {s : State} {layout used idle : List Nat} {p : Nat}

/-- The calls, with the answers of the lock. -/
inductive Call where
  | createHashIndex (lock : Bool) (idx : IndexDef)
  | dropHashIdex (lock : Bool) (r_shmPos : ShmPosition)
  deriving DecidableEq, Repr

/-- A space with the positions of the indexes that exist, and the fault that stopped it. -/
structure Sys where
  state : State
  live : List ShmPosition
  fault : Option Fault

/-- One call; only existing indexes are dropped. -/
def step (sp : SpaceInfo) (sys : Sys) : Call → Option Sys
  | .createHashIndex lock idx =>
    if sys.fault.isSome then none
    else
      match createHashIndex sp sys.state lock idx with
      | .error f => some { sys with fault := some f }
      | .ok (s, none) => some { sys with state := s }
      | .ok (s, some pos) => some { sys with state := s, live := pos :: sys.live }
  | .dropHashIdex lock pos =>
    if sys.fault.isSome ∨ pos ∉ sys.live then none
    else
      match dropHashIdex sp sys.state lock pos with
      | .error f => some { sys with fault := some f }
      | .ok (s, false) => some { sys with state := s }
      | .ok (s, true) => some { sys with state := s, live := sys.live.erase pos }

/-- A space after `f_init`. -/
def start (s : State) : Sys := ⟨s, [], none⟩

/-- The idle segments, read from their list. -/
def idleSegs (s : State) : Nat → Nat → List Nat
  | 0, _ => []
  | fuel + 1, p => if p = noSeg then [] else p :: idleSegs s fuel (s.next p)

theorem idleSegs_eq {l : List Nat} {fuel : Nat} (h : Chain s.next noSeg p l)
    (hfuel : l.length ≤ fuel) : idleSegs s fuel p = l := by
  induction l generalizing p fuel with
  | nil =>
      obtain rfl : p = noSeg := h
      cases fuel with
      | zero => rfl
      | succ n => simp [idleSegs]
  | cons x rest ih =>
      obtain ⟨rfl, hx, hrest⟩ := h
      cases fuel with
      | zero => simp at hfuel
      | succ n => simp [idleSegs, hx, ih hrest (by simpa using hfuel)]

/-- The idle segments of a layout. -/
theorem Layout.idleSegs_eq (h : Layout sp s layout used idle) :
    idleSegs s sp.m_size s.m_fIdleSeg = idle := by
  refine IndexMemMgr.idleSegs_eq h.lists.idleList.forward ?_
  have := h.tiled.length_le
  have hlength := h.parts.length_eq
  simp only [List.length_append] at hlength
  omega

/-- A call whose sizes do not wrap around and that drops on a safe way. -/
def SafeCall (sp : SpaceInfo) (sys : Sys) : Call → Prop
  | .createHashIndex _ idx => sizeofHashIndexSeg ≤ needSize idx
  | .dropHashIdex _ pos =>
    DropSafe sys.state (idleSegs sys.state sp.m_size sys.state.m_fIdleSeg)
      (pos.m_offSet - sizeofHashIndexSeg)

instance (sp : SpaceInfo) (sys : Sys) : (call : Call) → Decidable (SafeCall sp sys call)
  | .createHashIndex _ idx => inferInstanceAs (Decidable (sizeofHashIndexSeg ≤ needSize idx))
  | .dropHashIdex _ pos => inferInstanceAs (Decidable (DropSafe sys.state
      (idleSegs sys.state sp.m_size sys.state.m_fIdleSeg) (pos.m_offSet - sizeofHashIndexSeg)))

/-- Every existing index has its segment. -/
structure Sound (sp : SpaceInfo) (sys : Sys) (layout used idle : List Nat) : Prop where
  layout : Layout sp sys.state layout used idle
  live : ∀ pos ∈ sys.live, ∃ p ∈ used, pos = ⟨sp.m_spaceCode, p + sizeofHashIndexSeg⟩
  nodup : sys.live.Nodup
  fault : sys.fault = none

theorem Sound.step {sys sys' : Sys} {call : Call} (h : Sound sp sys layout used idle)
    (hsafe : SafeCall sp sys call) (hstep : step sp sys call = some sys') :
    ∃ layout' used' idle', Sound sp sys' layout' used' idle' := by
  cases call with
  | createHashIndex lock idx =>
      obtain ⟨t, r, layout', used', idle', ht, hlayout, hused, hpos⟩ :=
        h.layout.createHashIndex lock hsafe
      simp only [IndexMemMgr.step, h.fault, Option.isSome_none, Bool.false_eq_true, if_false,
        ht] at hstep
      cases r with
      | none =>
          obtain rfl := Option.some.inj hstep
          refine ⟨layout', used', idle', hlayout, ?_, h.nodup, rfl⟩
          intro pos hmem
          obtain ⟨p, hp, heq⟩ := h.live pos hmem
          exact ⟨p, hused p hp, heq⟩
      | some pos =>
          obtain rfl := Option.some.inj hstep
          obtain ⟨p, hp, hnew, heq⟩ := hpos pos rfl
          refine ⟨layout', used', idle', hlayout, ?_, ?_, rfl⟩
          · intro pos' hmem
            rcases List.mem_cons.mp hmem with rfl | hmem
            · exact ⟨p, hp, heq⟩
            · obtain ⟨p', hp', heq'⟩ := h.live pos' hmem
              exact ⟨p', hused p' hp', heq'⟩
          · refine List.nodup_cons.mpr ⟨fun hmem => ?_, h.nodup⟩
            -- the segment of a new position is a new one
            obtain ⟨p', hp', heq'⟩ := h.live pos hmem
            rw [heq, ShmPosition.mk.injEq] at heq'
            have hpp : p = p' := by omega
            exact hnew (hpp ▸ hp')
  | dropHashIdex lock pos =>
      have hmem : pos ∈ sys.live := by
        by_contra hnot
        simp [IndexMemMgr.step, hnot] at hstep
      obtain ⟨p, hp, heq⟩ := h.live pos hmem
      have hoff : pos.m_offSet = p + sizeofHashIndexSeg := by rw [heq]
      have hdrop : DropSafe sys.state idle p := by
        have hsafe' : DropSafe _ _ (pos.m_offSet - sizeofHashIndexSeg) := hsafe
        rwa [h.layout.idleSegs_eq, hoff, Nat.add_sub_cancel] at hsafe'
      obtain ⟨t, b, layout', used', idle', ht, hlayout, hother, hkeep⟩ :=
        h.layout.dropHashIdex lock hp hoff hdrop
      simp only [IndexMemMgr.step, h.fault, Option.isSome_none, Bool.false_eq_true, false_or,
        not_true_eq_false, hmem, if_false, ht] at hstep
      cases b with
      | false =>
          obtain rfl := Option.some.inj hstep
          refine ⟨layout', used', idle', hlayout, ?_, h.nodup, rfl⟩
          intro pos' hmem'
          obtain ⟨p', hp', heq'⟩ := h.live pos' hmem'
          exact ⟨p', hkeep rfl p' hp', heq'⟩
      | true =>
          obtain rfl := Option.some.inj hstep
          refine ⟨layout', used', idle', hlayout, ?_, h.nodup.erase pos, rfl⟩
          intro pos' hmem'
          obtain ⟨hne, hmem'⟩ := (h.nodup.mem_erase_iff).mp hmem'
          obtain ⟨p', hp', heq'⟩ := h.live pos' hmem'
          refine ⟨p', hother p' hp' ?_, heq'⟩
          rintro rfl
          exact hne (heq'.trans heq.symm)

/-- After `f_init` there is one idle segment. -/
theorem sound_start {s₀ : State} (h : f_init sp s₀ = some s) :
    Sound sp (start s) [firstSeg] [] [firstSeg] := by
  unfold f_init at h
  split at h
  · cases h
  · rename_i hbig
    obtain rfl := Option.some.inj h
    have hlt := sp.size_lt
    unfold sizeofSpaceInfo sizeofIndexSegInfo sizeofHashIndexSeg at hbig
    have hfirst : firstSeg = 464 := rfl
    have hne : firstSeg ≠ noSeg := by decide
    refine ⟨⟨⟨?_, ?_, ?_, ?_⟩, ⟨DList.nil, ?_, by simp⟩, ?_, ?_, ?_⟩, by simp [start], by simp [start],
      rfl⟩
    · refine ⟨rfl, ?_, ?_⟩
      · simp only [State.size, start, Function.update_self]
        omega
      · simp only [State.size, start, Function.update_self, Tiles]
        omega
    · simp [start]
    · simp [start, State.offSet]
    · simp only [List.mem_singleton, forall_eq, State.size, start, Function.update_self]
      unfold sizeofHashIndexSeg
      omega
    · refine ⟨⟨rfl, hne, ?_⟩, ⟨rfl, hne, ?_⟩, List.nodup_singleton _⟩
      · simp [start, State.next]
      · simp [start, State.prev]
    · simp
    · exact List.pairwise_singleton _ _
    · simp only [List.mem_singleton, forall_eq, State.size, start, Function.update_self]
      omega

/-- **The segments of an index space stay in order** in every run whose drops take safe
ways and whose sizes do not wrap around: no offset without a header is dereferenced, the
segments tile the space, both lists are linked consistently, the idle one ascends and no
two idle segments touch. -/
theorem segments_tile (sp : SpaceInfo) (s₀ s : State) (hinit : f_init sp s₀ = some s)
    (calls : List Call) (sys : Sys) (hmeets : Meets (step sp) (SafeCall sp) (start s) calls)
    (hrun : run (step sp) (start s) calls = some sys) :
    sys.fault = none ∧ ∃ layout used idle, Layout sp sys.state layout used idle := by
  have hinv : ∃ layout used idle, Sound sp sys layout used idle := by
    refine run_invariant_of_meets (I := fun sys => ∃ layout used idle, Sound sp sys layout used idle)
      ?_ ⟨_, _, _, sound_start hinit⟩ hmeets hrun
    rintro sys call sys' ⟨layout, used, idle, hsound⟩ hsafe hstep
    exact hsound.step hsafe hstep
  obtain ⟨layout, used, idle, hsound⟩ := hinv
  exact ⟨hsound.fault, layout, used, idle, hsound.layout⟩

/-- A small space; an index with one hash slot takes 118 bytes of it. -/
def smallSpace : SpaceInfo := ⟨1118, 3, by decide⟩

/-- Memory before `f_init`. -/
def zeros : State := ⟨0, 0, 0, 0, fun _ => false, fun _ => ⟨0, 0, 0, [], 0, 0⟩⟩

/-- Three indexes are created and dropped; the last drop joins three segments. -/
def createDropThree : List Call :=
  [.createHashIndex true ⟨['a'], 1⟩, .createHashIndex true ⟨['b'], 1⟩,
    .createHashIndex true ⟨['c'], 1⟩, .dropHashIdex true ⟨3, 876⟩, .dropHashIdex true ⟨3, 1112⟩,
    .dropHashIdex true ⟨3, 994⟩]

/-- The space after `f_init`, and after some calls. -/
def fresh (sp : SpaceInfo) : State := (f_init sp zeros).getD zeros

def after (sp : SpaceInfo) (calls : List Call) : Sys :=
  (run (step sp) (start (fresh sp)) calls).getD (start (fresh sp))

theorem eq_some_getD {α : Type} {o : Option α} (h : o.isSome = true) (d : α) :
    o = some (o.getD d) := by
  cases o with
  | none => cases h
  | some a => rfl

theorem segments_tile_createDropThree :
    ∃ s sys, f_init smallSpace zeros = some s ∧
      run (step smallSpace) (start s) createDropThree = some sys ∧ sys.live = [] ∧
      sys.fault = none ∧ ∃ layout used idle, Layout smallSpace sys.state layout used idle := by
  have hinit : f_init smallSpace zeros = some (fresh smallSpace) := eq_some_getD (by decide) _
  have hrun : run (step smallSpace) (start (fresh smallSpace)) createDropThree =
      some (after smallSpace createDropThree) := eq_some_getD (by decide +kernel) _
  refine ⟨_, _, hinit, hrun, by decide +kernel, ?_⟩
  exact segments_tile smallSpace zeros _ hinit createDropThree _ (by decide +kernel) hrun

/-- A space for two indexes, of which the second takes all that is left. -/
def tinySpace : SpaceInfo := ⟨864, 3, by decide⟩

/-- The upper index is dropped first, then the lower one. -/
def dropUpperLower : List Call :=
  [.createHashIndex true ⟨['a'], 1⟩, .createHashIndex true ⟨['b'], 1⟩,
    .dropHashIdex true ⟨3, 858⟩, .dropHashIdex true ⟨3, 576⟩]

/-- The lower segment is linked behind the segment before the first idle one: the offset
`-1` is dereferenced. -/
theorem segments_not_tile :
    ¬ ∀ (sp : SpaceInfo) (s₀ s : State) (calls : List Call) (sys : Sys),
      f_init sp s₀ = some s → run (step sp) (start s) calls = some sys →
      sys.fault = none ∧ ∃ layout used idle, Layout sp sys.state layout used idle := by
  intro h
  have hinit : f_init tinySpace zeros = some (fresh tinySpace) := eq_some_getD (by decide) _
  have hrun : run (step tinySpace) (start (fresh tinySpace)) dropUpperLower =
      some (after tinySpace dropUpperLower) := eq_some_getD (by decide +kernel) _
  have hfault : (after tinySpace dropUpperLower).fault = some (.notSegment noSeg) := by
    decide +kernel
  obtain ⟨hnone, -⟩ := h tinySpace zeros _ dropUpperLower _ hinit hrun
  rw [hfault] at hnone
  cases hnone

end IndexMemMgr
