import Boss.LockManagerRuns
import Boss.WaitGraph

/-!
# Deadlock detection

`detectDeadLock` walks from a resource to its owner, to the resource this one
waits for, and so on, and keeps no record of where it has been.  It can therefore
only end because the wait-for relation has no cycle, and the relation has no
cycle because every waiting row was preceded by such a walk.  The two facts are
proved together, along the steps that `Effect` lists: a granted lock adds no
edge, a queued one adds an edge that the walk has found harmless, and a release
redirects the waiters of a resource to the session that was promoted, which waits
for nobody any more.

The last point needs that a session waits for at most one resource, which is what
`OneRequest` asks of the callers.

Main results: `detectDeadLock_exact` for one state, `detectDeadLock_of_run` for runs.
-/

namespace LockManager

open IndexRows WaitGraph Relation

variable {A S R : Type} [DecidableEq A] [DecidableEq S] [DecidableEq R]
  {sesSlot : S → Nat} {resSlot : R → Nat} {s s' : State A S R}

/-- The session has a row of this type on the resource. -/
def Holds (s : State A S R) (type : LockType) (x : S) (r : R) : Prop :=
  ∃ a, s.used a = true ∧ (s.record a).lockType = type ∧ s.sesKey a = x ∧ s.resKey a = r

abbrev Owns (s : State A S R) : S → R → Prop := Holds s .own
abbrev Waits (s : State A S R) : S → R → Prop := Holds s .wait

/-- The session waits for a resource that the other one owns. -/
def WaitsFor (s : State A S R) (x y : S) : Prop := ∃ r, Waits s x r ∧ Owns s y r

/-- The wait-for relation with the wait of `session` for `r` recorded. -/
def WaitsForWith (s : State A S R) (session : S) (r : R) (x y : S) : Prop :=
  WaitsFor s x y ∨ x = session ∧ Owns s y r

/-- A session asks for nothing else while it waits. -/
def OneRequest (s : State A S R) : Call A S R → Prop
  | .judgeAndAddLock _ _ resource session => ∀ r, Waits s session r → resource = some r
  | .releaseLock _ _ => True

/-- Every session waits for at most one resource, and nobody waits in a circle. -/
structure Orderly (s : State A S R) : Prop where
  one_wait : ∀ x r r', Waits s x r → Waits s x r' → r = r'
  acyclic : Acyclic (WaitsFor s)

omit [DecidableEq A] [DecidableEq S] [DecidableEq R] in
theorem Locks.owns_unique (hl : Locks s) {x y : S} {r : R} (hx : Owns s x r) (hy : Owns s y r) :
    x = y := by
  obtain ⟨a, ha, hoa, rfl, hra⟩ := hx
  obtain ⟨b, hb, hob, rfl, hrb⟩ := hy
  rw [hl.one_owner a b ha hb hoa hob (hra.trans hrb.symm)]

/-! ## The walk -/

omit [DecidableEq S] in
theorem findOwnSession_iff (h : Table sesSlot resSlot s) (hl : Locks s) {r : R} {x : S} :
    findOwnSessionByResource resSlot s r = some x ↔ Owns s x r := by
  unfold findOwnSessionByResource
  constructor
  · intro hsome
    obtain ⟨p, hp, rfl⟩ := Option.map_eq_some_iff.mp hsome
    obtain ⟨hpu, hpr, hpk⟩ := (mem_selectRes h).mp (List.mem_of_find?_eq_some hp)
    have hown : p.2.lockType = .own := by simpa using List.find?_some hp
    rw [hpr] at hown hpk ⊢
    exact ⟨p.1, hpu, hown, rfl, hpk⟩
  · rintro ⟨a, ha, hoa, rfl, hra⟩
    have hmem : (a, s.record a) ∈ selectRes resSlot s r := (mem_selectRes h).mpr ⟨ha, rfl, hra⟩
    cases hfind : (selectRes resSlot s r).find? fun p => p.2.lockType = .own with
    | none => simpa [hoa] using List.find?_eq_none.mp hfind _ hmem
    | some p =>
        obtain ⟨hpu, hpr, hpk⟩ := (mem_selectRes h).mp (List.mem_of_find?_eq_some hfind)
        have hown : p.2.lockType = .own := by simpa using List.find?_some hfind
        rw [hpr] at hown hpk
        have hpa := hl.one_owner p.1 a hpu ha hown hoa (hpk.trans hra.symm)
        rw [Option.map_some, hpr, hpa]
        rfl

omit [DecidableEq S] in
theorem findOwnSession_none (h : Table sesSlot resSlot s) (hl : Locks s) {r : R}
    (hfree : ¬ ∃ x, Owns s x r) : findOwnSessionByResource resSlot s r = none := by
  by_contra hsome
  obtain ⟨x, hx⟩ := Option.ne_none_iff_exists'.mp hsome
  exact hfree ⟨x, (findOwnSession_iff h hl).mp hx⟩

omit [DecidableEq R] in
theorem findWaitResource_iff (h : Table sesSlot resSlot s)
    (hone : ∀ x r r', Waits s x r → Waits s x r' → r = r') {x : S} {r : R} :
    findWaitResourceBySession sesSlot s x = some r ↔ Waits s x r := by
  have hsound : ∀ r, findWaitResourceBySession sesSlot s x = some r → Waits s x r := by
    intro r hsome
    obtain ⟨p, hp, rfl⟩ := Option.map_eq_some_iff.mp hsome
    obtain ⟨hpu, hpr, hpk⟩ := (mem_selectSes h).mp (List.mem_of_find?_eq_some hp)
    have hwait : p.2.lockType = .wait := by simpa using List.find?_some hp
    rw [hpr] at hwait hpk ⊢
    exact ⟨p.1, hpu, hwait, hpk, rfl⟩
  refine ⟨hsound r, fun hwaits => ?_⟩
  cases hfind : findWaitResourceBySession sesSlot s x with
  | some r' => rw [hone x r' r (hsound r' hfind) hwaits]
  | none =>
      obtain ⟨a, ha, hwa, hsa, -⟩ := hwaits
      have hmem : (a, s.record a) ∈ selectSes sesSlot s x := (mem_selectSes h).mpr ⟨ha, rfl, hsa⟩
      have hno := Option.map_eq_none_iff.mp hfind
      simpa [hwa] using List.find?_eq_none.mp hno _ hmem

/-- The session that the given one waits for. -/
def nextSession (sesSlot : S → Nat) (resSlot : R → Nat) (s : State A S R) (x : S) : Option S :=
  (findWaitResourceBySession sesSlot s x).bind (findOwnSessionByResource resSlot s)

theorem edge_nextSession (h : Table sesSlot resSlot s) (hl : Locks s) (ho : Orderly s) :
    Edge (nextSession sesSlot resSlot s) = WaitsFor s := by
  funext x y
  unfold Edge nextSession WaitsFor
  rw [Option.bind_eq_some_iff]
  refine propext (exists_congr fun r => ?_)
  rw [findWaitResource_iff h ho.one_wait, findOwnSession_iff h hl]

/-- The walk over resources is the walk over their owners. -/
theorem detectDeadLock_eq_chase (h : Table sesSlot resSlot s) (hl : Locks s) (ho : Orderly s)
    (session : S) (n : Nat) {r : R} {owner : S} (hown : Owns s owner r) :
    detectDeadLock sesSlot resSlot s session n r =
      chase (nextSession sesSlot resSlot s) session n owner := by
  induction n generalizing r owner with
  | zero => rfl
  | succ n ih =>
      unfold detectDeadLock chase
      rw [(findOwnSession_iff h hl).mpr hown]
      dsimp only
      split
      · rfl
      · cases hwait : findWaitResourceBySession sesSlot s owner with
        | none => simp [nextSession, hwait]
        | some r' =>
            obtain ⟨a, ha, -, -, har⟩ := (findWaitResource_iff h ho.one_wait).mp hwait
            obtain ⟨b, hb, hbo, hba⟩ := hl.owned a ha
            have hown' : Owns s (s.sesKey b) r' := ⟨b, hb, hbo, rfl, hba.trans har⟩
            have hnext : nextSession sesSlot resSlot s owner = some (s.sesKey b) := by
              rw [nextSession, hwait, Option.bind_some, (findOwnSession_iff h hl).mpr hown']
            rw [hnext]
            exact ih hown'

/-- **An answer of the walk is exact.** -/
theorem detectDeadLock_exact (h : Table sesSlot resSlot s) (hl : Locks s) (ho : Orderly s)
    {session : S} {n : Nat} {r : R} {b : Bool}
    (hdet : detectDeadLock sesSlot resSlot s session n r = some b) :
    b = true ↔ ∃ z, TransGen (WaitsForWith s session r) z z := by
  by_cases howned : ∃ owner, Owns s owner r
  · obtain ⟨owner, hown⟩ := howned
    have hedge : WaitsForWith s session r = addEdge (WaitsFor s) session owner := by
      funext x y
      unfold WaitsForWith addEdge
      refine propext (or_congr_right (and_congr_right fun _ => ?_))
      exact ⟨fun hy => hl.owns_unique hy hown, fun hy => hy ▸ hown⟩
    rw [detectDeadLock_eq_chase h hl ho session n hown] at hdet
    rw [chase_sound hdet, edge_nextSession h hl ho, hedge, cycle_addEdge_iff ho.acyclic]
  · have hsame : WaitsForWith s session r = WaitsFor s := by
      funext x y
      unfold WaitsForWith
      refine propext (or_iff_left fun hc => howned ⟨y, hc.2⟩)
    have hfalse : b = false := by
      cases n with
      | zero => cases hdet
      | succ n =>
          unfold detectDeadLock at hdet
          rw [findOwnSession_none h hl howned] at hdet
          exact (Option.some.inj hdet).symm
    rw [hsame, hfalse]
    exact ⟨fun hc => absurd hc Bool.false_ne_true, fun ⟨z, hz⟩ => absurd hz (ho.acyclic z)⟩

/-- **The walk ends** after at most one round more than the table has rows. -/
theorem detectDeadLock_terminates (h : Table sesSlot resSlot s) (hl : Locks s) (ho : Orderly s)
    (session : S) (r : R) {n : Nat} (hn : s.recordNum < n) :
    ∃ b, detectDeadLock sesSlot resSlot s session n r = some b := by
  by_cases howned : ∃ owner, Owns s owner r
  · obtain ⟨owner, hown⟩ := howned
    obtain ⟨l, -, hmem, hlen⟩ := h.counted
    rw [detectDeadLock_eq_chase h hl ho session n hown]
    have hacyclic : Acyclic (Edge (nextSession sesSlot resSlot s)) := by
      rw [edge_nextSession h hl ho]; exact ho.acyclic
    refine chase_terminates hacyclic (l.map s.sesKey) ?_ session owner
      (by rw [List.length_map]; omega)
    intro x y hxy
    have hedge : WaitsFor s x y := by
      rw [← edge_nextSession h hl ho]; exact hxy
    obtain ⟨r, ⟨a, ha, -, rfl, -⟩, -⟩ := hedge
    exact List.mem_map_of_mem ((hmem a).mpr ha)
  · obtain ⟨n, rfl⟩ : ∃ k, n = k + 1 := ⟨n - 1, by omega⟩
    refine ⟨false, ?_⟩
    unfold detectDeadLock
    rw [findOwnSession_none h hl howned]

/-! ## The steps keep the order -/

omit [DecidableEq A] [DecidableEq S] [DecidableEq R] in
theorem Kept.holds_iff (h : Kept s s') (type : LockType) (x : S) (r : R) :
    Holds s' type x r ↔ Holds s type x r := by
  obtain ⟨hused, hrec⟩ := h
  unfold Holds
  refine exists_congr fun a => ?_
  rw [hused]
  refine and_congr_right fun ha => ?_
  rw [State.sesKey, State.resKey, hrec a ha]
  rfl

omit [DecidableEq S] [DecidableEq R] in
theorem Inserted.holds_iff {row : LockRow S R} (h : Inserted s s' row) (type : LockType) (x : S)
    (r : R) : Holds s' type x r ↔ Holds s type x r ∨ row = ⟨x, type, r⟩ := by
  obtain ⟨a₀, hu₀, hrec₀, hold, hcases⟩ := h.rows
  constructor
  · rintro ⟨a, ha, rfl, rfl, rfl⟩
    rcases hcases a ha with rfl | ha'
    · refine .inr ?_
      rw [State.sesKey, State.resKey, hrec₀]
    · refine .inl ⟨a, ha', ?_, ?_, ?_⟩
      · rw [(hold a ha').2]
      · rw [State.sesKey, State.sesKey, (hold a ha').2]
      · rw [State.resKey, State.resKey, (hold a ha').2]
  · rintro (⟨a, ha, rfl, rfl, rfl⟩ | rfl)
    · refine ⟨a, (hold a ha).1, ?_, ?_, ?_⟩
      · rw [(hold a ha).2]
      · rw [State.sesKey, State.sesKey, (hold a ha).2]
      · rw [State.resKey, State.resKey, (hold a ha).2]
    · exact ⟨a₀, hu₀, by rw [hrec₀], by rw [State.sesKey, hrec₀], by rw [State.resKey, hrec₀]⟩

omit [DecidableEq A] [DecidableEq S] [DecidableEq R] in
theorem Orderly.of_holds (ho : Orderly s)
    (hiff : ∀ type x r, Holds s' type x r ↔ Holds s type x r) : Orderly s' := by
  have hsame : WaitsFor s' = WaitsFor s := by
    funext x y
    unfold WaitsFor
    exact propext (exists_congr fun r => and_congr (hiff ..) (hiff ..))
  refine ⟨fun x r r' hr hr' => ?_, by rw [hsame]; exact ho.acyclic⟩
  exact ho.one_wait x r r' ((hiff ..).mp hr) ((hiff ..).mp hr')

omit [DecidableEq S] [DecidableEq R] in
/-- A lock on a resource without rows adds no edge. -/
theorem Orderly.granted (ho : Orderly s) {session : S} {r : R}
    (h : Inserted s s' ⟨session, .own, r⟩) (hfree : ∀ a, s.used a = true → s.resKey a ≠ r) :
    Orderly s' := by
  have hwaits : ∀ x r', Waits s' x r' ↔ Waits s x r' := by
    intro x r'
    exact (h.holds_iff .wait x r').trans (or_iff_left (by simp))
  have hnobody : ∀ x, ¬ Waits s x r := by
    rintro x ⟨a, ha, -, -, hra⟩
    exact hfree a ha hra
  refine ⟨fun x r₁ r₂ h₁ h₂ => ho.one_wait x r₁ r₂ ((hwaits x r₁).mp h₁) ((hwaits x r₂).mp h₂), ?_⟩
  have hsame : WaitsFor s' = WaitsFor s := by
    funext x y
    unfold WaitsFor
    refine propext (exists_congr fun r' => ?_)
    rw [hwaits]
    refine and_congr_right fun hw => ?_
    refine (h.holds_iff .own y r').trans (or_iff_left fun hrow => hnobody x ?_)
    have hr : r = r' := congrArg LockRow.resource hrow
    exact hr ▸ hw
  rw [hsame]
  exact ho.acyclic

/-- A recorded wait adds exactly the edge that the walk has looked at. -/
theorem Orderly.queued (h : Table sesSlot resSlot s) (hl : Locks s) (ho : Orderly s)
    {session : S} {r : R} {n : Nat} (hins : Inserted s s' ⟨session, .wait, r⟩)
    (hidle : ∀ r', ¬ Waits s session r')
    (hsafe : detectDeadLock sesSlot resSlot s session n r = some false) : Orderly s' := by
  have hwaits : ∀ x r', Waits s' x r' ↔ Waits s x r' ∨ x = session ∧ r' = r := by
    intro x r'
    refine (hins.holds_iff .wait x r').trans (or_congr_right ⟨fun hrow => ?_, ?_⟩)
    · exact ⟨(congrArg LockRow.sessionId hrow).symm, (congrArg LockRow.resource hrow).symm⟩
    · rintro ⟨rfl, rfl⟩; rfl
  have howns : ∀ x r', Owns s' x r' ↔ Owns s x r' := by
    intro x r'
    exact (hins.holds_iff .own x r').trans (or_iff_left (by simp))
  refine ⟨?_, ?_⟩
  · intro x r₁ r₂ h₁ h₂
    rcases (hwaits x r₁).mp h₁ with h₁ | ⟨rfl, rfl⟩ <;> rcases (hwaits _ r₂).mp h₂ with h₂ | ⟨hx, rfl⟩
    · exact ho.one_wait x r₁ r₂ h₁ h₂
    · exact absurd (hx ▸ h₁) (hidle r₁)
    · exact absurd h₂ (hidle r₂)
    · rfl
  · have hwith : WaitsFor s' = WaitsForWith s session r := by
      funext x y
      unfold WaitsFor WaitsForWith
      simp only [hwaits, howns]
      refine propext ⟨?_, ?_⟩
      · rintro ⟨r', hw | ⟨hx, rfl⟩, hy⟩
        · exact .inl ⟨r', hw, hy⟩
        · exact .inr ⟨hx, hy⟩
      · rintro (⟨r', hw, hy⟩ | ⟨hx, hy⟩)
        · exact ⟨r', .inl hw, hy⟩
        · exact ⟨r, .inr ⟨hx, rfl⟩, hy⟩
    rw [hwith]
    intro z hz
    have hno := (detectDeadLock_exact h hl ho hsafe).mpr ⟨z, hz⟩
    cases hno

omit [DecidableEq A] [DecidableEq R] in
/-- A release redirects edges to promoted sessions, and these wait for nobody. -/
theorem Orderly.released (hl : Locks s) (ho : Orderly s) {u : State A S R} {session : S}
    (hr : Released s u session) : Orderly u := by
  have hwaits : ∀ x r, Waits u x r → Waits s x r := by
    rintro x r ⟨a, ha, hwa, rfl, rfl⟩
    have hsame : u.record a = s.record a := by
      rcases hr.change a ha with hsame | ⟨-, hown, -⟩
      · exact hsame
      · rw [hwa] at hown; cases hown
    rw [hsame] at hwa
    rw [(hr.keys a ha).1, (hr.keys a ha).2]
    exact ⟨a, ((hr.used a).mp ha).1, hwa, rfl, rfl⟩
  refine ⟨fun x r r' h₁ h₂ => ho.one_wait x r r' (hwaits x r h₁) (hwaits x r' h₂), ?_⟩
  refine acyclic_of_sinks ho.acyclic ?_
  rintro x y ⟨r, hx, b, hb, hob, rfl, rfl⟩
  rcases hr.change b hb with hsame | ⟨hwb, -, -⟩
  · refine .inl ⟨_, hwaits _ _ hx, b, ((hr.used b).mp hb).1, ?_, ?_, ?_⟩
    · rw [← hsame]; exact hob
    · exact (hr.keys b hb).1.symm
    · exact (hr.keys b hb).2.symm
  · refine .inr ?_
    -- the promoted session waited for this resource only, and owns it now
    rintro z ⟨r', ⟨a, ha, hwa, hses, rfl⟩, -⟩
    have hwas : Waits s (u.sesKey b) (u.resKey b) := by
      rw [(hr.keys b hb).1, (hr.keys b hb).2]
      exact ⟨b, ((hr.used b).mp hb).1, hwb, rfl, rfl⟩
    have hsame := ho.one_wait _ _ _ (hwaits _ _ ⟨a, ha, hwa, hses, rfl⟩) hwas
    have hab := (hr.locks hl).pair a b ha hb hses hsame
    rw [hab, hob] at hwa
    cases hwa

/-- Table, locks and order together. -/
def Sound (sesSlot : S → Nat) (resSlot : R → Nat) (s : State A S R) : Prop :=
  Table sesSlot resSlot s ∧ Locks s ∧ Orderly s

theorem Sound.step (hs : Sound sesSlot resSlot s) {c : Call A S R} (hok : OneRequest s c)
    (hstep : step sesSlot resSlot s c = some s') : Sound sesSlot resSlot s' := by
  obtain ⟨h, hl, ho⟩ := hs
  obtain ⟨htable, heffect⟩ := step_effect h hl hstep
  refine ⟨htable, heffect.locks hl, ?_⟩
  generalize hsession : c.session = session at heffect
  generalize hresource : c.resource = resource at heffect
  cases heffect with
  | kept hkept => exact ho.of_holds hkept.holds_iff
  | granted hins hfree => exact ho.granted hins hfree
  | released hrel => exact ho.released hl hrel
  | queued hins _ hnew hsafe =>
      refine Orderly.queued h hl ho hins ?_ hsafe
      intro r' hwaits
      cases c with
      | releaseLock env x => cases hresource
      | judgeAndAddLock env n res x =>
          obtain rfl : x = session := hsession
          obtain rfl : res = some _ := hresource
          obtain rfl := Option.some.inj (hok r' hwaits)
          obtain ⟨a, ha, -, hsa, hra⟩ := hwaits
          exact hnew a ha hra hsa

/-- **Deadlock detection is exact.**  In every state that requests and releases
reach, when no session asks for anything else while it waits: nobody waits in a
circle; `detectDeadLock` ends for every session and resource, after at most one
round more than the lock table has rows; and it answers yes exactly when
recording the wait would close a circle. -/
theorem detectDeadLock_of_run {record : A → LockRow S R} {calls : List (Call A S R)}
    (hmeets : Runs.Meets (step sesSlot resSlot) OneRequest (create record) calls)
    (hrun : Runs.run (step sesSlot resSlot) (create record) calls = some s) :
    Acyclic (WaitsFor s) ∧
    ∀ (session : S) (r : R) (n : Nat), s.recordNum < n →
      ∃ b, detectDeadLock sesSlot resSlot s session n r = some b ∧
        (b = true ↔ ∃ z, TransGen (WaitsForWith s session r) z z) := by
  have hinit : Sound sesSlot resSlot (create record) := by
    obtain ⟨htable, hl⟩ := table_create sesSlot resSlot record
    refine ⟨htable, hl, ?_, ?_⟩
    · rintro x r r' ⟨a, ha, -⟩
      cases ha
    · intro z hz
      obtain ⟨y, ⟨r, ⟨a, ha, -⟩, -⟩, -⟩ := TransGen.head'_iff.mp hz
      cases ha
  obtain ⟨h, hl, ho⟩ : Sound sesSlot resSlot s :=
    Runs.run_invariant_of_meets (fun _ _ _ hs hok hstep => hs.step hok hstep) hinit hmeets hrun
  refine ⟨ho.acyclic, fun session r n hn => ?_⟩
  obtain ⟨b, hb⟩ := detectDeadLock_terminates h hl ho session r hn
  exact ⟨b, hb, detectDeadLock_exact h hl ho hb⟩

end LockManager
