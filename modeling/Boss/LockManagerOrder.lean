import Boss.LockManagerRuns

/-!
# The order in which waiters are served

A release gives a resource to the first waiter in the order of the resource index.  That
order is the order of insertion turned round: a new row becomes the second one of its
resource, behind the owner and in front of all waiters before it.  So the owner is always
in front and the newest waiter comes next (`InOrder`), and it is the newest waiter that
is served.  A release serves the waiters in the order in which they came exactly when no
resource of the session has two of them (`servedInOrder_iff`).

The requests that were recorded as waiting are kept in a list beside the table, the newest
first.
-/

namespace LockManager

open IndexRows

variable {A S R : Type} [DecidableEq A] [DecidableEq S] [DecidableEq R]
  {sesSlot : S → Nat} {resSlot : R → Nat} {s s' : State A S R} {live : A → Prop}

/-! ## The operations on the order -/

theorem deleteEntries_rowOf {rows : List (A × LockRow S R)} (h : Indexed sesSlot resSlot live s)
    (hrows : ∀ p ∈ rows, p.2.sessionId = s.sesKey p.1 ∧ p.2.resource = s.resKey p.1) (r : R) :
    rowOf resSlot (rows.foldl (fun s p => deleteAllIndex sesSlot resSlot s p.1 p.2) s) r =
      (rowOf resSlot s r).filter fun b => b ∉ rows.map Prod.fst := by
  induction rows generalizing s live with
  | nil => simp
  | cons p rest ih =>
      have hone := deleteAllIndex_spec h p.1 p.2 fun _ => hrows p List.mem_cons_self
      rw [List.foldl_cons, ih hone fun q hq => hrows q (List.mem_cons_of_mem p hq),
        deleteAllIndex_rowOf h p.1 p.2 (fun _ => (hrows p List.mem_cons_self).2),
        List.filter_filter]
      refine List.filter_congr fun b _ => ?_
      simp only [List.map_cons, List.mem_cons, not_or]
      rw [Bool.decide_and, Bool.and_comm]

theorem deleteRec_rowOf (h : Table sesSlot resSlot s) (env : Env A S R)
    {rows : List (A × LockRow S R)}
    (hrows : ∀ p ∈ rows, p.2.sessionId = s.sesKey p.1 ∧ p.2.resource = s.resKey p.1) (r : R) :
    rowOf resSlot (deleteRec sesSlot resSlot s env rows) r =
      (rowOf resSlot s r).filter fun b => b ∉ rows.map Prod.fst := by
  obtain ⟨t, ht, hidx, hrec, -, -⟩ := deleteEntries_spec h.indexed hrows
  obtain ⟨u, hu, -, hres, -, -, hsame⟩ := freeSlots_spec t env.junk rows
  rw [← deleteEntries_rowOf h.indexed hrows r, ht]
  have hback : rowOf resSlot u r = rowOf resSlot t r := by
    refine hidx.rowOf_congr hres (fun b hb => ?_) r
    rw [State.resKey, State.resKey, hsame b hb.2]
  rw [← hback, deleteRec, ht, ← hu]
  rfl

omit [DecidableEq A] [DecidableEq S] in
theorem Promoted.rowOf_eq {t : State A S R} {rs : List R} (h : Promoted s t rs) (r : R) :
    rowOf resSlot t r = rowOf resSlot s r := by
  have hkey : t.resKey = s.resKey := funext fun a => (h.keys a).2
  rw [rowOf, rowOf, hkey, h.table.2.1]

omit [DecidableEq S] in
/-- A signal goes to the first waiter of the row. -/
theorem signal_first {r : R} {a : A} (hw : (s.record a).lockType = .wait)
    (ho : ((signalFirstWaitSessionByResource resSlot s r).record a).lockType = .own) :
    (rowOf resSlot s r).find? (fun b => (s.record b).lockType = .wait) = some a := by
  unfold signalFirstWaitSessionByResource at ho
  rw [selectRes_eq, List.find?_map] at ho
  cases hfind : (rowOf resSlot s r).find? (fun b => (s.record b).lockType = .wait) with
  | none =>
      have hnone : (rowOf resSlot s r).find? ((fun p : A × LockRow S R =>
          decide (p.2.lockType = .wait)) ∘ fun a => (a, s.record a)) = none := hfind
      rw [hnone, Option.map_none] at ho
      rw [hw] at ho
      cases ho
  | some b =>
      have hsome : (rowOf resSlot s r).find? ((fun p : A × LockRow S R =>
          decide (p.2.lockType = .wait)) ∘ fun a => (a, s.record a)) = some b := hfind
      rw [hsome, Option.map_some] at ho
      by_cases hab : a = b
      · rw [hab]
      · have hkept : (s.setRecord b { s.record b with lockType := .own }).record a = s.record a :=
          Function.update_of_ne hab _ _
        dsimp only at ho
        rw [hkept, hw] at ho
        cases ho

omit [DecidableEq S] in
/-- Of the signals on different resources each goes to the first waiter of its row. -/
theorem signals_first {rs : List R} (h : Table sesSlot resSlot s) (hnodup : rs.Nodup) {a : A}
    (hw : (s.record a).lockType = .wait)
    (ho : ((rs.foldl (signalFirstWaitSessionByResource resSlot) s).record a).lockType = .own) :
    (rowOf resSlot s (s.resKey a)).find? (fun b => (s.record b).lockType = .wait) = some a := by
  induction rs generalizing s with
  | nil =>
      rw [List.foldl_nil, hw] at ho
      cases ho
  | cons r rest ih =>
      obtain ⟨hr, hrest⟩ := List.nodup_cons.mp hnodup
      have hfirst := signal_promoted h r
      have hlater := signals_promoted (hfirst.tableOk h) hrest
      rcases hfirst.change a with hsame | ⟨-, -, hown, hkey⟩
      · rw [List.foldl_cons] at ho
        have hfind := ih (hfirst.tableOk h) hrest (by rw [hsame]; exact hw) ho
        rw [(hfirst.keys a).2, hfirst.rowOf_eq] at hfind
        have hne : s.resKey a ≠ r := by
          rcases hlater.change a with hkept | ⟨-, -, -, hin⟩
          · rw [hkept, hsame, hw] at ho
            cases ho
          · rw [(hfirst.keys a).2] at hin
            rintro rfl
            exact hr hin
        rw [← hfind]
        refine List.find?_congr fun b hb => ?_
        rcases hfirst.change b with hkept | ⟨-, -, -, hin⟩
        · rw [hkept]
        · rw [((mem_rowOf h).mp hb).2] at hin
          exact absurd (List.mem_singleton.mp hin) hne
      · rw [List.mem_singleton.mp hkey]
        exact signal_first hw hown

/-- A release takes the session's rows out of the order, and serves first waiters. -/
theorem releaseLock_rows (h : Table sesSlot resSlot s) (hl : Locks s) (env : Env A S R)
    (session : S) :
    (∀ r, rowOf resSlot (releaseLock sesSlot resSlot s env session) r =
      (rowOf resSlot s r).filter fun b => s.sesKey b ≠ session) ∧
    ∀ a, (releaseLock sesSlot resSlot s env session).used a = true →
      (s.record a).lockType = .wait →
      ((releaseLock sesSlot resSlot s env session).record a).lockType = .own →
      (rowOf resSlot s (s.resKey a)).find? (fun b => (s.record b).lockType = .wait) = some a := by
  obtain ⟨rs, hnodup, hrel, -, -⟩ := releaseLock_signals h hl env session
  obtain ⟨hrowsNodup, hmem⟩ := selectSes_addresses h session
  have hprom := signals_promoted h hnodup
  have hfirst := fun a => signals_first h hnodup (a := a)
  rw [hrel]
  generalize rs.foldl (signalFirstWaitSessionByResource resSlot) s = t at hprom hfirst ⊢
  have hrows : ∀ p ∈ selectSes sesSlot s session, t.used p.1 = true ∧
      p.2.sessionId = t.sesKey p.1 ∧ p.2.resource = t.resKey p.1 := by
    intro p hp
    obtain ⟨hused, hrow, -⟩ := (mem_selectSes h).mp hp
    rw [hprom.used, (hprom.keys p.1).1, (hprom.keys p.1).2, hrow]
    exact ⟨hused, rfl, rfl⟩
  obtain ⟨-, hused, hrec⟩ := deleteRec_spec (hprom.tableOk h) env hrowsNodup hrows
  constructor
  · intro r
    rw [deleteRec_rowOf (hprom.tableOk h) env (fun p hp => (hrows p hp).2), hprom.rowOf_eq]
    refine List.filter_congr fun b hb => ?_
    simp only [hmem, ((mem_rowOf h).mp hb).1, true_and]
  · intro a ha hw ho
    rw [hrec a ((hused a).mp ha).2] at ho
    exact hfirst a hw ho

/-! ## Requests that wait -/

/-- The recorded requests after a call, the newest one first. -/
def noteRequest (sesSlot : S → Nat) (resSlot : R → Nat) (s : State A S R) (log : List (S × R)) :
    Call A S R → List (S × R)
  | .judgeAndAddLock env n (some r) session =>
      match judgeAndAddLock sesSlot resSlot s env n (some r) session with
      | some (_, .queued) => (session, r) :: log
      | _ => log
  | _ => log

/-- A call on the lock table with the requests beside it. -/
def loggedStep (sesSlot : S → Nat) (resSlot : R → Nat) (p : State A S R × List (S × R))
    (c : Call A S R) : Option (State A S R × List (S × R)) :=
  (step sesSlot resSlot p.1 c).map fun t => (t, noteRequest sesSlot resSlot p.1 p.2 c)

/-- Every row begins with the owner, and the waiters behind it stand in the order of their
requests, the newest one first. -/
structure InOrder (resSlot : R → Nat) (s : State A S R) (log : List (S × R)) : Prop where
  front : ∀ r a rest, rowOf resSlot s r = a :: rest → (s.record a).lockType = .own
  newest : ∀ r, (rowOf resSlot s r).tail.Pairwise fun a b =>
    log.idxOf (s.sesKey a, r) < log.idxOf (s.sesKey b, r)

variable {log : List (S × R)}

theorem InOrder.kept (ho : InOrder resSlot s log) (h : Table sesSlot resSlot s)
    (hrec : ∀ a, s.used a = true → s'.record a = s.record a)
    (hrows : ∀ r, rowOf resSlot s' r = rowOf resSlot s r) : InOrder resSlot s' log := by
  have hkept : ∀ r, ∀ a ∈ rowOf resSlot s r, s'.record a = s.record a := fun r a ha =>
    hrec a ((mem_rowOf h).mp ha).1
  constructor
  · intro r a rest hrow
    rw [hrows] at hrow
    rw [hkept r a (by rw [hrow]; exact List.mem_cons_self)]
    exact ho.front r a rest hrow
  · intro r
    rw [hrows]
    refine (ho.newest r).imp_of_mem fun ha hb hab => ?_
    rw [State.sesKey, State.sesKey, hkept r _ (List.mem_of_mem_tail ha),
      hkept r _ (List.mem_of_mem_tail hb)]
    exact hab

/-- Behind the owner all rows wait. -/
theorem InOrder.tail_waits (ho : InOrder resSlot s log) (h : Table sesSlot resSlot s)
    (hl : Locks s) {r : R} {a : A} {rest : List A} (hrow : rowOf resSlot s r = a :: rest) :
    ∀ b ∈ rest, (s.record b).lockType = .wait := by
  intro b hb
  have hmem : ∀ c ∈ a :: rest, s.used c = true ∧ s.resKey c = r := fun c hc =>
    (mem_rowOf h).mp (hrow ▸ hc)
  have hfront := ho.front r a rest hrow
  have hnodup := rowOf_nodup h r
  rw [hrow] at hnodup
  cases htype : (s.record b).lockType with
  | wait => rfl
  | own =>
      obtain ⟨hau, har⟩ := hmem a List.mem_cons_self
      obtain ⟨hbu, hbr⟩ := hmem b (List.mem_cons_of_mem a hb)
      obtain rfl := hl.one_owner a b hau hbu hfront htype (har.trans hbr.symm)
      exact absurd hb (List.nodup_cons.mp hnodup).1

/-- The first waiter of a row is the one behind the owner. -/
theorem InOrder.find_wait (ho : InOrder resSlot s log) (h : Table sesSlot resSlot s)
    (hl : Locks s) {r : R} {a : A} {rest : List A} (hrow : rowOf resSlot s r = a :: rest) :
    (rowOf resSlot s r).find? (fun b => (s.record b).lockType = .wait) = rest.head? := by
  have hwaits := ho.tail_waits h hl hrow
  rw [hrow, List.find?_cons, ho.front r a rest hrow]
  cases rest with
  | nil => rfl
  | cons b rest' =>
      rw [List.find?_cons, hwaits b List.mem_cons_self]
      rfl

/-- A row that comes in keeps the order: it is the owner of a free resource, or the newest of
those that wait. -/
theorem InOrder.inserted (ho : InOrder resSlot s log) (h : Table sesSlot resSlot s)
    {row : LockRow S R} {a : A} (hfree : s.used a = false)
    (hrec : s'.record = Function.update s.record a row)
    (hrows : ∀ r, rowOf resSlot s' r = if r = row.resource then second a (rowOf resSlot s r)
      else rowOf resSlot s r) {log' : List (S × R)}
    (hnew : (row.lockType = .own ∧ rowOf resSlot s row.resource = [] ∧ log' = log) ∨
      (rowOf resSlot s row.resource ≠ [] ∧ log' = (row.sessionId, row.resource) :: log ∧
        ∀ b ∈ rowOf resSlot s row.resource, s.sesKey b ≠ row.sessionId)) :
    InOrder resSlot s' log' := by
  have hself : s'.record a = row := by rw [hrec, Function.update_self]
  have hkept : ∀ r, ∀ b ∈ rowOf resSlot s r, s'.record b = s.record b := by
    intro r b hb
    rw [hrec, Function.update_of_ne]
    rintro rfl
    rw [((mem_rowOf h).mp hb).1] at hfree
    cases hfree
  have hkey : ∀ r, ∀ b ∈ rowOf resSlot s r, s'.sesKey b = s.sesKey b := fun r b hb =>
    congrArg LockRow.sessionId (hkept r b hb)
  -- a request that is recorded comes in front of all others
  have hother : ∀ r, ∀ b ∈ rowOf resSlot s r, ∀ c ∈ rowOf resSlot s r,
      log.idxOf (s.sesKey b, r) < log.idxOf (s.sesKey c, r) →
      log'.idxOf (s'.sesKey b, r) < log'.idxOf (s'.sesKey c, r) := by
    intro r b hb c hc hbc
    rw [hkey r b hb, hkey r c hc]
    rcases hnew with ⟨-, -, rfl⟩ | ⟨-, rfl, hses⟩
    · exact hbc
    · have hne : ∀ d ∈ rowOf resSlot s r, (row.sessionId, row.resource) ≠ (s.sesKey d, r) := by
        intro d hd heq
        obtain ⟨hs, hr⟩ := Prod.mk.inj heq
        subst hr
        exact hses d hd hs.symm
      rw [List.idxOf_cons_ne _ (hne b hb), List.idxOf_cons_ne _ (hne c hc)]
      exact Nat.succ_lt_succ hbc
  have hall : ∀ r, (∀ b rest, rowOf resSlot s' r = b :: rest → (s'.record b).lockType = .own) ∧
      (rowOf resSlot s' r).tail.Pairwise fun b c =>
        log'.idxOf (s'.sesKey b, r) < log'.idxOf (s'.sesKey c, r) := by
    intro r
    by_cases hr : r = row.resource
    · subst hr
      have hrow := hrows row.resource
      rw [if_pos rfl] at hrow
      rcases hnew with ⟨hown, hnil, -⟩ | ⟨hsome, rfl, hses⟩
      · rw [hnil] at hrow
        rw [hrow]
        refine ⟨fun b rest hb => ?_, List.Pairwise.nil⟩
        obtain rfl := (List.cons.inj hb).1
        rw [hself, hown]
      · obtain ⟨o, ws, hold⟩ := List.exists_cons_of_ne_nil hsome
        rw [hold] at hrow
        have hmem : ∀ b ∈ o :: ws, b ∈ rowOf resSlot s row.resource := fun b hb => hold ▸ hb
        rw [hrow]
        refine ⟨fun b rest hb => ?_, List.pairwise_cons.mpr ⟨fun b hb => ?_, ?_⟩⟩
        · obtain rfl := (List.cons.inj hb).1
          rw [hkept _ o (hmem o List.mem_cons_self)]
          exact ho.front _ o ws hold
        · have hb' := hmem b (List.mem_cons_of_mem o hb)
          have hne : (row.sessionId, row.resource) ≠ (s.sesKey b, row.resource) := fun heq =>
            hses b hb' (Prod.mk.inj heq).1.symm
          have hfirst : s'.sesKey a = row.sessionId := congrArg LockRow.sessionId hself
          rw [hfirst, hkey _ b hb', List.idxOf_cons_self, List.idxOf_cons_ne _ hne]
          exact Nat.succ_pos _
        · have hnewest := ho.newest row.resource
          rw [hold] at hnewest
          refine hnewest.imp_of_mem fun hb hc hbc => ?_
          exact hother _ _ (hmem _ (List.mem_cons_of_mem o hb)) _
            (hmem _ (List.mem_cons_of_mem o hc)) hbc
    · have hrow := hrows r
      rw [if_neg hr] at hrow
      rw [hrow]
      refine ⟨fun b rest hb => ?_, ?_⟩
      · rw [hkept r b (by rw [hb]; exact List.mem_cons_self)]
        exact ho.front r b rest hb
      · refine (ho.newest r).imp_of_mem fun hb hc hbc => ?_
        exact hother r _ (List.mem_of_mem_tail hb) _ (List.mem_of_mem_tail hc) hbc
  exact ⟨fun r => (hall r).1, fun r => (hall r).2⟩

/-- A release keeps the order. -/
theorem InOrder.released (ho : InOrder resSlot s log) (h : Table sesSlot resSlot s) (hl : Locks s)
    (env : Env A S R) (session : S) :
    InOrder resSlot (releaseLock sesSlot resSlot s env session) log := by
  obtain ⟨htable, hrel⟩ := releaseLock_spec h hl env session
  obtain ⟨hrows, hserved⟩ := releaseLock_rows h hl env session
  have hlocks := hrel.locks hl
  generalize releaseLock sesSlot resSlot s env session = u at htable hrel hrows hserved hlocks
  have hused : ∀ r, ∀ a ∈ rowOf resSlot u r, u.used a = true ∧ s.resKey a = r := by
    intro r a ha
    have ha' := ((mem_rowOf htable).mp ha).1
    rw [hrows] at ha
    exact ⟨ha', ((mem_rowOf h).mp (List.mem_filter.mp ha).1).2⟩
  constructor
  · intro r a rest hrow
    obtain ⟨hau, har⟩ := hused r a (by rw [hrow]; exact List.mem_cons_self)
    obtain ⟨o, ws, hold⟩ : ∃ o ws, rowOf resSlot s r = o :: ws := by
      refine List.exists_cons_of_ne_nil fun hnil => ?_
      rw [hrows, hnil] at hrow
      cases hrow
    have hown := ho.front r o ws hold
    have hrow' := hrows r
    rw [hrow, hold, List.filter_cons] at hrow'
    by_cases hos : s.sesKey o = session
    · -- the owner has gone, and the one behind it has been served
      rw [if_neg (by simpa using hos)] at hrow'
      obtain ⟨b, hb, hbo, hbr⟩ := hlocks.owned a hau
      have hbr' : s.resKey b = r := by
        rw [← (hrel.keys b hb).2, hbr, (hrel.keys a hau).2, har]
      have hbu := (hrel.used b).mp hb
      have hbw : (s.record b).lockType = .wait := by
        cases htype : (s.record b).lockType with
        | wait => rfl
        | own =>
            obtain ⟨hou, hor⟩ := (mem_rowOf h).mp (hold ▸ List.mem_cons_self (l := ws))
            obtain rfl := hl.one_owner o b hou hbu.1 hown htype (hor.trans hbr'.symm)
            exact absurd hos hbu.2
      have hfind := hserved b hb hbw hbo
      rw [hbr', ho.find_wait h hl hold] at hfind
      cases ws with
      | nil => cases hfind
      | cons w ws' =>
          obtain rfl : w = b := Option.some.inj hfind
          rw [List.filter_cons, if_pos (by simpa using hbu.2)] at hrow'
          obtain rfl := (List.cons.inj hrow').1
          exact hbo
    · rw [if_pos (by simpa using hos)] at hrow'
      obtain rfl := (List.cons.inj hrow').1
      rcases hrel.change a hau with hsame | ⟨hwait, -, -⟩
      · rw [hsame, hown]
      · rw [hown] at hwait
        cases hwait
  · intro r
    have hsub : (rowOf resSlot u r).tail.Sublist (rowOf resSlot s r).tail := by
      rw [hrows]
      cases rowOf resSlot s r with
      | nil => exact List.Sublist.refl _
      | cons o ws =>
          rw [List.filter_cons]
          split
          · exact List.filter_sublist
          · exact (List.tail_sublist _).trans List.filter_sublist
    refine ((ho.newest r).sublist hsub).imp_of_mem fun ha hb hab => ?_
    have hkey : ∀ c ∈ (rowOf resSlot u r).tail, u.sesKey c = s.sesKey c := fun c hc =>
      (hrel.keys c (hused r c (List.mem_of_mem_tail hc)).1).1
    rw [hkey _ ha, hkey _ hb]
    exact hab

/-- **A request keeps the order**, and is noted when it waits. -/
theorem judgeAndAddLock_inOrder (ho : InOrder resSlot s log) (h : Table sesSlot resSlot s)
    (hl : Locks s) {env : Env A S R} (hslot : ∀ a ∈ env.slot, s.used a = false) {n : Nat} {r : R}
    {session : S} {answer : Answer}
    (hj : judgeAndAddLock sesSlot resSlot s env n (some r) session = some (s', answer)) :
    InOrder resSlot s' (if answer = .queued then (session, r) :: log else log) := by
  unfold judgeAndAddLock at hj
  dsimp only at hj
  split at hj
  · rename_i hnone
    have hnil : rowOf resSlot s r = [] := by
      rw [selectRes_eq] at hnone
      exact List.map_eq_nil_iff.mp hnone
    split at hj
    · rename_i t hins
      obtain ⟨rfl, rfl⟩ := Prod.mk.inj (Option.some.inj hj)
      obtain ⟨-, ⟨-, a, hfree, hrec, -, hrows⟩ | ⟨hno, -⟩⟩ := insertRec_rows h hslot hins
      · exact ho.inserted h hfree hrec hrows (.inl ⟨rfl, hnil, rfl⟩)
      · cases hno
    · rename_i t hins
      obtain ⟨rfl, rfl⟩ := Prod.mk.inj (Option.some.inj hj)
      obtain ⟨-, ⟨hno, -⟩ | ⟨-, -, hrec, hrows⟩⟩ := insertRec_rows h hslot hins
      · cases hno
      · exact ho.kept h hrec hrows
  · rename_i hsome
    have hrow : rowOf resSlot s r ≠ [] := by
      intro hnil
      rw [selectRes_eq, hnil] at hsome
      exact hsome rfl
    split at hj
    · rename_i a row hfind
      obtain ⟨rfl, rfl⟩ := Prod.mk.inj (Option.some.inj hj)
      split <;> exact ho
    · rename_i hfind
      obtain ⟨dead, -, hres⟩ := Option.map_eq_some_iff.mp hj
      cases dead with
      | true =>
          obtain ⟨rfl, rfl⟩ := Prod.mk.inj hres
          exact ho.released h hl env session
      | false =>
          have hnew : ∀ b ∈ rowOf resSlot s r, s.sesKey b ≠ session := by
            intro b hb hses
            have hmem : (b, s.record b) ∈ selectRes resSlot s r := List.mem_map_of_mem hb
            exact List.find?_eq_none.mp hfind _ hmem (decide_eq_true hses)
          rcases hins : insertRec sesSlot resSlot s env ⟨session, .wait, r⟩ with ⟨t, ok⟩
          simp only [hins] at hres
          cases ok with
          | true =>
              obtain ⟨rfl, rfl⟩ := Prod.mk.inj hres
              obtain ⟨-, ⟨-, a, hfree, hrec, -, hrows⟩ | ⟨hno, -⟩⟩ := insertRec_rows h hslot hins
              · exact ho.inserted h hfree hrec hrows (.inr ⟨hrow, rfl, hnew⟩)
              · cases hno
          | false =>
              obtain ⟨rfl, rfl⟩ := Prod.mk.inj hres
              obtain ⟨-, ⟨hno, -⟩ | ⟨-, -, hrec, hrows⟩⟩ := insertRec_rows h hslot hins
              · cases hno
              · exact ho.kept h hrec hrows

theorem loggedStep_inOrder (ho : InOrder resSlot s log) (h : Table sesSlot resSlot s)
    (hl : Locks s) {c : Call A S R} {log' : List (S × R)}
    (hstep : loggedStep sesSlot resSlot (s, log) c = some (s', log')) :
    Table sesSlot resSlot s' ∧ Locks s' ∧ InOrder resSlot s' log' := by
  obtain ⟨t, ht, hlog⟩ := Option.map_eq_some_iff.mp hstep
  obtain ⟨rfl, rfl⟩ := Prod.mk.inj hlog
  obtain ⟨htable, heffect⟩ := step_effect h hl ht
  refine ⟨htable, heffect.locks hl, ?_⟩
  cases c with
  | releaseLock env session =>
      obtain rfl := Option.some.inj ht
      exact ho.released h hl env session
  | judgeAndAddLock env n resource session =>
      simp only [step] at ht
      split at ht
      · rename_i hslot
        obtain ⟨⟨u, answer⟩, hj, rfl⟩ := Option.map_eq_some_iff.mp ht
        cases resource with
        | none =>
            obtain ⟨rfl, -⟩ := Prod.mk.inj (Option.some.inj hj)
            exact ho
        | some r =>
            have hkept := judgeAndAddLock_inOrder ho h hl hslot hj
            rw [noteRequest, hj]
            cases answer <;> exact hkept
      · cases ht

theorem inOrder_of_run {record : A → LockRow S R} {calls : List (Call A S R)}
    (hrun : Runs.run (loggedStep sesSlot resSlot) (create record, []) calls = some (s, log)) :
    Table sesSlot resSlot s ∧ Locks s ∧ InOrder resSlot s log := by
  have hcreate := table_create sesSlot resSlot record
  refine Runs.run_invariant (I := fun p : State A S R × List (S × R) =>
    Table sesSlot resSlot p.1 ∧ Locks p.1 ∧ InOrder resSlot p.1 p.2)
    (fun p c q hp hstep => loggedStep_inOrder hp.2.2 hp.1 hp.2.1 hstep) ?_ hrun
  have hempty : ∀ r, rowOf resSlot (create record) r = [] := fun r => rfl
  refine ⟨hcreate.1, hcreate.2, fun r a rest hrow => ?_, fun r => ?_⟩
  · rw [hempty] at hrow
    cases hrow
  · rw [hempty]
    exact List.Pairwise.nil

/-! ## Who is served -/

/-- How many requests have come since that of the session for the resource. -/
def requestAge (log : List (S × R)) (session : S) (r : R) : Nat := log.idxOf (session, r)

/-- Whenever a release of `session` makes an owner of a row that waits, no other row that waits for
the same resource has an earlier request. -/
def ServedInOrder (sesSlot : S → Nat) (resSlot : R → Nat) (s : State A S R) (log : List (S × R))
    (env : Env A S R) (session : S) : Prop :=
  ∀ a, s.used a = true ∧ (s.record a).lockType = .wait →
    (releaseLock sesSlot resSlot s env session).used a = true ∧
      ((releaseLock sesSlot resSlot s env session).record a).lockType = .own →
    ∀ b, s.used b = true ∧ (s.record b).lockType = .wait → s.resKey b = s.resKey a →
      requestAge log (s.sesKey b) (s.resKey b) ≤ requestAge log (s.sesKey a) (s.resKey a)

/-- No resource that the session owns is waited for twice. -/
def OneWaiter (s : State A S R) (session : S) : Prop :=
  ∀ c, s.used c = true ∧ (s.record c).lockType = .own → s.sesKey c = session →
    ∀ a b, s.used a = true ∧ (s.record a).lockType = .wait →
      s.used b = true ∧ (s.record b).lockType = .wait →
      s.resKey a = s.resKey c → s.resKey b = s.resKey c → a = b

/-- **The newest waiter is served.** -/
theorem InOrder.serves_newest (ho : InOrder resSlot s log) (h : Table sesSlot resSlot s)
    (hl : Locks s) {env : Env A S R} {session : S} {a : A}
    (ha : (releaseLock sesSlot resSlot s env session).used a = true)
    (hw : (s.record a).lockType = .wait)
    (hown : ((releaseLock sesSlot resSlot s env session).record a).lockType = .own) {b : A}
    (hb : s.used b = true) (hab : s.resKey b = s.resKey a) (hwb : (s.record b).lockType = .wait)
    (hne : b ≠ a) :
    log.idxOf (s.sesKey a, s.resKey a) < log.idxOf (s.sesKey b, s.resKey b) := by
  have hfind := (releaseLock_rows h hl env session).2 a ha hw hown
  have hmem : b ∈ rowOf resSlot s (s.resKey a) := (mem_rowOf h).mpr ⟨hb, hab⟩
  obtain ⟨o, ws, hrow⟩ := List.exists_cons_of_ne_nil (List.ne_nil_of_mem hmem)
  rw [ho.find_wait h hl hrow] at hfind
  have hfront := ho.front _ o ws hrow
  have hnewest := ho.newest (s.resKey a)
  rw [hrow] at hmem hnewest
  cases ws with
  | nil => cases hfind
  | cons w ws' =>
      obtain rfl : w = a := Option.some.inj hfind
      rcases List.mem_cons.mp hmem with rfl | hmem
      · rw [hwb] at hfront
        cases hfront
      · have hbehind := (List.mem_cons.mp hmem).resolve_left hne
        rw [hab]
        exact (List.pairwise_cons.mp hnewest).1 b hbehind

/-- **A release serves the waiters in the order of their requests exactly when there is only one**
for every resource that the session owns. -/
theorem servedInOrder_iff {record : A → LockRow S R} {calls : List (Call A S R)}
    (hrun : Runs.run (loggedStep sesSlot resSlot) (create record, []) calls = some (s, log))
    (env : Env A S R) (session : S) :
    ServedInOrder sesSlot resSlot s log env session ↔ OneWaiter s session := by
  obtain ⟨h, hl, ho⟩ := inOrder_of_run hrun
  constructor
  · rintro hserved c ⟨hcu, hco⟩ hcs a b ⟨ha, hwa⟩ ⟨hb, hwb⟩ hac hbc
    by_contra hab
    obtain ⟨-, hrel⟩ := releaseLock_spec h hl env session
    -- the waiters are not rows of the session, which has one row on the resource
    have hstays : ∀ d, s.used d = true → s.resKey d = s.resKey c →
        (s.record d).lockType = .wait → (releaseLock sesSlot resSlot s env session).used d = true := by
      intro d hd hdc hwd
      refine (hrel.used d).mpr ⟨hd, fun hds => ?_⟩
      obtain rfl := hl.pair d c hd hcu (hds.trans hcs.symm) hdc
      rw [hwd] at hco
      cases hco
    obtain ⟨w, hwu, hwc, hwo⟩ := hrel.handed c hcu hco hcs ⟨a, hstays a ha hac hwa, hac⟩
    obtain ⟨hwused, hws⟩ := (hrel.used w).mp hwu
    have hww : (s.record w).lockType = .wait := by
      cases htype : (s.record w).lockType with
      | wait => rfl
      | own =>
          obtain rfl := hl.one_owner w c hwused hcu htype hco hwc
          exact absurd hcs hws
    have hlater : ∀ d, s.used d = true → s.resKey d = s.resKey c → (s.record d).lockType = .wait →
        d = w := by
      intro d hd hdc hwd
      by_contra hne
      have hlt := ho.serves_newest h hl hwu hww hwo hd (hdc.trans hwc.symm) hwd hne
      exact absurd (hserved w ⟨hwused, hww⟩ ⟨hwu, hwo⟩ d ⟨hd, hwd⟩ (hdc.trans hwc.symm)) hlt.not_ge
    exact hab ((hlater a ha hac hwa).trans (hlater b hb hbc hwb).symm)
  · rintro hone a ⟨-, hw⟩ ⟨ha, hown⟩ b ⟨hb, hwb⟩ hab
    obtain ⟨-, hrel⟩ := releaseLock_spec h hl env session
    rcases hrel.change a ha with hsame | ⟨-, -, c, hcu, hco, hcs, hca⟩
    · rw [hsame, hw] at hown
      cases hown
    · obtain rfl := hone c ⟨hcu, hco⟩ hcs b a ⟨hb, hwb⟩
        ⟨((hrel.used a).mp ha).1, hw⟩ (hab.trans hca.symm) hca.symm
      exact le_rfl

end LockManager
