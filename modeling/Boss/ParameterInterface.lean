import Boss.Census
import Boss.Runs

/-!
# Queries and table refreshes

Query threads run `ParameterInterface::find`, refresh threads the end of `Parameter::getData`,
where the new table takes the place of the old one.  They meet in two variables: a query counts
itself in `m_cli_FindNum` before it looks at `m_systemState` a second time, a refresh takes
`m_systemState` off `READY_STATE` before it waits for the count to be 0.  Each read and write of
one of the two is a step of its own; the mutex is there for the count alone.

The count is right in every run.  The flag is not: a refresh that finds it taken down already
does not take it down again, and the refresh that did puts it up when it is through itself.
`LowersAlone` excludes that step, and without it no query is inside `QueryManager::find` while a
table is switched.

Main results: `separate_step` for one step, `separate_run` for runs.
-/

namespace ParameterInterface

open Census Runs

/-- `ParameterInterface::state`. -/
inductive SystemState
  | UPDATA_STATE
  | INITIALIZE_STATE
  | NOUSE_STATE
  | READY_STATE
  deriving DecidableEq, Repr

/-- What a query thread is about to do. -/
inductive QueryPhase
  | idle
  | incLock
  | incRead
  /-- It read this count and writes one more. -/
  | incWrite (m_cli_FindNum : Int)
  | incUnlock
  /-- It looks at `m_systemState` again. -/
  | check
  /-- It is inside `QueryManager::find`. -/
  | finding
  | decLock
  | decRead
  /-- It read this count and writes one less. -/
  | decWrite (m_cli_FindNum : Int)
  | decUnlock
  deriving DecidableEq, Repr

/-- What a refresh thread is about to do. -/
inductive RefreshPhase
  | idle
  /-- It saw `READY_STATE` and writes `UPDATA_STATE`. -/
  | raise
  /-- It reads the count until it is 0. -/
  | wait
  /-- It is inside `toSwitch`. -/
  | switching
  /-- It looks at `m_systemState` again. -/
  | check
  /-- It saw `UPDATA_STATE` and writes `READY_STATE`. -/
  | lower
  deriving DecidableEq, Repr

structure State (Query Refresh : Type) where
  m_systemState : SystemState
  m_cli_FindNum : Int
  g_Cli_FindNum_mutex : Option Query
  query : Query → QueryPhase
  refresh : Refresh → RefreshPhase

/-- The thread that goes on, and whether a waiting refresh gives up. -/
inductive Event (Query Refresh : Type)
  | find (q : Query)
  | getData (r : Refresh)
  | timeout (r : Refresh)
  deriving DecidableEq, Repr

variable {Query Refresh : Type} [DecidableEq Query] [DecidableEq Refresh]

/-- No thread has begun. -/
def init (m_systemState : SystemState) : State Query Refresh :=
  ⟨m_systemState, 0, none, fun _ => .idle, fun _ => .idle⟩

namespace State

variable (s : State Query Refresh)

def queryTo (q : Query) (ph : QueryPhase) : State Query Refresh :=
  { s with query := Function.update s.query q ph }

def refreshTo (r : Refresh) (ph : RefreshPhase) : State Query Refresh :=
  { s with refresh := Function.update s.refresh r ph }

/-- `pthread_mutex_lock`; the thread cannot go on while the mutex is taken. -/
def lock (q : Query) (ph : QueryPhase) : Option (State Query Refresh) :=
  if s.g_Cli_FindNum_mutex = none then
    some { s.queryTo q ph with g_Cli_FindNum_mutex := some q }
  else none

/-- `pthread_mutex_unlock`. -/
def unlock (q : Query) (ph : QueryPhase) : State Query Refresh :=
  { s.queryTo q ph with g_Cli_FindNum_mutex := none }

/-- The count is written. -/
def count (q : Query) (m_cli_FindNum : Int) (ph : QueryPhase) : State Query Refresh :=
  { s.queryTo q ph with m_cli_FindNum := m_cli_FindNum }

/-- The flag is written. -/
def flag (r : Refresh) (m_systemState : SystemState) (ph : RefreshPhase) : State Query Refresh :=
  { s.refreshTo r ph with m_systemState := m_systemState }

end State

/-- The next read or write of a query.  A query that is turned away at the first look only reads
the state again to choose its message. -/
def find (s : State Query Refresh) (q : Query) : Option (State Query Refresh) :=
  match s.query q with
  | .idle => some (s.queryTo q (if s.m_systemState = .READY_STATE then .incLock else .idle))
  | .incLock => s.lock q .incRead
  | .incRead => some (s.queryTo q (.incWrite s.m_cli_FindNum))
  | .incWrite n => some (s.count q (n + 1) .incUnlock)
  | .incUnlock => some (s.unlock q .check)
  | .check => some (s.queryTo q (if s.m_systemState = .READY_STATE then .finding else .decLock))
  | .finding => some (s.queryTo q .decLock)
  | .decLock => s.lock q .decRead
  | .decRead => some (s.queryTo q (.decWrite s.m_cli_FindNum))
  | .decWrite n => some (s.count q (n - 1) .decUnlock)
  | .decUnlock => some (s.unlock q .idle)

/-- The next read or write of a refresh. -/
def getData (s : State Query Refresh) (r : Refresh) : State Query Refresh :=
  match s.refresh r with
  | .idle => s.refreshTo r (if s.m_systemState = .READY_STATE then .raise else .wait)
  | .raise => s.flag r .UPDATA_STATE .wait
  | .wait => s.refreshTo r (if s.m_cli_FindNum > 0 then .wait else .switching)
  | .switching => s.refreshTo r .check
  | .check => s.refreshTo r (if s.m_systemState = .UPDATA_STATE then .lower else .idle)
  | .lower => s.flag r .READY_STATE .idle

/-- One step of one thread. -/
def step (s : State Query Refresh) : Event Query Refresh → Option (State Query Refresh)
  | .find q => find s q
  | .getData r => some (getData s r)
  | .timeout r => if s.refresh r = .wait then some (s.refreshTo r .idle) else none

/-! ## The count -/

/-- The query has counted itself in and not yet out. -/
def counted : QueryPhase → Nat
  | .incUnlock | .check | .finding | .decLock | .decRead | .decWrite _ => 1
  | _ => 0

def holdsMutex : QueryPhase → Bool
  | .incRead | .incWrite _ | .incUnlock | .decRead | .decWrite _ | .decUnlock => true
  | _ => false

/-- The count as a query read it before it writes. -/
def readCount : QueryPhase → Option Int
  | .incWrite n | .decWrite n => some n
  | _ => none

variable [Fintype Query]

/-- The count is the number of queries counted in, and what a query read of it still holds, since
it has the mutex. -/
structure Counted (s : State Query Refresh) : Prop where
  count : s.m_cli_FindNum = tally counted s.query
  mutex : ∀ q, holdsMutex (s.query q) = true → s.g_Cli_FindNum_mutex = some q
  read : ∀ q n, readCount (s.query q) = some n → n = s.m_cli_FindNum

omit [DecidableEq Query] [DecidableEq Refresh] in
/-- At first no query is counted. -/
theorem counted_init (m_systemState : SystemState) :
    Counted (init m_systemState : State Query Refresh) := by
  have hcount : tally counted (init m_systemState : State Query Refresh).query = 0 :=
    tally_const rfl
  refine ⟨?_, ?_, ?_⟩
  · rw [hcount]
    rfl
  · intro q hq
    simp [init, holdsMutex] at hq
  · intro q n hn
    simp [init, readCount] at hn

/-- A query goes to another phase: the count moves by what it adds, under the mutex, and the flag
stays. -/
structure QueryMoved (s : State Query Refresh) (q : Query) (ph : QueryPhase)
    (t : State Query Refresh) : Prop where
  query : t.query = Function.update s.query q ph
  refresh : t.refresh = s.refresh
  flag : t.m_systemState = s.m_systemState
  count : t.m_cli_FindNum = s.m_cli_FindNum + counted ph - counted (s.query q)
  alone : s.g_Cli_FindNum_mutex = some q ∨ t.m_cli_FindNum = s.m_cli_FindNum
  mutex : t.g_Cli_FindNum_mutex = s.g_Cli_FindNum_mutex ∨ s.g_Cli_FindNum_mutex = none ∨
    s.g_Cli_FindNum_mutex = some q
  holds : holdsMutex ph = true → t.g_Cli_FindNum_mutex = some q
  read : ∀ n, readCount ph = some n → n = t.m_cli_FindNum
  enters : ph = .finding → s.m_systemState = .READY_STATE

section Moves

variable {s t : State Query Refresh} {q : Query} {ph : QueryPhase}

omit [DecidableEq Refresh] in
/-- A query that changes its phase without being counted otherwise moves. -/
theorem moved_queryTo (hs : Counted s) (hcount : counted ph = counted (s.query q))
    (hmutex : holdsMutex ph = holdsMutex (s.query q))
    (hread : ∀ n, readCount ph = some n → n = s.m_cli_FindNum)
    (henters : ph = .finding → s.m_systemState = .READY_STATE) :
    QueryMoved s q ph (s.queryTo q ph) where
  query := rfl
  refresh := rfl
  flag := rfl
  count := by simp only [State.queryTo, hcount]; omega
  alone := .inr rfl
  mutex := .inl rfl
  holds := fun hph => hs.mutex q (hmutex ▸ hph)
  read := hread
  enters := henters

omit [DecidableEq Refresh] [Fintype Query] in
/-- A query that takes the mutex moves. -/
theorem moved_lock (hlock : s.lock q ph = some t) (hcount : counted ph = counted (s.query q))
    (hread : readCount ph = none) (henters : ph ≠ .finding) : QueryMoved s q ph t := by
  obtain ⟨hfree, hlock⟩ := Option.ite_none_right_eq_some.mp hlock
  obtain rfl := Option.some.inj hlock
  exact ⟨rfl, rfl, rfl, by simp only [State.queryTo, hcount]; omega, .inr rfl, .inr (.inl hfree),
    fun _ => rfl, fun n hn => by simp [hread] at hn, fun hph => absurd hph henters⟩

section

omit [DecidableEq Refresh]

/-- A query that gives the mutex back moves. -/
theorem moved_unlock (hs : Counted s) (hheld : holdsMutex (s.query q) = true)
    (hcount : counted ph = counted (s.query q)) (hfree : holdsMutex ph = false)
    (hread : readCount ph = none) (henters : ph ≠ .finding) :
    QueryMoved s q ph (s.unlock q ph) :=
  ⟨rfl, rfl, rfl, by simp only [State.unlock, State.queryTo, hcount]; omega, .inr rfl,
    .inr (.inr (hs.mutex q hheld)), fun hph => by simp [hfree] at hph,
    fun n hn => by simp [hread] at hn, fun hph => absurd hph henters⟩

/-- A query that writes the number of queries under the mutex moves. -/
theorem moved_count (hs : Counted s) (hheld : holdsMutex (s.query q) = true) {n : Int}
    (hn : n = s.m_cli_FindNum + counted ph - counted (s.query q)) (hread : readCount ph = none)
    (henters : ph ≠ .finding) : QueryMoved s q ph (s.count q n ph) :=
  ⟨rfl, rfl, rfl, hn, .inl (hs.mutex q hheld), .inl rfl, fun _ => hs.mutex q hheld,
    fun n hn => by simp [hread] at hn, fun hph => absurd hph henters⟩

/-- **What a step of a query does.** -/
theorem find_moves (hs : Counted s) (hstep : find s q = some t) : ∃ ph, QueryMoved s q ph t := by
  have hread := hs.read q
  unfold find at hstep
  cases hph : s.query q with
  | idle =>
      simp only [hph, Option.some.injEq] at hstep
      subst hstep
      refine ⟨_, moved_queryTo hs ?_ ?_ ?_ ?_⟩ <;> split <;>
        simp [hph, counted, holdsMutex, readCount]
  | incLock =>
      simp only [hph] at hstep
      exact ⟨_, moved_lock hstep (by simp [hph, counted]) rfl (by decide)⟩
  | incRead =>
      simp only [hph, Option.some.injEq] at hstep
      subst hstep
      exact ⟨_, moved_queryTo hs (by simp [hph, counted]) (by simp [hph, holdsMutex])
        (fun n hn => (Option.some.inj hn).symm) (by simp)⟩
  | incWrite n =>
      simp only [hph, Option.some.injEq] at hstep
      subst hstep
      have hn : n = s.m_cli_FindNum := hread n (by simp [hph, readCount])
      exact ⟨_, moved_count hs (by simp [hph, holdsMutex]) (by simp [hph, counted, hn]) rfl
        (by decide)⟩
  | incUnlock =>
      simp only [hph, Option.some.injEq] at hstep
      subst hstep
      exact ⟨_, moved_unlock hs (by simp [hph, holdsMutex]) (by simp [hph, counted]) rfl rfl
        (by decide)⟩
  | check =>
      simp only [hph, Option.some.injEq] at hstep
      subst hstep
      refine ⟨_, moved_queryTo hs ?_ ?_ ?_ ?_⟩ <;> split <;>
        simp_all [counted, holdsMutex, readCount]
  | finding =>
      simp only [hph, Option.some.injEq] at hstep
      subst hstep
      exact ⟨_, moved_queryTo hs (by simp [hph, counted]) (by simp [hph, holdsMutex])
        (by simp [readCount]) (by simp)⟩
  | decLock =>
      simp only [hph] at hstep
      exact ⟨_, moved_lock hstep (by simp [hph, counted]) rfl (by decide)⟩
  | decRead =>
      simp only [hph, Option.some.injEq] at hstep
      subst hstep
      exact ⟨_, moved_queryTo hs (by simp [hph, counted]) (by simp [hph, holdsMutex])
        (fun n hn => (Option.some.inj hn).symm) (by simp)⟩
  | decWrite n =>
      simp only [hph, Option.some.injEq] at hstep
      subst hstep
      have hn : n = s.m_cli_FindNum := hread n (by simp [hph, readCount])
      exact ⟨_, moved_count hs (by simp [hph, holdsMutex]) (by simp [hph, counted, hn]) rfl
        (by decide)⟩
  | decUnlock =>
      simp only [hph, Option.some.injEq] at hstep
      subst hstep
      exact ⟨_, moved_unlock hs (by simp [hph, holdsMutex]) (by simp [hph, counted]) rfl rfl
        (by decide)⟩

/-- A move of a query keeps the number of queries right. -/
theorem QueryMoved.counted (h : QueryMoved s q ph t) (hs : Counted s) : Counted t := by
  have htally := tally_update ParameterInterface.counted s.query q ph
  have hother : ∀ q', q' ≠ q → t.query q' = s.query q' := by
    intro q' hne
    rw [h.query, Function.update_of_ne hne]
  have hself : t.query q = ph := by rw [h.query, Function.update_self]
  refine ⟨?_, ?_, ?_⟩
  · have hcount := hs.count
    rw [h.count, h.query]
    omega
  · intro q' hq'
    by_cases heq : q' = q
    · subst heq
      rw [hself] at hq'
      exact h.holds hq'
    · rw [hother q' heq] at hq'
      have hheld := hs.mutex q' hq'
      rcases h.mutex with hsame | hfree | hmine
      · rw [hsame, hheld]
      · simp [hheld] at hfree
      · exact absurd (Option.some.inj (hheld.symm.trans hmine)) heq
  · intro q' n hn
    by_cases heq : q' = q
    · subst heq
      rw [hself] at hn
      exact h.read n hn
    · rw [hother q' heq] at hn
      have hholds : holdsMutex (s.query q') = true := by
        cases hph : s.query q' <;> simp_all [readCount, holdsMutex]
      rcases h.alone with hmine | hsame
      · exact absurd (Option.some.inj ((hs.mutex q' hholds).symm.trans hmine)) heq
      · rw [hsame]
        exact hs.read q' n hn

end

end Moves

/-! ## The flag -/

/-- The refresh relies on the flag: it has taken it down, or found it so. -/
def relies : RefreshPhase → Bool
  | .wait | .switching => true
  | _ => false

/-- A step that puts the flag up while no other refresh relies on it. -/
def LowersAlone (s : State Query Refresh) : Event Query Refresh → Prop
  | .getData r => s.refresh r = .lower → ∀ r', r' ≠ r → relies (s.refresh r') = false
  | _ => True

/-- The flag is down while a refresh relies on it, and no query is inside `QueryManager::find`
while a table is switched. -/
structure Separate (s : State Query Refresh) : Prop where
  counted : Counted s
  flag : ∀ r, relies (s.refresh r) = true → s.m_systemState ≠ .READY_STATE
  alone : ∀ r q, s.refresh r = .switching → s.query q ≠ .finding

/-- One refresh goes to another phase, and with it the flag; the queries stay. -/
structure RefreshMoved (s : State Query Refresh) (r : Refresh) (ph : RefreshPhase)
    (t : State Query Refresh) : Prop where
  refresh : t.refresh = Function.update s.refresh r ph
  query : t.query = s.query
  count : t.m_cli_FindNum = s.m_cli_FindNum
  mutex : t.g_Cli_FindNum_mutex = s.g_Cli_FindNum_mutex
  down : relies ph = true → t.m_systemState ≠ .READY_STATE ∨
    relies (s.refresh r) = true ∧ t.m_systemState = s.m_systemState
  flag : t.m_systemState = .READY_STATE → s.m_systemState = .READY_STATE ∨ s.refresh r = .lower
  switches : ph = .switching → s.m_cli_FindNum ≤ 0

section Moves

variable {s t : State Query Refresh} {r : Refresh} {ph : RefreshPhase}

omit [DecidableEq Query] [Fintype Query] in
/-- A refresh that changes its phase moves, if it switches only when no query is counted. -/
theorem moved_refreshTo (hdown : relies ph = true → s.m_systemState ≠ .READY_STATE ∨
      relies (s.refresh r) = true) (hswitches : ph = .switching → s.m_cli_FindNum ≤ 0) :
    RefreshMoved s r ph (s.refreshTo r ph) :=
  ⟨rfl, rfl, rfl, rfl, fun hph => (hdown hph).imp_right (⟨·, rfl⟩), .inl, hswitches⟩

omit [DecidableEq Query] [Fintype Query] in
/-- **What a step of a refresh does.** -/
theorem getData_moves (s : State Query Refresh) (r : Refresh) :
    ∃ ph, RefreshMoved s r ph (getData s r) := by
  unfold getData
  cases hph : s.refresh r with
  | idle => refine ⟨_, moved_refreshTo ?_ ?_⟩ <;> split <;> simp_all [relies]
  | raise =>
      exact ⟨.wait, rfl, rfl, rfl, rfl, fun _ => .inl (by simp [State.flag]), by simp [State.flag],
        by simp⟩
  | wait =>
      refine ⟨_, moved_refreshTo (fun _ => .inr (by simp [hph, relies])) ?_⟩
      split
      · simp
      · intro _
        omega
  | switching => exact ⟨_, moved_refreshTo (by simp [relies]) (by simp)⟩
  | check => refine ⟨_, moved_refreshTo ?_ ?_⟩ <;> split <;> simp [relies]
  | lower => exact ⟨.idle, rfl, rfl, rfl, rfl, by simp [relies], fun _ => .inr hph, by simp⟩

omit [Fintype Query] in
/-- A refresh that waits gives up. -/
theorem timeout_moves (hstep : step s (.timeout r) = some t) : RefreshMoved s r .idle t := by
  obtain ⟨-, hstep⟩ := Option.ite_none_right_eq_some.mp hstep
  obtain rfl := Option.some.inj hstep
  exact moved_refreshTo (by simp [relies]) (by simp)

omit [DecidableEq Query] in
/-- A move of a refresh keeps the number of queries right. -/
theorem RefreshMoved.counted (h : RefreshMoved s r ph t) (hs : Counted s) : Counted t := by
  obtain ⟨hcount, hmutex, hread⟩ := hs
  refine ⟨?_, ?_, ?_⟩
  · rw [h.count, h.query, hcount]
  · rw [h.query, h.mutex]
    exact hmutex
  · rw [h.query, h.count]
    exact hread

omit [DecidableEq Query] [DecidableEq Refresh] in
/-- A query inside `QueryManager::find` is counted. -/
theorem Counted.not_finding (hs : Counted s) (hnone : s.m_cli_FindNum ≤ 0) (q : Query) :
    s.query q ≠ .finding := by
  intro hq
  have hcount := hs.count
  have hone := tally_one ParameterInterface.counted s.query q
  rw [hq] at hone
  have hfinding : ParameterInterface.counted .finding = 1 := rfl
  omega

omit [DecidableEq Query] in
/-- A refresh that lowers the flag alone keeps queries and switches apart. -/
theorem RefreshMoved.separate (h : RefreshMoved s r ph t) (hs : Separate s)
    (hlower : s.refresh r = .lower → ∀ r', r' ≠ r → relies (s.refresh r') = false) :
    Separate t := by
  have hother : ∀ r', r' ≠ r → t.refresh r' = s.refresh r' := by
    intro r' hne
    rw [h.refresh, Function.update_of_ne hne]
  have hself : t.refresh r = ph := by rw [h.refresh, Function.update_self]
  refine ⟨h.counted hs.counted, ?_, ?_⟩
  · intro r' hr' hready
    by_cases heq : r' = r
    · subst heq
      rw [hself] at hr'
      rcases h.down hr' with hdown | ⟨hrelied, hsame⟩
      · exact hdown hready
      · exact hs.flag r' hrelied (hsame ▸ hready)
    · rw [hother r' heq] at hr'
      rcases h.flag hready with hready' | hlowers
      · exact hs.flag r' hr' hready'
      · exact absurd hr' (by rw [hlower hlowers r' heq]; decide)
  · intro r' q hr'
    rw [h.query]
    by_cases heq : r' = r
    · subst heq
      rw [hself] at hr'
      exact hs.counted.not_finding (h.switches hr') q
    · rw [hother r' heq] at hr'
      exact hs.alone r' q hr'

omit [DecidableEq Refresh] in
/-- A move of a query keeps queries and switches apart. -/
theorem QueryMoved.separate {q : Query} {ph : QueryPhase} (h : QueryMoved s q ph t)
    (hs : Separate s) : Separate t := by
  refine ⟨h.counted hs.counted, ?_, ?_⟩
  · rw [h.refresh, h.flag]
    exact hs.flag
  · intro r q' hr
    rw [h.refresh] at hr
    by_cases heq : q' = q
    · subst heq
      rw [h.query, Function.update_self]
      intro hfinding
      exact hs.flag r (by rw [hr]; rfl) (h.enters hfinding)
    · rw [h.query, Function.update_of_ne heq]
      exact hs.alone r q' hr

end Moves

/-! ## Runs -/

section Steps

variable {s t : State Query Refresh} {event : Event Query Refresh}

/-- Every step keeps the count. -/
theorem counted_step (hs : Counted s) (hstep : step s event = some t) : Counted t := by
  cases event with
  | find q =>
      obtain ⟨ph, hmoved⟩ := find_moves hs hstep
      exact hmoved.counted hs
  | getData r =>
      obtain ⟨ph, hmoved⟩ := getData_moves s r
      obtain rfl := Option.some.inj hstep
      exact hmoved.counted hs
  | timeout r => exact (timeout_moves hstep).counted hs

/-- **A step keeps queries and switches apart**, if only one refresh lowers the flag. -/
theorem separate_step (hs : Separate s) (hok : LowersAlone s event)
    (hstep : step s event = some t) : Separate t := by
  cases event with
  | find q =>
      obtain ⟨ph, hmoved⟩ := find_moves hs.counted hstep
      exact hmoved.separate hs
  | getData r =>
      obtain ⟨ph, hmoved⟩ := getData_moves s r
      obtain rfl := Option.some.inj hstep
      exact hmoved.separate hs hok
  | timeout r =>
      have hwait : s.refresh r = .wait := (Option.ite_none_right_eq_some.mp hstep).1
      refine (timeout_moves hstep).separate hs ?_
      intro hlower
      exact absurd (hwait.symm.trans hlower) (by decide)

end Steps

omit [DecidableEq Query] [DecidableEq Refresh] in
/-- At first there are neither queries nor switches. -/
theorem separate_init (m_systemState : SystemState) :
    Separate (init m_systemState : State Query Refresh) := by
  refine ⟨counted_init m_systemState, ?_, ?_⟩
  · intro r hr
    exact absurd hr (by simp [init, relies])
  · intro r q hr
    exact absurd hr (by simp [init])

/-- The count is right in every run. -/
theorem findNum_run (m_systemState : SystemState) {s : State Query Refresh}
    {labels : List (Event Query Refresh)} (hrun : run step (init m_systemState) labels = some s) :
    s.m_cli_FindNum = tally counted s.query :=
  (run_invariant (fun _ _ _ hs hstep => counted_step hs hstep) (counted_init m_systemState)
    hrun).count

omit [DecidableEq Query] [DecidableEq Refresh] [Fintype Query] in
/-- With a single refresh thread the flag is put up by the one that took it down. -/
theorem lowersAlone_of_subsingleton [Subsingleton Refresh] (s : State Query Refresh)
    (event : Event Query Refresh) : LowersAlone s event := by
  cases event with
  | getData r => exact fun _ r' hne => absurd (Subsingleton.elim r' r) hne
  | find q => trivial
  | timeout r => trivial

/-- **Queries and switches are apart.**  In a run in which no refresh puts the flag up while another
one relies on it, no query is inside `QueryManager::find` while a table is switched, and the count
is the number of queries counted in. -/
theorem separate_run (m_systemState : SystemState) {s : State Query Refresh}
    (labels : List (Event Query Refresh))
    (hmeets : Meets step LowersAlone (init m_systemState) labels)
    (hrun : run step (init m_systemState) labels = some s) :
    (∀ r q, s.refresh r = .switching → s.query q ≠ .finding) ∧
      s.m_cli_FindNum = tally counted s.query := by
  have hseparate : Separate s :=
    run_invariant_of_meets (fun _ _ _ hs hok hstep => separate_step hs hok hstep)
      (separate_init m_systemState) hmeets hrun
  exact ⟨hseparate.alone, findNum_run m_systemState hrun⟩

/-- A single refresh, with a query that was inside before. -/
theorem separate_run_single :
    ∃ s, run step (init .READY_STATE : State Unit Unit)
        [.find (), .find (), .find (), .find (), .getData (), .find (), .find (), .getData (),
          .getData (), .find (), .find (), .find (), .find (), .find (), .getData ()] = some s ∧
      s.refresh () = .switching ∧ s.query () ≠ .finding := by
  refine ⟨_, rfl, rfl, ?_⟩
  refine (separate_run .READY_STATE [.find (), .find (), .find (), .find (), .getData (), .find (),
    .find (), .getData (), .getData (), .find (), .find (), .find (), .find (), .find (),
    .getData ()] ?_ rfl).1 () () rfl
  exact meets_of_all lowersAlone_of_subsingleton _ _

/-- The second refresh finds the flag down, the first puts it up, and a query comes in while the
second switches. -/
theorem separate_not_run :
    ∃ s, run step (init .READY_STATE : State Unit Bool)
        [.getData true, .getData true, .getData false, .getData true, .getData true,
          .getData false, .getData true, .getData true,
          .find (), .find (), .find (), .find (), .find (), .find ()] = some s ∧
      s.refresh false = .switching ∧ s.query () = .finding :=
  ⟨_, rfl, rfl, rfl⟩

end ParameterInterface
