import Boss.IndexHashRuns
import Boss.IndexHashScan

/-!
# Row-by-row selection

`MdbSession::select` with `SELECT_ROW_BY_ROW` puts the records of the first slot in use into
`m_queryResults`; `getNextRec` hands them out and, when they are used up, has
`selectRowByRow` fetch the records of further slots until some of them pass the filter.

What the session still has to hand out are the records in `m_queryResults` that were not
handed out yet, and the records of the slots from `m_iHashPosi` on that pass the filter
(`unread`).  `select` makes that the whole filtered table, and `getNextRec` takes its first
record off.

Main results: `getNextRec_spec` for one record, `rowByRow_eq_selectALL` for the scan.
-/

namespace MdbSession

open IndexHash

abbrev Record := List UInt8

/-- The session outside of a transaction, with the row count of its table and the place in
the index. -/
structure Session where
  m_queryResults : List Record
  m_resultSequnce : Nat
  m_isRowByRowSelect : Bool
  /-- `m_cRowByRowExpr` with its parameters; `none` is no expression or the empty one. -/
  m_cRowByRowExpr : Option (Record → Bool)
  m_iRowCount : Int
  m_iHashPosi : Nat

/-- The loop that erases the records which an expression refuses, from `i` on. -/
def eraseLoop (evaluate : Record → Bool) : Nat → Nat → List Record → List Record
  | 0, _, m_queryResults => m_queryResults
  | k + 1, i, m_queryResults =>
      match m_queryResults[i]? with
      | none => m_queryResults
      | some r =>
          if evaluate r = false then eraseLoop evaluate k i (m_queryResults.eraseIdx i)
          else eraseLoop evaluate k (i + 1) m_queryResults

/-- The further conditions of a query. -/
def judge (cExpr : Option (Record → Bool)) (m_queryResults : List Record) : List Record :=
  match cExpr with
  | none => m_queryResults
  | some evaluate => eraseLoop evaluate m_queryResults.length 0 m_queryResults

section Session

variable (d : IndexDef) (h : State) (record : ShmPosition → Record) (n : Nat)

/-- `clearQueryResults`. -/
def Session.clearQueryResults (s : Session) : Session :=
  { s with m_queryResults := [], m_resultSequnce := 0 }

/-- `BaseTable::select` without key parameters: copies of the records, and the row count goes
back to -1. -/
def Session.tableSelect (s : Session) : Option Session :=
  (selectScan d h n s.m_iHashPosi s.m_iRowCount).map fun (addrs, m_iHashPosi) =>
    { s with
      m_queryResults := addrs.map record
      m_iRowCount := -1
      m_iHashPosi := m_iHashPosi }

/-- `MdbSession::select` without key parameters. -/
def Session.select (s : Session) (cExpr : Option (Record → Bool)) (iRowCount : Int) :
    Option Session :=
  let s := s.clearQueryResults
  let s := { s with m_isRowByRowSelect := false }
  let s := if iRowCount ≠ -1 then { s with m_iRowCount := iRowCount } else s
  let s := if iRowCount = SELECT_ROW_BY_ROW then
    { s with m_cRowByRowExpr := cExpr, m_isRowByRowSelect := true } else s
  (s.tableSelect d h record n).map fun s =>
    if s.m_queryResults = [] then s
    else { s with m_queryResults := judge cExpr s.m_queryResults }

/-- The loop of `selectRowByRow`. -/
def Session.refill : Nat → Session → Option Session
  | 0, _ => none
  | k + 1, s =>
      (s.tableSelect d h record n).bind fun s =>
        if s.m_queryResults = [] then some s
        else
          let s := { s with m_queryResults := judge s.m_cRowByRowExpr s.m_queryResults }
          if s.m_queryResults ≠ [] then some s
          else Session.refill k
            { s with m_iRowCount := SELECT_ROW_BY_ROW_INTERNAL }.clearQueryResults

/-- `MdbSession::selectRowByRow`; every round but the last moves on by a slot. -/
def Session.selectRowByRow (s : Session) : Option Session :=
  let s := { s.clearQueryResults with m_iRowCount := SELECT_ROW_BY_ROW_INTERNAL }
  s.refill d h record n (d.m_hashSize + 1)

/-- `getNextRec`: the session afterwards and the record, if there is one. -/
def Session.getNextRec (s : Session) : Option (Session × Option Record) :=
  match s.m_queryResults[s.m_resultSequnce]? with
  | some r => some ({ s with m_resultSequnce := s.m_resultSequnce + 1 }, some r)
  | none =>
      if s.m_isRowByRowSelect then
        (s.selectRowByRow d h record n).map fun s =>
          match s.m_queryResults[s.m_resultSequnce]? with
          | some r => ({ s with m_resultSequnce := s.m_resultSequnce + 1 }, some r)
          | none => (s, none)
      else some (s, none)

/-- `getNextRec` again and again until the end, `m` times at most. -/
def Session.fetchAll : Nat → Session → Option (List Record)
  | 0, _ => none
  | m + 1, s =>
      (s.getNextRec d h record n).bind fun
        | (s, some r) => (Session.fetchAll m s).map (r :: ·)
        | (_, none) => some []

end Session

/-! ## Filters -/

/-- Whether a record meets the further conditions. -/
def passes (cExpr : Option (Record → Bool)) (r : Record) : Bool :=
  match cExpr with
  | none => true
  | some evaluate => evaluate r

theorem eraseLoop_eq (evaluate : Record → Bool) {k i : Nat} {l : List Record}
    (hk : l.length ≤ i + k) :
    eraseLoop evaluate k i l = l.take i ++ (l.drop i).filter evaluate := by
  induction k generalizing i l with
  | zero =>
      rw [Nat.add_zero] at hk
      rw [eraseLoop, List.drop_eq_nil_of_le hk, List.take_of_length_le hk, List.filter_nil,
        List.append_nil]
  | succ k ih =>
      unfold eraseLoop
      cases hi : l[i]? with
      | none =>
          have hle : l.length ≤ i := List.getElem?_eq_none_iff.mp hi
          simp [List.drop_eq_nil_of_le hle, List.take_of_length_le hle]
      | some r =>
          obtain ⟨hlt, hr⟩ := List.getElem?_eq_some_iff.mp hi
          have hdrop : l.drop i = r :: l.drop (i + 1) := by
            rw [List.drop_eq_getElem_cons hlt, hr]
          dsimp only
          by_cases hpass : evaluate r = false
          · -- the record goes, and the next one is in its place
            have herase : l.eraseIdx i = l.take i ++ l.drop (i + 1) :=
              List.eraseIdx_eq_take_drop_succ l i
            have hlength : (l.take i).length = i := by
              rw [List.length_take]
              omega
            rw [if_pos hpass, ih (by rw [List.length_eraseIdx_of_lt hlt]; omega), herase,
              List.take_left' hlength, List.drop_left' hlength, hdrop]
            simp [hpass]
          · have hpass : evaluate r = true := by simpa using hpass
            have htake : l.take (i + 1) = l.take i ++ [r] := by
              rw [List.take_add_one, hi]
              rfl
            rw [if_neg (by simp [hpass]), ih (by omega), htake, hdrop]
            simp [hpass]

theorem judge_eq (cExpr : Option (Record → Bool)) (l : List Record) :
    judge cExpr l = l.filter (passes cExpr) := by
  cases cExpr with
  | none =>
      rw [judge]
      exact (List.filter_eq_self.mpr fun _ _ => rfl).symm
  | some evaluate =>
      rw [judge, eraseLoop_eq evaluate (by omega), List.take_zero, List.nil_append, List.drop_zero]
      rfl

/-! ## What is left of a scan -/

variable {d : IndexDef} {h : State} {ps : IndexRows.Rows ShmPosition}
  {record : ShmPosition → Record} {n : Nat} {s : Session}

/-- The records of the slots from a place on that pass a filter. -/
def ahead (d : IndexDef) (h : State) (ps : IndexRows.Rows ShmPosition) (record : ShmPosition → Record)
    (cExpr : Option (Record → Bool)) (m_iHashPosi : Nat) : List Record :=
  ((slotsData h ps (d.m_hashSize - m_iHashPosi) m_iHashPosi).map record).filter (passes cExpr)

/-- `BaseTable::select` from a place on. -/
theorem tableSelect_spec (hr : Linked h ps) (hn : Enough d ps n) {i : Nat} (hi : i ≤ d.m_hashSize)
    (hscan : selectScan d h n s.m_iHashPosi s.m_iRowCount = nextSlot h n (d.m_hashSize - i) i)
    (record : ShmPosition → Record) (cExpr : Option (Record → Bool)) :
    ∃ records i', s.tableSelect d h record n = some { s with
        m_queryResults := records, m_iRowCount := -1, m_iHashPosi := i' } ∧
      i' ≤ d.m_hashSize ∧
      ahead d h ps record cExpr i = records.filter (passes cExpr) ++ ahead d h ps record cExpr i' ∧
      (records = [] → ahead d h ps record cExpr i = []) ∧ (records ≠ [] → i < i') := by
  obtain ⟨column, k', i', hnext, hk', hsplit, hend, hless⟩ :=
    nextSlot_spec hr hn (k := d.m_hashSize - i) (i := i) (by omega)
  obtain rfl : k' = d.m_hashSize - i' := by omega
  refine ⟨column.map record, i', ?_, by omega, ?_, ?_, ?_⟩
  · unfold Session.tableSelect
    rw [hscan, hnext, Option.map_some]
  · unfold ahead
    rw [hsplit, List.map_append, List.filter_append]
  · intro hnil
    unfold ahead
    rw [hend (List.map_eq_nil_iff.mp hnil), List.map_nil, List.filter_nil]
  · intro hne
    have hlt := hless fun hnil => hne (by rw [hnil, List.map_nil])
    omega

/-- A session in a row-by-row scan, and the records that it has not handed out. -/
structure Scanning (d : IndexDef) (h : State) (ps : IndexRows.Rows ShmPosition)
    (record : ShmPosition → Record) (s : Session) (unread : List Record) : Prop where
  mode : s.m_isRowByRowSelect = true
  place : s.m_iHashPosi ≤ d.m_hashSize
  unread_eq : unread = s.m_queryResults.drop s.m_resultSequnce ++
    ahead d h ps record s.m_cRowByRowExpr s.m_iHashPosi

/-- **Refilling** finds the next records that pass, if there are any. -/
theorem refill_spec (hr : Linked h ps) (hn : Enough d ps n) {k : Nat} {unread : List Record}
    (hs : Scanning d h ps record s unread) (hempty : s.m_queryResults = [])
    (hfirst : s.m_resultSequnce = 0) (hcount : s.m_iRowCount = SELECT_ROW_BY_ROW_INTERNAL)
    (hk : d.m_hashSize < k + s.m_iHashPosi) :
    ∃ t, s.refill d h record n k = some t ∧ Scanning d h ps record t unread ∧
      t.m_resultSequnce = 0 ∧ (t.m_queryResults = [] → unread = []) := by
  induction k generalizing s with
  | zero =>
      have hplace := hs.place
      omega
  | succ k ih =>
      have hscan : selectScan d h n s.m_iHashPosi s.m_iRowCount
          = nextSlot h n (d.m_hashSize - s.m_iHashPosi) s.m_iHashPosi := by
        rw [hcount]
        rfl
      obtain ⟨records, i', hselect, hi', hsplit, hend, hless⟩ :=
        tableSelect_spec hr hn hs.place hscan record s.m_cRowByRowExpr
      have hunread : unread = ahead d h ps record s.m_cRowByRowExpr s.m_iHashPosi := by
        rw [hs.unread_eq, hempty, List.drop_nil, List.nil_append]
      unfold Session.refill
      rw [hselect, Option.bind_some]
      dsimp only
      by_cases hnil : records = []
      · rw [if_pos hnil]
        refine ⟨_, rfl, ⟨hs.mode, hi', ?_⟩, hfirst, fun _ => by rw [hunread, hend hnil]⟩
        dsimp only
        rw [hunread, hsplit, hfirst, hnil]
        rfl
      · rw [if_neg hnil, judge_eq]
        by_cases hpass : records.filter (passes s.m_cRowByRowExpr) ≠ []
        · rw [if_pos hpass]
          refine ⟨_, rfl, ⟨hs.mode, hi', ?_⟩, hfirst, fun hnil => absurd hnil hpass⟩
          dsimp only
          rw [hunread, hsplit, hfirst, List.drop_zero]
        · rw [if_neg hpass]
          have hlt := hless hnil
          refine ih ⟨hs.mode, hi', ?_⟩ rfl rfl rfl ?_
          · rw [not_not] at hpass
            rw [hunread, hsplit, hpass]
            rfl
          · show d.m_hashSize < k + i'
            omega

/-- **One record.**  `getNextRec` hands out the first record that is left. -/
theorem getNextRec_spec (hr : Linked h ps) (hn : Enough d ps n) {unread : List Record}
    (hs : Scanning d h ps record s unread) :
    ∃ t, s.getNextRec d h record n = some (t, unread.head?) ∧
      (unread ≠ [] → Scanning d h ps record t unread.tail) := by
  -- a record that is in the results is handed out
  have hhand : ∀ {t : Session} {r : Record}, t.m_queryResults[t.m_resultSequnce]? = some r →
      Scanning d h ps record t unread → ∃ rest, unread = r :: rest ∧
        Scanning d h ps record { t with m_resultSequnce := t.m_resultSequnce + 1 } rest := by
    intro t r ht hscan
    obtain ⟨hlt, hr⟩ := List.getElem?_eq_some_iff.mp ht
    refine ⟨_, ?_, hscan.mode, hscan.place, rfl⟩
    rw [hscan.unread_eq, List.drop_eq_getElem_cons hlt, hr, List.cons_append]
  cases hnext : s.m_queryResults[s.m_resultSequnce]? with
  | some r =>
      obtain ⟨rest, rfl, hrest⟩ := hhand hnext hs
      refine ⟨_, ?_, fun _ => hrest⟩
      unfold Session.getNextRec
      rw [hnext]
      rfl
  | none =>
      have hdone : s.m_queryResults.drop s.m_resultSequnce = [] :=
        List.drop_eq_nil_of_le (List.getElem?_eq_none_iff.mp hnext)
      have hstart : Scanning d h ps record
          { s.clearQueryResults with m_iRowCount := SELECT_ROW_BY_ROW_INTERNAL } unread :=
        ⟨hs.mode, hs.place, by rw [hs.unread_eq, hdone]; rfl⟩
      obtain ⟨t, hrefill, hscan, hfirst, hend⟩ :=
        refill_spec (k := d.m_hashSize + 1) hr hn hstart rfl rfl rfl (by omega)
      have hrow : s.selectRowByRow d h record n = some t := hrefill
      have hget : s.getNextRec d h record n = some (match t.m_queryResults[t.m_resultSequnce]? with
          | some r => ({ t with m_resultSequnce := t.m_resultSequnce + 1 }, some r)
          | none => (t, none)) := by
        unfold Session.getNextRec
        rw [hnext]
        dsimp only
        rw [if_pos hs.mode, hrow, Option.map_some]
      cases hresult : t.m_queryResults[t.m_resultSequnce]? with
      | some r =>
          obtain ⟨rest, rfl, hrest⟩ := hhand hresult hscan
          rw [hresult] at hget
          exact ⟨_, hget, fun _ => hrest⟩
      | none =>
          have hempty : t.m_queryResults = [] := by
            rw [hfirst] at hresult
            exact List.length_eq_zero_iff.mp (Nat.le_zero.mp (List.getElem?_eq_none_iff.mp hresult))
          obtain rfl := hend hempty
          rw [hresult] at hget
          exact ⟨t, hget, fun hne => absurd rfl hne⟩

/-- **The whole scan.** -/
theorem fetchAll_spec (hr : Linked h ps) (hn : Enough d ps n) {unread : List Record}
    (hs : Scanning d h ps record s unread) {m : Nat} (hm : unread.length < m) :
    s.fetchAll d h record n m = some unread := by
  induction unread generalizing s m with
  | nil =>
      obtain ⟨m, rfl⟩ := Nat.exists_eq_succ_of_ne_zero (Nat.ne_zero_of_lt hm)
      obtain ⟨t, ht, -⟩ := getNextRec_spec hr hn hs
      rw [Session.fetchAll, ht]
      rfl
  | cons r rest ih =>
      obtain ⟨m, rfl⟩ := Nat.exists_eq_succ_of_ne_zero (Nat.ne_zero_of_lt hm)
      obtain ⟨t, ht, hrest⟩ := getNextRec_spec hr hn hs
      rw [Session.fetchAll, ht, Option.bind_some]
      dsimp only [List.head?_cons]
      rw [ih (hrest (by simp)) (by simpa using hm)]
      rfl

/-- A row-by-row selection starts a scan of the whole table. -/
theorem select_spec (hr : Linked h ps) (hn : Enough d ps n) (s : Session)
    (record : ShmPosition → Record) (cExpr : Option (Record → Bool)) :
    ∃ t, s.select d h record n cExpr SELECT_ROW_BY_ROW = some t ∧
      Scanning d h ps record t (ahead d h ps record cExpr 0) := by
  obtain ⟨records, i', hselect, hi', hsplit, hend, -⟩ :=
    tableSelect_spec (i := 0) (s := { s.clearQueryResults with
      m_isRowByRowSelect := true, m_cRowByRowExpr := cExpr, m_iRowCount := SELECT_ROW_BY_ROW })
      hr hn (Nat.zero_le _) rfl record cExpr
  have hcall : s.select d h record n cExpr SELECT_ROW_BY_ROW
      = some (if records = [] then { s.clearQueryResults with
          m_isRowByRowSelect := true, m_cRowByRowExpr := cExpr,
          m_queryResults := records, m_iRowCount := -1, m_iHashPosi := i' }
        else { s.clearQueryResults with
          m_isRowByRowSelect := true, m_cRowByRowExpr := cExpr,
          m_queryResults := judge cExpr records, m_iRowCount := -1, m_iHashPosi := i' }) :=
    congrArg (Option.map _) hselect
  refine ⟨_, hcall, ?_⟩
  by_cases hnil : records = []
  · rw [if_pos hnil]
    refine ⟨rfl, hi', ?_⟩
    rw [hsplit, hnil]
    rfl
  · rw [if_neg hnil]
    refine ⟨rfl, hi', ?_⟩
    rw [hsplit, judge_eq]
    rfl

/-- **A row-by-row scan is the full scan, filtered.**  In every state that an index reaches,
with enough rounds for its loops: the full scan ends and has every address once; the records that
`select` and `getNextRec` hand out until the end are those of the full scan that pass the filter,
in its order; and a limited scan is the beginning of the full one. -/
theorem rowByRow_eq_selectALL {keyOf : ShmPosition → Key} {calls : List Call} {sys : Sys}
    (hrun : Runs.run (step d) (Sys.init keyOf) calls = some sys) :
    ∃ N results, results.Nodup ∧ ∀ n, N ≤ n → selectALL d sys.index n = some results ∧
      (∀ limit, 1 ≤ limit → selectLimited d sys.index n limit = some (results.take limit)) ∧
      ∀ (record : ShmPosition → Record) (cExpr : Option (Record → Bool)) (s : Session),
        ∃ t, s.select d sys.index record n cExpr SELECT_ROW_BY_ROW = some t ∧
          ∀ m, results.length < m → t.fetchAll d sys.index record n m
            = some ((results.map record).filter (passes cExpr)) := by
  obtain ⟨ps, ho⟩ := organised_of_run hrun
  obtain ⟨N, hN⟩ := exists_enough d ps
  refine ⟨N, slotsData sys.index ps d.m_hashSize 0, ho.nodup_slotsData _ _, ?_⟩
  intro n hn
  refine ⟨selectALL_eq ho.linked (hN n hn), fun limit => selectLimited_eq ho.linked (hN n hn), ?_⟩
  intro record cExpr s
  obtain ⟨t, hselect, hscan⟩ := select_spec ho.linked (hN n hn) s record cExpr
  refine ⟨t, hselect, fun m hm => fetchAll_spec ho.linked (hN n hn) hscan ?_⟩
  have hlength := List.length_filter_le (passes cExpr)
    ((slotsData sys.index ps d.m_hashSize 0).map record)
  rw [List.length_map] at hlength
  exact Nat.lt_of_le_of_lt hlength hm

/-- Records of three keys in three of four slots, two of one key; then a slot becomes empty. -/
def spread : List Call :=
  [.writeRecord ⟨1, 10⟩ [1], .writeRecord ⟨1, 20⟩ [2], .writeRecord ⟨1, 30⟩ [1],
    .writeRecord ⟨1, 40⟩ [3], .insert 9 (some ⟨2, 1⟩) ⟨1, 10⟩, .insert 9 (some ⟨2, 2⟩) ⟨1, 20⟩,
    .insert 9 (some ⟨2, 3⟩) ⟨1, 30⟩, .insert 9 (some ⟨2, 4⟩) ⟨1, 40⟩, .deleteIdx 9 [2] ⟨1, 20⟩]

/-- A session that has not selected anything. -/
def fresh : Session := ⟨[], 0, false, none, -1, 0⟩

/-- A record of one byte, by its place. -/
def oneByte (p : ShmPosition) : Record := [UInt8.ofNat p.m_offSet]

/-- The scans of what is left of them; the row-by-row one takes the records but the first. -/
theorem rowByRow_eq_selectALL_spread :
    ∃ sys, Runs.run (step ⟨4, false⟩) (Sys.init fun _ => []) spread = some sys ∧
      ∃ N results, results.Nodup ∧ ∀ n, N ≤ n →
        selectALL ⟨4, false⟩ sys.index n = some results ∧
        selectLimited ⟨4, false⟩ sys.index n 2 = some (results.take 2) ∧
        ∃ t, fresh.select ⟨4, false⟩ sys.index oneByte n (some fun r => r ≠ [10])
            SELECT_ROW_BY_ROW = some t ∧
          t.fetchAll ⟨4, false⟩ sys.index oneByte n (results.length + 1) =
            some ((results.map oneByte).filter fun r => r ≠ [10]) := by
  obtain ⟨sys, hsys⟩ : ∃ sys,
      Runs.run (step ⟨4, false⟩) (Sys.init fun _ => []) spread = some sys :=
    Option.isSome_iff_exists.mp (by decide)
  obtain ⟨N, results, hnodup, hscan⟩ := rowByRow_eq_selectALL hsys
  refine ⟨sys, hsys, N, results, hnodup, fun n hn => ?_⟩
  obtain ⟨hall, hlimited, hrows⟩ := hscan n hn
  obtain ⟨t, hselect, hfetch⟩ := hrows oneByte (some fun r => r ≠ [10]) fresh
  exact ⟨hall, hlimited 2 (by decide), t, hselect, hfetch _ (Nat.lt_succ_self _)⟩

end MdbSession
