import Boss.PayRelationSolution
import Boss.Runs

/-!
# A limit over several cycles

With the addup methods 1 and 4 a pay relation has one limit for all of its cycles.  In each cycle
`computePayFee` reads back what was used, pays what is left of the limit at most, and stores what is
used now; a value of 0 is not stored, and reads back as 0 all the same.  Method 4 has the rest of
the relation before on top, which it may pay but does not count.

The amounts are computed as `long`, but method 4 puts what it may pay into an `int`.  `Fits` is the
bound that this needs, and under it `WithinLimit` is kept from cycle to cycle.

Main results: `limitEffect_within` for one relation, `limit_run` for runs.
-/

namespace PayRelationLimit

open PayRelationSolution Runs

variable {Acct Addup : Type*}

/-- A cycle with the user's items and what the relations before leave over. -/
structure Cycle where
  m_cycleId : Int
  m_detailItemFeeVector : List DetailItemFee
  m_leftPayFee : Int
deriving DecidableEq, Repr

/-- The accumulations after the last cycle, and of each cycle the pay item fee and the amount on
the account. -/
structure Book (Addup : Type*) where
  m_cycleId : Int
  addup : Addup
  effects : List (Int × Int)

/-- `computePayFee` for a relation in a later cycle than the last one. -/
def payCycle (K : Calls Acct Addup) (payRelation : PayRelation Acct) (book : Book Addup)
    (c : Cycle) : Option (Book Addup) :=
  if book.m_cycleId < c.m_cycleId then
    let (_, _, payItemFee, effect, s) := computePayFee K payRelation
      ⟨c.m_cycleId, c.m_detailItemFeeVector, [], c.m_leftPayFee, book.addup⟩
    some ⟨c.m_cycleId, s.addup, book.effects ++ [(payItemFee, effect.effectAcctBillFee)]⟩
  else none

/-- The fee that a cycle has on the pay item of a relation. -/
def payItemFee (K : Calls Acct Addup) (payRelation : PayRelation Acct) (c : Cycle) : Int :=
  let r := getPayItemFee K payRelation.m_itemCode c.m_detailItemFeeVector
  if r.1 then r.2.1 else 0

/-- What is left of the limit, with the rest of the relation before, is an `int`. -/
def Fits (K : Calls Acct Addup) (payRelation : PayRelation Acct) (book : Book Addup)
    (c : Cycle) : Prop :=
  payRelation.m_addupMethod = '1' ∨
    payRelation.m_limitValue - usedValue K payRelation c.m_cycleId book.addup + c.m_leftPayFee <
      2 ^ 31

/-! ## One cycle -/

theorem payItemFee_lt (K : Calls Acct Addup) (payRelation : PayRelation Acct) (c : Cycle) :
    payItemFee K payRelation c < 2 ^ 31 := by
  unfold payItemFee
  dsimp only
  split
  · exact getPayItemFee_lt K _ _
  · decide

section OneCycle

variable {K : Calls Acct Addup} {payRelation : PayRelation Acct} {s : State Acct Addup} {fee : Int}

/-- **What one cycle pays**: not more than the fee, and what it counts of that stays within the
limit. -/
theorem limitEffect_within (htype : payRelation.m_limitType = '1')
    (hmethod : payRelation.m_addupMethod = '1' ∨ payRelation.m_addupMethod = '4')
    (hfee : 0 ≤ fee) (hfee' : fee < 2 ^ 31) (hleft : 0 ≤ s.m_leftPayFee) {used : Int}
    (hused : usedValue K payRelation s.m_cycleId s.addup = used) (hnonneg : 0 ≤ used)
    (hlimit : used ≤ payRelation.m_limitValue)
    (hfirst : payRelation.m_startCycId < s.m_cycleId ∨ used = 0)
    (hfits : payRelation.m_addupMethod = '1' ∨
      payRelation.m_limitValue - used + s.m_leftPayFee < 2 ^ 31) :
    ∃ effect counted, limitEffect K payRelation fee s =
        (.both effect, store K payRelation s (used + counted)) ∧
      0 ≤ effect ∧ effect ≤ fee ∧ 0 ≤ counted ∧ used + counted ≤ payRelation.m_limitValue ∧
      (payRelation.m_addupMethod = '1' → counted = effect) := by
  rcases hmethod with hmethod | hmethod
  · have heffect : limitEffect K payRelation fee s = limitOverCycles K payRelation fee s := by
      simp [limitEffect, htype, hmethod]
    have hleftover : (if payRelation.m_startCycId < s.m_cycleId then
        if payRelation.m_limitValue - used < 0 then 0 else payRelation.m_limitValue - used
        else payRelation.m_limitValue) = payRelation.m_limitValue - used := by
      split
      · split <;> omega
      · omega
    rw [heffect]
    simp only [limitOverCycles, hused, hleftover]
    refine ⟨_, _, rfl, ?_⟩
    split
    · rw [toInt_of_lt (by omega) (by omega)]
      omega
    · omega
  · have hfits : payRelation.m_limitValue - used + s.m_leftPayFee < 2 ^ 31 :=
      hfits.resolve_left (by rw [hmethod]; decide)
    have heffect : limitEffect K payRelation fee s = limitWithRest K payRelation fee s := by
      simp [limitEffect, htype, hmethod]
    have hthis : toInt (if payRelation.m_limitValue - used > 0 then payRelation.m_limitValue - used
        else 0) = payRelation.m_limitValue - used := by
      split
      · exact toInt_of_lt (by omega) (by omega)
      · rw [toInt_of_lt (by omega) (by omega)]
        omega
    rw [heffect]
    simp only [limitWithRest, hused, hthis,
      toInt_of_lt (x := payRelation.m_limitValue - used + s.m_leftPayFee) (by omega) hfits]
    refine ⟨_, _, rfl, ?_⟩
    have hother : payRelation.m_addupMethod ≠ '1' := by rw [hmethod]; decide
    simp only [hother, false_implies, and_true]
    split <;> split <;> omega

end OneCycle

/-! ## The cycles of a relation -/

/-- The rows stored for a relation, as cycle and value, in the order they came. -/
abbrev Rows (Addup : Type*) := Addup → Int → Int → Int → List (Int × Int)

/-- The value of the last row; 0 without one. -/
def lastValue (rows : List (Int × Int)) : Int := (rows.getLast?.map Prod.snd).getD 0

/-- What the accumulations are for: `updateAddupInfo` stores a row for the cycle, and
`getAddupInfo` returns the value of the last row of an earlier cycle. -/
structure Remembers (K : Calls Acct Addup) (rows : Rows Addup) : Prop where
  get : ∀ addup m_cycleId id start item, K.getAddupInfo addup m_cycleId id start item =
    lastValue ((rows addup id start item).filter fun row => row.1 < m_cycleId)
  update : ∀ addup m_cycleId id item start endCyc value,
    rows (K.updateAddupInfo addup m_cycleId id item start endCyc value) id start item =
      rows addup id start item ++ [(m_cycleId, value)]

/-- The rows of a relation. -/
def rowsOf (rows : Rows Addup) (payRelation : PayRelation Acct) (addup : Addup) :
    List (Int × Int) :=
  rows addup payRelation.m_payRelationId payRelation.m_startCycId payRelation.m_itemCode

/-- The rows of a relation grow up to the limit, and what was paid is within the fees; with method
1 it is what the last row says. -/
structure WithinLimit (rows : Rows Addup) (payRelation : PayRelation Acct) (book : Book Addup) :
    Prop where
  started : payRelation.m_startCycId - 1 ≤ book.m_cycleId
  cycles : ∀ row ∈ rowsOf rows payRelation book.addup,
    payRelation.m_startCycId ≤ row.1 ∧ row.1 ≤ book.m_cycleId
  nonneg : 0 ≤ lastValue (rowsOf rows payRelation book.addup)
  limit : lastValue (rowsOf rows payRelation book.addup) ≤ payRelation.m_limitValue
  below : ∀ row ∈ rowsOf rows payRelation book.addup,
    row.2 ≤ lastValue (rowsOf rows payRelation book.addup)
  ascending : (rowsOf rows payRelation book.addup).Pairwise fun row row' => row.2 ≤ row'.2
  effects : ∀ e ∈ book.effects, 0 ≤ e.2 ∧ e.2 ≤ e.1
  sum : payRelation.m_addupMethod = '1' →
    (book.effects.map Prod.snd).sum = lastValue (rowsOf rows payRelation book.addup)

theorem lastValue_append (rows : List (Int × Int)) (row : Int × Int) :
    lastValue (rows ++ [row]) = row.2 := by
  simp [lastValue]

section Runs

variable {K : Calls Acct Addup} {rows : Rows Addup} {payRelation : PayRelation Acct}
  {book book' : Book Addup} {c : Cycle}

/-- A later cycle reads back the last row, and the first one 0. -/
theorem WithinLimit.usedValue (h : WithinLimit rows payRelation book) (hK : Remembers K rows)
    (hlater : book.m_cycleId < c.m_cycleId) :
    PayRelationSolution.usedValue K payRelation c.m_cycleId book.addup =
        lastValue (rowsOf rows payRelation book.addup) ∧
      (payRelation.m_startCycId < c.m_cycleId ∨
        lastValue (rowsOf rows payRelation book.addup) = 0) := by
  have hall : ((rowsOf rows payRelation book.addup).filter fun row => row.1 < c.m_cycleId) =
      rowsOf rows payRelation book.addup := by
    refine List.filter_eq_self.mpr ?_
    intro row hrow
    have hcycle := (h.cycles row hrow).2
    simp only [decide_eq_true_eq]
    omega
  rw [PayRelationSolution.usedValue]
  split
  · rename_i hstarted
    rw [hK.get]
    exact ⟨congrArg lastValue hall, .inl hstarted⟩
  · rename_i hfirst
    have hnone : rowsOf rows payRelation book.addup = [] := by
      refine List.eq_nil_iff_forall_not_mem.mpr ?_
      intro row hrow
      have hcycle := h.cycles row hrow
      omega
    rw [hnone]
    exact ⟨rfl, .inr rfl⟩

variable (payRelation) in
/-- The rows after a value is stored: 0 is not, and is not missed. -/
theorem rowsOf_store (hK : Remembers K rows) (s : State Acct Addup) (value : Int) :
    rowsOf rows payRelation (store K payRelation s value).addup =
      if value ≠ 0 then rowsOf rows payRelation s.addup ++ [(s.m_cycleId, value)]
      else rowsOf rows payRelation s.addup := by
  unfold store
  split
  · exact hK.update _ _ _ _ _ _ _
  · rfl

theorem payCycle_spec (hstep : payCycle K payRelation book c = some book') :
    book.m_cycleId < c.m_cycleId ∧ ∃ effect s',
      limitEffect K payRelation (payItemFee K payRelation c)
        ⟨c.m_cycleId, c.m_detailItemFeeVector, [], c.m_leftPayFee, book.addup⟩ = (effect, s') ∧
      book' = ⟨c.m_cycleId, s'.addup,
        book.effects ++ [(payItemFee K payRelation c, effect.effectAcctBillFee)]⟩ := by
  obtain ⟨hlater, hstep⟩ := Option.ite_none_right_eq_some.mp hstep
  exact ⟨hlater, _, _, rfl, (Option.some.inj hstep).symm⟩

/-- **One cycle keeps the limit.** -/
theorem payCycle_within (hK : Remembers K rows) (htype : payRelation.m_limitType = '1')
    (hmethod : payRelation.m_addupMethod = '1' ∨ payRelation.m_addupMethod = '4')
    (hleft : 0 ≤ c.m_leftPayFee) (hfee : 0 ≤ payItemFee K payRelation c)
    (hfits : Fits K payRelation book c) (h : WithinLimit rows payRelation book)
    (hstep : payCycle K payRelation book c = some book') :
    WithinLimit rows payRelation book' := by
  obtain ⟨hlater, e, s', heffect, rfl⟩ := payCycle_spec hstep
  obtain ⟨hused, hfirst⟩ := h.usedValue hK hlater
  unfold Fits at hfits
  rw [hused] at hfits
  obtain ⟨effect, counted, hspec, hpos, hle, hcounted, hlimit, hsame⟩ :=
    limitEffect_within (s := ⟨c.m_cycleId, c.m_detailItemFeeVector, [], c.m_leftPayFee, book.addup⟩)
      htype hmethod hfee (payItemFee_lt K payRelation c) hleft hused h.nonneg h.limit hfirst hfits
  obtain ⟨rfl, rfl⟩ := Prod.mk.inj (heffect.symm.trans hspec)
  obtain ⟨hstarted, hcycles, hnonneg, -, hbelow, hascending, heffects, hsum⟩ := h
  have hrows := rowsOf_store payRelation hK
    ⟨c.m_cycleId, c.m_detailItemFeeVector, [], c.m_leftPayFee, book.addup⟩
    (lastValue (rowsOf rows payRelation book.addup) + counted)
  have hlast : lastValue (rowsOf rows payRelation (store K payRelation
      ⟨c.m_cycleId, c.m_detailItemFeeVector, [], c.m_leftPayFee, book.addup⟩
      (lastValue (rowsOf rows payRelation book.addup) + counted)).addup) =
      lastValue (rowsOf rows payRelation book.addup) + counted := by
    rw [hrows]
    split
    · exact lastValue_append _ _
    · dsimp only
      omega
  have hmem : ∀ row ∈ rowsOf rows payRelation (store K payRelation
      ⟨c.m_cycleId, c.m_detailItemFeeVector, [], c.m_leftPayFee, book.addup⟩
      (lastValue (rowsOf rows payRelation book.addup) + counted)).addup,
      row ∈ rowsOf rows payRelation book.addup ∨
        row = (c.m_cycleId, lastValue (rowsOf rows payRelation book.addup) + counted) := by
    intro row hrow
    rw [hrows] at hrow
    split at hrow
    · simpa using hrow
    · exact .inl hrow
  refine ⟨?_, ?_, ?_, ?_, ?_, ?_, ?_, ?_⟩
  · dsimp only
    omega
  · intro row hrow
    dsimp only
    rcases hmem row hrow with hold | rfl
    · have hcycle := hcycles row hold
      omega
    · dsimp only
      omega
  · rw [hlast]
    omega
  · rw [hlast]
    exact hlimit
  · intro row hrow
    rw [hlast]
    rcases hmem row hrow with hold | rfl
    · have hvalue := hbelow row hold
      omega
    · exact le_refl _
  · dsimp only
    rw [hrows]
    split
    · refine List.pairwise_append.mpr ⟨hascending, List.pairwise_singleton _ _, ?_⟩
      intro row hrow row' hrow'
      obtain rfl := List.mem_singleton.mp hrow'
      have hvalue := hbelow row hrow
      dsimp only
      omega
    · exact hascending
  · intro e he
    rcases List.mem_append.mp he with hold | hnew
    · exact heffects e hold
    · obtain rfl := List.mem_singleton.mp hnew
      exact ⟨hpos, hle⟩
  · intro hone
    have hpaid := hsum hone
    have hcount := hsame hone
    rw [hlast, List.map_append, List.sum_append, hpaid, hcount]
    simp [Effect.both]

/-- Before the first cycle. -/
def start (payRelation : PayRelation Acct) (addup : Addup) : Book Addup :=
  ⟨payRelation.m_startCycId - 1, addup, []⟩

/-- **The limit holds over the cycles.**  From the start cycle on, in any order of growing cycles
whose amounts fit, the values stored for a relation grow up to the limit, every cycle pays between
nothing and its fee, and with method 1 all of them together pay up to the limit. -/
theorem limit_run (hK : Remembers K rows) (htype : payRelation.m_limitType = '1')
    (hlimit : 0 ≤ payRelation.m_limitValue)
    (hmethod : payRelation.m_addupMethod = '1' ∨ payRelation.m_addupMethod = '4') {addup : Addup}
    (hnone : rowsOf rows payRelation addup = []) {cycles : List Cycle}
    (hcycles : ∀ c ∈ cycles, 0 ≤ c.m_leftPayFee ∧ 0 ≤ payItemFee K payRelation c)
    (hfits : Meets (payCycle K payRelation) (Fits K payRelation) (start payRelation addup) cycles)
    (hrun : run (payCycle K payRelation) (start payRelation addup) cycles = some book) :
    (∀ row ∈ rowsOf rows payRelation book.addup, row.2 ≤ payRelation.m_limitValue) ∧
      ((rowsOf rows payRelation book.addup).Pairwise fun row row' => row.2 ≤ row'.2) ∧
      (∀ e ∈ book.effects, 0 ≤ e.2 ∧ e.2 ≤ e.1) ∧
      (payRelation.m_addupMethod = '1' →
        (book.effects.map Prod.snd).sum ≤ payRelation.m_limitValue) := by
  have hstart : WithinLimit rows payRelation (start payRelation addup) := by
    refine ⟨le_refl _, ?_, ?_, ?_, ?_, ?_, ?_, ?_⟩ <;> simp [start, hnone, lastValue, hlimit]
  have hwithin : WithinLimit rows payRelation book := by
    refine run_invariant_of_meets ?_ hstart ((meets_of_forall hcycles _).and hfits) hrun
    rintro book c book' h ⟨⟨hleft, hfee⟩, hfits⟩ hstep
    exact payCycle_within hK htype hmethod hleft hfee hfits h hstep
  refine ⟨?_, hwithin.ascending, hwithin.effects, ?_⟩
  · intro row hrow
    exact (hwithin.below row hrow).trans hwithin.limit
  · intro hone
    rw [hwithin.sum hone]
    exact hwithin.limit

end Runs

/-! ## A store -/

/-- The rows of all relations, each with what it belongs to. -/
abbrev Table := List ((Int × Int × Int) × Int × Int)

def tableRows : Rows Table := fun table id start item =>
  (table.filter fun row => row.1 = (id, start, item)).map Prod.snd

/-- The accumulations as a table to which rows are appended. -/
def tableCalls : Calls Nat Table where
  getDetailItemFromPayItem _ := []
  share nfee effectUserBillFee payItemFee := (nfee * effectUserBillFee).tdiv payItemFee
  percent payItemFee m_limitValue := (payItemFee * m_limitValue).tdiv 100
  addAccountDetailItemFee := addToBills
  fillPayFee s _ _ _ := s
  getAddupInfo table m_cycleId id start item :=
    lastValue ((tableRows table id start item).filter fun row => row.1 < m_cycleId)
  updateAddupInfo table m_cycleId id item start _ value :=
    table ++ [((id, start, item), m_cycleId, value)]

theorem tableCalls_remembers : Remembers tableCalls tableRows := by
  refine ⟨fun _ _ _ _ _ => rfl, ?_⟩
  intro table m_cycleId id item start endCyc value
  simp [tableCalls, tableRows]

/-- A relation for item 1 with addup method 4. -/
def sharedLimit (m_limitValue : Int) : PayRelation Nat :=
  ⟨1, 1, 7, '0', 1, '0', '4', 201001, 201012, '1', m_limitValue, '0'⟩

/-- A cycle with one fee. -/
def oneFee (m_cycleId fee m_leftPayFee : Int) : Cycle :=
  ⟨m_cycleId, [{ m_detailItemCode := 1, m_ofee := fee, m_nfee := fee }], m_leftPayFee⟩

/-- 60 are paid with 20 left over from before; of the 90 of the next cycle 40 can be paid. -/
theorem limit_run_sharedLimit :
    ∃ book, run (payCycle tableCalls (sharedLimit 100)) (start (sharedLimit 100) [])
        [oneFee 201001 60 20, oneFee 201002 90 0] = some book ∧
      book.effects = [(60, 60), (90, 40)] ∧
      ∀ row ∈ rowsOf tableRows (sharedLimit 100) book.addup, row.2 ≤ 100 := by
  have hcycles : ∀ c ∈ [oneFee 201001 60 20, oneFee 201002 90 0],
      0 ≤ c.m_leftPayFee ∧ 0 ≤ payItemFee tableCalls (sharedLimit 100) c := by decide
  refine ⟨_, rfl, by decide, ?_⟩
  refine (limit_run tableCalls_remembers rfl (by decide) (.inr rfl) rfl hcycles ?_ rfl).1
  exact meets_cons rfl (.inr (by decide)) (meets_cons rfl (.inr (by decide)) trivial)

/-- What is left of a limit of 3000000000 is a negative `int`, and so are what the account pays and
what is stored. -/
theorem sharedLimit_overflows :
    Remembers tableCalls tableRows ∧ 0 ≤ (sharedLimit 3000000000).m_limitValue ∧
      0 ≤ payItemFee tableCalls (sharedLimit 3000000000) (oneFee 201001 100 0) ∧
      ∃ book, run (payCycle tableCalls (sharedLimit 3000000000)) (start (sharedLimit 3000000000) [])
          [oneFee 201001 100 0] = some book ∧
        book.effects = [(100, -1294967296)] ∧
        rowsOf tableRows (sharedLimit 3000000000) book.addup = [(201001, -1294967296)] ∧
        ¬ ∀ e ∈ book.effects, 0 ≤ e.2 ∧ e.2 ≤ e.1 :=
  ⟨tableCalls_remembers, by decide, by decide, _, rfl, by decide, by decide, by decide⟩

end PayRelationLimit
