import Boss.UpdateSegFeeInfo
import Mathlib.Data.Int.ConditionallyCompleteOrder

/-!
# Which of two segments is cheaper

`cheaper` compares the fees of two segments of one rating method as they are before the precision,
both cut by the precision of the left one.  A cut may make fees equal, it never turns them round, so
what is cheaper at any precision costs less (`Cheaper.fee_lt`), and that is a strict order whatever
the precisions.  Of a segment rated by time and one rated by data the left one is always cheaper.

On a stretch of a call the policies are applied one after another (`chosen`).  A segment that is
cheaper than each of the others is the one that stays, in whatever order; across the methods it is
the one that comes last.
-/

namespace Rate

open UpdateSegFeeInfo (twoMinutes middle)

namespace SegFeeInfo

/-- What a segment is rated by, and in which units. -/
def length (s : SegFeeInfo) : Int :=
  match s.m_rateMethod with
  | .TIME => s.m_duration
  | .DATA => s.m_data

def unit (s : SegFeeInfo) : Int :=
  match s.m_rateMethod with
  | .TIME => s.m_unitTime
  | .DATA => s.m_unitData

/-- The fee of all units that are begun, before the precision. -/
def fee (s : SegFeeInfo) : Int := s.m_unitFee * ceilTimes s.length s.unit

/-- A unit has a fee and a size. -/
structure Priced (s : SegFeeInfo) : Prop where
  fee_pos : 0 < s.m_unitFee
  unit_pos : 0 < s.unit

instance (s : SegFeeInfo) : Decidable s.Priced :=
  decidable_of_iff (0 < s.m_unitFee ∧ 0 < s.unit) ⟨fun h => ⟨h.1, h.2⟩, fun h => ⟨h.1, h.2⟩⟩

/-- `cheaper` says yes. -/
def Cheaper (env : FeeEnv) (s r_right : SegFeeInfo) : Prop := cheaper env s r_right = some true

instance (env : FeeEnv) (s r_right : SegFeeInfo) : Decidable (Cheaper env s r_right) :=
  inferInstanceAs (Decidable (_ = _))

/-- A policy is applied to a stretch that another one has. -/
def applied (env : FeeEnv) (cur new : SegFeeInfo) : Option SegFeeInfo :=
  (new.needUpdate env cur 0).map fun update => if update then new else cur

/-- What a stretch has after all policies. -/
def chosen (env : FeeEnv) (first : SegFeeInfo) (rest : List SegFeeInfo) : Option SegFeeInfo :=
  rest.foldlM (applied env) first

section Order

variable {env : FeeEnv} {s r_right a b c : SegFeeInfo}

/-- Priced segments are compared by method and then by fee. -/
theorem cheaper_of_priced (hs : s.Priced) (hr : r_right.Priced) :
    cheaper env s r_right = some (decide (s.m_rateMethod ≠ r_right.m_rateMethod ∨
      env.scale s.fee s.m_pricision < env.scale r_right.fee s.m_pricision)) := by
  have hfee : ¬ r_right.m_unitFee ≤ 0 := not_le.mpr hr.fee_pos
  have hsunit := hs.unit_pos
  have hrunit := hr.unit_pos
  unfold cheaper
  rw [if_neg hfee]
  unfold fee length
  unfold unit at *
  cases hsmethod : s.m_rateMethod <;> cases hrmethod : r_right.m_rateMethod <;>
    simp only [hsmethod, hrmethod] at hsunit hrunit ⊢
  · rw [lessFee, if_neg (by omega)]
    simp
  · simp
  · simp
  · rw [lessFee, if_neg (by omega)]
    simp

/-- A segment is cheaper when the methods differ or the fee is lower. -/
theorem cheaper_iff (hs : s.Priced) (hr : r_right.Priced) :
    Cheaper env s r_right ↔ s.m_rateMethod ≠ r_right.m_rateMethod ∨
      env.scale s.fee s.m_pricision < env.scale r_right.fee s.m_pricision := by
  simp [Cheaper, cheaper_of_priced hs hr]

/-- Across the methods each of two segments is cheaper than the other. -/
theorem cheaper_of_method_ne (hs : s.Priced) (hr : r_right.Priced)
    (hmethod : s.m_rateMethod ≠ r_right.m_rateMethod) : Cheaper env s r_right :=
  (cheaper_iff hs hr).mpr (.inl hmethod)

/-- Within one method a segment is cheaper when the fee is lower. -/
theorem cheaper_iff_of_method_eq (hs : s.Priced) (hr : r_right.Priced)
    (hmethod : s.m_rateMethod = r_right.m_rateMethod) :
    Cheaper env s r_right ↔
      env.scale s.fee s.m_pricision < env.scale r_right.fee s.m_pricision := by
  simp [cheaper_iff hs hr, hmethod]

/-- No segment is cheaper than itself. -/
theorem not_cheaper_self (hs : s.Priced) : ¬ Cheaper env s s := by
  simp [cheaper_iff_of_method_eq hs hs rfl]

section Monotone

variable (hscale : ∀ pricision, Monotone fun value => env.scale value pricision)

include hscale

/-- What is cheaper at some precision costs less before it. -/
theorem Cheaper.fee_lt (h : Cheaper env a b) (ha : a.Priced) (hb : b.Priced)
    (hmethod : a.m_rateMethod = b.m_rateMethod) : a.fee < b.fee := by
  by_contra hle
  have hscaled := (cheaper_iff_of_method_eq ha hb hmethod).mp h
  have hmono := hscale a.m_pricision (not_lt.mp hle)
  exact absurd hscaled (not_lt.mpr hmono)

/-- Within one method two segments are not cheaper than each other. -/
theorem Cheaper.asymm (h : Cheaper env a b) (ha : a.Priced) (hb : b.Priced)
    (hmethod : a.m_rateMethod = b.m_rateMethod) : ¬ Cheaper env b a := by
  intro hback
  have hlt := h.fee_lt hscale ha hb hmethod
  have hgt := hback.fee_lt hscale hb ha hmethod.symm
  omega

/-- The first of three decides: the cut of the second only says which fee is less. -/
theorem Cheaper.trans (h : Cheaper env a b) (h' : Cheaper env b c) (ha : a.Priced) (hb : b.Priced)
    (hc : c.Priced) (hab : a.m_rateMethod = b.m_rateMethod)
    (hbc : b.m_rateMethod = c.m_rateMethod) : Cheaper env a c := by
  have hless := (cheaper_iff_of_method_eq ha hb hab).mp h
  have hfee := h'.fee_lt hscale hb hc hbc
  have hcut := hscale a.m_pricision hfee.le
  exact (cheaper_iff_of_method_eq ha hc (hab.trans hbc)).mpr (hless.trans_le hcut)

end Monotone

/-! ## A stretch and its policies -/

/-- Without force the cheaper one is taken. -/
theorem needUpdate_zero (env : FeeEnv) (s r_right : SegFeeInfo) :
    needUpdate env s r_right 0 = cheaper env s r_right := by
  simp [needUpdate]

/-- A cheaper segment takes the place. -/
theorem applied_cheaper (h : Cheaper env b a) : applied env a b = some b := by
  unfold applied
  rw [needUpdate_zero, h]
  rfl

/-- A segment that is not cheaper does not. -/
theorem applied_not_cheaper (ha : a.Priced) (hb : b.Priced) (h : ¬ Cheaper env b a) :
    applied env a b = some a := by
  have hfalse : cheaper env b a = some false := by
    rw [cheaper_of_priced hb ha] at ⊢
    simpa [cheaper_iff hb ha] using h
  unfold applied
  rw [needUpdate_zero, hfalse]
  rfl

theorem chosen_nil : chosen env a [] = some a := rfl

/-- The choice goes on with the one that was applied. -/
theorem chosen_cons {rest : List SegFeeInfo} :
    chosen env a (b :: rest) = (applied env a b).bind fun cur => chosen env cur rest := by
  rw [chosen, List.foldlM_cons]
  rfl

/-- Each policy finds one of the segments in its place. -/
theorem applied_mem (ha : a.Priced) (hb : b.Priced) :
    applied env a b = some a ∨ applied env a b = some b := by
  by_cases h : Cheaper env b a
  · exact .inr (applied_cheaper h)
  · exact .inl (applied_not_cheaper ha hb h)

/-- Once it is there, the cheapest stays, and when its policy comes it is taken. -/
theorem chosen_cheapest (hscale : ∀ pricision, Monotone fun value => env.scale value pricision)
    {method : RateMethod} {first best : SegFeeInfo} {rest : List SegFeeInfo}
    (hpriced : ∀ s ∈ first :: rest, s.Priced ∧ s.m_rateMethod = method)
    (hbest : best ∈ first :: rest)
    (hcheapest : ∀ s ∈ first :: rest, s ≠ best → Cheaper env best s) :
    chosen env first rest = some best := by
  obtain ⟨hbestPriced, hbestMethod⟩ := hpriced best hbest
  induction rest generalizing first with
  | nil =>
      obtain rfl := List.mem_singleton.mp hbest
      exact chosen_nil
  | cons new rest ih =>
      obtain ⟨hfirst, hfirstMethod⟩ := hpriced first (by simp)
      obtain ⟨hnew, hnewMethod⟩ := hpriced new (by simp)
      have hnext (cur : SegFeeInfo) (hcur : cur = first ∨ cur = new)
          (hleft : best = cur ∨ best ∈ rest) (happlied : applied env first new = some cur) :
          chosen env first (new :: rest) = some best := by
        rw [chosen_cons, happlied]
        have hsub : ∀ s ∈ cur :: rest, s ∈ first :: new :: rest := by
          intro s hs
          rcases List.mem_cons.mp hs with rfl | hs
          · rcases hcur with rfl | rfl <;> simp
          · simp [hs]
        exact ih (fun s hs => hpriced s (hsub s hs)) (List.mem_cons.mpr hleft)
          fun s hs => hcheapest s (hsub s hs)
      by_cases hisFirst : best = first
      · -- It stays, whatever the policy offers.
        subst hisFirst
        by_cases hsame : new = best
        · subst hsame
          exact hnext new (.inl rfl) (.inl rfl)
            (applied_not_cheaper hnew hnew (not_cheaper_self hnew))
        · have hkeeps := (hcheapest new (by simp) hsame).asymm hscale hfirst hnew
            (hfirstMethod.trans hnewMethod.symm)
          exact hnext best (.inl rfl) (.inl rfl) (applied_not_cheaper hfirst hnew hkeeps)
      · by_cases hisNew : best = new
        · subst hisNew
          have htaken := hcheapest first (by simp) (Ne.symm hisFirst)
          exact hnext best (.inr rfl) (.inl rfl) (applied_cheaper htaken)
        · have hlater : best ∈ rest := by simpa [hisFirst, hisNew] using hbest
          have heither : applied env first new = some first ∨ applied env first new = some new :=
            applied_mem hfirst hnew
          rcases heither with h | h
          · exact hnext first (.inl rfl) (.inr hlater) h
          · exact hnext new (.inr rfl) (.inr hlater) h

/-- A segment of the other method is taken whenever it comes. -/
theorem chosen_last (hs : s.Priced) (hr : r_right.Priced)
    (hmethod : s.m_rateMethod ≠ r_right.m_rateMethod) : chosen env s [r_right] = some r_right := by
  rw [chosen_cons, applied_cheaper (cheaper_of_method_ne hr hs hmethod.symm)]
  exact chosen_nil

end Order

/-- Within a method `cheaper` is a strict order, whatever the precisions; across the methods it says
yes both ways. -/
theorem cheaper_within_method {env : FeeEnv}
    (hscale : ∀ pricision, Monotone fun value => env.scale value pricision) :
    (∀ s : SegFeeInfo, s.Priced → ¬ Cheaper env s s) ∧
      (∀ a b : SegFeeInfo, a.Priced → b.Priced → a.m_rateMethod = b.m_rateMethod →
        Cheaper env a b → ¬ Cheaper env b a) ∧
      (∀ a b c : SegFeeInfo, a.Priced → b.Priced → c.Priced → a.m_rateMethod = b.m_rateMethod →
        b.m_rateMethod = c.m_rateMethod → Cheaper env a b → Cheaper env b c → Cheaper env a c) ∧
      (∀ (method : RateMethod) (first best : SegFeeInfo) (rest : List SegFeeInfo),
        (∀ s ∈ first :: rest, s.Priced ∧ s.m_rateMethod = method) → best ∈ first :: rest →
        (∀ s ∈ first :: rest, s ≠ best → Cheaper env best s) →
        chosen env first rest = some best) ∧
      ∀ a b : SegFeeInfo, a.Priced → b.Priced → a.m_rateMethod ≠ b.m_rateMethod →
        Cheaper env a b ∧ Cheaper env b a ∧ chosen env a [b] = some b := by
  refine ⟨fun s hs => not_cheaper_self hs, fun a b ha hb hmethod h => h.asymm hscale ha hb hmethod,
    fun a b c ha hb hc hab hbc h h' => h.trans hscale h' ha hb hc hab hbc,
    fun method first best rest => chosen_cheapest hscale, fun a b ha hb hmethod => ?_⟩
  exact ⟨cheaper_of_method_ne ha hb hmethod, cheaper_of_method_ne hb ha hmethod.symm,
    chosen_last ha hb hmethod⟩

/-- Without a precision fees are scaled in their order. -/
theorem plainEnv_monotone (pricision : Int) :
    Monotone fun value => plainEnv.scale value pricision :=
  fun _ _ hle => Int.tdiv_le_tdiv (by positivity) hle

/-- Two minutes against the minute in the middle of them. -/
theorem cheaper_within_method_plain :
    ¬ Cheaper plainEnv twoMinutes twoMinutes ∧ ¬ Cheaper plainEnv twoMinutes (middle 60 5) ∧
      chosen plainEnv twoMinutes [middle 60 5] = some (middle 60 5) := by
  obtain ⟨hirrefl, hasymm, -, hchosen, -⟩ := cheaper_within_method plainEnv_monotone
  exact ⟨hirrefl _ (by decide), hasymm (middle 60 5) _ (by decide) (by decide) rfl (by decide),
    hchosen .TIME _ _ _ (by decide) (by decide) (by decide)⟩

/-- A segment rated by data. -/
def ofData (m_feePolicyId m_unitData m_unitFee m_data : Int) : SegFeeInfo :=
  { ofTime m_feePolicyId 0 m_unitFee ⟨20260105, 80000⟩ ⟨20260105, 80200⟩ 0 120 with
    m_data := m_data
    m_endData := m_data
    m_unitData := m_unitData
    m_rateMethod := .DATA }

/-- Two minutes at 10 a minute and a kilobyte at 1 are each cheaper than the other, and the later
one is chosen. -/
theorem twoMinutes_data :
    twoMinutes.Priced ∧ (ofData 2 1024 1 1024).Priced ∧
      Cheaper plainEnv twoMinutes (ofData 2 1024 1 1024) ∧
      Cheaper plainEnv (ofData 2 1024 1 1024) twoMinutes ∧
      chosen plainEnv twoMinutes [ofData 2 1024 1 1024] = some (ofData 2 1024 1 1024) ∧
      chosen plainEnv (ofData 2 1024 1 1024) [twoMinutes] = some twoMinutes := by
  decide

end SegFeeInfo

end Rate
