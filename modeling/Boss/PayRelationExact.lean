import Boss.PayRelationSolution
import Mathlib.Algebra.Order.BigOperators.Group.Finset

/-!
# Exactly the amount of a relation

When a relation pays less than the fee of its pay item, `effectPayFee` takes a share of every item
and then what rounding left over from one item that has as much, or it takes the items in the order
of the pay item's list until the amount is reached.  What leaves the user's list is on the relation's
account (`effectPayFee_weighs`), so the question is how much leaves it.

Nothing is taken for the remainder when no item has as much left, and the order of a pay item
without detail items is empty.  `moves_exactly_iff` says when the amount is exact.
-/

namespace PayRelationExact

open PayRelationSolution

variable {Acct Addup : Type*}

/-- An item that counts for the fee of a pay item. -/
def Counted (mark : Int → Bool) (fee : DetailItemFee) : Bool :=
  mark fee.m_detailItemCode && fee.m_ofee ≠ 0

/-- A fee is counted when its item is marked and its original fee is not zero. -/
theorem counted_iff {mark : Int → Bool} {fee : DetailItemFee} :
    Counted mark fee = true ↔ mark fee.m_detailItemCode = true ∧ fee.m_ofee ≠ 0 := by
  simp [Counted]

/-- What the quotient of a share is for: it is less than the item unless the item is 0. -/
def SharesOut (share : Int → Int → Int → Int) : Prop :=
  ∀ nfee effectUserBillFee payItemFee, 0 ≤ nfee → nfee ≤ payItemFee → 0 < effectUserBillFee →
    effectUserBillFee < payItemFee → payItemFee < 2 ^ 31 →
    0 ≤ share nfee effectUserBillFee payItemFee ∧ share nfee effectUserBillFee payItemFee ≤ nfee ∧
      (0 < nfee → share nfee effectUserBillFee payItemFee < nfee)

section Conditions

variable (K : Calls Acct Addup) (mark : Int → Bool) (effectUserBillFee payItemFee : Int)

/-- The share that is taken of an item. -/
def shareOf (fee : DetailItemFee) : Int :=
  if Counted mark fee then K.share fee.m_nfee effectUserBillFee payItemFee else 0

/-- The sum of the shares. -/
def shareTotal (fees : List DetailItemFee) : Int :=
  (fees.map (shareOf K mark effectUserBillFee payItemFee)).sum

/-- The last item with a code that counts. -/
def lastCounted (fees : List DetailItemFee) (code : Int) : Option DetailItemFee :=
  (fees.filter fun fee => Counted mark fee && fee.m_detailItemCode = code).getLast?

/-- Its fee. -/
def lastFee (fees : List DetailItemFee) (code : Int) : Int :=
  (lastCounted mark fees code).elim 0 DetailItemFee.m_nfee

/-- The items have the amount: one has what rounding leaves over besides its share, or those in the
list of the pay item have it together. -/
def HaveAmount (payRelation : PayRelation Acct) (fees : List DetailItemFee) : Prop :=
  if payRelation.m_bindType = '0' then
    ∃ fee ∈ fees, mark fee.m_detailItemCode = true ∧
      effectUserBillFee - shareTotal K mark effectUserBillFee payItemFee fees ≤
        fee.m_nfee - shareOf K mark effectUserBillFee payItemFee fee
  else effectUserBillFee ≤ ∑ code ∈
    (K.getDetailItemFromPayItem payRelation.m_itemCode).toFinset, lastFee mark fees code

instance (payRelation : PayRelation Acct) (fees : List DetailItemFee) :
    Decidable (HaveAmount K mark effectUserBillFee payItemFee payRelation fees) :=
  inferInstanceAs (Decidable (if payRelation.m_bindType = '0' then
    ∃ fee ∈ fees, mark fee.m_detailItemCode = true ∧ _ ≤ _ else _ ≤ _))

end Conditions

/-- An amount on one account. -/
def paid [DecidableEq Acct] (f : Field) (bills : List (UserAccountBill Acct)) (m_acctId : Acct) :
    Int :=
  (((entries bills).filter fun e => e.1 = m_acctId).map fun e => e.2.amount f).sum

/-- The amount leaves the user's list, comes to the account, and no other account has more. -/
structure MovesExactly [DecidableEq Acct] (m_acctId : Acct) (amount : Int)
    (s s' : State Acct Addup) : Prop where
  user : userTotal .nfee s'.m_detailItemFeeVector = userTotal .nfee s.m_detailItemFeeVector - amount
  account : paid .nfee s'.m_userAccountBillVector m_acctId =
    paid .nfee s.m_userAccountBillVector m_acctId + amount
  others : ∀ acctId, acctId ≠ m_acctId →
    paid .nfee s'.m_userAccountBillVector acctId = paid .nfee s.m_userAccountBillVector acctId

section Accounts

variable [DecidableEq Acct] {K : Calls Acct Addup} {payRelation : PayRelation Acct}

/-- Only the relation's account gets anything. -/
theorem paid_weighs (f : Field) (hadd : Adds K.addAccountDetailItemFee)
    (payRelation : PayRelation Acct) (m_acctId : Acct) :
    Weighs K payRelation f (if m_acctId = payRelation.m_acctId then 1 else 0)
      fun bills => paid f bills m_acctId := by
  intro bills fee
  have hentry : ∀ (bills : List (UserAccountBill Acct)) (code : Int),
      ((((entries bills).filter fun e => e.1 = m_acctId).filter
        fun e => e.2.m_detailItemCode = code).map fun e => e.2.amount f).sum =
        entry f bills m_acctId code := by
    intro bills code
    unfold entry
    rw [List.filter_filter]
    simp only [Prod.mk.injEq, Bool.decide_and, Bool.and_comm]
  have hkeys : ∀ code : Int, entry f (bind K payRelation bills fee) m_acctId code =
      entry f bills m_acctId code + if code = fee.m_detailItemCode then
        (if m_acctId = payRelation.m_acctId then 1 else 0) * fee.amount f else 0 := by
    intro code
    unfold PayRelationSolution.bind
    rw [hadd]
    by_cases hacct : m_acctId = payRelation.m_acctId
    · simp only [hacct, Prod.mk.injEq, true_and, if_true, Int.one_mul]
    · simp only [hacct, Prod.mk.injEq, false_and, if_false, Int.zero_mul, ite_self]
  simp only [← hentry] at hkeys
  exact sum_of_keys (fun e : Acct × DetailItemFee => e.2.m_detailItemCode) hkeys

/-- **The accounts get what leaves the user's list.** -/
theorem movesExactly_iff (hadd : Adds K.addAccountDetailItemFee) (item : PayItem)
    (payItemFee : Int) {effect : Effect} {s s' : State Acct Addup} {amount : Int}
    (hboth : effect.effectUserBillFee = effect.effectAcctBillFee)
    (hfees : s'.m_detailItemFeeVector = s.m_detailItemFeeVector)
    (hbills : s'.m_userAccountBillVector = s.m_userAccountBillVector) :
    MovesExactly payRelation.m_acctId amount s
        (effectPayFee K payRelation item payItemFee effect s') ↔
      userTotal .nfee (effectPayFee K payRelation item payItemFee effect s').m_detailItemFeeVector =
        userTotal .nfee s.m_detailItemFeeVector - amount := by
  have hkept := fun acctId => effectPayFee_weighs (paid_weighs .nfee hadd payRelation acctId) item
    payItemFee s' hboth
  simp only [hfees, hbills] at hkept
  constructor
  · exact fun h => h.user
  · intro huser
    have haccount := hkept payRelation.m_acctId
    rw [if_pos rfl, Int.one_mul, Int.one_mul] at haccount
    refine ⟨huser, by omega, fun acctId hother => ?_⟩
    have hrest := hkept acctId
    rw [if_neg hother, Int.zero_mul, Int.zero_mul] at hrest
    omega

end Accounts

/-! ## Taking from an item -/

section Parts

variable {K : Calls Acct Addup} {payRelation : PayRelation Acct}

/-- What `bindPart` leaves of an item. -/
def takeOff (nfee : Int) (fee : DetailItemFee) : DetailItemFee :=
  if fee.m_nfee = nfee then fee.clear else { fee with m_nfee := fee.m_nfee - nfee }

/-- Whatever is booked, the fee loses exactly the part that is bound. -/
theorem bindPart_fst (nfee : Int) (fee : DetailItemFee) (bills : List (UserAccountBill Acct)) :
    (bindPart K payRelation nfee fee bills).1 = takeOff nfee fee := by
  unfold bindPart takeOff
  split <;> rfl

/-- Taking a part off lowers what remains by that part. -/
@[simp] theorem takeOff_nfee (nfee : Int) (fee : DetailItemFee) :
    (takeOff nfee fee).m_nfee = fee.m_nfee - nfee := by
  unfold takeOff
  split
  · rename_i hall
    rw [hall, Int.sub_self]
    rfl
  · rfl

/-- Taking a part off leaves the item. -/
@[simp] theorem takeOff_code (nfee : Int) (fee : DetailItemFee) :
    (takeOff nfee fee).m_detailItemCode = fee.m_detailItemCode := by
  unfold takeOff
  split <;> rfl

/-- What a user has left is what the first fee has and what the others have. -/
theorem userTotal_nfee_cons (fee : DetailItemFee) (fees : List DetailItemFee) :
    userTotal .nfee (fee :: fees) = fee.m_nfee + userTotal .nfee fees := by
  simp only [userTotal, List.map_cons, List.sum_cons]
  rfl

end Parts

/-! ## In the order of the pay item -/

section InOrder

variable {K : Calls Acct Addup} {payRelation : PayRelation Acct} {item : PayItem}

/-- The item at a position, from 1 on. -/
def atPosition (fees : List DetailItemFee) (position : Nat) : Option DetailItemFee :=
  if position > 0 then fees[position - 1]? else none

/-- The item at the position of a code. -/
def itemAt (item : PayItem) (fees : List DetailItemFee) (code : Int) : Option DetailItemFee :=
  atPosition fees (item.m_existDetailItem code)

/-- What there is at the position of a code. -/
def feeAt (item : PayItem) (fees : List DetailItemFee) (code : Int) : Int :=
  (itemAt item fees code).elim 0 DetailItemFee.m_nfee

/-- At the position of a code stands an item with it. -/
def Placed (item : PayItem) (fees : List DetailItemFee) : Prop :=
  ∀ code fee, itemAt item fees code = some fee → fee.m_detailItemCode = code

/-- If no fee is negative, none is at the position of an item. -/
theorem feeAt_nonneg {fees : List DetailItemFee} (hnonneg : ∀ fee ∈ fees, 0 ≤ fee.m_nfee)
    (code : Int) : 0 ≤ feeAt item fees code := by
  unfold feeAt
  cases hitem : itemAt item fees code with
  | none => exact Int.le_refl 0
  | some fee =>
      have hget := (Option.ite_none_right_eq_some.mp hitem).2
      exact hnonneg fee (List.mem_of_getElem? hget)

section Set

variable {fees : List DetailItemFee} {fee : DetailItemFee} {m_id : Int} (hplaced : Placed item fees)
  (hfee : itemAt item fees m_id = some fee) (nfee : Int)

include hfee

/-- At the position of the item there is then the fee with the part taken off. -/
theorem itemAt_set_self :
    itemAt item (fees.set (item.m_existDetailItem m_id - 1) (takeOff nfee fee)) m_id =
      some (takeOff nfee fee) := by
  obtain ⟨hpos, hget⟩ := Option.ite_none_right_eq_some.mp hfee
  obtain ⟨hlt, -⟩ := List.getElem?_eq_some_iff.mp hget
  unfold itemAt atPosition
  rw [if_pos hpos, List.getElem?_set_self hlt]

include hplaced

/-- Taking from the item of one code leaves the others where they are. -/
theorem itemAt_set_ne {code : Int} (hne : code ≠ m_id) :
    itemAt item (fees.set (item.m_existDetailItem m_id - 1) (takeOff nfee fee)) code =
      itemAt item fees code := by
  obtain ⟨hpos, hget⟩ := Option.ite_none_right_eq_some.mp hfee
  unfold itemAt atPosition
  split
  · rename_i hpos'
    apply List.getElem?_set_ne
    intro hsame
    have hitem : itemAt item fees code = some fee := by
      unfold itemAt atPosition
      rw [if_pos hpos', ← hsame, hget]
    exact hne ((hplaced code fee hitem).symm.trans (hplaced m_id fee hfee))
  · rfl

/-- Taking a part off one fee leaves every item at its position. -/
theorem placed_set :
    Placed item (fees.set (item.m_existDetailItem m_id - 1) (takeOff nfee fee)) := by
  intro code fee' hfee'
  by_cases hsame : code = m_id
  · subst hsame
    rw [itemAt_set_self hfee, Option.some_inj] at hfee'
    rw [← hfee', takeOff_code]
    exact hplaced code fee hfee
  · rw [itemAt_set_ne hplaced hfee nfee hsame] at hfee'
    exact hplaced code fee' hfee'

end Set

/-- An item that the user does not have is passed over. -/
theorem bindInOrder_none {m_id nfeeRemain : Int} {fees : List DetailItemFee} (ids : List Int)
    (bills : List (UserAccountBill Acct)) (hremain : nfeeRemain ≠ 0)
    (hitem : itemAt item fees m_id = none) :
    bindInOrder K payRelation item (m_id :: ids) nfeeRemain fees bills =
      bindInOrder K payRelation item ids nfeeRemain fees bills := by
  unfold itemAt atPosition at hitem
  rw [bindInOrder, if_neg hremain]
  dsimp only
  rw [hitem]

variable (K payRelation) in
/-- An item gives what it has, as far as it is needed. -/
theorem bindInOrder_some {m_id nfeeRemain : Int} {fees : List DetailItemFee} {fee : DetailItemFee}
    (ids : List Int) (bills : List (UserAccountBill Acct)) (hremain : 0 < nfeeRemain)
    (hint : nfeeRemain < 2 ^ 31) (hnfee : 0 ≤ fee.m_nfee)
    (hitem : itemAt item fees m_id = some fee) :
    ∃ bills', bindInOrder K payRelation item (m_id :: ids) nfeeRemain fees bills =
      bindInOrder K payRelation item ids (nfeeRemain - min nfeeRemain fee.m_nfee)
        (fees.set (item.m_existDetailItem m_id - 1) (takeOff (min nfeeRemain fee.m_nfee) fee))
        bills' := by
  have htaken : (if nfeeRemain > fee.m_nfee then toInt fee.m_nfee else nfeeRemain) =
      min nfeeRemain fee.m_nfee := by
    split
    · rw [toInt_of_lt (by omega) (by omega)]
      omega
    · omega
  unfold itemAt atPosition at hitem
  rw [bindInOrder, if_neg hremain.ne']
  dsimp only
  rw [hitem]
  dsimp only
  rw [htaken, bindPart_fst, toInt_of_lt (by omega) (by omega)]
  exact ⟨_, rfl⟩

variable (K payRelation) in
/-- **The items of the list are taken until the amount is reached**, each code once. -/
theorem bindInOrder_user (ids : List Int) {nfeeRemain : Int} {fees : List DetailItemFee}
    (bills : List (UserAccountBill Acct)) (hplaced : Placed item fees)
    (hnonneg : ∀ fee ∈ fees, 0 ≤ fee.m_nfee) (hremain : 0 ≤ nfeeRemain)
    (hint : nfeeRemain < 2 ^ 31) :
    userTotal .nfee (bindInOrder K payRelation item ids nfeeRemain fees bills).1 =
      userTotal .nfee fees - min nfeeRemain (∑ code ∈ ids.toFinset, feeAt item fees code) := by
  induction ids generalizing nfeeRemain fees bills with
  | nil =>
      simp only [bindInOrder, List.toFinset_nil, Finset.sum_empty]
      omega
  | cons m_id ids ih =>
      have hsum : ∀ {fees : List DetailItemFee} (ids : List Int),
          (∀ fee ∈ fees, 0 ≤ fee.m_nfee) → 0 ≤ ∑ code ∈ ids.toFinset, feeAt item fees code :=
        fun ids hfees => Finset.sum_nonneg fun code _ => feeAt_nonneg hfees code
      have hall := hsum (m_id :: ids) hnonneg
      obtain rfl | hpos := hremain.eq_or_lt
      · rw [bindInOrder, if_pos rfl]
        dsimp only
        omega
      · cases hitem : itemAt item fees m_id with
        | none =>
            have hnothing : feeAt item fees m_id = 0 := by rw [feeAt, hitem]; rfl
            rw [bindInOrder_none ids bills hpos.ne' hitem, ih bills hplaced hnonneg hremain hint,
              List.toFinset_cons, Finset.sum_insert_of_eq_zero_if_notMem fun _ => hnothing]
        | some fee =>
            have hget := (Option.ite_none_right_eq_some.mp hitem).2
            have hfee : 0 ≤ fee.m_nfee := hnonneg fee (List.mem_of_getElem? hget)
            obtain ⟨bills', hstep⟩ := bindInOrder_some K payRelation ids bills hpos hint hfee hitem
            rw [hstep]
            have htaken : 0 ≤ min nfeeRemain fee.m_nfee := by omega
            generalize hk : min nfeeRemain fee.m_nfee = taken at htaken ⊢
            have hnonneg' : ∀ fee' ∈ fees.set (item.m_existDetailItem m_id - 1) (takeOff taken fee),
                0 ≤ fee'.m_nfee := by
              intro fee' hfee'
              obtain hold | rfl := List.mem_or_eq_of_mem_set hfee'
              · exact hnonneg fee' hold
              · rw [takeOff_nfee]
                omega
            have htotal : userTotal .nfee (fees.set (item.m_existDetailItem m_id - 1)
                (takeOff taken fee)) + fee.m_nfee = userTotal .nfee fees + (fee.m_nfee - taken) := by
              rw [← takeOff_nfee]
              exact userTotal_set .nfee hget (takeOff taken fee)
            rw [ih bills' (placed_set hplaced hitem taken) hnonneg' (by omega) (by omega)]
            -- the codes behind this one have what they had; this one has what is left of it
            have hsplit : ∑ code ∈ (m_id :: ids).toFinset, feeAt item fees code =
                fee.m_nfee + ∑ code ∈ ids.toFinset.erase m_id, feeAt item fees code := by
              rw [List.toFinset_cons, ← Finset.add_sum_erase _ _ (Finset.mem_insert_self m_id _),
                Finset.erase_insert_eq_erase, feeAt, hitem]
              rfl
            have hothers : ∑ code ∈ ids.toFinset.erase m_id, feeAt item (fees.set
                (item.m_existDetailItem m_id - 1) (takeOff taken fee)) code =
                  ∑ code ∈ ids.toFinset.erase m_id, feeAt item fees code := by
              apply Finset.sum_congr rfl
              intro code hcode
              unfold feeAt
              rw [itemAt_set_ne hplaced hitem taken (Finset.ne_of_mem_erase hcode)]
            have hrest : 0 ≤ ∑ code ∈ ids.toFinset.erase m_id, feeAt item fees code :=
              Finset.sum_nonneg fun code _ => feeAt_nonneg hnonneg code
            by_cases hlast : nfeeRemain ≤ fee.m_nfee
            · have hnonneg'' := hsum ids hnonneg'
              omega
            · have hgone : feeAt item (fees.set (item.m_existDetailItem m_id - 1)
                  (takeOff taken fee)) m_id = 0 := by
                rw [feeAt, itemAt_set_self hitem, Option.elim_some, takeOff_nfee]
                omega
              rw [← Finset.sum_erase _ hgone, hothers, hsplit]
              omega

end InOrder

/-! ## The fee of a pay item -/

section PayItemFee

variable (mark : Int → Bool)

/-- What `getPayItemFee` counts. -/
def counts (fees : List DetailItemFee) : Bool × Int × (Int → Nat) :=
  (fees.zipIdx 1).foldl (countFee mark) (false, 0, fun _ => 0)

/-- A further fee is counted after the others. -/
theorem counts_append (fees : List DetailItemFee) (fee : DetailItemFee) :
    counts mark (fees ++ [fee]) = countFee mark (counts mark fees) (fee, fees.length + 1) := by
  unfold counts
  rw [List.zipIdx_append, List.foldl_append, Nat.add_comm]
  rfl

/-- A further fee leaves the positions before it. -/
theorem atPosition_append {fees : List DetailItemFee} {position : Nat}
    (h : position ≤ fees.length) (fee : DetailItemFee) :
    atPosition (fees ++ [fee]) position = atPosition fees position := by
  unfold atPosition
  split
  · exact List.getElem?_append_left (by omega)
  · rfl

/-- A further fee is at the last position. -/
theorem atPosition_last (fees : List DetailItemFee) (fee : DetailItemFee) :
    atPosition (fees ++ [fee]) (fees.length + 1) = some fee := by
  unfold atPosition
  simp

/-- The last counted fee of an item is the further one, if it counts for the item. -/
theorem lastCounted_append (fees : List DetailItemFee) (fee : DetailItemFee) (code : Int) :
    lastCounted mark (fees ++ [fee]) code =
      if Counted mark fee = true ∧ fee.m_detailItemCode = code then some fee
      else lastCounted mark fees code := by
  unfold lastCounted
  rw [List.filter_append]
  split
  · rename_i hlast
    simp [hlast]
  · rename_i hlast
    rw [List.filter_cons_of_neg (by simpa using hlast), List.filter_nil, List.append_nil]

/-- The position kept for an item is that of the further fee, if it counts for the item. -/
theorem position_append (fees : List DetailItemFee) (fee : DetailItemFee) (code : Int) :
    (counts mark (fees ++ [fee])).2.2 code =
      if Counted mark fee = true ∧ fee.m_detailItemCode = code then fees.length + 1
      else (counts mark fees).2.2 code := by
  rw [counts_append]
  unfold countFee
  by_cases hcounted : Counted mark fee = true
  · have hmark : mark fee.m_detailItemCode = true ∧ fee.m_ofee ≠ 0 :=
      counted_iff.mp hcounted
    rw [if_pos hmark]
    simp only [hcounted, true_and, Function.update_apply, eq_comm]
  · have hmark : ¬ (mark fee.m_detailItemCode = true ∧ fee.m_ofee ≠ 0) :=
      counted_iff.not.mp hcounted
    rw [if_neg hmark, if_neg fun h => hcounted h.1]

/-- **The position of a code is that of the last item with it.** -/
theorem counts_positions (fees : List DetailItemFee) (code : Int) :
    (counts mark fees).2.2 code ≤ fees.length ∧
      atPosition fees ((counts mark fees).2.2 code) = lastCounted mark fees code := by
  induction fees using List.reverseRecOn with
  | nil => exact ⟨Nat.le_refl 0, rfl⟩
  | append_singleton fees fee ih =>
      obtain ⟨hbound, hlast⟩ := ih
      rw [position_append, lastCounted_append, List.length_append]
      split
      · exact ⟨Nat.le_refl _, atPosition_last fees fee⟩
      · exact ⟨hbound.trans (Nat.le_add_right _ _), by rw [atPosition_append hbound, hlast]⟩

/-- The fees that count. -/
def countedTotal (fees : List DetailItemFee) : Int :=
  ((fees.filter (Counted mark)).map DetailItemFee.m_nfee).sum

/-- A further fee enters the total when it is counted. -/
theorem countedTotal_append (fees : List DetailItemFee) (fee : DetailItemFee) :
    countedTotal mark (fees ++ [fee]) =
      countedTotal mark fees + if Counted mark fee then fee.m_nfee else 0 := by
  unfold countedTotal
  rw [List.filter_append, List.map_append, List.sum_append]
  split
  · rename_i hcounted
    simp [hcounted]
  · rename_i hcounted
    simp [hcounted]

variable {mark} in
/-- The fee of a pay item is what its items have, when an `int` holds it. -/
theorem counts_total {fees : List DetailItemFee} (hnonneg : ∀ fee ∈ fees, 0 ≤ fee.m_nfee)
    (hfits : countedTotal mark fees < 2 ^ 31) :
    0 ≤ countedTotal mark fees ∧ (counts mark fees).2.1 = countedTotal mark fees := by
  induction fees using List.reverseRecOn with
  | nil => exact ⟨Int.le_refl 0, rfl⟩
  | append_singleton fees fee ih =>
      have hfee : 0 ≤ fee.m_nfee := hnonneg fee (by simp)
      rw [countedTotal_append] at hfits ⊢
      have hfits' : countedTotal mark fees < 2 ^ 31 := by split at hfits <;> omega
      obtain ⟨hpos, htotal⟩ := ih (fun x hx => hnonneg x (List.mem_append_left _ hx)) hfits'
      rw [counts_append]
      unfold countFee
      by_cases hcounted : Counted mark fee = true
      · have hmark : mark fee.m_detailItemCode = true ∧ fee.m_ofee ≠ 0 :=
          counted_iff.mp hcounted
        rw [if_pos hcounted] at hfits ⊢
        have hint : toInt (countedTotal mark fees + fee.m_nfee) =
            countedTotal mark fees + fee.m_nfee := toInt_of_lt (by omega) hfits
        rw [if_pos hmark, htotal]
        exact ⟨by omega, hint⟩
      · have hmark : ¬ (mark fee.m_detailItemCode = true ∧ fee.m_ofee ≠ 0) :=
          counted_iff.not.mp hcounted
        rw [if_neg hcounted, if_neg hmark, htotal]
        omega

end PayItemFee

/-! ## By shares -/

section Shares

variable {K : Calls Acct Addup} {payRelation : PayRelation Acct} {item : PayItem}
  {effectUserBillFee payItemFee : Int}

/-- What is left of an item after its share. -/
def afterShare (K : Calls Acct Addup) (mark : Int → Bool) (effectUserBillFee payItemFee : Int)
    (fee : DetailItemFee) : DetailItemFee :=
  if Counted mark fee then takeOff (K.share fee.m_nfee effectUserBillFee payItemFee) fee else fee

/-- After its share a fee is lower by that share. -/
theorem afterShare_nfee (mark : Int → Bool) (fee : DetailItemFee) :
    (afterShare K mark effectUserBillFee payItemFee fee).m_nfee =
      fee.m_nfee - shareOf K mark effectUserBillFee payItemFee fee := by
  unfold afterShare shareOf
  split
  · exact takeOff_nfee _ fee
  · exact (Int.sub_zero _).symm

/-- The share leaves the item of a fee. -/
theorem afterShare_code (mark : Int → Bool) (fee : DetailItemFee) :
    (afterShare K mark effectUserBillFee payItemFee fee).m_detailItemCode =
      fee.m_detailItemCode := by
  unfold afterShare
  split
  · exact takeOff_code _ fee
  · rfl

variable (K effectUserBillFee payItemFee) in
/-- The shares together are the first one and those of the rest. -/
theorem shareTotal_cons (mark : Int → Bool) (fee : DetailItemFee) (fees : List DetailItemFee) :
    shareTotal K mark effectUserBillFee payItemFee (fee :: fees) =
      shareOf K mark effectUserBillFee payItemFee fee +
        shareTotal K mark effectUserBillFee payItemFee fees := by
  unfold shareTotal
  rw [List.map_cons, List.sum_cons]

/-- After all shares the user has the shares less. -/
theorem userTotal_afterShare (mark : Int → Bool) (fees : List DetailItemFee) :
    userTotal .nfee (fees.map (afterShare K mark effectUserBillFee payItemFee)) =
      userTotal .nfee fees - shareTotal K mark effectUserBillFee payItemFee fees := by
  induction fees with
  | nil => rfl
  | cons fee rest ih =>
      rw [List.map_cons, shareTotal_cons, userTotal_nfee_cons, userTotal_nfee_cons, ih,
        afterShare_nfee]
      omega

/-- Shares that are not negative do not add up to something negative. -/
theorem shareTotal_nonneg {mark : Int → Bool} {fees : List DetailItemFee}
    (hshare : ∀ fee ∈ fees, 0 ≤ shareOf K mark effectUserBillFee payItemFee fee) :
    0 ≤ shareTotal K mark effectUserBillFee payItemFee fees :=
  List.sum_nonneg (by simpa using hshare)

/-- What the pass over the shares comes to: the whole amount is taken, or every item has given its
share. -/
def SharedOut (K : Calls Acct Addup) (mark : Int → Bool) (effectUserBillFee payItemFee : Int)
    (fees : List DetailItemFee) (nfeeRemain : Int)
    (r : Int × List DetailItemFee × List (UserAccountBill Acct)) : Prop :=
  r.1 = 0 ∧ nfeeRemain ≤ shareTotal K mark effectUserBillFee payItemFee fees ∧
      userTotal .nfee r.2.1 = userTotal .nfee fees - nfeeRemain ∨
    r.1 = nfeeRemain - shareTotal K mark effectUserBillFee payItemFee fees ∧
      r.2.1 = fees.map (afterShare K mark effectUserBillFee payItemFee)

/-- An item gives its share. -/
theorem SharedOut.cons {mark : Int → Bool} {fees : List DetailItemFee} {fee : DetailItemFee}
    {nfeeRemain : Int} {r : Int × List DetailItemFee × List (UserAccountBill Acct)}
    (h : SharedOut K mark effectUserBillFee payItemFee fees
      (nfeeRemain - shareOf K mark effectUserBillFee payItemFee fee) r) :
    SharedOut K mark effectUserBillFee payItemFee (fee :: fees) nfeeRemain
      (r.1, afterShare K mark effectUserBillFee payItemFee fee :: r.2.1, r.2.2) := by
  unfold SharedOut
  rw [shareTotal_cons, List.map_cons]
  obtain ⟨hdone, hsum, huser⟩ | ⟨hremain, hfees⟩ := h
  · refine .inl ⟨hdone, by omega, ?_⟩
    rw [userTotal_nfee_cons, userTotal_nfee_cons, huser, afterShare_nfee]
    omega
  · exact .inr ⟨by omega, by rw [hfees]⟩

/-- **The shares are taken from every item, or until nothing remains of the amount.** -/
theorem bindShares_sharedOut {fees : List DetailItemFee} {nfeeRemain : Int}
    (bills : List (UserAccountBill Acct))
    (hshare : ∀ fee ∈ fees, 0 ≤ shareOf K item.m_detailItem effectUserBillFee payItemFee fee)
    (hlow : -2 ^ 31 ≤
      nfeeRemain - shareTotal K item.m_detailItem effectUserBillFee payItemFee fees)
    (hhigh : nfeeRemain < 2 ^ 31) :
    SharedOut K item.m_detailItem effectUserBillFee payItemFee fees nfeeRemain
      (bindShares K payRelation item payItemFee effectUserBillFee nfeeRemain fees bills) := by
  induction fees generalizing nfeeRemain bills with
  | nil => exact .inr ⟨(Int.sub_zero _).symm, rfl⟩
  | cons fee rest ih =>
      have htotal := shareTotal_nonneg hshare
      rw [List.forall_mem_cons] at hshare
      have hrest := shareTotal_nonneg hshare.2
      have hfirst := hshare.1
      have hsum := shareTotal_cons K effectUserBillFee payItemFee item.m_detailItem fee rest
      unfold bindShares
      by_cases hzero : nfeeRemain = 0
      · rw [if_pos hzero]
        exact .inl ⟨hzero, by omega, by rw [hzero, Int.sub_zero]⟩
      · rw [if_neg hzero]
        by_cases hcounted : Counted item.m_detailItem fee = true
        · have hmark : item.m_detailItem fee.m_detailItemCode = true ∧ fee.m_ofee ≠ 0 :=
            counted_iff.mp hcounted
          have hpart : shareOf K item.m_detailItem effectUserBillFee payItemFee fee =
              K.share fee.m_nfee effectUserBillFee payItemFee := if_pos hcounted
          have hafter : afterShare K item.m_detailItem effectUserBillFee payItemFee fee =
              takeOff (K.share fee.m_nfee effectUserBillFee payItemFee) fee := if_pos hcounted
          have hint : toInt (nfeeRemain - K.share fee.m_nfee effectUserBillFee payItemFee) =
              nfeeRemain - shareOf K item.m_detailItem effectUserBillFee payItemFee fee := by
            rw [hpart] at hsum hfirst ⊢
            exact toInt_of_lt (by omega) (by omega)
          rw [if_pos hmark]
          dsimp only
          rw [bindPart_fst, ← hafter, hint]
          exact (ih _ hshare.2 (by omega) (by omega)).cons
        · have hmark : ¬ (item.m_detailItem fee.m_detailItemCode = true ∧ fee.m_ofee ≠ 0) :=
            counted_iff.not.mp hcounted
          have hpart : shareOf K item.m_detailItem effectUserBillFee payItemFee fee = 0 :=
            if_neg hcounted
          have hafter : afterShare K item.m_detailItem effectUserBillFee payItemFee fee = fee :=
            if_neg hcounted
          have hrun : SharedOut K item.m_detailItem effectUserBillFee payItemFee rest
              (nfeeRemain - shareOf K item.m_detailItem effectUserBillFee payItemFee fee)
              (bindShares K payRelation item payItemFee effectUserBillFee nfeeRemain rest bills) := by
            rw [hpart, Int.sub_zero]
            exact ih bills hshare.2 (by omega) hhigh
          have hcons := hrun.cons
          rw [hafter] at hcons
          rw [if_neg hmark]
          exact hcons

/-- The items that can take what rounding left over. -/
def Takes (item : PayItem) (nfeeRemain : Int) (fee : DetailItemFee) : Prop :=
  item.m_detailItem fee.m_detailItemCode = true ∧ fee.remains = true ∧ nfeeRemain ≤ fee.m_nfee

instance (item : PayItem) (nfeeRemain : Int) (fee : DetailItemFee) :
    Decidable (Takes item nfeeRemain fee) := inferInstanceAs (Decidable (_ ∧ _))

/-- **One item takes what is left over, if there is one that can.** -/
theorem bindRemainder_user (nfeeRemain : Int) (fees : List DetailItemFee)
    (bills : List (UserAccountBill Acct)) :
    userTotal .nfee (bindRemainder K payRelation item nfeeRemain fees bills).1 =
      userTotal .nfee fees - if ∃ fee ∈ fees, Takes item nfeeRemain fee then nfeeRemain else 0 := by
  induction fees with
  | nil => simp [bindRemainder]
  | cons fee rest ih =>
      have htest : (item.m_detailItem fee.m_detailItemCode = true ∧ fee.remains = true ∧
          (fee.m_nfee - nfeeRemain > 0 ∨ fee.m_nfee - nfeeRemain = 0)) ↔
            Takes item nfeeRemain fee := by
        unfold Takes
        exact and_congr_right' (and_congr_right' (by omega))
      unfold bindRemainder
      by_cases htakes : Takes item nfeeRemain fee
      · rw [if_pos (htest.mpr htakes), if_pos ⟨fee, List.mem_cons_self, htakes⟩]
        dsimp only
        rw [bindPart_fst, userTotal_nfee_cons, userTotal_nfee_cons, takeOff_nfee]
        omega
      · rw [if_neg fun h => htakes (htest.mp h)]
        dsimp only
        rw [userTotal_nfee_cons, userTotal_nfee_cons, ih]
        simp only [List.mem_cons, exists_eq_or_imp, htakes, false_or]
        omega

section Exact

variable {mark : Int → Bool} {fees : List DetailItemFee} (hnonneg : ∀ fee ∈ fees, 0 ≤ fee.m_nfee)

include hnonneg

/-- Without negative fees a counted fee is at most the total. -/
theorem nfee_le_countedTotal {fee : DetailItemFee} (hfee : fee ∈ fees)
    (hcounted : Counted mark fee = true) : fee.m_nfee ≤ countedTotal mark fees := by
  have hterms : ∀ x ∈ (fees.filter (Counted mark)).map DetailItemFee.m_nfee, 0 ≤ x := by
    intro x hx
    obtain ⟨fee, hfee, rfl⟩ := List.mem_map.mp hx
    exact hnonneg fee (List.mem_of_mem_filter hfee)
  exact List.single_le_sum hterms _
    (List.mem_map_of_mem (List.mem_filter.mpr ⟨hfee, hcounted⟩))

/-- Where there is a fee to count, an item has some of it. -/
theorem exists_counted (hpos : 0 < countedTotal mark fees) :
    ∃ fee ∈ fees, Counted mark fee = true ∧ 0 < fee.m_nfee := by
  by_contra hnone
  have hzero : countedTotal mark fees = 0 := by
    apply List.sum_eq_zero
    intro x hx
    obtain ⟨fee, hfee, rfl⟩ := List.mem_map.mp hx
    obtain ⟨hmem, hcounted⟩ := List.mem_filter.mp hfee
    have hfeeNonneg := hnonneg fee hmem
    by_contra hne
    exact hnone ⟨fee, hmem, hcounted, by omega⟩
  omega

/-- A share is not more than its item, and less when the item counts and has anything. -/
theorem shareOf_bounds (hshare : SharesOut K.share) (htotal : countedTotal mark fees = payItemFee)
    (hamount : 0 < effectUserBillFee ∧ effectUserBillFee < payItemFee) (hfits : payItemFee < 2 ^ 31)
    {fee : DetailItemFee} (hfee : fee ∈ fees) :
    0 ≤ shareOf K mark effectUserBillFee payItemFee fee ∧
      shareOf K mark effectUserBillFee payItemFee fee ≤ fee.m_nfee ∧
      (Counted mark fee = true → 0 < fee.m_nfee →
        shareOf K mark effectUserBillFee payItemFee fee < fee.m_nfee) := by
  have hfeeNonneg := hnonneg fee hfee
  unfold shareOf
  split
  · rename_i hcounted
    obtain ⟨hlow, hhigh, hless⟩ := hshare fee.m_nfee effectUserBillFee payItemFee hfeeNonneg
      (htotal ▸ nfee_le_countedTotal hnonneg hfee hcounted) hamount.1 hamount.2 hfits
    exact ⟨hlow, hhigh, fun _ => hless⟩
  · rename_i hnot
    exact ⟨Int.le_refl 0, hfeeNonneg, fun hcounted => absurd hcounted hnot⟩

end Exact

/-- The shares are not more than the fee. -/
theorem shareTotal_le {mark : Int → Bool} {fees : List DetailItemFee}
    (hshare : ∀ fee ∈ fees, shareOf K mark effectUserBillFee payItemFee fee ≤ fee.m_nfee) :
    shareTotal K mark effectUserBillFee payItemFee fees ≤ countedTotal mark fees := by
  induction fees with
  | nil => exact Int.le_refl 0
  | cons fee rest ih =>
      rw [List.forall_mem_cons] at hshare
      have hrest := ih hshare.2
      have hfirst := hshare.1
      rw [shareTotal_cons]
      unfold countedTotal at hrest ⊢
      by_cases hcounted : Counted mark fee = true
      · rw [List.filter_cons_of_pos hcounted, List.map_cons, List.sum_cons]
        omega
      · have hnothing : shareOf K mark effectUserBillFee payItemFee fee = 0 := if_neg hcounted
        rw [List.filter_cons_of_neg hcounted]
        omega

/-- A fee of which something remains is kept. -/
theorem remains_of_nfee {fee : DetailItemFee} (h : fee.m_nfee ≠ 0) : fee.remains = true := by
  simp [DetailItemFee.remains, h]

variable (payRelation) in
/-- **The shares and the remainder come to the amount** if and only if an item has what rounding
leaves over besides its share. -/
theorem shares_exact_iff (hshare : SharesOut K.share) {fees : List DetailItemFee}
    (bills : List (UserAccountBill Acct)) (hnonneg : ∀ fee ∈ fees, 0 ≤ fee.m_nfee)
    (htotal : countedTotal item.m_detailItem fees = payItemFee)
    (hamount : 0 < effectUserBillFee ∧ effectUserBillFee < payItemFee)
    (hfits : payItemFee < 2 ^ 31)
    {r : Int × List DetailItemFee × List (UserAccountBill Acct)}
    (hr : bindShares K payRelation item payItemFee effectUserBillFee effectUserBillFee fees bills =
      r) :
    userTotal .nfee (if r.1 ≠ 0 then (bindRemainder K payRelation item r.1 r.2.1 r.2.2).1
        else r.2.1) = userTotal .nfee fees - effectUserBillFee ↔
      ∃ fee ∈ fees, item.m_detailItem fee.m_detailItemCode = true ∧
        effectUserBillFee - shareTotal K item.m_detailItem effectUserBillFee payItemFee fees ≤
          fee.m_nfee - shareOf K item.m_detailItem effectUserBillFee payItemFee fee := by
  have hbounds : ∀ fee ∈ fees, _ := fun fee hfee =>
    shareOf_bounds hnonneg hshare htotal hamount hfits hfee
  have hsum := shareTotal_le fun fee hfee => (hbounds fee hfee).2.1
  have hfee : 0 < countedTotal item.m_detailItem fees := by omega
  obtain ⟨some, hsome, hcounted, hpos⟩ := exists_counted hnonneg hfee
  have hleft := (hbounds some hsome).2.2 hcounted hpos
  have hmark : item.m_detailItem some.m_detailItemCode = true := (counted_iff.mp hcounted).1
  -- an item that counts keeps some of what it has, which is enough when nothing is left over
  have henough : effectUserBillFee -
      shareTotal K item.m_detailItem effectUserBillFee payItemFee fees ≤ 0 →
      ∃ fee ∈ fees, item.m_detailItem fee.m_detailItemCode = true ∧
        effectUserBillFee - shareTotal K item.m_detailItem effectUserBillFee payItemFee fees ≤
          fee.m_nfee - shareOf K item.m_detailItem effectUserBillFee payItemFee fee :=
    fun hnothing => ⟨some, hsome, hmark, by omega⟩
  have hrun : SharedOut K item.m_detailItem effectUserBillFee payItemFee fees effectUserBillFee r :=
    hr ▸ bindShares_sharedOut bills (fun fee hfee => (hbounds fee hfee).1) (by omega) (by omega)
  obtain ⟨hdone, hreached, huser⟩ | ⟨hremain, hfees⟩ := hrun
  · rw [if_neg (not_not.mpr hdone)]
    exact iff_of_true huser (henough (by omega))
  · by_cases hzero : r.1 = 0
    · rw [if_neg (not_not.mpr hzero), hfees, userTotal_afterShare]
      exact iff_of_true (by omega) (henough (by omega))
    · have htakes : (∃ fee ∈ r.2.1, Takes item r.1 fee) ↔
          ∃ fee ∈ fees, item.m_detailItem fee.m_detailItemCode = true ∧
            effectUserBillFee - shareTotal K item.m_detailItem effectUserBillFee payItemFee fees ≤
              fee.m_nfee - shareOf K item.m_detailItem effectUserBillFee payItemFee fee := by
        have hafter : ∀ fee, Takes item r.1
            (afterShare K item.m_detailItem effectUserBillFee payItemFee fee) ↔
              item.m_detailItem fee.m_detailItemCode = true ∧
                (afterShare K item.m_detailItem effectUserBillFee payItemFee fee).remains = true ∧
                r.1 ≤ fee.m_nfee - shareOf K item.m_detailItem effectUserBillFee payItemFee fee := by
          intro fee
          unfold Takes
          rw [afterShare_code, afterShare_nfee]
        have hremains : ∀ {fee : DetailItemFee}, fee.m_nfee -
            shareOf K item.m_detailItem effectUserBillFee payItemFee fee ≠ 0 →
              (afterShare K item.m_detailItem effectUserBillFee payItemFee fee).remains = true := by
          intro fee hne
          exact remains_of_nfee (by rwa [afterShare_nfee])
        rw [hfees, ← hremain]
        constructor
        · rintro ⟨fee', hfee', htakes⟩
          obtain ⟨fee, hfee, rfl⟩ := List.mem_map.mp hfee'
          obtain ⟨hmarked, -, hhas⟩ := (hafter fee).mp htakes
          exact ⟨fee, hfee, hmarked, hhas⟩
        · rintro ⟨fee, hfee, hmarked, hhas⟩
          by_cases hover : 0 < r.1
          · exact ⟨_, List.mem_map_of_mem hfee,
              (hafter fee).mpr ⟨hmarked, hremains (by omega), hhas⟩⟩
          · exact ⟨_, List.mem_map_of_mem hsome,
              (hafter some).mpr ⟨hmark, hremains (by omega), by omega⟩⟩
      rw [if_pos hzero, bindRemainder_user, hfees, userTotal_afterShare, ← hfees, ← htakes]
      split
      · rename_i hone
        exact iff_of_true (by omega) hone
      · rename_i hnone
        exact iff_of_false (by omega) hnone

end Shares

/-! ## A relation -/

section Relation

variable {K : Calls Acct Addup} {payRelation : PayRelation Acct} {s s' : State Acct Addup}
  {isNeedDeal : Bool} {item : PayItem} {payItemFee : Int} {effect : Effect}

variable (K payRelation) in
/-- The marks of a relation's pay item. -/
def marks : Int → Bool :=
  detailItem (K.getDetailItemFromPayItem payRelation.m_itemCode) payRelation.m_itemCode

/-- What `computePayFee` gives to `effectPayFee`. -/
structure Computed (K : Calls Acct Addup) (payRelation : PayRelation Acct) (s s' : State Acct Addup)
    (item : PayItem) (payItemFee : Int) (effect : Effect) : Prop where
  vector : item.m_detailItemVector = K.getDetailItemFromPayItem payRelation.m_itemCode
  mark : item.m_detailItem = marks K payRelation
  position : item.m_existDetailItem = (counts (marks K payRelation) s.m_detailItemFeeVector).2.2
  fee : payItemFee = if (counts (marks K payRelation) s.m_detailItemFeeVector).1 then
    (counts (marks K payRelation) s.m_detailItemFeeVector).2.1 else 0
  both : effect.effectUserBillFee = effect.effectAcctBillFee
  fees : s'.m_detailItemFeeVector = s.m_detailItemFeeVector
  bills : s'.m_userAccountBillVector = s.m_userAccountBillVector

/-- What `computePayFee` hands on is what `Computed` says of the fees before it. -/
theorem computePayFee_computed (hfill : payRelation.m_fillTag ≠ '2')
    (hcompute : computePayFee K payRelation s = (isNeedDeal, item, payItemFee, effect, s')) :
    Computed K payRelation s s' item payItemFee effect := by
  unfold computePayFee at hcompute
  simp only [Prod.mk.injEq] at hcompute
  obtain ⟨-, rfl, rfl, rfl, rfl⟩ := hcompute
  obtain ⟨⟨fee, hfee⟩, hfees, hbills⟩ := limitEffect_spec (K := K) hfill
    (if (counts (marks K payRelation) s.m_detailItemFeeVector).1 then
      (counts (marks K payRelation) s.m_detailItemFeeVector).2.1 else 0) s
  have hboth := (congrArg Effect.effectUserBillFee hfee).trans
    (congrArg Effect.effectAcctBillFee hfee).symm
  exact ⟨rfl, rfl, rfl, rfl, hboth, hfees, hbills⟩

section Computed

variable (hcomputed : Computed K payRelation s s' item payItemFee effect)

include hcomputed

/-- At the position kept for an item is its last counted fee. -/
theorem Computed.itemAt_eq (code : Int) : itemAt item s.m_detailItemFeeVector code =
    lastCounted (marks K payRelation) s.m_detailItemFeeVector code := by
  unfold itemAt
  rw [hcomputed.position]
  exact (counts_positions _ _ code).2

/-- The positions are those of the codes. -/
theorem Computed.placed : Placed item s.m_detailItemFeeVector := by
  intro code fee hfee
  rw [hcomputed.itemAt_eq] at hfee
  have hmem := List.mem_filter.mp (List.mem_of_getLast? hfee)
  simp only [Bool.and_eq_true, decide_eq_true_eq] at hmem
  exact hmem.2.2

/-- What there is of an item is what its last counted fee has. -/
theorem Computed.feeAt_eq (code : Int) : feeAt item s.m_detailItemFeeVector code =
    lastFee (marks K payRelation) s.m_detailItemFeeVector code := by
  unfold feeAt lastFee
  rw [hcomputed.itemAt_eq]

/-- A fee that is positive was counted. -/
theorem Computed.fee_counted (hpos : 0 < payItemFee) :
    payItemFee = (counts (marks K payRelation) s.m_detailItemFeeVector).2.1 := by
  have hfee := hcomputed.fee
  split at hfee
  · exact hfee
  · omega

end Computed

/-- **Exactly the amount goes over** if and only if the items have it: by shares, one has what
rounding leaves over besides its share; in order, those in the list of the pay item have it
together. -/
theorem moves_exactly_iff [DecidableEq Acct] (hadd : Adds K.addAccountDetailItemFee)
    (hshare : SharesOut K.share) (hfill : payRelation.m_fillTag ≠ '2')
    (hnonneg : ∀ fee ∈ s.m_detailItemFeeVector, 0 ≤ fee.m_nfee)
    (hcompute : computePayFee K payRelation s = (isNeedDeal, item, payItemFee, effect, s'))
    (hamount : 0 < effect.effectUserBillFee ∧ effect.effectUserBillFee < payItemFee)
    (hfits : payRelation.m_bindType = '0' →
      countedTotal (marks K payRelation) s.m_detailItemFeeVector < 2 ^ 31) :
    MovesExactly payRelation.m_acctId effect.effectUserBillFee s
        (effectPayFee K payRelation item payItemFee effect s') ↔
      HaveAmount K (marks K payRelation) effect.effectUserBillFee payItemFee payRelation
        s.m_detailItemFeeVector := by
  have hcomputed := computePayFee_computed hfill hcompute
  have hfee := hcomputed.fee_counted (by omega)
  have hint : payItemFee < 2 ^ 31 := by
    rw [hfee]
    exact getPayItemFee_lt K payRelation.m_itemCode s.m_detailItemFeeVector
  rw [movesExactly_iff hadd item payItemFee hcomputed.both hcomputed.fees hcomputed.bills]
  unfold effectPayFee HaveAmount
  rw [if_pos hcomputed.both, if_neg (by omega)]
  dsimp only
  rw [hcomputed.fees, hcomputed.bills]
  by_cases hshares : payRelation.m_bindType = '0'
  · rw [if_pos hshares, if_pos hshares]
    have htotal := (counts_total hnonneg (hfits hshares)).2
    rw [← hfee, ← hcomputed.mark] at htotal
    rw [← hcomputed.mark, ← shares_exact_iff payRelation hshare s.m_userAccountBillVector hnonneg
      htotal.symm hamount hint rfl, apply_ite State.m_detailItemFeeVector]
    rfl
  · rw [if_neg hshares, if_neg hshares]
    have hmoved := bindInOrder_user K payRelation item.m_detailItemVector
      s.m_userAccountBillVector hcomputed.placed hnonneg hamount.1.le (by omega)
    simp only [hcomputed.feeAt_eq] at hmoved
    simp only [State.put]
    rw [hmoved, hcomputed.vector]
    omega

end Relation

/-- A quotient that is cut shares out. -/
theorem wholeShares_sharesOut : SharesOut wholeShares.share := by
  intro nfee effectUserBillFee payItemFee hnfee _ hpos hlt _
  have hproduct : 0 ≤ nfee * effectUserBillFee := Int.mul_nonneg hnfee hpos.le
  have hquotient : wholeShares.share nfee effectUserBillFee payItemFee =
      nfee * effectUserBillFee / payItemFee := Int.tdiv_eq_ediv_of_nonneg hproduct
  have hle : nfee * effectUserBillFee ≤ nfee * payItemFee :=
    Int.mul_le_mul_of_nonneg_left hlt.le hnfee
  rw [hquotient]
  refine ⟨Int.ediv_nonneg hproduct (by omega), Int.ediv_le_of_le_mul (by omega) hle, fun hsome => ?_⟩
  exact Int.ediv_lt_of_lt_mul (by omega) (Int.mul_lt_mul_of_pos_left hlt hsome)

/-- Account 7 pays up to 70, by shares. -/
def seventy : PayRelation Nat := ⟨1, 5, 7, '0', 1, '0', '0', 201001, 201012, '1', 70, '0'⟩

/-- Of 100 and 51, 46 and 23 are the shares of 70, and the first item has the 1 that is missing. -/
theorem moves_exactly_iff_seventy :
    MovesExactly 7 70 twoItems (effectPayFee wholeShares seventy
      (computePayFee wholeShares seventy twoItems).2.1 151 (.both 70)
      (computePayFee wholeShares seventy twoItems).2.2.2.2) := by
  have hcompute : computePayFee wholeShares seventy twoItems =
      (true, (computePayFee wholeShares seventy twoItems).2.1, 151, .both 70,
        (computePayFee wholeShares seventy twoItems).2.2.2.2) := rfl
  have hfill : seventy.m_fillTag ≠ '2' := by decide
  have hnonneg : ∀ fee ∈ twoItems.m_detailItemFeeVector, 0 ≤ fee.m_nfee := by decide
  have hamount : 0 < (Effect.both 70).effectUserBillFee ∧
      (Effect.both 70).effectUserBillFee < 151 := by decide
  exact (moves_exactly_iff addToBills_adds wholeShares_sharesOut hfill hnonneg hcompute hamount
    (by decide)).mpr (by decide)

/-- Three items of 1 of one pay item. -/
def threeShares : Calls Nat Unit :=
  { wholeShares with getDetailItemFromPayItem := fun _ => [1, 2, 3] }

def threeItems : State Nat Unit :=
  ⟨201003, [1, 2, 3].map fun code => { m_detailItemCode := code, m_ofee := 1, m_nfee := 1 }, [], 0,
    ()⟩

/-- Of three items of 1 nothing goes over when 2 are to: the shares are 0, and no item has 2. -/
theorem nothing_moves : ¬ ∀ (K : Calls Nat Unit) (payRelation : PayRelation Nat)
    (s s' : State Nat Unit) (isNeedDeal : Bool) (item : PayItem) (payItemFee : Int)
    (effect : Effect), Adds K.addAccountDetailItemFee → SharesOut K.share →
    payRelation.m_defaultTag ≠ '1' → payRelation.m_fillTag ≠ '2' →
    (∀ fee ∈ s.m_detailItemFeeVector, 0 ≤ fee.m_nfee) →
    computePayFee K payRelation s = (isNeedDeal, item, payItemFee, effect, s') →
    0 < effect.effectUserBillFee ∧ effect.effectUserBillFee < payItemFee →
    MovesExactly payRelation.m_acctId effect.effectUserBillFee s
      (effectPayFee K payRelation item payItemFee effect s') := by
  intro h
  have hmoves := h threeShares { seventy with m_limitValue := 2 } threeItems _ _ _ _ _
    addToBills_adds wholeShares_sharesOut (by decide) (by decide) (by decide) rfl (by decide)
  exact absurd hmoves.user (by decide)

end PayRelationExact
