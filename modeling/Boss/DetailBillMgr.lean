import Boss.PayRelationSolution
import Boss.Rounding
import Mathlib.Data.Rat.Floor

/-!
# Sharing a discount among users

A discount on an item is shared among the users of a detail bill, `update_userAveItemAve` and
`update_userAveItemPrior` by what each user has to pay for it.  Every share is rounded on its own, and
a second pass hands out what the shares are short of the discount, or takes back what they exceed it
by; it takes back from the first user that has the item.

How a share is spread over the items of one user is not in the source.  `Exact` is what is asked of
it: the fee of the user falls by just the share.

Main results: `user_discount_distributed`, `user_fees_lowered_iff` and
`account_discount_reported_iff`.
-/

namespace DetailBillMgr

open PayRelationSolution Rounding

/-- `ID_TYPE` -/
inductive IdType
  | USER | GROUP | CUSTOMER | ACCT
deriving DecidableEq, Repr

structure UserDetailBill (S : Type*) where
  m_subId : S
  m_priority : Int
  m_feeVector : List DetailItemFee
deriving DecidableEq, Repr

structure DetailBill (S : Type*) where
  m_idType : IdType
  m_id : S
  m_detailBillVector : List (UserDetailBill S)
deriving DecidableEq, Repr

def NEGATIVE_BILL_NO : Char := '0'
def NEGATIVE_BILL_YES : Char := '2'

/-- An item with its detail items. -/
structure Item where
  itemCode : Int
  detailItemMap : List (Int × Int)
deriving DecidableEq, Repr

/-- How an update is booked. -/
structure Manner where
  ifShowMinus : Char
  discountType : Char
  ifNegativeBill : Char
deriving DecidableEq, Repr

/-- The bill that is worked on and the users that are selected from it. -/
structure Mgr (S : Type*) where
  m_detailBill : DetailBill S
  m_userIds : Finset S

/-- What the manager calls: the detail items of an item, how many of them a user has and their fee,
that fee for all users, and the updates of one user. -/
structure Calls (S : Type*) where
  find : Int → List (Int × Int)
  getItemFactFee : UserDetailBill S → Item → Nat × Int
  getFactFee : Mgr S → Item → Int
  updateSubIdFeeItemFirst : Item → Manner → UserDetailBill S → Int → UserDetailBill S
  updateSubIdFeeItemAve : Item → Manner → UserDetailBill S → Int → UserDetailBill S
  updateSubIdFeeItemPrior : Item → Manner → UserDetailBill S → Int → UserDetailBill S
  /-- `update_userPriorItemAve` from where the source ends: the users and what is returned. -/
  userPriorItemAve : Mgr S → Item → Manner → (effectFee sumFee leftFee : Int) →
    List (UserDetailBill S) × Int

variable {S : Type*}

section Selection

variable [DecidableEq S]

/-- No selection is everybody. -/
def selected (m_userIds : Finset S) (u : UserDetailBill S) : Bool :=
  m_userIds = ∅ || u.m_subId ∈ m_userIds

/-- The users the manager works on. -/
def Mgr.users (m : Mgr S) : List (UserDetailBill S) :=
  m.m_detailBill.m_detailBillVector.filter (selected m.m_userIds)

/-- `getFactFeeAll` -/
def getFactFeeAll (m : Mgr S) : Int :=
  (m.users.map fun u => userTotal .nfee u.m_feeVector).sum

/-- The number of users a discount is divided by. -/
def idNum (m : Mgr S) : Nat :=
  if m.m_userIds ≠ ∅ then m.m_userIds.card else m.m_detailBill.m_detailBillVector.length

end Selection

section Distribute

/-- The same amount for every user, for an item without fees. -/
def equalShare (effectFee : Int) (idNum : Nat) : Int := trunc ((effectFee : ℚ) / idNum - 1 / 2)

/-- A share by the fee. -/
def feeShare (effectFee sumFee m_sumFee : Int) : Int :=
  trunc ((effectFee : ℚ) * m_sumFee / sumFee + if effectFee > 0 then 1 / 2 else -1 / 2)

variable (sel : UserDetailBill S → Bool) (update : UserDetailBill S → Int → UserDetailBill S)

/-- Every selected user gets a share; the shares are added up. -/
def sharePass (share : UserDetailBill S → Int) :
    List (UserDetailBill S) → List (UserDetailBill S) × Int
  | [] => ([], 0)
  | u :: rest =>
      let r := sharePass share rest
      if sel u then (update u (share u) :: r.1, share u + r.2) else (u :: r.1, r.2)

/-- What a user takes of the amount that is missing. -/
def roundingFee (ifNegativeBill : Char) (m_sumFee integerfee : Int) : Int :=
  if m_sumFee ≥ integerfee then integerfee
  else if m_sumFee ≥ 0 then
    if ifNegativeBill ≠ NEGATIVE_BILL_YES then m_sumFee else integerfee
  else integerfee

/-- The users with the item take what is missing, until nothing is. -/
def roundingPass (fact : UserDetailBill S → Nat × Int) (ifNegativeBill : Char) :
    Int → List (UserDetailBill S) → List (UserDetailBill S) × Int
  | integerfee, [] => ([], integerfee)
  | integerfee, u :: rest =>
      if sel u && (fact u).1 > 0 then
        let discountFee := roundingFee ifNegativeBill (fact u).2 integerfee
        let u' := update u discountFee
        if integerfee - discountFee = 0 then (u' :: rest, 0)
        else
          let r := roundingPass fact ifNegativeBill (integerfee - discountFee) rest
          (u' :: r.1, r.2)
      else
        let r := roundingPass fact ifNegativeBill integerfee rest
        (u :: r.1, r.2)

end Distribute

section Update

variable [DecidableEq S] (K : Calls S)

/-- What tells the two ways to share by user apart: the update, and which users are updated by
`updateSubIdFeeItemFirst` when the item has no fees. -/
structure Way (S : Type*) where
  updateItem : Item → Manner → UserDetailBill S → Int → UserDetailBill S
  toFirst : Nat → Int → Bool

/-- An update, or `updateSubIdFeeItemFirst` for those without the item. -/
def updateFirstOr (way : Way S) (item : Item) (manner : Manner) (toFirst : Nat → Int → Bool)
    (u : UserDetailBill S) (discountFee : Int) : UserDetailBill S :=
  if toFirst (K.getItemFactFee u item).1 discountFee then
    K.updateSubIdFeeItemFirst item manner u discountFee
  else way.updateItem item manner u discountFee

/-- The pass over the shares. -/
def sharedOut (way : Way S) (m : Mgr S) (item : Item) (manner : Manner) (effectFee sumFee : Int) :
    List (UserDetailBill S) × Int :=
  if sumFee = 0 then
    sharePass (selected m.m_userIds) (updateFirstOr K way item manner way.toFirst)
      (fun _ => equalShare effectFee (idNum m)) m.m_detailBill.m_detailBillVector
  else
    sharePass (selected m.m_userIds)
      (updateFirstOr K way item manner fun num discountFee => num = 0 && discountFee < 0)
      (fun u => feeShare effectFee sumFee (K.getItemFactFee u item).2)
      m.m_detailBill.m_detailBillVector

/-- The pass over what is missing, when something is. -/
def handedOut (way : Way S) (m : Mgr S) (item : Item) (manner : Manner) (effectFee : Int)
    (r : List (UserDetailBill S) × Int) : List (UserDetailBill S) :=
  if effectFee - r.2 ≠ 0 then
    (roundingPass (selected m.m_userIds) (way.updateItem item manner) (K.getItemFactFee · item)
      manner.ifNegativeBill (effectFee - r.2) r.1).1
  else r.1

def distribute (way : Way S) (m : Mgr S) (item : Item) (manner : Manner) (effectFee sumFee : Int) :
    List (UserDetailBill S) :=
  handedOut K way m item manner effectFee (sharedOut K way m item manner effectFee sumFee)

/-- What an update leaves: the users, the amount that was asked for as it is handed back, and what
is returned. -/
structure Updated (S : Type*) where
  users : List (UserDetailBill S)
  effectFee : Int
  leftFee : Int
deriving DecidableEq, Repr

/-- A bill of an account is not discounted below 0. -/
def clampAccount (m : Mgr S) (effectFee : Int) : Int :=
  if effectFee > 0 ∧ m.m_detailBill.m_idType ≠ .USER then
    if effectFee > getFactFeeAll m then getFactFeeAll m else effectFee
  else effectFee

def ifShowMinus (effectFee : Int) (ifNotShowNegative : Char) : Char :=
  if effectFee < 0 ∧ ifNotShowNegative = '1' then '1'
  else if effectFee > 0 ∧ ifNotShowNegative = '2' then '1'
  else '0'

/-- What the updates begin with: both limits, and what goes beyond the second of them. -/
def update (spread : Item → Manner → (effectFee sumFee leftFee : Int) → List (UserDetailBill S) × Int)
    (m : Mgr S) (itemCode effectFee : Int) (ifNotShowNegative discountType ifNegativeBill : Char) :
    Updated S :=
  let effectFee := clampAccount m effectFee
  let item : Item := ⟨itemCode, K.find itemCode⟩
  let sumFee := K.getFactFee m item
  if sumFee = 0 ∧ effectFee > 0 ∧ ifNegativeBill ≠ NEGATIVE_BILL_YES then
    ⟨m.m_detailBill.m_detailBillVector, effectFee, effectFee⟩
  else
    let exceeds := effectFee > sumFee ∧ ifNegativeBill ≠ NEGATIVE_BILL_YES
    let leftFee := if exceeds then effectFee - sumFee else 0
    let effectFee := if exceeds then sumFee else effectFee
    let r := spread item ⟨ifShowMinus effectFee ifNotShowNegative, discountType, ifNegativeBill⟩
      effectFee sumFee leftFee
    ⟨r.1, effectFee, r.2⟩

def userAveItemAve : Way S := ⟨K.updateSubIdFeeItemAve, fun num _ => num = 0⟩

def userAveItemPrior : Way S :=
  ⟨K.updateSubIdFeeItemPrior, fun num discountFee => num = 0 && discountFee < 0⟩

def updateWay (way : Way S) (m : Mgr S) : (itemCode effectFee : Int) →
    (ifNotShowNegative discountType ifNegativeBill : Char) → Updated S :=
  update K (fun item manner effectFee sumFee leftFee =>
    (distribute K way m item manner effectFee sumFee, leftFee)) m

def update_userAveItemAve (m : Mgr S) := updateWay K (userAveItemAve K) m

def update_userAveItemPrior (m : Mgr S) := updateWay K (userAveItemPrior K) m

def update_userPriorItemAve (m : Mgr S) : (itemCode effectFee : Int) →
    (ifNotShowNegative discountType ifNegativeBill : Char) → Updated S :=
  update K (K.userPriorItemAve m) m

end Update

/-! ## What the passes leave -/

section Passes

variable {sel : UserDetailBill S → Bool} {update : UserDetailBill S → Int → UserDetailBill S}
  {fact : UserDetailBill S → Nat × Int} {ifNegativeBill : Char} {users : List (UserDetailBill S)}
  {share : UserDetailBill S → Int} {u : UserDetailBill S} {integerfee : Int}

/-- The fee of all selected users. -/
def total (sel : UserDetailBill S → Bool) (fact : UserDetailBill S → Nat × Int)
    (users : List (UserDetailBill S)) : Int :=
  ((users.filter sel).map fun u => (fact u).2).sum

/-- A user who is selected counts for the total. -/
theorem total_cons_of_pos (h : sel u = true) :
    total sel fact (u :: users) = (fact u).2 + total sel fact users := by
  simp [total, h]

/-- A user who is not selected does not count for the total. -/
theorem total_cons_of_neg (h : ¬ sel u = true) :
    total sel fact (u :: users) = total sel fact users := by
  simp [total, h]

/-- An update takes an amount from a user, who stays selected. -/
def Takes (sel : UserDetailBill S → Bool) (fact : UserDetailBill S → Nat × Int)
    (update : UserDetailBill S → Int → UserDetailBill S) (u : UserDetailBill S) (x : Int) : Prop :=
  sel (update u x) = sel u ∧ (fact (update u x)).2 = (fact u).2 - x

/-- An update that takes an amount and keeps the number of items. -/
def Keeps (sel : UserDetailBill S → Bool) (fact : UserDetailBill S → Nat × Int)
    (update : UserDetailBill S → Int → UserDetailBill S) (u : UserDetailBill S) (x : Int) : Prop :=
  Takes sel fact update u x ∧ (fact (update u x)).1 = (fact u).1

/-- The pass changes every selected user on its own. -/
theorem sharePass_eq (users : List (UserDetailBill S)) :
    sharePass sel update share users =
      (users.map fun u => if sel u then update u (share u) else u,
        ((users.filter sel).map share).sum) := by
  induction users with
  | nil => rfl
  | cons u rest ih =>
      unfold sharePass
      rw [ih]
      by_cases hu : sel u = true
      · simp [hu]
      · simp [hu]

/-- The first pass takes off the total what it has distributed. -/
theorem sharePass_total (h : ∀ u, sel u = true → Takes sel fact update u (share u)) :
    total sel fact (sharePass sel update share users).1 =
      total sel fact users - (sharePass sel update share users).2 := by
  rw [sharePass_eq]
  induction users with
  | nil => rfl
  | cons u rest ih =>
      by_cases hu : sel u = true
      · obtain ⟨hsel, hfee⟩ := h u hu
        simp only [List.map_cons, if_pos hu, List.filter_cons_of_pos hu, List.sum_cons] at ih ⊢
        rw [total_cons_of_pos (hsel.trans hu), total_cons_of_pos hu, ih, hfee]
        ring
      · simp only [List.map_cons, if_neg hu, List.filter_cons_of_neg hu] at ih ⊢
        rw [total_cons_of_neg hu, total_cons_of_neg hu, ih]

/-- The second pass takes off the total what it is given, less what it hands back. -/
theorem roundingPass_total
    (h : ∀ u x, sel u = true → 0 < (fact u).1 → Takes sel fact update u x) :
    total sel fact (roundingPass sel update fact ifNegativeBill integerfee users).1 =
      total sel fact users - integerfee +
        (roundingPass sel update fact ifNegativeBill integerfee users).2 := by
  induction users generalizing integerfee with
  | nil => simp [roundingPass]
  | cons u rest ih =>
      unfold roundingPass
      by_cases hu : (sel u && (fact u).1 > 0) = true
      · rw [if_pos hu]
        simp only [Bool.and_eq_true, decide_eq_true_eq] at hu
        obtain ⟨hsel, hfee⟩ := h u (roundingFee ifNegativeBill (fact u).2 integerfee) hu.1 hu.2
        dsimp only
        split
        · rw [total_cons_of_pos (hsel.trans hu.1), total_cons_of_pos hu.1, hfee]
          omega
        · rw [total_cons_of_pos (hsel.trans hu.1), total_cons_of_pos hu.1, hfee, ih]
          omega
      · rw [if_neg hu]
        dsimp only
        by_cases hsel : sel u = true
        · rw [total_cons_of_pos hsel, total_cons_of_pos hsel, ih]
          omega
        · rw [total_cons_of_neg hsel, total_cons_of_neg hsel, ih]

/-- Somebody selected has the item. -/
def Somebody (sel : UserDetailBill S → Bool) (fact : UserDetailBill S → Nat × Int)
    (users : List (UserDetailBill S)) : Prop :=
  ∃ u ∈ users, sel u = true ∧ 0 < (fact u).1

/-- Whoever has the item after the shares had it before or came to have it. -/
theorem sharePass_somebody_iff (hsel : ∀ u, sel u = true → sel (update u (share u)) = true) :
    Somebody sel fact (sharePass sel update share users).1 ↔
      ∃ u ∈ users, sel u = true ∧ 0 < (fact (update u (share u))).1 := by
  unfold Somebody
  rw [sharePass_eq]
  simp only [List.mem_map, exists_exists_and_eq_and]
  refine exists_congr fun u => and_congr_right fun _ => ?_
  by_cases hu : sel u = true
  · simp [hu, hsel u hu]
  · simp [hu]

/-- What there are fees for is taken. -/
theorem roundingPass_of_pos (hneg : ifNegativeBill ≠ NEGATIVE_BILL_YES)
    (hnone : ∀ u, (fact u).1 = 0 → (fact u).2 = 0) (hpos : 0 < integerfee)
    (hle : integerfee ≤ total sel fact users) :
    (roundingPass sel update fact ifNegativeBill integerfee users).2 = 0 := by
  induction users generalizing integerfee with
  | nil =>
      have hzero : total sel fact [] = 0 := rfl
      omega
  | cons u rest ih =>
      unfold roundingPass
      by_cases hu : (sel u && (fact u).1 > 0) = true
      · rw [if_pos hu]
        dsimp only
        split
        · rfl
        · rename_i hmore
          simp only [Bool.and_eq_true, decide_eq_true_eq] at hu
          rw [total_cons_of_pos hu.1] at hle
          have hfee : roundingFee ifNegativeBill (fact u).2 integerfee = (fact u).2 := by
            unfold roundingFee at hmore ⊢
            split_ifs at hmore ⊢ <;> omega
          have hlow : (fact u).2 < integerfee := by
            unfold roundingFee at hmore
            split_ifs at hmore <;> omega
          rw [hfee]
          exact ih (by omega) (by omega)
      · rw [if_neg hu]
        by_cases hsel : sel u = true
        · have hnum : (fact u).1 = 0 := by simpa [hsel] using hu
          rw [total_cons_of_pos hsel, hnone u hnum, zero_add] at hle
          exact ih hpos hle
        · rw [total_cons_of_neg hsel] at hle
          exact ih hpos hle

/-- What goes back is taken by the first user with the item. -/
theorem roundingPass_of_neg (hneg : integerfee < 0) (h : Somebody sel fact users) :
    (roundingPass sel update fact ifNegativeBill integerfee users).2 = 0 := by
  induction users with
  | nil =>
      obtain ⟨u, hu, -⟩ := h
      exact absurd hu List.not_mem_nil
  | cons u rest ih =>
      unfold roundingPass
      by_cases hu : (sel u && (fact u).1 > 0) = true
      · have hall : roundingFee ifNegativeBill (fact u).2 integerfee = integerfee := by
          unfold roundingFee
          split_ifs <;> omega
        rw [if_pos hu]
        dsimp only
        rw [hall, if_pos (sub_self _)]
      · rw [if_neg hu]
        obtain ⟨v, hv, hsel, hnum⟩ := h
        rcases List.mem_cons.mp hv with rfl | hv
        · simp [hsel, hnum] at hu
        · exact ih ⟨v, hv, hsel, hnum⟩

/-- Nobody takes anything without the item. -/
theorem roundingPass_of_none (h : ¬ Somebody sel fact users) :
    roundingPass sel update fact ifNegativeBill integerfee users = (users, integerfee) := by
  induction users with
  | nil => rfl
  | cons u rest ih =>
      unfold roundingPass
      have hu : ¬ (sel u && (fact u).1 > 0) = true := by
        intro hu
        simp only [Bool.and_eq_true, decide_eq_true_eq] at hu
        exact h ⟨u, List.mem_cons_self, hu⟩
      have hrest := ih fun ⟨v, hv, hv'⟩ => h ⟨v, List.mem_cons_of_mem u hv, hv'⟩
      rw [if_neg hu, hrest]

/-- A total that is not zero comes from somebody who has the item. -/
theorem somebody_of_total (hnone : ∀ u, (fact u).1 = 0 → (fact u).2 = 0)
    (h : total sel fact users ≠ 0) : Somebody sel fact users := by
  by_contra hnobody
  refine h (List.sum_eq_zero ?_)
  intro x hx
  obtain ⟨u, hu, rfl⟩ := List.mem_map.mp hx
  obtain ⟨hu, hsel⟩ := List.mem_filter.mp hu
  exact hnone u (Nat.eq_zero_of_not_pos fun hnum => hnobody ⟨u, hu, hsel, hnum⟩)

end Passes

/-! ## What a way to share applies -/

section Apply

variable [DecidableEq S] {K : Calls S} {way : Way S} {m : Mgr S} {item : Item} {manner : Manner}
  {effectFee sumFee : Int}

/-- The fee of the selected users for an item. -/
def itemTotal (K : Calls S) (m : Mgr S) (item : Item) (users : List (UserDetailBill S)) : Int :=
  total (selected m.m_userIds) (K.getItemFactFee · item) users

/-- What is asked of the calls: the fee for all users is that of the selected ones, who has no item
has no fee for it, and an update takes the amount that it is given, `updateSubIdFeeItemFirst` a
surcharge, which it makes an item for, and the other one whatever there is an item for. -/
structure Exact (K : Calls S) (way : Way S) (m : Mgr S) (item : Item) : Prop where
  getFactFee : K.getFactFee m item = itemTotal K m item m.m_detailBill.m_detailBillVector
  none : ∀ u, (K.getItemFactFee u item).1 = 0 → (K.getItemFactFee u item).2 = 0
  subId : ∀ manner u x, (way.updateItem item manner u x).m_subId = u.m_subId
  num : ∀ manner u x, (K.getItemFactFee (way.updateItem item manner u x) item).1 =
    (K.getItemFactFee u item).1
  fee : ∀ manner u x, 0 < (K.getItemFactFee u item).1 ∨ x = 0 →
    (K.getItemFactFee (way.updateItem item manner u x) item).2 = (K.getItemFactFee u item).2 - x
  firstSubId : ∀ manner u x, (K.updateSubIdFeeItemFirst item manner u x).m_subId = u.m_subId
  firstNum : ∀ manner u x, 0 < (K.getItemFactFee (K.updateSubIdFeeItemFirst item manner u x) item).1
  firstFee : ∀ manner u x, x ≤ 0 →
    (K.getItemFactFee (K.updateSubIdFeeItemFirst item manner u x) item).2 =
      (K.getItemFactFee u item).2 - x

namespace Exact

/-- Taking a part of the item off a user who has it takes that part off the fee. -/
theorem takes (h : Exact K way m item) (manner : Manner) {u : UserDetailBill S} {x : Int}
    (hx : 0 < (K.getItemFactFee u item).1 ∨ x = 0) :
    Takes (selected m.m_userIds) (K.getItemFactFee · item) (way.updateItem item manner) u x := by
  refine ⟨?_, h.fee manner u x hx⟩
  unfold selected
  rw [h.subId]

/-- The same with `updateSubIdFeeItemFirst` for those without the item. -/
theorem takes_first (h : Exact K way m item) (manner : Manner) {u : UserDetailBill S} {x : Int}
    {toFirst : Nat → Int → Bool}
    (hfirst : toFirst (K.getItemFactFee u item).1 x = true → x ≤ 0)
    (hx : ¬ toFirst (K.getItemFactFee u item).1 x = true →
      0 < (K.getItemFactFee u item).1 ∨ x = 0) :
    Takes (selected m.m_userIds) (K.getItemFactFee · item)
      (updateFirstOr K way item manner toFirst) u x := by
  unfold Takes updateFirstOr
  split
  · rename_i hto
    refine ⟨?_, h.firstFee manner u x (hfirst hto)⟩
    unfold selected
    rw [h.firstSubId]
  · rename_i hto
    exact h.takes manner (hx hto)

end Exact

variable {r : List (UserDetailBill S) × Int}

/-- The second pass hands out what is missing. -/
theorem handedOut_total (h : Exact K way m item) (hneg : manner.ifNegativeBill ≠ NEGATIVE_BILL_YES)
    (hle : effectFee - r.2 ≤ itemTotal K m item r.1)
    (hback : effectFee < r.2 → Somebody (selected m.m_userIds) (K.getItemFactFee · item) r.1) :
    itemTotal K m item (handedOut K way m item manner effectFee r) =
      itemTotal K m item r.1 - (effectFee - r.2) := by
  unfold handedOut
  split
  · rename_i hmissing
    have hleft : (roundingPass (selected m.m_userIds) (way.updateItem item manner)
        (K.getItemFactFee · item) manner.ifNegativeBill (effectFee - r.2) r.1).2 = 0 := by
      rcases lt_or_gt_of_ne hmissing with hback' | hmore
      · exact roundingPass_of_neg hback' (hback (by omega))
      · exact roundingPass_of_pos hneg h.none hmore hle
    rw [itemTotal, roundingPass_total fun u x _ hnum => h.takes manner (.inl hnum), hleft, add_zero]
    rfl
  · omega

/-- The share of a user without fees. -/
theorem feeShare_zero (effectFee sumFee : Int) : feeShare effectFee sumFee 0 = 0 := by
  have hzero : (effectFee : ℚ) * (0 : Int) / sumFee = ((0 : Int) : ℚ) := by simp
  unfold feeShare
  rw [hzero]
  split
  · exact trunc_int_add_half le_rfl
  · rw [neg_div, ← sub_eq_add_neg]
    exact trunc_int_sub_half le_rfl

variable (effectFee sumFee) in
/-- A share of a fee is taken off it, and the number of items stays. -/
theorem Exact.keeps_feeShare (h : Exact K way m item) (manner : Manner) (u : UserDetailBill S) :
    Keeps (selected m.m_userIds) (K.getItemFactFee · item) (way.updateItem item manner) u
      (feeShare effectFee sumFee (K.getItemFactFee u item).2) := by
  have hnone : (K.getItemFactFee u item).1 = 0 →
      feeShare effectFee sumFee (K.getItemFactFee u item).2 = 0 := by
    intro hu
    rw [h.none u hu, feeShare_zero]
  exact ⟨h.takes manner ((Nat.eq_zero_or_pos _).symm.imp_right hnone), h.num manner u _⟩

/-- Shares by the fee need no `updateSubIdFeeItemFirst`: nobody without the item has one. -/
theorem Exact.sharedOut_of_fees (h : Exact K way m item) (hfees : sumFee ≠ 0) :
    sharedOut K way m item manner effectFee sumFee =
      sharePass (selected m.m_userIds) (way.updateItem item manner)
        (fun u => feeShare effectFee sumFee (K.getItemFactFee u item).2)
        m.m_detailBill.m_detailBillVector := by
  have hupdate : ∀ u, updateFirstOr K way item manner
      (fun num discountFee => num = 0 && discountFee < 0) u
        (feeShare effectFee sumFee (K.getItemFactFee u item).2) =
      way.updateItem item manner u (feeShare effectFee sumFee (K.getItemFactFee u item).2) := by
    intro u
    refine if_neg fun hto => ?_
    simp only [Bool.and_eq_true, decide_eq_true_eq] at hto
    rw [h.none u hto.1, feeShare_zero] at hto
    exact lt_irrefl _ hto.2
  unfold sharedOut
  rw [if_neg hfees, sharePass_eq, sharePass_eq]
  simp only [hupdate]

/-- **Shares by the fee apply the whole amount.** -/
theorem distribute_of_fees (h : Exact K way m item)
    (hneg : manner.ifNegativeBill ≠ NEGATIVE_BILL_YES)
    (hsum : sumFee = itemTotal K m item m.m_detailBill.m_detailBillVector) (hfees : sumFee ≠ 0)
    (hle : effectFee ≤ sumFee) :
    itemTotal K m item (distribute K way m item manner effectFee sumFee) = sumFee - effectFee := by
  have hkeeps := h.keeps_feeShare effectFee sumFee manner
  have hshared : itemTotal K m item (sharedOut K way m item manner effectFee sumFee).1 =
      sumFee - (sharedOut K way m item manner effectFee sumFee).2 := by
    rw [h.sharedOut_of_fees hfees]
    exact (sharePass_total fun u _ => (hkeeps u).1).trans (congrArg (· - _) hsum.symm)
  unfold distribute
  rw [handedOut_total h hneg, hshared]
  · omega
  · rw [hshared]
    omega
  · intro _
    obtain ⟨u, hu, hsel, hnum⟩ := somebody_of_total h.none (hsum ▸ hfees)
    rw [h.sharedOut_of_fees hfees]
    refine (sharePass_somebody_iff fun v hv => (hkeeps v).1.1.trans hv).mpr ⟨u, hu, hsel, ?_⟩
    exact (hkeeps u).2 ▸ hnum

/-- Without fees everybody has the same surcharge, or none. -/
theorem equalShare_nonpos {n : Nat} (he : effectFee ≤ 0) : equalShare effectFee n ≤ 0 := by
  have hquot : (effectFee : ℚ) / n ≤ 0 :=
    div_nonpos_of_nonpos_of_nonneg (Int.cast_nonpos.mpr he) (Nat.cast_nonneg n)
  exact (halfAway_trunc_sub hquot).ge_of_ge (by simpa using hquot)

/-- There is one from half a unit for each user on. -/
theorem equalShare_neg_iff {n : Nat} (hn : 0 < n) (he : effectFee ≤ 0) :
    equalShare effectFee n < 0 ↔ (n : Int) ≤ 2 * -effectFee := by
  have hn' : (0 : ℚ) < n := Nat.cast_pos.mpr hn
  have hquot : (effectFee : ℚ) / n ≤ 0 :=
    div_nonpos_of_nonpos_of_nonneg (Int.cast_nonpos.mpr he) hn'.le
  have hlow : (effectFee : ℚ) / n - 1 / 2 ≤ ((-1 : Int) : ℚ) ↔ (n : Int) ≤ 2 * -effectFee := by
    rw [← @Int.cast_le ℚ]
    push_cast
    rw [sub_le_iff_le_add, div_le_iff₀ hn']
    constructor <;> intro h <;> linarith
  unfold equalShare
  rw [trunc_of_nonpos (by linarith), ← hlow, ← Int.ceil_le]
  omega

/-- Somebody selected takes a surcharge on an item without fees. -/
def Taken (K : Calls S) (way : Way S) (m : Mgr S) (item : Item) (effectFee : Int) : Prop :=
  ∃ u ∈ m.m_detailBill.m_detailBillVector, selected m.m_userIds u = true ∧
    (way.toFirst (K.getItemFactFee u item).1 (equalShare effectFee (idNum m)) = true ∨
      0 < (K.getItemFactFee u item).1)

variable (manner) in
/-- **Shares of the same size apply the whole amount** when somebody takes it, and else nothing. -/
theorem distribute_of_none (h : Exact K way m item)
    (hneg : manner.ifNegativeBill ≠ NEGATIVE_BILL_YES)
    (hsum : itemTotal K m item m.m_detailBill.m_detailBillVector = 0) (he : effectFee ≤ 0)
    (hother : ∀ num x, x ≤ 0 → ¬ way.toFirst num x = true → 0 < num ∨ x = 0) :
    (effectFee = 0 ∨ Taken K way m item effectFee →
      itemTotal K m item (distribute K way m item manner effectFee 0) = -effectFee) ∧
    (effectFee < 0 → ¬ Taken K way m item effectFee →
      itemTotal K m item (distribute K way m item manner effectFee 0) = 0) := by
  have hshare := equalShare_nonpos (n := idNum m) he
  generalize hd : equalShare effectFee (idNum m) = d at hshare
  have htakes : ∀ u, Takes (selected m.m_userIds) (K.getItemFactFee · item)
      (updateFirstOr K way item manner way.toFirst) u d := fun u =>
    h.takes_first manner (fun _ => hshare) (hother _ d hshare)
  have hshared : sharedOut K way m item manner effectFee 0 =
      sharePass (selected m.m_userIds) (updateFirstOr K way item manner way.toFirst) (fun _ => d)
        m.m_detailBill.m_detailBillVector := by
    unfold sharedOut
    rw [if_pos rfl, hd]
  have htotal : itemTotal K m item (sharedOut K way m item manner effectFee 0).1 =
      -(sharedOut K way m item manner effectFee 0).2 := by
    rw [hshared, ← zero_sub, ← hsum]
    exact sharePass_total fun u _ => htakes u
  have hnum : ∀ u, 0 < (K.getItemFactFee (updateFirstOr K way item manner way.toFirst u d) item).1 ↔
      way.toFirst (K.getItemFactFee u item).1 d = true ∨ 0 < (K.getItemFactFee u item).1 := by
    intro u
    unfold updateFirstOr
    split
    · rename_i hto
      exact iff_of_true (h.firstNum manner u d) (.inl hto)
    · rename_i hto
      rw [h.num, or_iff_right hto]
  have hsome : Somebody (selected m.m_userIds) (K.getItemFactFee · item)
      (sharedOut K way m item manner effectFee 0).1 ↔ Taken K way m item effectFee := by
    unfold Taken
    rw [hshared, sharePass_somebody_iff fun u hu => (htakes u).1.trans hu, hd]
    exact exists_congr fun u => and_congr_right fun _ => and_congr_right fun _ => hnum u
  have hzero : d = 0 → (sharedOut K way m item manner effectFee 0).2 = 0 := by
    rintro rfl
    rw [hshared, sharePass_eq]
    exact List.sum_eq_zero fun x hx => by
      obtain ⟨-, -, rfl⟩ := List.mem_map.mp hx
      rfl
  constructor
  · intro hnone
    unfold distribute
    rw [handedOut_total h hneg, htotal]
    · omega
    · omega
    · intro hback
      refine hsome.mpr (hnone.resolve_left ?_)
      rintro rfl
      rw [hzero] at hback
      · exact lt_irrefl _ hback
      · have hhalf : trunc (((0 : Int) : ℚ) - 1 / 2) = 0 := trunc_int_sub_half le_rfl
        rw [← hd, equalShare, Int.cast_zero, zero_div, ← Int.cast_zero, hhalf]
  · intro hneg' hnobody
    have hfees : (sharedOut K way m item manner effectFee 0).2 = 0 := by
      by_cases hd0 : d = 0
      · exact hzero hd0
      · rw [hshared, sharePass_eq, List.filter_eq_nil_iff.mpr]
        · rfl
        · intro u hu hsel
          refine hnobody ⟨u, hu, hsel, ?_⟩
          rw [hd]
          by_contra hno
          rw [not_or] at hno
          have hother' := hother _ d hshare hno.1
          omega
    unfold distribute handedOut
    rw [hfees, sub_zero, if_pos hneg'.ne, roundingPass_of_none (mt hsome.mp hnobody), htotal, hfees]
    rfl

end Apply

/-! ## What an update applies and returns -/

section Updates

variable [DecidableEq S] (K : Calls S) (way : Way S) (m : Mgr S) (itemCode effectFee : Int)
  (ifNotShowNegative discountType ifNegativeBill : Char)

/-- The item of a code. -/
def itemOf : Item := ⟨itemCode, K.find itemCode⟩

/-- What the selected users have to pay for the item before the update. -/
def feeBefore : Int := itemTotal K m (itemOf K itemCode) m.m_detailBill.m_detailBillVector

/-- By how much an update has lowered that. -/
def applied (r : Updated S) : Int :=
  feeBefore K m itemCode - itemTotal K m (itemOf K itemCode) r.users

variable {K way m itemCode ifNegativeBill}

/-- **Where there are fees**, what is within the account's bill is applied or returned. -/
theorem updateWay_of_fees (h : Exact K way m (itemOf K itemCode))
    (hneg : ifNegativeBill ≠ NEGATIVE_BILL_YES) (hfees : feeBefore K m itemCode ≠ 0) :
    applied K m itemCode (updateWay K way m itemCode effectFee ifNotShowNegative discountType
        ifNegativeBill) =
      min (clampAccount m effectFee) (feeBefore K m itemCode) ∧
    (updateWay K way m itemCode effectFee ifNotShowNegative discountType ifNegativeBill).leftFee =
      max 0 (clampAccount m effectFee - feeBefore K m itemCode) := by
  have hsum : K.getFactFee m ⟨itemCode, K.find itemCode⟩ = feeBefore K m itemCode := h.getFactFee
  have htotal : ∀ e ≤ feeBefore K m itemCode, itemTotal K m (itemOf K itemCode)
      (distribute K way m (itemOf K itemCode)
        ⟨ifShowMinus e ifNotShowNegative, discountType, ifNegativeBill⟩ e
        (feeBefore K m itemCode)) = feeBefore K m itemCode - e := fun e he =>
    distribute_of_fees h hneg rfl hfees he
  unfold updateWay update applied
  dsimp only
  rw [hsum, if_neg fun h => hfees h.1]
  by_cases hover : clampAccount m effectFee > feeBefore K m itemCode
  · simp only [if_pos (And.intro hover hneg)]
    have hall := htotal _ le_rfl
    rw [itemOf] at hall ⊢
    rw [hall]
    omega
  · simp only [if_neg fun h : _ ∧ _ => hover h.1]
    have hpart := htotal _ (not_lt.mp hover)
    rw [itemOf] at hpart ⊢
    rw [hpart]
    omega

/-- Where there are none, only a surcharge is applied, if somebody takes it, and a discount is
returned. -/
theorem updateWay_of_none (h : Exact K way m (itemOf K itemCode))
    (hneg : ifNegativeBill ≠ NEGATIVE_BILL_YES) (hfees : feeBefore K m itemCode = 0)
    (hother : ∀ num x, x ≤ 0 → ¬ way.toFirst num x = true → 0 < num ∨ x = 0) :
    let r := updateWay K way m itemCode effectFee ifNotShowNegative discountType ifNegativeBill
    (0 < clampAccount m effectFee ∨ clampAccount m effectFee = 0 ∨
        Taken K way m (itemOf K itemCode) (clampAccount m effectFee) →
      applied K m itemCode r + r.leftFee = clampAccount m effectFee) ∧
    (clampAccount m effectFee < 0 →
      ¬ Taken K way m (itemOf K itemCode) (clampAccount m effectFee) →
      applied K m itemCode r + r.leftFee = 0) := by
  intro r
  have hsum : K.getFactFee m ⟨itemCode, K.find itemCode⟩ = 0 := h.getFactFee.trans hfees
  by_cases hpos : 0 < clampAccount m effectFee
  · have hr : r = ⟨m.m_detailBill.m_detailBillVector, clampAccount m effectFee,
        clampAccount m effectFee⟩ := by
      unfold r updateWay update
      dsimp only
      rw [hsum, if_pos ⟨rfl, hpos, hneg⟩]
    rw [hr]
    refine ⟨fun _ => ?_, fun hlt => absurd hlt hpos.not_gt⟩
    have hsame : applied K m itemCode
        ⟨m.m_detailBill.m_detailBillVector, clampAccount m effectFee, clampAccount m effectFee⟩ = 0 :=
      sub_self _
    rw [hsame, zero_add]
  · have hle : clampAccount m effectFee ≤ 0 := not_lt.mp hpos
    have hr : r = ⟨distribute K way m (itemOf K itemCode)
        ⟨ifShowMinus (clampAccount m effectFee) ifNotShowNegative, discountType, ifNegativeBill⟩
        (clampAccount m effectFee) 0, clampAccount m effectFee, 0⟩ := by
      unfold r updateWay update
      dsimp only
      rw [hsum, if_neg fun h => hpos h.2.1]
      simp only [if_neg fun h : _ ∧ _ => hpos h.1]
      rfl
    obtain ⟨htaken, hnobody⟩ := distribute_of_none
      ⟨ifShowMinus (clampAccount m effectFee) ifNotShowNegative, discountType, ifNegativeBill⟩
      h hneg hfees hle hother
    rw [hr]
    unfold applied
    rw [hfees]
    dsimp only
    constructor
    · intro hcase
      rw [htaken (hcase.resolve_left hpos)]
      omega
    · intro hlt hnot
      rw [hnobody hlt hnot]
      omega

/-- What is applied and what is returned are the amount that was asked for. -/
def Reports (K : Calls S) (m : Mgr S) (itemCode effectFee : Int) (r : Updated S) : Prop :=
  applied K m itemCode r + r.leftFee = effectFee

instance (K : Calls S) (m : Mgr S) (itemCode effectFee : Int) (r : Updated S) :
    Decidable (Reports K m itemCode effectFee r) :=
  inferInstanceAs (Decidable (_ = _))

/-- On the bill of an account nothing is cut off exactly when the discount is at most all fees. -/
theorem clampAccount_eq_iff (hid : m.m_detailBill.m_idType ≠ .USER) :
    clampAccount m effectFee = effectFee ↔ (0 < effectFee → effectFee ≤ getFactFeeAll m) := by
  unfold clampAccount
  simp only [ne_eq, hid, not_false_eq_true, and_true]
  split_ifs <;> omega

/-- When an update of an account's bill reports what it did not apply: the amount is within the
account's bill, and a surcharge on an item without fees is taken by somebody. -/
theorem updateWay_reports_iff (h : Exact K way m (itemOf K itemCode))
    (hneg : ifNegativeBill ≠ NEGATIVE_BILL_YES)
    (hother : ∀ num x, x ≤ 0 → ¬ way.toFirst num x = true → 0 < num ∨ x = 0)
    (hid : m.m_detailBill.m_idType ≠ .USER) :
    Reports K m itemCode effectFee
        (updateWay K way m itemCode effectFee ifNotShowNegative discountType ifNegativeBill) ↔
      (0 < effectFee → effectFee ≤ getFactFeeAll m) ∧
        (effectFee < 0 → feeBefore K m itemCode = 0 →
          Taken K way m (itemOf K itemCode) effectFee) := by
  have hclamp := clampAccount_eq_iff (m := m) effectFee hid
  unfold Reports
  rw [← hclamp]
  by_cases hfees : feeBefore K m itemCode = 0
  · obtain ⟨hwhole, hnothing⟩ := updateWay_of_none effectFee ifNotShowNegative discountType h hneg
      hfees hother
    by_cases hnobody : clampAccount m effectFee < 0 ∧
        ¬ Taken K way m (itemOf K itemCode) (clampAccount m effectFee)
    · rw [hnothing hnobody.1 hnobody.2]
      constructor
      · intro hzero
        have hsame := hclamp.mpr fun hpos => absurd hzero hpos.ne
        omega
      · rintro ⟨hsame, htaken⟩
        rw [hsame] at hnobody
        exact absurd (htaken hnobody.1 hfees) hnobody.2
    · have htaken : clampAccount m effectFee < 0 →
          Taken K way m (itemOf K itemCode) (clampAccount m effectFee) := fun hlt =>
        not_not.mp fun hnot => hnobody ⟨hlt, hnot⟩
      have htotal := hwhole <| (lt_trichotomy 0 (clampAccount m effectFee)).imp_right <|
        Or.imp Eq.symm htaken
      rw [htotal]
      refine ⟨fun hsame => ⟨hsame, fun hlt _ => ?_⟩, And.left⟩
      rw [hsame] at htaken
      exact htaken hlt
  · obtain ⟨happlied, hleft⟩ := updateWay_of_fees effectFee ifNotShowNegative discountType h hneg
      hfees
    rw [happlied, hleft]
    have hall : min (clampAccount m effectFee) (feeBefore K m itemCode) +
        max 0 (clampAccount m effectFee - feeBefore K m itemCode) = clampAccount m effectFee := by
      omega
    rw [hall]
    exact ⟨fun hsame => ⟨hsame, fun _ hzero => absurd hzero hfees⟩, And.left⟩

end Updates

/-! ## What each user has to pay -/

section Users

variable {fact : UserDetailBill S → Nat × Int} {sel : UserDetailBill S → Bool}
  {update : UserDetailBill S → Int → UserDetailBill S} {share : UserDetailBill S → Int}
  {users : List (UserDetailBill S)} {integerfee : Int} {ifNegativeBill : Char}

/-- A fee that was lowered, and not below 0. -/
def Lowered (fact : UserDetailBill S → Nat × Int) (u u' : UserDetailBill S) : Prop :=
  0 ≤ (fact u').2 ∧ (fact u').2 ≤ (fact u).2

instance (u u' : UserDetailBill S) : Decidable (Lowered fact u u') :=
  inferInstanceAs (Decidable (_ ∧ _))

/-- Shares of the fees lower them. -/
theorem lowered_shares (hshare : ∀ u ∈ users, sel u = true → Takes sel fact update u (share u))
    (hrange : ∀ u ∈ users, 0 ≤ share u ∧ share u ≤ (fact u).2) :
    List.Forall₂ (Lowered fact) users (users.map fun u => if sel u then update u (share u) else u) := by
  rw [List.forall₂_map_right_iff, List.forall₂_same]
  intro u hu
  have hu' := hrange u hu
  unfold Lowered
  split
  · rename_i hsel
    rw [(hshare u hu hsel).2]
    omega
  · omega

/-- Nobody pays more when more is handed out. -/
theorem lowered_roundingPass (hneg : ifNegativeBill ≠ NEGATIVE_BILL_YES) (hpos : 0 < integerfee)
    (h : ∀ u x, sel u = true → 0 < (fact u).1 → Takes sel fact update u x)
    (hfees : ∀ u ∈ users, 0 ≤ (fact u).2) :
    List.Forall₂ (Lowered fact) users
      (roundingPass sel update fact ifNegativeBill integerfee users).1 := by
  have hsame : ∀ rest : List (UserDetailBill S), (∀ u ∈ rest, 0 ≤ (fact u).2) →
      List.Forall₂ (Lowered fact) rest rest := fun rest hrest =>
    List.forall₂_same.mpr fun u hu => ⟨hrest u hu, le_rfl⟩
  induction users generalizing integerfee with
  | nil => exact .nil
  | cons u rest ih =>
      have hu0 := hfees u List.mem_cons_self
      have hrest : ∀ v ∈ rest, 0 ≤ (fact v).2 := fun v hv => hfees v (List.mem_cons_of_mem u hv)
      unfold roundingPass
      by_cases hu : (sel u && (fact u).1 > 0) = true
      · rw [if_pos hu]
        simp only [Bool.and_eq_true, decide_eq_true_eq] at hu
        have hfee := (h u (roundingFee ifNegativeBill (fact u).2 integerfee) hu.1 hu.2).2
        have hrange : 0 ≤ roundingFee ifNegativeBill (fact u).2 integerfee ∧
            roundingFee ifNegativeBill (fact u).2 integerfee ≤ (fact u).2 ∧
            roundingFee ifNegativeBill (fact u).2 integerfee ≤ integerfee := by
          unfold roundingFee
          split_ifs <;> omega
        have hlow : Lowered fact u (update u (roundingFee ifNegativeBill (fact u).2 integerfee)) := by
          unfold Lowered
          omega
        dsimp only
        split
        · exact .cons hlow (hsame rest hrest)
        · exact .cons hlow (ih (by omega) hrest)
      · rw [if_neg hu]
        exact .cons ⟨hu0, le_rfl⟩ (ih hpos hrest)

/-- The first selected user with the item. -/
def firstUser (sel : UserDetailBill S → Bool) (fact : UserDetailBill S → Nat × Int)
    (users : List (UserDetailBill S)) : Option (UserDetailBill S) :=
  users.find? fun u => sel u && (fact u).1 > 0

/-- **What goes back goes to the first user**, who then pays no more than before just when the share
was not less than that. -/
theorem lowered_back_iff (hback : integerfee < 0)
    (hshare : ∀ u ∈ users, sel u = true → Keeps sel fact update u (share u))
    (hrange : ∀ u ∈ users, 0 ≤ share u ∧ share u ≤ (fact u).2)
    (h : ∀ u x, sel u = true → 0 < (fact u).1 → Takes sel fact update u x) :
    List.Forall₂ (Lowered fact) users
        (roundingPass sel update fact ifNegativeBill integerfee
          (users.map fun u => if sel u then update u (share u) else u)).1 ↔
      ∀ u, firstUser sel fact users = some u → -integerfee ≤ share u := by
  induction users with
  | nil => simp [roundingPass, firstUser]
  | cons u rest ih =>
      have hrest := ih (fun v hv => hshare v (List.mem_cons_of_mem u hv))
        fun v hv => hrange v (List.mem_cons_of_mem u hv)
      have hlow := lowered_shares (fun v hv hv' => (hshare v hv hv').1) hrange
      rw [List.map_cons, List.forall₂_cons] at hlow
      have hu0 := hrange u List.mem_cons_self
      by_cases hu : (sel u && (fact u).1 > 0) = true
      · have hfirst : firstUser sel fact (u :: rest) = some u := List.find?_cons_of_pos hu
        simp only [Bool.and_eq_true, decide_eq_true_eq] at hu
        obtain ⟨⟨hsel, hfee⟩, hnum⟩ := hshare u List.mem_cons_self hu.1
        have hhas : (sel (update u (share u)) && (fact (update u (share u))).1 > 0) = true := by
          simp [hsel, hnum, hu.1, hu.2]
        have hall : roundingFee ifNegativeBill (fact (update u (share u))).2 integerfee =
            integerfee := by
          unfold roundingFee
          split_ifs <;> omega
        have hfee' := (h (update u (share u)) integerfee (hsel.trans hu.1) (hnum ▸ hu.2)).2
        rw [List.map_cons, if_pos hu.1, roundingPass, if_pos hhas]
        dsimp only
        rw [hall, if_pos (sub_self _), List.forall₂_cons, and_iff_left hlow.2, hfirst]
        unfold Lowered
        rw [hfee', hfee]
        constructor
        · rintro ⟨-, hle⟩ v hv
          obtain rfl := Option.some.inj hv
          omega
        · intro hle
          have := hle u rfl
          omega
      · have hfirst : firstUser sel fact (u :: rest) = firstUser sel fact rest :=
          List.find?_cons_of_neg hu
        have hskip : ¬ (sel (if sel u = true then update u (share u) else u) &&
            (fact (if sel u = true then update u (share u) else u)).1 > 0) = true := by
          by_cases hsel : sel u = true
          · obtain ⟨⟨hsel', -⟩, hnum⟩ := hshare u List.mem_cons_self hsel
            rwa [if_pos hsel, hsel', hnum]
          · rwa [if_neg hsel]
        rw [List.map_cons, roundingPass, if_neg hskip, List.forall₂_cons, and_iff_right hlow.1,
          hrest, hfirst]

/-- Lowering fees twice lowers them. -/
theorem lowered_trans {l₁ l₂ l₃ : List (UserDetailBill S)} (h : List.Forall₂ (Lowered fact) l₁ l₂)
    (h' : List.Forall₂ (Lowered fact) l₂ l₃) : List.Forall₂ (Lowered fact) l₁ l₃ := by
  induction h generalizing l₃ with
  | nil => exact h'
  | cons hlow _ ih =>
      cases h' with
      | cons hlow' hrest => exact .cons ⟨hlow'.1, hlow'.2.trans hlow.2⟩ (ih hrest)

end Users

section Raised

/-- A part of an amount by the fee, to the nearest. -/
def nearestShare (effectFee sumFee m_sumFee : Int) : Int :=
  (effectFee * m_sumFee + sumFee.tdiv 2).tdiv sumFee

variable {effectFee sumFee m_sumFee : Int}

/-- The nearest share is the exact one rounded half away from zero. -/
theorem halfAway_nearestShare (he : 0 ≤ effectFee) (hsum : 0 < sumFee) (hfee : 0 ≤ m_sumFee) :
    HalfAway (((effectFee * m_sumFee : Int) : ℚ) / sumFee)
      (nearestShare effectFee sumFee m_sumFee) :=
  halfAway_tdiv_add_half (mul_nonneg he hfee) hsum

/-- The share that is computed is the nearest one. -/
theorem feeShare_eq (he : 0 < effectFee) (hsum : 0 < sumFee) (hfee : 0 ≤ m_sumFee) :
    feeShare effectFee sumFee m_sumFee = nearestShare effectFee sumFee m_sumFee := by
  have hquot : (0 : ℚ) ≤ ((effectFee * m_sumFee : Int) : ℚ) / sumFee :=
    div_nonneg (Int.cast_nonneg (mul_nonneg he.le hfee)) (Int.cast_nonneg hsum.le)
  unfold feeShare
  rw [if_pos he, ← Int.cast_mul]
  exact (halfAway_trunc_add hquot).unique (halfAway_nearestShare he.le hsum hfee)

/-- A share is no more than the fee. -/
theorem nearestShare_range (he : 0 ≤ effectFee) (hle : effectFee ≤ sumFee) (hsum : 0 < sumFee)
    (hfee : 0 ≤ m_sumFee) :
    0 ≤ nearestShare effectFee sumFee m_sumFee ∧
      nearestShare effectFee sumFee m_sumFee ≤ m_sumFee := by
  have hround := halfAway_nearestShare he hsum hfee
  have hsum' : (0 : ℚ) < sumFee := Int.cast_pos.mpr hsum
  constructor
  · refine hround.le_of_le ?_
    rw [Int.cast_zero]
    exact div_nonneg (Int.cast_nonneg (mul_nonneg he hfee)) hsum'.le
  · refine hround.ge_of_ge ?_
    rw [div_le_iff₀ hsum', ← Int.cast_mul, Int.cast_le, mul_comm]
    exact mul_le_mul_of_nonneg_left hle hfee

variable [DecidableEq S] {K : Calls S} {way : Way S} {m : Mgr S} {item : Item} {manner : Manner}

/-- By how much the shares together exceed the amount. -/
def excess (K : Calls S) (m : Mgr S) (item : Item) (effectFee sumFee : Int) : Int :=
  (m.users.map fun u => nearestShare effectFee sumFee (K.getItemFactFee u item).2).sum - effectFee

/-- The first user with the item has a share of what the shares exceed the amount by. -/
def Covered (K : Calls S) (m : Mgr S) (item : Item) (effectFee sumFee : Int) : Prop :=
  excess K m item effectFee sumFee ≤ 0 ∨
    ∀ u, firstUser (selected m.m_userIds) (K.getItemFactFee · item)
        m.m_detailBill.m_detailBillVector = some u →
      excess K m item effectFee sumFee ≤
        nearestShare effectFee sumFee (K.getItemFactFee u item).2

/-- **Nobody pays more than before** just when the first user covers the excess. -/
theorem distribute_lowered_iff (h : Exact K way m item)
    (hneg : manner.ifNegativeBill ≠ NEGATIVE_BILL_YES)
    (hfees : ∀ u ∈ m.m_detailBill.m_detailBillVector, 0 ≤ (K.getItemFactFee u item).2)
    (hsum : 0 < sumFee) (he : 0 < effectFee) (hle : effectFee ≤ sumFee) :
    List.Forall₂ (Lowered (K.getItemFactFee · item)) m.m_detailBill.m_detailBillVector
        (distribute K way m item manner effectFee sumFee) ↔
      Covered K m item effectFee sumFee := by
  let share : UserDetailBill S → Int := fun u => feeShare effectFee sumFee (K.getItemFactFee u item).2
  have hshare : ∀ u ∈ m.m_detailBill.m_detailBillVector, share u =
      nearestShare effectFee sumFee (K.getItemFactFee u item).2 := fun u hu =>
    feeShare_eq he hsum (hfees u hu)
  have hrange : ∀ u ∈ m.m_detailBill.m_detailBillVector,
      0 ≤ share u ∧ share u ≤ (K.getItemFactFee u item).2 := by
    intro u hu
    rw [hshare u hu]
    exact nearestShare_range he.le hle hsum (hfees u hu)
  have hkeeps : ∀ u ∈ m.m_detailBill.m_detailBillVector, selected m.m_userIds u = true →
      Keeps (selected m.m_userIds) (K.getItemFactFee · item) (way.updateItem item manner) u
        (share u) := fun u _ _ => h.keeps_feeShare effectFee sumFee manner u
  have htakes : ∀ u x, selected m.m_userIds u = true → 0 < (K.getItemFactFee u item).1 →
      Takes (selected m.m_userIds) (K.getItemFactFee · item) (way.updateItem item manner) u x :=
    fun u x _ hnum => h.takes manner (.inl hnum)
  have hlow := lowered_shares (fun u hu hsel => (hkeeps u hu hsel).1) hrange
  have hexcess : (m.users.map share).sum - effectFee = excess K m item effectFee sumFee := by
    unfold excess
    congr 2
    exact List.map_congr_left fun u hu => hshare u (List.mem_of_mem_filter hu)
  unfold distribute handedOut Covered
  rw [h.sharedOut_of_fees hsum.ne', sharePass_eq]
  dsimp only
  rw [← hexcess]
  split
  · rename_i hmissing
    rcases lt_or_gt_of_ne hmissing with hback | hmore
    · -- the shares exceed the amount, and the first user with the item gives it back
      rw [lowered_back_iff hback hkeeps hrange htakes, neg_sub]
      change _ ↔ (m.users.map share).sum - effectFee ≤ 0 ∨ _
      have hover : ¬ (m.users.map share).sum - effectFee ≤ 0 := by
        change effectFee - (m.users.map share).sum < 0 at hback
        omega
      rw [or_iff_right hover]
      refine forall_congr' fun u => forall_congr' fun hu => ?_
      rw [← hshare u (List.mem_of_find?_eq_some hu)]
      rfl
    · -- nothing is given back
      change effectFee - (m.users.map share).sum > 0 at hmore
      refine iff_of_true ?_ (.inl (by omega))
      refine lowered_trans hlow (lowered_roundingPass hneg hmore htakes ?_)
      intro u hu
      obtain ⟨v, hv, rfl⟩ := List.mem_map.mp hu
      exact (List.forall₂_same.mp (List.forall₂_map_right_iff.mp hlow) v hv).1
  · rename_i hwhole
    change ¬ effectFee - (m.users.map share).sum ≠ 0 at hwhole
    exact iff_of_true hlow (.inl (by omega))

end Raised

/-! ## One detail item -/

/-- An amount off the first record of an item. -/
def takeFrom (code x : Int) : List DetailItemFee → List DetailItemFee
  | [] => []
  | fee :: rest =>
      if fee.m_detailItemCode = code then { fee with m_nfee := fee.m_nfee - x } :: rest
      else fee :: takeFrom code x rest

/-- Every item has the one detail item 1, and an update takes its amount from that. -/
def oneDetail : Calls Nat where
  find _ := [(1, 1)]
  getItemFactFee u _ :=
    let mine := u.m_feeVector.filter (·.m_detailItemCode = 1)
    (mine.length, userTotal .nfee mine)
  getFactFee m _ :=
    (m.users.map fun u => userTotal .nfee (u.m_feeVector.filter (·.m_detailItemCode = 1))).sum
  updateSubIdFeeItemFirst _ _ u x :=
    { u with m_feeVector := u.m_feeVector ++ [{ m_detailItemCode := 1, m_nfee := -x }] }
  updateSubIdFeeItemAve _ _ u x := { u with m_feeVector := takeFrom 1 x u.m_feeVector }
  updateSubIdFeeItemPrior _ _ u x := { u with m_feeVector := takeFrom 1 x u.m_feeVector }
  userPriorItemAve m _ _ effectFee _ leftFee :=
    (match m.m_detailBill.m_detailBillVector with
      | [] => []
      | u :: rest => { u with m_feeVector := takeFrom 1 effectFee u.m_feeVector } :: rest, leftFee)

/-- A bill of users who each have the item at a fee. -/
def billOf (idType : IdType) (fees : List Int) : Mgr Nat where
  m_detailBill :=
    { m_idType := idType
      m_id := 0
      m_detailBillVector := fees.zipIdx.map fun f =>
        ⟨f.2, 0, [{ m_detailItemCode := 1, m_ofee := f.1, m_nfee := f.1 }]⟩ }
  m_userIds := ∅

/-- Taking a part off leaves the number of fees of the item. -/
theorem takeFrom_length (code x : Int) (fees : List DetailItemFee) :
    ((takeFrom code x fees).filter (·.m_detailItemCode = code)).length =
      (fees.filter (·.m_detailItemCode = code)).length := by
  induction fees with
  | nil => rfl
  | cons fee rest ih =>
      unfold takeFrom
      by_cases hcode : fee.m_detailItemCode = code
      · simp [hcode]
      · simpa [hcode] using ih

/-- Taking a part off lowers the fees of the item by that part. -/
theorem takeFrom_total (code x : Int) (fees : List DetailItemFee)
    (h : 0 < (fees.filter (·.m_detailItemCode = code)).length ∨ x = 0) :
    userTotal .nfee ((takeFrom code x fees).filter (·.m_detailItemCode = code)) =
      userTotal .nfee (fees.filter (·.m_detailItemCode = code)) - x := by
  induction fees with
  | nil =>
      have hx : x = 0 := h.resolve_left (by simp)
      simp [takeFrom, userTotal, hx]
  | cons fee rest ih =>
      unfold takeFrom
      by_cases hcode : fee.m_detailItemCode = code
      · simp [hcode, userTotal, DetailItemFee.amount]
        omega
      · simp only [hcode, decide_false, Bool.false_eq_true, not_false_eq_true,
          List.filter_cons_of_neg] at h
        simpa [hcode] using ih h

/-- With one detail item the calls do what is asked of them. -/
theorem oneDetail_exact {way : Way Nat}
    (hway : way.updateItem = fun _ _ u x => { u with m_feeVector := takeFrom 1 x u.m_feeVector })
    (m : Mgr Nat) (item : Item) : Exact oneDetail way m item where
  getFactFee := rfl
  none u hu := by
    have hnil : u.m_feeVector.filter (·.m_detailItemCode = 1) = [] := List.length_eq_zero_iff.mp hu
    simp [oneDetail, hnil, userTotal]
  subId manner u x := by rw [hway]
  num manner u x := by
    rw [hway]
    exact takeFrom_length 1 x u.m_feeVector
  fee manner u x hx := by
    rw [hway]
    exact takeFrom_total 1 x u.m_feeVector hx
  firstSubId _ _ _ := rfl
  firstNum manner u x := by simp [oneDetail]
  firstFee manner u x _ := by
    simp [oneDetail, userTotal, DetailItemFee.amount]
    omega

/-! ## Bills of users and of accounts -/

section Bills

variable [DecidableEq S] {K : Calls S} {m : Mgr S} {itemCode effectFee : Int}
  {ifNotShowNegative discountType ifNegativeBill : Char}

omit [DecidableEq S] in
/-- Who is not given the item first has it already. -/
theorem userAveItemAve_other (num : Nat) (x : Int) (_ : x ≤ 0)
    (h : ¬ (userAveItemAve K).toFirst num x = true) : 0 < num ∨ x = 0 := by
  have hnum : num ≠ 0 := by simpa [userAveItemAve] using h
  exact .inl (Nat.pos_of_ne_zero hnum)

omit [DecidableEq S] in
/-- Who is not given the item first has it already, or nothing is taken. -/
theorem userAveItemPrior_other (num : Nat) (x : Int) (hx : x ≤ 0)
    (h : ¬ (userAveItemPrior K).toFirst num x = true) : 0 < num ∨ x = 0 := by
  have hnum : num = 0 → 0 ≤ x := by simpa [userAveItemPrior] using h
  omega

/-- **A discount on the bill of a user is applied or returned**: what goes beyond the fees is
returned, and all else is applied. -/
theorem user_discount_distributed (hitemAve : Exact K (userAveItemAve K) m (itemOf K itemCode))
    (hitemPrior : Exact K (userAveItemPrior K) m (itemOf K itemCode))
    (hid : m.m_detailBill.m_idType = .USER) (hneg : ifNegativeBill ≠ NEGATIVE_BILL_YES)
    (hpos : 0 < feeBefore K m itemCode) :
    ∀ r ∈ [update_userAveItemAve K m itemCode effectFee ifNotShowNegative discountType
          ifNegativeBill,
        update_userAveItemPrior K m itemCode effectFee ifNotShowNegative discountType
          ifNegativeBill],
      applied K m itemCode r + r.leftFee = effectFee ∧
        r.leftFee = max 0 (effectFee - feeBefore K m itemCode) := by
  have hclamp : clampAccount m effectFee = effectFee := if_neg fun h => h.2 hid
  have hway : ∀ way : Way S, Exact K way m (itemOf K itemCode) →
      applied K m itemCode (updateWay K way m itemCode effectFee ifNotShowNegative discountType
          ifNegativeBill) +
        (updateWay K way m itemCode effectFee ifNotShowNegative discountType
          ifNegativeBill).leftFee = effectFee ∧
      (updateWay K way m itemCode effectFee ifNotShowNegative discountType ifNegativeBill).leftFee =
        max 0 (effectFee - feeBefore K m itemCode) := by
    intro way hway
    obtain ⟨happlied, hleft⟩ := updateWay_of_fees effectFee ifNotShowNegative discountType hway hneg
      hpos.ne'
    rw [happlied, hleft, hclamp]
    omega
  intro r hr
  rcases List.mem_pair.mp hr with rfl | rfl
  · exact hway _ hitemAve
  · exact hway _ hitemPrior

/-- Shares of 1 for three users: the second pass gives the rest of 1 to one of them. -/
theorem user_discount_distributed_three :
    [update_userAveItemAve oneDetail (billOf .USER [3, 3, 3]) 5 4 '0' '0' NEGATIVE_BILL_NO,
      update_userAveItemPrior oneDetail (billOf .USER [3, 3, 3]) 5 4 '0' '0' NEGATIVE_BILL_NO].Forall
      fun r => applied oneDetail (billOf .USER [3, 3, 3]) 5 r + r.leftFee = 4 ∧
        r.leftFee = max 0 (4 - feeBefore oneDetail (billOf .USER [3, 3, 3]) 5) :=
  List.forall_iff_forall_mem.mpr <| user_discount_distributed (oneDetail_exact rfl _ _)
    (oneDetail_exact rfl _ _) rfl (by decide) (by decide)

/-- **Nobody's fee is raised** just when the first user with the item covers the excess of the
shares. -/
theorem user_fees_lowered_iff (hitemAve : Exact K (userAveItemAve K) m (itemOf K itemCode))
    (hitemPrior : Exact K (userAveItemPrior K) m (itemOf K itemCode))
    (hid : m.m_detailBill.m_idType = .USER) (hneg : ifNegativeBill ≠ NEGATIVE_BILL_YES)
    (hfees : ∀ u ∈ m.m_detailBill.m_detailBillVector,
      0 ≤ (K.getItemFactFee u (itemOf K itemCode)).2)
    (hpos : 0 < feeBefore K m itemCode) (he : 0 < effectFee) :
    ∀ r ∈ [update_userAveItemAve K m itemCode effectFee ifNotShowNegative discountType
          ifNegativeBill,
        update_userAveItemPrior K m itemCode effectFee ifNotShowNegative discountType
          ifNegativeBill],
      List.Forall₂ (Lowered (K.getItemFactFee · (itemOf K itemCode)))
          m.m_detailBill.m_detailBillVector r.users ↔
        Covered K m (itemOf K itemCode) (min effectFee (feeBefore K m itemCode))
          (feeBefore K m itemCode) := by
  have hclamp : clampAccount m effectFee = effectFee := if_neg fun h => h.2 hid
  have hway : ∀ way : Way S, Exact K way m (itemOf K itemCode) →
      (List.Forall₂ (Lowered (K.getItemFactFee · (itemOf K itemCode)))
          m.m_detailBill.m_detailBillVector
          (updateWay K way m itemCode effectFee ifNotShowNegative discountType
            ifNegativeBill).users ↔
        Covered K m (itemOf K itemCode) (min effectFee (feeBefore K m itemCode))
          (feeBefore K m itemCode)) := by
    intro way hway
    have hsum : K.getFactFee m ⟨itemCode, K.find itemCode⟩ = feeBefore K m itemCode :=
      hway.getFactFee
    have hlower : ∀ e, 0 < e → e ≤ feeBefore K m itemCode → ∀ manner : Manner,
        manner.ifNegativeBill ≠ NEGATIVE_BILL_YES →
        (List.Forall₂ (Lowered (K.getItemFactFee · (itemOf K itemCode)))
            m.m_detailBill.m_detailBillVector
            (distribute K way m (itemOf K itemCode) manner e (feeBefore K m itemCode)) ↔
          Covered K m (itemOf K itemCode) e (feeBefore K m itemCode)) :=
      fun e he hle manner hmanner => distribute_lowered_iff hway hmanner hfees hpos he hle
    unfold updateWay update
    dsimp only
    rw [hclamp, hsum, if_neg fun h => hpos.ne' h.1]
    by_cases hover : effectFee > feeBefore K m itemCode
    · simp only [if_pos (And.intro hover hneg)]
      rw [min_eq_right (le_of_lt hover)]
      exact hlower _ hpos le_rfl _ hneg
    · simp only [if_neg fun h : _ ∧ _ => hover h.1]
      rw [min_eq_left (not_lt.mp hover)]
      exact hlower _ he (not_lt.mp hover) _ hneg
  intro r hr
  rcases List.mem_pair.mp hr with rfl | rfl
  · exact hway _ hitemAve
  · exact hway _ hitemPrior

/-- Both methods, for two users who pay 1 each and a discount of 1. -/
theorem user_fees_lowered_iff_two :
    [update_userAveItemAve oneDetail (billOf .USER [1, 1]) 5 1 '0' '0' NEGATIVE_BILL_NO,
      update_userAveItemPrior oneDetail (billOf .USER [1, 1]) 5 1 '0' '0' NEGATIVE_BILL_NO].Forall
      fun r => List.Forall₂ (Lowered (oneDetail.getItemFactFee · (itemOf oneDetail 5)))
          (billOf .USER [1, 1]).m_detailBill.m_detailBillVector r.users ↔
        Covered oneDetail (billOf .USER [1, 1]) (itemOf oneDetail 5)
          (min 1 (feeBefore oneDetail (billOf .USER [1, 1]) 5))
          (feeBefore oneDetail (billOf .USER [1, 1]) 5) :=
  List.forall_iff_forall_mem.mpr <| user_fees_lowered_iff (oneDetail_exact rfl _ _)
    (oneDetail_exact rfl _ _) rfl (by decide) (by decide) (by decide) (by decide)

/-- A discount of 1 for users who pay 0, 1 and 1: the shares are 0, 1 and 1, and the first user pays
1 in the end. -/
theorem user_fees_raised :
    (∀ u ∈ (billOf .USER [0, 1, 1]).m_detailBill.m_detailBillVector,
      0 ≤ (oneDetail.getItemFactFee u (itemOf oneDetail 5)).2) ∧
    0 < feeBefore oneDetail (billOf .USER [0, 1, 1]) 5 ∧
    ∀ r ∈ [update_userAveItemAve oneDetail (billOf .USER [0, 1, 1]) 5 1 '0' '0' NEGATIVE_BILL_NO,
        update_userAveItemPrior oneDetail (billOf .USER [0, 1, 1]) 5 1 '0' '0' NEGATIVE_BILL_NO],
      ¬ List.Forall₂ (Lowered (oneDetail.getItemFactFee · (itemOf oneDetail 5)))
        (billOf .USER [0, 1, 1]).m_detailBill.m_detailBillVector r.users := by
  decide +kernel

/-- What the part of `update_userPriorItemAve` that is not in the source is to do: it applies the
amount within the fees and returns what went beyond them. -/
def RestApplies (K : Calls S) (m : Mgr S) (itemCode effectFee : Int)
    (ifNotShowNegative discountType ifNegativeBill : Char) : Prop :=
  let e := min (clampAccount m effectFee) (feeBefore K m itemCode)
  let r := K.userPriorItemAve m (itemOf K itemCode)
    ⟨ifShowMinus e ifNotShowNegative, discountType, ifNegativeBill⟩ e (feeBefore K m itemCode)
    (max 0 (clampAccount m effectFee - feeBefore K m itemCode))
  itemTotal K m (itemOf K itemCode) r.1 = feeBefore K m itemCode - e ∧
    r.2 = max 0 (clampAccount m effectFee - feeBefore K m itemCode)

instance (K : Calls S) (m : Mgr S) (itemCode effectFee : Int)
    (ifNotShowNegative discountType ifNegativeBill : Char) :
    Decidable (RestApplies K m itemCode effectFee ifNotShowNegative discountType ifNegativeBill) :=
  inferInstanceAs (Decidable (_ ∧ _))

/-- The third method reports the discount of an account exactly when it does not cut it. -/
theorem userPriorItemAve_reports_iff
    (hsum : K.getFactFee m (itemOf K itemCode) = feeBefore K m itemCode)
    (hrest : RestApplies K m itemCode effectFee ifNotShowNegative discountType ifNegativeBill)
    (hid : m.m_detailBill.m_idType ≠ .USER) (hneg : ifNegativeBill ≠ NEGATIVE_BILL_YES) :
    Reports K m itemCode effectFee
        (update_userPriorItemAve K m itemCode effectFee ifNotShowNegative discountType
          ifNegativeBill) ↔
      (0 < effectFee → effectFee ≤ getFactFeeAll m) := by
  rw [← clampAccount_eq_iff effectFee hid]
  unfold Reports update_userPriorItemAve update
  dsimp only
  rw [itemOf] at hsum
  rw [hsum]
  obtain ⟨htotal, hleft⟩ := hrest
  by_cases hearly : feeBefore K m itemCode = 0 ∧ clampAccount m effectFee > 0 ∧
      ifNegativeBill ≠ NEGATIVE_BILL_YES
  · have hsame : applied K m itemCode
        ⟨m.m_detailBill.m_detailBillVector, clampAccount m effectFee, clampAccount m effectFee⟩ = 0 :=
      sub_self _
    rw [if_pos hearly, hsame, zero_add]
  · rw [if_neg hearly]
    unfold applied
    by_cases hover : clampAccount m effectFee > feeBefore K m itemCode
    · rw [min_eq_right (le_of_lt hover), max_eq_right (by omega), itemOf] at htotal hleft
      simp only [if_pos (And.intro hover hneg)]
      rw [itemOf, htotal, hleft]
      omega
    · rw [min_eq_left (not_lt.mp hover), max_eq_left (by omega), itemOf] at htotal hleft
      simp only [if_neg fun h : _ ∧ _ => hover h.1]
      rw [itemOf, htotal, hleft]
      omega

/-- There are users to distribute to exactly when one of the bill is selected. -/
theorem users_ne_nil_iff :
    m.users ≠ [] ↔ ∃ u ∈ m.m_detailBill.m_detailBillVector, selected m.m_userIds u = true := by
  unfold Mgr.users
  simp [List.filter_eq_nil_iff]

/-- There is a number to divide by when somebody is selected. -/
theorem idNum_pos {u : UserDetailBill S} (hu : u ∈ m.m_detailBill.m_detailBillVector) :
    0 < idNum m := by
  unfold idNum
  split
  · rename_i hsome
    exact Finset.card_pos.mpr (Finset.nonempty_iff_ne_empty.mpr hsome)
  · exact List.length_pos_of_mem hu

/-- **A discount on the bill of an account is applied or reported** just when the account's bill
limits nothing, and a surcharge on an item without fees finds somebody. -/
theorem account_discount_reported_iff (hitemAve : Exact K (userAveItemAve K) m (itemOf K itemCode))
    (hitemPrior : Exact K (userAveItemPrior K) m (itemOf K itemCode))
    (hrest : RestApplies K m itemCode effectFee ifNotShowNegative discountType ifNegativeBill)
    (hid : m.m_detailBill.m_idType ≠ .USER) (hneg : ifNegativeBill ≠ NEGATIVE_BILL_YES) :
    (Reports K m itemCode effectFee (update_userAveItemAve K m itemCode effectFee
        ifNotShowNegative discountType ifNegativeBill) ↔
      (0 < effectFee → effectFee ≤ getFactFeeAll m) ∧
        (effectFee < 0 → feeBefore K m itemCode = 0 → m.users ≠ [])) ∧
    (Reports K m itemCode effectFee (update_userAveItemPrior K m itemCode effectFee
        ifNotShowNegative discountType ifNegativeBill) ↔
      (0 < effectFee → effectFee ≤ getFactFeeAll m) ∧
        (effectFee < 0 → feeBefore K m itemCode = 0 →
          ∃ u ∈ m.users, 0 < (K.getItemFactFee u (itemOf K itemCode)).1 ∨
            (idNum m : Int) ≤ 2 * -effectFee)) ∧
    (Reports K m itemCode effectFee (update_userPriorItemAve K m itemCode effectFee
        ifNotShowNegative discountType ifNegativeBill) ↔
      (0 < effectFee → effectFee ≤ getFactFeeAll m)) := by
  refine ⟨?_, ?_, userPriorItemAve_reports_iff hitemAve.getFactFee hrest hid hneg⟩
  · rw [users_ne_nil_iff]
    refine (updateWay_reports_iff effectFee ifNotShowNegative discountType hitemAve hneg
      userAveItemAve_other hid).trans (and_congr_right fun _ => ?_)
    refine imp_congr_right fun _ => imp_congr_right fun _ => ?_
    refine exists_congr fun u => and_congr_right fun _ => and_iff_left ?_
    exact (Nat.eq_zero_or_pos _).imp_left decide_eq_true
  · refine (updateWay_reports_iff effectFee ifNotShowNegative discountType hitemPrior hneg
      userAveItemPrior_other hid).trans (and_congr_right fun _ => ?_)
    refine imp_congr_right fun hlt => imp_congr_right fun _ => ?_
    unfold Taken Mgr.users
    simp only [List.mem_filter, and_assoc]
    refine exists_congr fun u => and_congr_right fun hu => and_congr_right fun _ => ?_
    have hshare := equalShare_neg_iff (idNum_pos hu) hlt.le
    simp only [userAveItemPrior, Bool.and_eq_true, decide_eq_true_eq, hshare]
    omega

/-- The three methods, for an account that pays 10 and a discount of 15. -/
theorem account_discount_reported_iff_ten :
    (Reports oneDetail (billOf .ACCT [10]) 5 15 (update_userAveItemAve oneDetail
        (billOf .ACCT [10]) 5 15 '0' '0' NEGATIVE_BILL_NO) ↔
      ((0 : Int) < 15 → 15 ≤ getFactFeeAll (billOf .ACCT [10])) ∧
        ((15 : Int) < 0 → feeBefore oneDetail (billOf .ACCT [10]) 5 = 0 →
          (billOf .ACCT [10]).users ≠ [])) ∧
    (Reports oneDetail (billOf .ACCT [10]) 5 15 (update_userAveItemPrior oneDetail
        (billOf .ACCT [10]) 5 15 '0' '0' NEGATIVE_BILL_NO) ↔
      ((0 : Int) < 15 → 15 ≤ getFactFeeAll (billOf .ACCT [10])) ∧
        ((15 : Int) < 0 → feeBefore oneDetail (billOf .ACCT [10]) 5 = 0 →
          ∃ u ∈ (billOf .ACCT [10]).users,
            0 < (oneDetail.getItemFactFee u (itemOf oneDetail 5)).1 ∨
              (idNum (billOf .ACCT [10]) : Int) ≤ 2 * -15)) ∧
    (Reports oneDetail (billOf .ACCT [10]) 5 15 (update_userPriorItemAve oneDetail
        (billOf .ACCT [10]) 5 15 '0' '0' NEGATIVE_BILL_NO) ↔
      ((0 : Int) < 15 → 15 ≤ getFactFeeAll (billOf .ACCT [10]))) :=
  account_discount_reported_iff (oneDetail_exact rfl _ _) (oneDetail_exact rfl _ _) (by decide)
    (by decide) (by decide)

/-- A discount of 15 on an account that pays 10 in all: 10 are applied and nothing is returned. -/
theorem account_discount_lost :
    [update_userAveItemAve oneDetail (billOf .ACCT [10]) 5 15 '0' '0' NEGATIVE_BILL_NO,
      update_userAveItemPrior oneDetail (billOf .ACCT [10]) 5 15 '0' '0' NEGATIVE_BILL_NO,
      update_userPriorItemAve oneDetail (billOf .ACCT [10]) 5 15 '0' '0' NEGATIVE_BILL_NO].Forall
      fun r => ¬ Reports oneDetail (billOf .ACCT [10]) 5 15 r := by
  decide +kernel

end Bills

end DetailBillMgr
