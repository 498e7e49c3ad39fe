import Mathlib.Algebra.BigOperators.Group.Finset.Piecewise
import Mathlib.Algebra.BigOperators.Group.List.Basic
import Mathlib.Algebra.Order.Ring.Int
import Mathlib.Data.List.Induction

/-!
# Binding fees to accounts

A user's detail items are paid by accounts.  `dealSpecialUserPayRelation` goes through the pay
relations in order: each one says how much of which items its account pays, `computePayFee` works
out the amount and `effectPayFee` moves it, whole items at once, or a share of each, or item by
item.  The default relation takes whatever is left.

Whatever route it takes, a relation moves items one at a time: an item goes over whole and its
record is cleared, or a part of its `m_nfee` goes over and is taken off.  `Account.total` therefore
stays what it was under every route, and rounding and narrowing only decide which part goes.

Main results: `dealPayRelation_keeps` for one relation, `pay_relations_conserve` for all.
-/

namespace PayRelationSolution

/-- A `long` or a `double` that is put into an `int`. -/
def toInt (x : Int) : Int := x.bmod (2 ^ 32)

/-! ## The records -/

structure DetailItemFee where
  m_detailItemCode : Int := 0
  m_ofee : Int := 0
  m_nfee : Int := 0
  m_afee : Int := 0
  m_bfee : Int := 0
  m_cfee : Int := 0
  m_dfee : Int := 0
  m_gfee : Int := 0
  m_ufee : Int := 0
deriving DecidableEq, Repr

inductive Field
  | ofee | nfee | afee | bfee | cfee | dfee | gfee | ufee
deriving DecidableEq, Repr

def DetailItemFee.amount (fee : DetailItemFee) : Field → Int
  | .ofee => fee.m_ofee
  | .nfee => fee.m_nfee
  | .afee => fee.m_afee
  | .bfee => fee.m_bfee
  | .cfee => fee.m_cfee
  | .dfee => fee.m_dfee
  | .gfee => fee.m_gfee
  | .ufee => fee.m_ufee

/-- `*iter = 0`: the amounts are cleared, the code stays. -/
def DetailItemFee.clear (fee : DetailItemFee) : DetailItemFee :=
  { m_detailItemCode := fee.m_detailItemCode }

/-- Something is left of the item: an item that was 0 from the start counts when it was derated or
adjusted. -/
def DetailItemFee.remains (fee : DetailItemFee) : Bool :=
  fee.m_ofee ≠ 0 || fee.m_nfee ≠ 0 || fee.m_afee ≠ 0 || fee.m_bfee ≠ 0

structure PayRelation (Acct : Type*) where
  m_payRelationId : Int
  m_itemCode : Int
  m_acctId : Acct
  m_bindType : Char
  m_discntPriority : Int
  m_defaultTag : Char
  m_addupMethod : Char
  m_startCycId : Int
  m_endCycId : Int
  m_limitType : Char
  m_limitValue : Int
  m_fillTag : Char
deriving DecidableEq, Repr

structure UserAccountBill (Acct : Type*) where
  m_acctId : Acct
  m_userPriority : Int
  m_defaultTag : Char
  m_detailItemFeeVector : List DetailItemFee
deriving DecidableEq, Repr

/-- What the object works on: the user's items, the account bills, what the relations before have
left over, and the accumulations. -/
structure State (Acct Addup : Type*) where
  m_cycleId : Int
  m_detailItemFeeVector : List DetailItemFee
  m_userAccountBillVector : List (UserAccountBill Acct)
  m_leftPayFee : Int
  addup : Addup

/-- What the object calls: the detail items of a pay item, the two quotients it computes in
floating point, the account bills, and the accumulations with the cycle they are asked in. -/
structure Calls (Acct Addup : Type*) where
  getDetailItemFromPayItem : Int → List Int
  /-- `(1.0 * m_nfee * effectUserBillFee) / payItemFee`. -/
  share : Int → Int → Int → Int
  /-- `(1.0 * payItemFee * m_limitValue) / 100`. -/
  percent : Int → Int → Int
  addAccountDetailItemFee : List (UserAccountBill Acct) → Acct → Int → Char → DetailItemFee →
    List (UserAccountBill Acct)
  fillPayFee : State Acct Addup → PayRelation Acct → Int → Int → State Acct Addup
  getAddupInfo : Addup → Int → Int → Int → Int → Int
  updateAddupInfo : Addup → Int → Int → Int → Int → Int → Int → Addup

variable {Acct Addup : Type*}

/-! ## The amount of a relation -/

/-- The items of a pay item: their list, the marks and the positions in the user's list, from 1
on. -/
structure PayItem where
  m_detailItemVector : List Int
  m_detailItem : Int → Bool
  m_existDetailItem : Int → Nat

/-- `getDetailItemFromPayItem`: a pay item without detail items is one itself. -/
def detailItem (m_detailItemVector : List Int) (payItemCode code : Int) : Bool :=
  if m_detailItemVector = [] then code = payItemCode else code ∈ m_detailItemVector

/-- An item of the user's list at a position: it belongs to the pay item and has a fee of its
own. -/
def countFee (mark : Int → Bool) (r : Bool × Int × (Int → Nat)) (e : DetailItemFee × Nat) :
    Bool × Int × (Int → Nat) :=
  if mark e.1.m_detailItemCode ∧ e.1.m_ofee ≠ 0 then
    (true, toInt (r.2.1 + e.1.m_nfee), Function.update r.2.2 e.1.m_detailItemCode e.2)
  else r

/-- `getPayItemFee`: whether there is a fee on a pay item, and the fee. -/
def getPayItemFee (K : Calls Acct Addup) (payItemCode : Int) (fees : List DetailItemFee) :
    Bool × Int × PayItem :=
  let m_detailItemVector := K.getDetailItemFromPayItem payItemCode
  let mark := detailItem m_detailItemVector payItemCode
  let r := (fees.zipIdx 1).foldl (countFee mark) (false, 0, fun _ => 0)
  (r.1, r.2.1, ⟨m_detailItemVector, mark, r.2.2⟩)

/-- The amounts on the account and on the user, and whether the relation is forced. -/
structure Effect where
  effectAcctBillFee : Int
  effectUserBillFee : Int
  forced : Bool
deriving DecidableEq, Repr

/-- The same amount on both. -/
def Effect.both (fee : Int) : Effect := ⟨fee, fee, false⟩

/-- A fee below the limit is filled up as the relation says. -/
def fillEffect (m_fillTag : Char) (payItemFee limit : Int) : Effect :=
  if m_fillTag = '0' then .both payItemFee
  else if m_fillTag = '1' then .both 0
  else if m_fillTag = '2' then ⟨limit, payItemFee, true⟩
  else .both 0

/-- What was used up to this cycle. -/
def usedValue (K : Calls Acct Addup) (payRelation : PayRelation Acct) (m_cycleId : Int)
    (addup : Addup) : Int :=
  if payRelation.m_startCycId < m_cycleId then
    K.getAddupInfo addup m_cycleId payRelation.m_payRelationId payRelation.m_startCycId
      payRelation.m_itemCode
  else 0

/-- What is used now; 0 is not stored. -/
def store (K : Calls Acct Addup) (payRelation : PayRelation Acct) (s : State Acct Addup)
    (t_usedValue : Int) : State Acct Addup :=
  if t_usedValue ≠ 0 then
    { s with
      addup := K.updateAddupInfo s.addup s.m_cycleId payRelation.m_payRelationId
        payRelation.m_itemCode payRelation.m_startCycId payRelation.m_endCycId t_usedValue }
  else s

/-- A limit for every cycle. -/
def limitPlain (payRelation : PayRelation Acct) (payItemFee limit : Int) : Effect :=
  if payItemFee ≥ limit then .both (toInt limit)
  else fillEffect payRelation.m_fillTag payItemFee (toInt limit)

/-- A limit for all cycles together. -/
def limitOverCycles (K : Calls Acct Addup) (payRelation : PayRelation Acct) (payItemFee : Int)
    (s : State Acct Addup) : Effect × State Acct Addup :=
  let t_usedValue := usedValue K payRelation s.m_cycleId s.addup
  let t_limitValue := payRelation.m_limitValue
  let t_limitValue :=
    if payRelation.m_startCycId < s.m_cycleId then
      if t_limitValue - t_usedValue < 0 then 0 else t_limitValue - t_usedValue
    else t_limitValue
  let effect := if payItemFee ≥ t_limitValue then toInt t_limitValue else payItemFee
  (.both effect, store K payRelation s (t_usedValue + effect))

/-- A limit of which the rest is left for the next relation. -/
def limitLeavingRest (payRelation : PayRelation Acct) (payItemFee : Int) (s : State Acct Addup) :
    Effect × State Acct Addup :=
  let effect :=
    if payItemFee ≥ payRelation.m_limitValue then toInt payRelation.m_limitValue else payItemFee
  let t_leftPayFee :=
    if payItemFee ≥ payRelation.m_limitValue then 0 else toInt (payRelation.m_limitValue - effect)
  (.both effect, { s with m_leftPayFee := toInt (s.m_leftPayFee + t_leftPayFee) })

/-- A limit for all cycles together, with the rest of the relation before on top, which is not
counted as used. -/
def limitWithRest (K : Calls Acct Addup) (payRelation : PayRelation Acct) (payItemFee : Int)
    (s : State Acct Addup) : Effect × State Acct Addup :=
  let t_usedValue := usedValue K payRelation s.m_cycleId s.addup
  let t_limitValue := toInt (payRelation.m_limitValue - t_usedValue + s.m_leftPayFee)
  let effect := if payItemFee ≥ t_limitValue then t_limitValue else payItemFee
  let t_thisLimitValue :=
    toInt (if payRelation.m_limitValue - t_usedValue > 0 then payRelation.m_limitValue - t_usedValue
      else 0)
  let t_usedValue := t_usedValue + if effect < t_thisLimitValue then effect else t_thisLimitValue
  (.both effect, store K payRelation s t_usedValue)

/-- The amounts of a relation by its kind of limit. -/
def limitEffect (K : Calls Acct Addup) (payRelation : PayRelation Acct) (payItemFee : Int)
    (s : State Acct Addup) : Effect × State Acct Addup :=
  if payRelation.m_limitType = '0' then (.both payItemFee, s)
  else if payRelation.m_limitType = '1' then
    if payRelation.m_addupMethod = '0' then
      (limitPlain payRelation payItemFee payRelation.m_limitValue, s)
    else if payRelation.m_addupMethod = '1' then limitOverCycles K payRelation payItemFee s
    else if payRelation.m_addupMethod = '2' then limitLeavingRest payRelation payItemFee s
    else if payRelation.m_addupMethod = '3' then
      (limitPlain payRelation payItemFee (toInt (payRelation.m_limitValue + s.m_leftPayFee)), s)
    else if payRelation.m_addupMethod = '4' then limitWithRest K payRelation payItemFee s
    else (limitPlain payRelation payItemFee payRelation.m_limitValue, s)
  else if payRelation.m_limitType = '2' then
    (.both (K.percent payItemFee payRelation.m_limitValue), s)
  else (.both payItemFee, s)

/-- `computePayFee`: the pay item, its fee, the amounts, and whether there is anything to move. -/
def computePayFee (K : Calls Acct Addup) (payRelation : PayRelation Acct) (s : State Acct Addup) :
    Bool × PayItem × Int × Effect × State Acct Addup :=
  let (ifExist, nfee, item) := getPayItemFee K payRelation.m_itemCode s.m_detailItemFeeVector
  let payItemFee := if ifExist then nfee else 0
  let (effect, s) := limitEffect K payRelation payItemFee s
  (ifExist || effect.forced, item, payItemFee, effect, s)

/-! ## Moving it -/

/-- `addAccountDetailItemFee` for the account of a relation. -/
def bind (K : Calls Acct Addup) (payRelation : PayRelation Acct)
    (bills : List (UserAccountBill Acct)) (fee : DetailItemFee) : List (UserAccountBill Acct) :=
  K.addAccountDetailItemFee bills payRelation.m_acctId payRelation.m_discntPriority
    payRelation.m_defaultTag fee

/-- `nfee` of an item: the whole item when that is all it has, else a record of its own. -/
def bindPart (K : Calls Acct Addup) (payRelation : PayRelation Acct) (nfee : Int)
    (fee : DetailItemFee) (bills : List (UserAccountBill Acct)) :
    DetailItemFee × List (UserAccountBill Acct) :=
  if fee.m_nfee = nfee then (fee.clear, bind K payRelation bills fee)
  else ({ fee with m_nfee := fee.m_nfee - nfee }, bind K payRelation bills
    { m_detailItemCode := fee.m_detailItemCode, m_nfee := nfee })

/-- Every item that meets `p`, whole. -/
def bindAll (K : Calls Acct Addup) (payRelation : PayRelation Acct) (p : DetailItemFee → Bool) :
    List DetailItemFee → List (UserAccountBill Acct) →
      List DetailItemFee × List (UserAccountBill Acct)
  | [], bills => ([], bills)
  | fee :: rest, bills =>
      if p fee then
        let r := bindAll K payRelation p rest (bind K payRelation bills fee)
        (fee.clear :: r.1, r.2)
      else
        let r := bindAll K payRelation p rest bills
        (fee :: r.1, r.2)

/-- A share of every item, as long as anything remains of the amount. -/
def bindShares (K : Calls Acct Addup) (payRelation : PayRelation Acct) (item : PayItem)
    (payItemFee effectUserBillFee : Int) :
    Int → List DetailItemFee → List (UserAccountBill Acct) →
      Int × List DetailItemFee × List (UserAccountBill Acct)
  | nfeeRemain, [], bills => (nfeeRemain, [], bills)
  | nfeeRemain, fee :: rest, bills =>
      if nfeeRemain = 0 then (nfeeRemain, fee :: rest, bills)
      else if item.m_detailItem fee.m_detailItemCode ∧ fee.m_ofee ≠ 0 then
        let nfee := K.share fee.m_nfee effectUserBillFee payItemFee
        let part := bindPart K payRelation nfee fee bills
        let r := bindShares K payRelation item payItemFee effectUserBillFee
          (toInt (nfeeRemain - nfee)) rest part.2
        (r.1, part.1 :: r.2.1, r.2.2)
      else
        let r := bindShares K payRelation item payItemFee effectUserBillFee nfeeRemain rest bills
        (r.1, fee :: r.2.1, r.2.2)

/-- What rounding left over, from the first item that has it. -/
def bindRemainder (K : Calls Acct Addup) (payRelation : PayRelation Acct) (item : PayItem)
    (nfeeRemain : Int) :
    List DetailItemFee → List (UserAccountBill Acct) →
      List DetailItemFee × List (UserAccountBill Acct)
  | [], bills => ([], bills)
  | fee :: rest, bills =>
      if item.m_detailItem fee.m_detailItemCode ∧ fee.remains ∧
          (fee.m_nfee - nfeeRemain > 0 ∨ fee.m_nfee - nfeeRemain = 0) then
        let part := bindPart K payRelation nfeeRemain fee bills
        (part.1 :: rest, part.2)
      else
        let r := bindRemainder K payRelation item nfeeRemain rest bills
        (fee :: r.1, r.2)

/-- Item by item in the order of the pay item's list, which has their positions. -/
def bindInOrder (K : Calls Acct Addup) (payRelation : PayRelation Acct) (item : PayItem) :
    List Int → Int → List DetailItemFee → List (UserAccountBill Acct) →
      List DetailItemFee × List (UserAccountBill Acct)
  | [], _, fees, bills => (fees, bills)
  | m_id :: ids, nfeeRemain, fees, bills =>
      if nfeeRemain = 0 then (fees, bills)
      else
        let position := item.m_existDetailItem m_id
        match if position > 0 then fees[position - 1]? else none with
        | none => bindInOrder K payRelation item ids nfeeRemain fees bills
        | some fee =>
            let nfee := if nfeeRemain > fee.m_nfee then toInt fee.m_nfee else nfeeRemain
            let part := bindPart K payRelation nfee fee bills
            bindInOrder K payRelation item ids (toInt (nfeeRemain - nfee))
              (fees.set (position - 1) part.1) part.2

/-- The user's items and the account bills are replaced. -/
def State.put (s : State Acct Addup) (r : List DetailItemFee × List (UserAccountBill Acct)) :
    State Acct Addup :=
  { s with m_detailItemFeeVector := r.1, m_userAccountBillVector := r.2 }

/-- `effectPayFee`. -/
def effectPayFee (K : Calls Acct Addup) (payRelation : PayRelation Acct) (item : PayItem)
    (payItemFee : Int) (effect : Effect) (s : State Acct Addup) : State Acct Addup :=
  let fees := s.m_detailItemFeeVector
  let bills := s.m_userAccountBillVector
  if effect.effectUserBillFee = effect.effectAcctBillFee then
    if effect.effectUserBillFee = payItemFee then
      s.put (bindAll K payRelation
        (fun fee => item.m_detailItem fee.m_detailItemCode && fee.remains) fees bills)
    else if payRelation.m_bindType = '0' then
      let r := bindShares K payRelation item payItemFee effect.effectUserBillFee
        effect.effectUserBillFee fees bills
      if r.1 ≠ 0 then s.put (bindRemainder K payRelation item r.1 r.2.1 r.2.2) else s.put r.2
    else
      s.put (bindInOrder K payRelation item item.m_detailItemVector effect.effectUserBillFee fees
        bills)
  else
    let s := s.put (bindAll K payRelation
      (fun fee => item.m_detailItem fee.m_detailItemCode && fee.m_ofee ≠ 0) fees bills)
    K.fillPayFee s payRelation effect.effectUserBillFee effect.effectAcctBillFee

/-- `dealPayRelation`. -/
def dealPayRelation (K : Calls Acct Addup) (s : State Acct Addup)
    (payRelation : PayRelation Acct) : State Acct Addup :=
  if payRelation.m_defaultTag = '1' then
    s.put (bindAll K payRelation DetailItemFee.remains s.m_detailItemFeeVector
      s.m_userAccountBillVector)
  else
    let (isNeedDeal, item, payItemFee, effect, s) := computePayFee K payRelation s
    if isNeedDeal then effectPayFee K payRelation item payItemFee effect s else s

/-- `dealSpecialUserPayRelation`. -/
def dealSpecialUserPayRelation (K : Calls Acct Addup)
    (m_payRelationVector : List (PayRelation Acct)) (s : State Acct Addup) : State Acct Addup :=
  m_payRelationVector.foldl (dealPayRelation K) s

/-! ## Amounts in an `int` -/

/-- A number in the range of an `int` stays what it is. -/
theorem toInt_of_lt {x : Int} (hlow : -2 ^ 31 ≤ x) (hhigh : x < 2 ^ 31) : toInt x = x := by
  unfold toInt
  rw [Int.bmod_eq_of_le] <;> omega

/-- An `int` is below 2 to the 31. -/
theorem toInt_lt (x : Int) : toInt x < 2 ^ 31 := by
  unfold toInt
  have hlt := Int.bmod_lt (x := x) (m := 2 ^ 32) (by decide)
  omega

/-- The fee of a pay item is an `int`. -/
theorem getPayItemFee_lt (K : Calls Acct Addup) (payItemCode : Int) (fees : List DetailItemFee) :
    (getPayItemFee K payItemCode fees).2.1 < 2 ^ 31 := by
  have hfold : ∀ (mark : Int → Bool) (l : List (DetailItemFee × Nat))
      (r : Bool × Int × (Int → Nat)), r.2.1 < 2 ^ 31 →
        (l.foldl (countFee mark) r).2.1 < 2 ^ 31 := by
    intro mark l
    induction l with
    | nil => exact fun r hr => hr
    | cons e l ih =>
        intro r hr
        refine ih _ ?_
        unfold countFee
        split
        · exact toInt_lt _
        · exact hr
  exact hfold _ _ _ (by decide)

/-! ## What accounts and user have together -/

/-- The records on the accounts. -/
def entries (bills : List (UserAccountBill Acct)) : List (Acct × DetailItemFee) :=
  bills.flatMap fun bill => bill.m_detailItemFeeVector.map (bill.m_acctId, ·)

/-- An amount on all accounts. -/
def accountTotal (f : Field) (bills : List (UserAccountBill Acct)) : Int :=
  ((entries bills).map fun e => e.2.amount f).sum

/-- An amount on the user's list. -/
def userTotal (f : Field) (fees : List DetailItemFee) : Int :=
  (fees.map (·.amount f)).sum

/-- An amount on the accounts and on the user's list. -/
def total (f : Field) (s : State Acct Addup) : Int :=
  accountTotal f s.m_userAccountBillVector + userTotal f s.m_detailItemFeeVector

section Accounts

variable [DecidableEq Acct]

/-- An amount of an account's entry for an item. -/
def entry (f : Field) (bills : List (UserAccountBill Acct)) (m_acctId : Acct) (code : Int) : Int :=
  (((entries bills).filter fun e => (e.1, e.2.m_detailItemCode) = (m_acctId, code)).map
    fun e => e.2.amount f).sum

/-- What `addAccountDetailItemFee` is for: the record is added to the account's entry for its
item. -/
def Adds (addAccountDetailItemFee : List (UserAccountBill Acct) → Acct → Int → Char →
    DetailItemFee → List (UserAccountBill Acct)) : Prop :=
  ∀ bills acctId priority tag fee f m_acctId code,
    entry f (addAccountDetailItemFee bills acctId priority tag fee) m_acctId code =
      entry f bills m_acctId code +
        if (m_acctId, code) = (acctId, fee.m_detailItemCode) then fee.amount f else 0

end Accounts

section Sums

variable {α κ : Type*} [DecidableEq κ] (key : α → κ) {v : α → Int}

/-- A sum over a list is the sum of its parts by key. -/
theorem sum_by_key {keys : Finset κ} {l : List α} (hkeys : ∀ x ∈ l, key x ∈ keys) :
    ∑ k ∈ keys, ((l.filter fun x => key x = k).map v).sum = (l.map v).sum := by
  induction l with
  | nil => simp
  | cons x l ih =>
      have hpart : ∀ k, (((x :: l).filter fun x => key x = k).map v).sum =
          (if key x = k then v x else 0) + ((l.filter fun x => key x = k).map v).sum := by
        intro k
        by_cases hk : key x = k
        · simp [hk]
        · simp [hk]
      simp only [hpart]
      rw [Finset.sum_add_distrib, ih fun y hy => hkeys y (List.mem_cons_of_mem x hy),
        Finset.sum_ite_eq, if_pos (hkeys x List.mem_cons_self), List.map_cons, List.sum_cons]

/-- Lists whose sums by key differ at one key differ by that in their whole sums. -/
theorem sum_of_keys {l l' : List α} {k₀ : κ} {x : Int}
    (h : ∀ k, ((l'.filter fun y => key y = k).map v).sum =
      ((l.filter fun y => key y = k).map v).sum + if k = k₀ then x else 0) :
    (l'.map v).sum = (l.map v).sum + x := by
  have hsum : ∀ l₁ : List α, (∀ y ∈ l₁, y ∈ l ++ l') →
      (l₁.map v).sum = ∑ k ∈ (k₀ :: (l ++ l').map key).toFinset,
        ((l₁.filter fun y => key y = k).map v).sum := by
    intro l₁ h₁
    refine (sum_by_key key ?_).symm
    intro y hy
    exact List.mem_toFinset.mpr (List.mem_cons_of_mem k₀ (List.mem_map_of_mem (h₁ y hy)))
  rw [hsum l fun y hy => List.mem_append_left l' hy,
    hsum l' fun y hy => List.mem_append_right l hy]
  simp only [h]
  rw [Finset.sum_add_distrib, Finset.sum_ite_eq', if_pos (by simp)]

end Sums

section Conservation

variable {K : Calls Acct Addup} {payRelation : PayRelation Acct} (f : Field)

/-- A cleared fee has no amount left. -/
theorem clear_amount (fee : DetailItemFee) : fee.clear.amount f = 0 := by
  cases f <;> rfl

/-- A sum over the bills in which a record that a relation's account gets has a weight: 1 for
everything that is on the accounts, 0 for an account that is not the relation's. -/
def Weighs (K : Calls Acct Addup) (payRelation : PayRelation Acct) (f : Field) (w : Int)
    (sum : List (UserAccountBill Acct) → Int) : Prop :=
  ∀ bills fee, sum (bind K payRelation bills fee) = sum bills + w * fee.amount f

/-- What an account gets is on the accounts. -/
theorem accountTotal_weighs [DecidableEq Acct] (hadd : Adds K.addAccountDetailItemFee)
    (payRelation : PayRelation Acct) : Weighs K payRelation f 1 (accountTotal f) := by
  intro bills fee
  rw [Int.one_mul]
  exact sum_of_keys (fun e : Acct × DetailItemFee => (e.1, e.2.m_detailItemCode)) fun k =>
    hadd bills _ _ _ fee f k.1 k.2

/-- A record that is replaced changes the sum by what it changes. -/
theorem userTotal_set {fees : List DetailItemFee} {i : Nat} {fee : DetailItemFee}
    (hfee : fees[i]? = some fee) (fee' : DetailItemFee) :
    userTotal f (fees.set i fee') + fee.amount f = userTotal f fees + fee'.amount f := by
  induction fees generalizing i with
  | nil => simp at hfee
  | cons first rest ih =>
      cases i with
      | zero =>
          simp only [List.getElem?_cons_zero, Option.some.injEq] at hfee
          subst hfee
          simp only [userTotal, List.set_cons_zero, List.map_cons, List.sum_cons]
          omega
      | succ i =>
          have hrest := ih (by simpa using hfee)
          simp only [userTotal, List.set_cons_succ, List.map_cons, List.sum_cons] at hrest ⊢
          omega

variable {f} {w : Int} {sum : List (UserAccountBill Acct) → Int}
  (hsum : Weighs K payRelation f w sum)

include hsum

/-- **A part that goes over is taken off.** -/
theorem bindPart_weighs (nfee : Int) (fee : DetailItemFee) (bills : List (UserAccountBill Acct)) :
    sum (bindPart K payRelation nfee fee bills).2 +
        w * (bindPart K payRelation nfee fee bills).1.amount f =
      sum bills + w * fee.amount f := by
  unfold bindPart
  split
  · rw [hsum, clear_amount]
    omega
  · rw [hsum, Int.add_assoc, ← Int.mul_add]
    have hparts : ∀ x y : Int, x + (y - x) = y := fun x y => by omega
    cases f <;> simp only [DetailItemFee.amount, hparts, Int.zero_add]

/-- What the fees lose when all of them are bound, the bills gain. -/
theorem bindAll_weighs (p : DetailItemFee → Bool) (fees : List DetailItemFee)
    (bills : List (UserAccountBill Acct)) :
    sum (bindAll K payRelation p fees bills).2 +
        w * userTotal f (bindAll K payRelation p fees bills).1 =
      sum bills + w * userTotal f fees := by
  induction fees generalizing bills with
  | nil => rfl
  | cons fee rest ih =>
      unfold bindAll
      split
      · have hrest := ih (bind K payRelation bills fee)
        rw [hsum] at hrest
        simp only [userTotal, List.map_cons, List.sum_cons, clear_amount, Int.mul_add] at hrest ⊢
        omega
      · have hrest := ih bills
        simp only [userTotal, List.map_cons, List.sum_cons, Int.mul_add] at hrest ⊢
        omega

/-- What the fees lose in shares, the bills gain. -/
theorem bindShares_weighs (item : PayItem) (payItemFee effectUserBillFee : Int)
    (fees : List DetailItemFee) (nfeeRemain : Int) (bills : List (UserAccountBill Acct)) :
    sum (bindShares K payRelation item payItemFee effectUserBillFee nfeeRemain fees
          bills).2.2 +
        w * userTotal f (bindShares K payRelation item payItemFee effectUserBillFee nfeeRemain fees
          bills).2.1 =
      sum bills + w * userTotal f fees := by
  induction fees generalizing nfeeRemain bills with
  | nil => rfl
  | cons fee rest ih =>
      unfold bindShares
      split
      · rfl
      · split
        · have hpart := bindPart_weighs hsum
            (K.share fee.m_nfee effectUserBillFee payItemFee) fee bills
          have hrest := ih (toInt (nfeeRemain - K.share fee.m_nfee effectUserBillFee payItemFee))
            (bindPart K payRelation (K.share fee.m_nfee effectUserBillFee payItemFee) fee bills).2
          simp only [userTotal, List.map_cons, List.sum_cons, Int.mul_add] at hrest ⊢
          omega
        · have hrest := ih nfeeRemain bills
          simp only [userTotal, List.map_cons, List.sum_cons, Int.mul_add] at hrest ⊢
          omega

/-- What the fees lose of the remainder, the bills gain. -/
theorem bindRemainder_weighs (item : PayItem) (nfeeRemain : Int) (fees : List DetailItemFee)
    (bills : List (UserAccountBill Acct)) :
    sum (bindRemainder K payRelation item nfeeRemain fees bills).2 +
        w * userTotal f (bindRemainder K payRelation item nfeeRemain fees bills).1 =
      sum bills + w * userTotal f fees := by
  induction fees with
  | nil => rfl
  | cons fee rest ih =>
      unfold bindRemainder
      split
      · have hpart := bindPart_weighs hsum nfeeRemain fee bills
        simp only [userTotal, List.map_cons, List.sum_cons, Int.mul_add]
        omega
      · simp only [userTotal, List.map_cons, List.sum_cons, Int.mul_add] at ih ⊢
        omega

/-- What the fees lose in the order of the items, the bills gain. -/
theorem bindInOrder_weighs (item : PayItem) (ids : List Int) (nfeeRemain : Int)
    (fees : List DetailItemFee) (bills : List (UserAccountBill Acct)) :
    sum (bindInOrder K payRelation item ids nfeeRemain fees bills).2 +
        w * userTotal f (bindInOrder K payRelation item ids nfeeRemain fees bills).1 =
      sum bills + w * userTotal f fees := by
  induction ids generalizing nfeeRemain fees bills with
  | nil => rfl
  | cons m_id ids ih =>
      unfold bindInOrder
      split
      · rfl
      · dsimp only
        split
        · exact ih nfeeRemain fees bills
        · rename_i fee hfee
          have hget : fees[item.m_existDetailItem m_id - 1]? = some fee :=
            (Option.ite_none_right_eq_some.mp hfee).2
          rw [ih]
          have hpart := bindPart_weighs hsum
            (if nfeeRemain > fee.m_nfee then toInt fee.m_nfee else nfeeRemain) fee bills
          have hset := userTotal_set f hget (bindPart K payRelation
            (if nfeeRemain > fee.m_nfee then toInt fee.m_nfee else nfeeRemain) fee bills).1
          have hweighed := congrArg (w * ·) hset
          simp only [Int.mul_add] at hweighed
          omega

/-- **Every route keeps what is on the accounts and on the user's list together**, when the same
amount goes to both sides. -/
theorem effectPayFee_weighs (item : PayItem) (payItemFee : Int) {effect : Effect}
    (s : State Acct Addup) (hboth : effect.effectUserBillFee = effect.effectAcctBillFee) :
    sum (effectPayFee K payRelation item payItemFee effect s).m_userAccountBillVector +
        w * userTotal f
          (effectPayFee K payRelation item payItemFee effect s).m_detailItemFeeVector =
      sum s.m_userAccountBillVector + w * userTotal f s.m_detailItemFeeVector := by
  unfold effectPayFee
  rw [if_pos hboth]
  split
  · exact bindAll_weighs hsum _ _ _
  · split
    · dsimp only
      split
      · exact (bindRemainder_weighs hsum item _ _ _).trans (bindShares_weighs hsum item _ _ _ _ _)
      · exact bindShares_weighs hsum item _ _ _ _ _
    · exact bindInOrder_weighs hsum item _ _ _ _

omit hsum in
/-- **Every route keeps the total**, when the same amount goes to both sides. -/
theorem effectPayFee_total [DecidableEq Acct] (hadd : Adds K.addAccountDetailItemFee)
    (item : PayItem) (payItemFee : Int) {effect : Effect} (s : State Acct Addup)
    (hboth : effect.effectUserBillFee = effect.effectAcctBillFee) :
    total f (effectPayFee K payRelation item payItemFee effect s) = total f s := by
  have hkept := effectPayFee_weighs (accountTotal_weighs f hadd payRelation) item payItemFee s hboth
  rw [Int.one_mul, Int.one_mul] at hkept
  exact hkept

end Conservation

/-! ## What a relation without the forced fill does -/

section Relations

variable {K : Calls Acct Addup} {payRelation : PayRelation Acct}

/-- Unless the tag is `2`, the fee that is paid is also the one that takes effect. -/
theorem fillEffect_both {m_fillTag : Char} (hfill : m_fillTag ≠ '2') (payItemFee limit : Int) :
    ∃ fee, fillEffect m_fillTag payItemFee limit = .both fee := by
  unfold fillEffect
  rw [if_neg hfill]
  split
  · exact ⟨_, rfl⟩
  · split <;> exact ⟨_, rfl⟩

/-- The same within a plain limit. -/
theorem limitPlain_both (hfill : payRelation.m_fillTag ≠ '2') (payItemFee limit : Int) :
    ∃ fee, limitPlain payRelation payItemFee limit = .both fee := by
  unfold limitPlain
  split
  · exact ⟨_, rfl⟩
  · exact fillEffect_both hfill payItemFee _

/-- Storing what was used leaves the fees and the bills. -/
theorem store_fees (s : State Acct Addup) (t_usedValue : Int) :
    (store K payRelation s t_usedValue).m_detailItemFeeVector = s.m_detailItemFeeVector ∧
      (store K payRelation s t_usedValue).m_userAccountBillVector = s.m_userAccountBillVector := by
  unfold store
  split <;> exact ⟨rfl, rfl⟩

/-- The same amount goes to both sides, and working it out moves nothing. -/
theorem limitEffect_spec (hfill : payRelation.m_fillTag ≠ '2') (payItemFee : Int)
    (s : State Acct Addup) :
    (∃ fee, (limitEffect K payRelation payItemFee s).1 = .both fee) ∧
      (limitEffect K payRelation payItemFee s).2.m_detailItemFeeVector = s.m_detailItemFeeVector ∧
      (limitEffect K payRelation payItemFee s).2.m_userAccountBillVector =
        s.m_userAccountBillVector := by
  unfold limitEffect
  split
  · exact ⟨⟨_, rfl⟩, rfl, rfl⟩
  · split
    · split
      · exact ⟨limitPlain_both hfill _ _, rfl, rfl⟩
      · split
        · exact ⟨⟨_, rfl⟩, store_fees s _⟩
        · split
          · exact ⟨⟨_, rfl⟩, rfl, rfl⟩
          · split
            · exact ⟨limitPlain_both hfill _ _, rfl, rfl⟩
            · split
              · exact ⟨⟨_, rfl⟩, store_fees s _⟩
              · exact ⟨limitPlain_both hfill _ _, rfl, rfl⟩
    · split <;> exact ⟨⟨_, rfl⟩, rfl, rfl⟩

/-- `dealPayRelation` for a relation that is not the default. -/
theorem dealPayRelation_spec (hfill : payRelation.m_fillTag ≠ '2')
    (hdefault : payRelation.m_defaultTag ≠ '1') (s : State Acct Addup) :
    ∃ item payItemFee fee s', s'.m_detailItemFeeVector = s.m_detailItemFeeVector ∧
      s'.m_userAccountBillVector = s.m_userAccountBillVector ∧
      dealPayRelation K s payRelation =
        if (getPayItemFee K payRelation.m_itemCode s.m_detailItemFeeVector).1 then
          effectPayFee K payRelation item payItemFee (.both fee) s'
        else s' := by
  let r := getPayItemFee K payRelation.m_itemCode s.m_detailItemFeeVector
  obtain ⟨⟨fee, hfee⟩, hfees, hbills⟩ :=
    limitEffect_spec (K := K) hfill (if r.1 then r.2.1 else 0) s
  refine ⟨r.2.2, if r.1 then r.2.1 else 0, fee, _, hfees, hbills, ?_⟩
  rw [dealPayRelation, if_neg hdefault]
  dsimp only [computePayFee]
  rw [hfee]
  simp only [Effect.both, Bool.or_false]
  rfl

/-- No item is left on the list. -/
def Drained (fees : List DetailItemFee) : Prop :=
  ∀ fee ∈ fees, fee.m_ofee = 0 ∧ fee.m_nfee = 0 ∧ fee.m_afee = 0 ∧ fee.m_bfee = 0

/-- A fee is left out when all four of its amounts are zero. -/
theorem remains_eq_false {fee : DetailItemFee} :
    fee.remains = false ↔
      fee.m_ofee = 0 ∧ fee.m_nfee = 0 ∧ fee.m_afee = 0 ∧ fee.m_bfee = 0 := by
  simp [DetailItemFee.remains, and_assoc]

/-- The default relation leaves nothing. -/
theorem drained_bindAll (fees : List DetailItemFee) (bills : List (UserAccountBill Acct)) :
    Drained (bindAll K payRelation DetailItemFee.remains fees bills).1 := by
  induction fees generalizing bills with
  | nil => intro fee hfee; simp [bindAll] at hfee
  | cons fee rest ih =>
      unfold bindAll
      split
      · intro fee' hfee'
        rcases List.mem_cons.mp hfee' with rfl | hrest
        · exact ⟨rfl, rfl, rfl, rfl⟩
        · exact ih _ fee' hrest
      · rename_i hgone
        intro fee' hfee'
        rcases List.mem_cons.mp hfee' with rfl | hrest
        · exact remains_eq_false.mp (by simpa using hgone)
        · exact ih _ fee' hrest

/-- On a list with nothing left there is no pay item. -/
theorem getPayItemFee_drained {fees : List DetailItemFee} (h : Drained fees) (payItemCode : Int) :
    (getPayItemFee K payItemCode fees).1 = false := by
  have hfold : ∀ (mark : Int → Bool) (l : List (DetailItemFee × Nat))
      (r : Bool × Int × (Int → Nat)), (∀ e ∈ l, e.1.m_ofee = 0) →
        l.foldl (countFee mark) r = r := by
    intro mark l r hl
    induction l with
    | nil => rfl
    | cons e l ih =>
        have hskip : countFee mark r e = r := if_neg fun hne => hne.2 (hl e List.mem_cons_self)
        rw [List.foldl_cons, hskip]
        exact ih fun e' he' => hl e' (List.mem_cons_of_mem e he')
  have hzero : ∀ e ∈ fees.zipIdx 1, e.1.m_ofee = 0 := fun e he =>
    (h e.1 (List.fst_mem_of_mem_zipIdx he)).1
  dsimp only [getPayItemFee]
  rw [hfold _ _ _ hzero]

end Relations

section Runs

variable [DecidableEq Acct] {K : Calls Acct Addup}

/-- **One relation**: the total stays, the default relation leaves nothing, and where nothing is
left nothing comes. -/
theorem dealPayRelation_keeps (hadd : Adds K.addAccountDetailItemFee)
    {payRelation : PayRelation Acct} (hfill : payRelation.m_fillTag ≠ '2')
    (s : State Acct Addup) :
    (∀ f, total f (dealPayRelation K s payRelation) = total f s) ∧
      (payRelation.m_defaultTag = '1' ∨ Drained s.m_detailItemFeeVector →
        Drained (dealPayRelation K s payRelation).m_detailItemFeeVector) := by
  by_cases hdefault : payRelation.m_defaultTag = '1'
  · rw [dealPayRelation, if_pos hdefault]
    refine ⟨fun f => ?_, fun _ => drained_bindAll _ _⟩
    have hall := bindAll_weighs (accountTotal_weighs f hadd payRelation) DetailItemFee.remains
      s.m_detailItemFeeVector s.m_userAccountBillVector
    simpa only [total, State.put, Int.one_mul] using hall
  · obtain ⟨item, payItemFee, fee, s', hfees, hbills, hdeal⟩ :=
      dealPayRelation_spec (K := K) hfill hdefault s
    have hsame : ∀ f, total f s' = total f s := fun f => by rw [total, total, hfees, hbills]
    rw [hdeal]
    constructor
    · intro f
      split
      · rw [effectPayFee_total hadd item payItemFee s' rfl, hsame]
      · exact hsame f
    · intro hdrained
      have hdrained := hdrained.resolve_left hdefault
      rw [getPayItemFee_drained hdrained, if_neg Bool.false_ne_true, hfees]
      exact hdrained

/-- **Binding conserves fees.**  After each of the relations in order the amounts on the accounts
and on the user's list are together what they were at the start, and from a default relation on
nothing is left on the list. -/
theorem pay_relations_conserve (hadd : Adds K.addAccountDetailItemFee)
    {m_payRelationVector : List (PayRelation Acct)}
    (hfill : ∀ payRelation ∈ m_payRelationVector, payRelation.m_fillTag ≠ '2')
    (s : State Acct Addup) {processed : List (PayRelation Acct)}
    (hprocessed : processed <+: m_payRelationVector) :
    (∀ f, total f (dealSpecialUserPayRelation K processed s) = total f s) ∧
      ((∃ payRelation ∈ processed, payRelation.m_defaultTag = '1') →
        Drained (dealSpecialUserPayRelation K processed s).m_detailItemFeeVector) := by
  have hfill' : ∀ payRelation ∈ processed, payRelation.m_fillTag ≠ '2' := fun r hr =>
    hfill r (hprocessed.subset hr)
  clear hprocessed hfill
  induction processed using List.reverseRecOn with
  | nil => exact ⟨fun f => rfl, fun h => by simp at h⟩
  | append_singleton done payRelation ih =>
      obtain ⟨htotal, hdrained⟩ := ih fun r hr => hfill' r (List.mem_append_left _ hr)
      obtain ⟨htotal', hdrained'⟩ := dealPayRelation_keeps hadd
        (hfill' payRelation (List.mem_append_right _ List.mem_cons_self))
        (dealSpecialUserPayRelation K done s)
      rw [dealSpecialUserPayRelation, List.foldl_append]
      refine ⟨fun f => (htotal' f).trans (htotal f), ?_⟩
      rintro ⟨r, hr, hr'⟩
      rcases List.mem_append.mp hr with hr | hr
      · exact hdrained' (.inr (hdrained ⟨r, hr, hr'⟩))
      · obtain rfl := List.mem_singleton.mp hr
        exact hdrained' (.inl hr')

end Runs

/-! ## Account bills -/

section AccountBills

variable [DecidableEq Acct]

/-- `+=` on the entry for the item, or a new entry. -/
def addToItems (fee : DetailItemFee) : List DetailItemFee → List DetailItemFee
  | [] => [fee]
  | first :: rest =>
      if first.m_detailItemCode = fee.m_detailItemCode then
        { first with
          m_ofee := first.m_ofee + fee.m_ofee
          m_nfee := first.m_nfee + fee.m_nfee
          m_afee := first.m_afee + fee.m_afee
          m_bfee := first.m_bfee + fee.m_bfee
          m_cfee := first.m_cfee + fee.m_cfee
          m_dfee := first.m_dfee + fee.m_dfee
          m_gfee := first.m_gfee + fee.m_gfee
          m_ufee := first.m_ufee + fee.m_ufee } :: rest
      else first :: addToItems fee rest

/-- The bill of the account, or a new bill. -/
def addToBills (bills : List (UserAccountBill Acct)) (m_acctId : Acct) (m_userPriority : Int)
    (m_defaultTag : Char) (fee : DetailItemFee) : List (UserAccountBill Acct) :=
  match bills with
  | [] => [⟨m_acctId, m_userPriority, m_defaultTag, [fee]⟩]
  | bill :: rest =>
      if bill.m_acctId = m_acctId then
        { bill with m_detailItemFeeVector := addToItems fee bill.m_detailItemFeeVector } :: rest
      else bill :: addToBills rest m_acctId m_userPriority m_defaultTag fee

/-- An amount of an item on a list. -/
def itemAmount (f : Field) (code : Int) (fees : List DetailItemFee) : Int :=
  ((fees.filter fun fee => fee.m_detailItemCode = code).map (·.amount f)).sum

/-- The amount of an item is that of the first fee, if it has the item, and that of the rest. -/
theorem itemAmount_cons (f : Field) (code : Int) (fee : DetailItemFee) (fees : List DetailItemFee) :
    itemAmount f code (fee :: fees) =
      (if fee.m_detailItemCode = code then fee.amount f else 0) + itemAmount f code fees := by
  by_cases hcode : fee.m_detailItemCode = code
  · simp [itemAmount, hcode]
  · simp [itemAmount, hcode]

/-- A fee that is added to the items counts for its own item. -/
theorem itemAmount_addToItems (f : Field) (code : Int) (fee : DetailItemFee)
    (fees : List DetailItemFee) :
    itemAmount f code (addToItems fee fees) =
      itemAmount f code fees + if fee.m_detailItemCode = code then fee.amount f else 0 := by
  induction fees with
  | nil => rw [addToItems, itemAmount_cons]; omega
  | cons first rest ih =>
      unfold addToItems
      split
      · rename_i hsame
        rw [itemAmount_cons, itemAmount_cons]
        dsimp only
        rw [hsame]
        split
        · cases f <;> simp only [DetailItemFee.amount] <;> omega
        · omega
      · rw [itemAmount_cons, itemAmount_cons, ih]
        omega

/-- The entry of an account is what the first bill has for it and what the others have. -/
theorem entry_cons (f : Field) (bill : UserAccountBill Acct) (bills : List (UserAccountBill Acct))
    (m_acctId : Acct) (code : Int) :
    entry f (bill :: bills) m_acctId code =
      (if bill.m_acctId = m_acctId then itemAmount f code bill.m_detailItemFeeVector else 0) +
        entry f bills m_acctId code := by
  unfold entry entries itemAmount
  rw [List.flatMap_cons, List.filter_append, List.map_append, List.sum_append]
  by_cases hacct : bill.m_acctId = m_acctId
  · simp [hacct, List.filter_map, Function.comp_def]
  · simp [hacct, List.filter_map, Function.comp_def]

/-- Adding to the entry is what is asked of `addAccountDetailItemFee`. -/
theorem addToBills_adds : Adds (@addToBills Acct _) := by
  intro bills acctId priority tag fee f m_acctId code
  have hkey : (if (m_acctId, code) = (acctId, fee.m_detailItemCode) then fee.amount f else 0) =
      if acctId = m_acctId then if fee.m_detailItemCode = code then fee.amount f else 0 else 0 := by
    by_cases hacct : acctId = m_acctId
    · by_cases hcode : fee.m_detailItemCode = code
      · rw [if_pos hacct, if_pos hcode, if_pos (by rw [hacct, hcode])]
      · rw [if_pos hacct, if_neg hcode, if_neg fun h => hcode (congrArg Prod.snd h).symm]
    · rw [if_neg hacct, if_neg fun h => hacct (congrArg Prod.fst h).symm]
  rw [hkey]
  induction bills with
  | nil =>
      rw [addToBills, entry_cons, itemAmount_cons]
      dsimp only
      have hnil : itemAmount f code [] = 0 := rfl
      rw [hnil]
      split <;> omega
  | cons bill rest ih =>
      unfold addToBills
      split
      · rename_i hsame
        rw [entry_cons, entry_cons]
        dsimp only
        rw [itemAmount_addToItems, hsame]
        split <;> omega
      · rw [entry_cons, entry_cons, ih]
        omega

end AccountBills

/-- Accounts are numbers, an amount is shared out and cut, and nothing is accumulated. -/
def wholeShares : Calls Nat Unit where
  getDetailItemFromPayItem _ := [1, 2]
  share nfee effectUserBillFee payItemFee := (nfee * effectUserBillFee).tdiv payItemFee
  percent payItemFee m_limitValue := (payItemFee * m_limitValue).tdiv 100
  addAccountDetailItemFee := addToBills
  fillPayFee s _ _ _ := s
  getAddupInfo _ _ _ _ _ := 0
  updateAddupInfo _ _ _ _ _ _ _ := ()

/-- Account 7 pays up to 70 of two items, account 8 the rest. -/
def twoPayers : List (PayRelation Nat) :=
  [⟨1, 5, 7, '0', 1, '0', '0', 201001, 201012, '1', 70, '0'⟩,
    ⟨2, -1, 8, '0', 2, '1', '0', 201001, 201012, '0', 0, '0'⟩]

def twoItems : State Nat Unit :=
  ⟨201003, [{ m_detailItemCode := 1, m_ofee := 101, m_nfee := 100, m_afee := -1 },
    { m_detailItemCode := 2, m_ofee := 51, m_nfee := 51 }], [], 0, ()⟩

/-- The limit of 70 is shared out as 46 and 23, and the first item has the 1 that is missing. -/
example : (dealSpecialUserPayRelation wholeShares (twoPayers.take 1)
    twoItems).m_detailItemFeeVector.map (·.m_nfee) = [53, 28] := by decide

/-- Two payers who share all fees between them. -/
theorem pay_relations_conserve_twoPayers :
    (∀ f, total f (dealSpecialUserPayRelation wholeShares twoPayers twoItems) = total f twoItems) ∧
      ((∃ payRelation ∈ twoPayers, payRelation.m_defaultTag = '1') →
        Drained (dealSpecialUserPayRelation wholeShares twoPayers twoItems).m_detailItemFeeVector) :=
  pay_relations_conserve addToBills_adds (by decide) twoItems (List.prefix_refl twoPayers)

end PayRelationSolution
