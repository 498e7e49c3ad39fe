import Mathlib.Algebra.Group.Int.Defs
import Mathlib.Algebra.Group.Prod
import Mathlib.Data.Int.Order.Basic
import Mathlib.Data.Prod.Lex
import Mathlib.Tactic.Common

/-!
# Bill classes

A class of bills has a key, which `operator<` orders and `operator==` compares, and values,
which `operator+=` adds.  `BillClass` says so of the operators of any class, and the classes
below are shown to be of this kind.  The identity of a server (a user, an account) is a string
that is only compared, so that any linear order stands for it.

`isZero` need not look at every value that `operator+=` adds.  `Shown` says of a bill that it does
not pass over one: every accumulation is shown, a user bill is unless it has nothing but an
adjustment (`userBills_shown_iff`), and an account bill is unless it has nothing but the amounts of
a user (`accountBills_shown_iff`).
-/

namespace BillStruct

/-- A class of bills with its operators. -/
structure BillClass (β κ ν : Type*) [LinearOrder κ] [AddCommMonoid ν] where
  key : β → κ
  value : β → ν
  /-- `operator<` -/
  less : β → β → Bool
  /-- `operator==` -/
  same : β → β → Bool
  /-- `operator+=` -/
  add : β → β → β
  isZero : β → Bool
  less_iff : ∀ a b, less a b = true ↔ key a < key b
  same_iff : ∀ a b, same a b = true ↔ key a = key b
  key_add : ∀ a b, key (add a b) = key a
  value_add : ∀ a b, value (add a b) = value a + value b

namespace BillClass

variable {β κ ν μ : Type*} [LinearOrder κ] [AddCommMonoid ν] [AddCommMonoid μ]

/-- A bill that `isZero` holds of has no value. -/
def Shown (C : BillClass β κ ν) (b : β) : Prop := C.isZero b = true → C.value b = 0

/-- A class with a part of its values. -/
def view (C : BillClass β κ ν) (part : ν → μ) (hpart : ∀ a b, part (a + b) = part a + part b) :
    BillClass β κ μ where
  key := C.key
  value := fun b => part (C.value b)
  less := C.less
  same := C.same
  add := C.add
  isZero := C.isZero
  less_iff := C.less_iff
  same_iff := C.same_iff
  key_add := C.key_add
  value_add := fun a b => by rw [C.value_add, hpart]

end BillClass

/-- The user bill. -/
structure UserBill (S : Type*) where
  m_userId : S
  m_billId : Int
  m_value : Int
  m_discntValue : Int
  m_adjustBefore : Int
deriving DecidableEq, Repr

/-- The account bill.  The source calls the last two amounts temporary. -/
structure AccountBill (S : Type*) where
  m_accountId : S
  m_userId : S
  m_billId : Int
  m_value : Int
  m_discntValue : Int
  m_a_discnt : Int
  m_b_discnt : Int
  m_acct_adjustBefore : Int
  m_userGrpDiscnt : Int
  m_userAdjust : Int
deriving DecidableEq

/-- The first accumulation of a user, one value for each tariff instance and bill. -/
structure UserSumBill1 (S : Type*) where
  m_userId : S
  m_tpObjId : Int
  m_billId : Int
  m_value : Int
  m_feePolicyId : Int
  m_maxValue : Int
deriving DecidableEq, Repr

/-- The second accumulation of a user, which also has the time and the cycle it counts for. -/
structure UserSumBill2 (S : Type*) where
  m_userId : S
  m_tpObjId : Int
  m_beginTime : Int
  m_endTime : Int
  m_cycleId : Int
  m_billId : Int
  m_value : Int
  m_feePolicyId : Int
  m_maxValue : Int
deriving DecidableEq, Repr

variable {S : Type*} [LinearOrder S]

/-- The first key field on which two bills differ decides `operator<`. -/
theorem first_key_iff {α : Type*} [LinearOrder α] {a b : α} {rest : Bool} :
    (if a < b then true else if b < a then false else rest) = true ↔
      a < b ∨ a = b ∧ rest = true := by
  rcases lt_trichotomy a b with h | rfl | h
  · simp [h]
  · simp
  · simp [h, h.not_gt, h.ne']

namespace UserBill

def key (b : UserBill S) : S ×ₗ Int := toLex (b.m_userId, b.m_billId)

/-- `operator<` -/
def less (left right : UserBill S) : Bool :=
  if left.m_userId < right.m_userId then true
  else if right.m_userId < left.m_userId then false
  else left.m_billId < right.m_billId

/-- `operator==` -/
def same (left right : UserBill S) : Bool :=
  left.m_userId = right.m_userId && left.m_billId = right.m_billId

/-- `operator+=` -/
def add (b r_right : UserBill S) : UserBill S :=
  { b with
    m_value := b.m_value + r_right.m_value
    m_discntValue := b.m_discntValue + r_right.m_discntValue
    m_adjustBefore := b.m_adjustBefore + r_right.m_adjustBefore }

/-- The adjustment is not looked at, although `clearValue` clears it like the two values. -/
def isZero (b : UserBill S) : Bool := b.m_value = 0 && b.m_discntValue = 0

end UserBill

/-- User bills with the three values that are added. -/
def userBills : BillClass (UserBill S) (S ×ₗ Int) (Int × Int × Int) where
  key := UserBill.key
  value := fun b => (b.m_value, b.m_discntValue, b.m_adjustBefore)
  less := UserBill.less
  same := UserBill.same
  add := UserBill.add
  isZero := UserBill.isZero
  less_iff := fun a b => by
    simp only [UserBill.less, UserBill.key, Prod.Lex.toLex_lt_toLex, first_key_iff,
      decide_eq_true_eq]
  same_iff := fun a b => by simp [UserBill.same, UserBill.key]
  key_add := fun _ _ => rfl
  value_add := fun _ _ => rfl

/-- User bills with the two values that are fees. -/
def userFees : BillClass (UserBill S) (S ×ₗ Int) (Int × Int) :=
  userBills.view (fun v => (v.1, v.2.1)) fun _ _ => rfl

/-- **A user bill is passed over with an adjustment** when it has nothing else. -/
theorem userBills_shown_iff (b : UserBill S) :
    userBills.Shown b ↔ (b.m_value = 0 → b.m_discntValue = 0 → b.m_adjustBefore = 0) := by
  simp only [BillClass.Shown, userBills, UserBill.isZero, Prod.mk_eq_zero]
  grind

theorem userFees_shown (b : UserBill S) : userFees.Shown b := by
  simp only [BillClass.Shown, userFees, BillClass.view, userBills, UserBill.isZero, Prod.mk_eq_zero]
  grind

namespace AccountBill

def key (b : AccountBill S) : S ×ₗ S ×ₗ Int :=
  toLex (b.m_accountId, toLex (b.m_userId, b.m_billId))

/-- `operator<` -/
def less (left right : AccountBill S) : Bool :=
  if left.m_accountId < right.m_accountId then true
  else if right.m_accountId < left.m_accountId then false
  else if left.m_userId < right.m_userId then true
  else if right.m_userId < left.m_userId then false
  else left.m_billId < right.m_billId

/-- `operator==` -/
def same (left right : AccountBill S) : Bool :=
  left.m_accountId = right.m_accountId && left.m_userId = right.m_userId
    && left.m_billId = right.m_billId

/-- `operator+=` -/
def add (b r_right : AccountBill S) : AccountBill S :=
  { b with
    m_value := b.m_value + r_right.m_value
    m_discntValue := b.m_discntValue + r_right.m_discntValue
    m_a_discnt := b.m_a_discnt + r_right.m_a_discnt
    m_b_discnt := b.m_b_discnt + r_right.m_b_discnt
    m_acct_adjustBefore := b.m_acct_adjustBefore + r_right.m_acct_adjustBefore
    m_userGrpDiscnt := b.m_userGrpDiscnt + r_right.m_userGrpDiscnt
    m_userAdjust := b.m_userAdjust + r_right.m_userAdjust }

def isZero (b : AccountBill S) : Bool :=
  b.m_value = 0 && b.m_discntValue = 0 && b.m_a_discnt = 0 && b.m_b_discnt = 0
    && b.m_acct_adjustBefore = 0

end AccountBill

/-- Account bills with the values that are added. -/
def accountBills : BillClass (AccountBill S) (S ×ₗ S ×ₗ Int)
    (Int × Int × Int × Int × Int × Int × Int) where
  key := AccountBill.key
  value := fun b => (b.m_value, b.m_discntValue, b.m_a_discnt, b.m_b_discnt, b.m_acct_adjustBefore,
    b.m_userGrpDiscnt, b.m_userAdjust)
  less := AccountBill.less
  same := AccountBill.same
  add := AccountBill.add
  isZero := AccountBill.isZero
  less_iff := fun a b => by
    simp only [AccountBill.less, AccountBill.key, Prod.Lex.toLex_lt_toLex, first_key_iff,
      decide_eq_true_eq]
  same_iff := fun a b => by simp [AccountBill.same, AccountBill.key, and_assoc]
  key_add := fun _ _ => rfl
  value_add := fun _ _ => rfl

/-- An account bill is passed over with the two amounts that only a user has. -/
theorem accountBills_shown_iff (b : AccountBill S) :
    accountBills.Shown b ↔
      (b.isZero = true → b.m_userGrpDiscnt = 0 ∧ b.m_userAdjust = 0) := by
  simp only [BillClass.Shown, accountBills, AccountBill.isZero, Prod.mk_eq_zero]
  grind

namespace UserSumBill1

def key (b : UserSumBill1 S) : S ×ₗ Int ×ₗ Int :=
  toLex (b.m_userId, toLex (b.m_tpObjId, b.m_billId))

/-- `operator<` -/
def less (left right : UserSumBill1 S) : Bool :=
  if left.m_userId < right.m_userId then true
  else if right.m_userId < left.m_userId then false
  else if left.m_tpObjId < right.m_tpObjId then true
  else if right.m_tpObjId < left.m_tpObjId then false
  else left.m_billId < right.m_billId

/-- `operator==` -/
def same (left right : UserSumBill1 S) : Bool :=
  left.m_userId = right.m_userId && left.m_tpObjId = right.m_tpObjId
    && left.m_billId = right.m_billId

/-- `operator+=`: the policy is taken over, and so is a maximum that is set. -/
def add (b r_right : UserSumBill1 S) : UserSumBill1 S :=
  { b with
    m_value := b.m_value + r_right.m_value
    m_feePolicyId := r_right.m_feePolicyId
    m_maxValue := if r_right.m_maxValue ≠ 999999999999 then r_right.m_maxValue else b.m_maxValue }

def isZero (b : UserSumBill1 S) : Bool := b.m_value = 0

end UserSumBill1

/-- First accumulations with their value. -/
def userSumBill1s : BillClass (UserSumBill1 S) (S ×ₗ Int ×ₗ Int) Int where
  key := UserSumBill1.key
  value := UserSumBill1.m_value
  less := UserSumBill1.less
  same := UserSumBill1.same
  add := UserSumBill1.add
  isZero := UserSumBill1.isZero
  less_iff := fun a b => by
    simp only [UserSumBill1.less, UserSumBill1.key, Prod.Lex.toLex_lt_toLex, first_key_iff,
      decide_eq_true_eq]
  same_iff := fun a b => by simp [UserSumBill1.same, UserSumBill1.key, and_assoc]
  key_add := fun _ _ => rfl
  value_add := fun _ _ => rfl

theorem userSumBill1s_shown (b : UserSumBill1 S) : userSumBill1s.Shown b := by
  simp [BillClass.Shown, userSumBill1s, UserSumBill1.isZero]

namespace UserSumBill2

def key (b : UserSumBill2 S) : S ×ₗ Int ×ₗ Int ×ₗ Int ×ₗ Int :=
  toLex (b.m_userId, toLex (b.m_tpObjId, toLex (b.m_beginTime, toLex (b.m_cycleId, b.m_billId))))

/-- `operator<` -/
def less (left right : UserSumBill2 S) : Bool :=
  if left.m_userId < right.m_userId then true
  else if right.m_userId < left.m_userId then false
  else if left.m_tpObjId < right.m_tpObjId then true
  else if right.m_tpObjId < left.m_tpObjId then false
  else if left.m_beginTime < right.m_beginTime then true
  else if right.m_beginTime < left.m_beginTime then false
  else if left.m_cycleId < right.m_cycleId then true
  else if right.m_cycleId < left.m_cycleId then false
  else left.m_billId < right.m_billId

/-- `operator==` -/
def same (left right : UserSumBill2 S) : Bool :=
  left.m_userId = right.m_userId && left.m_tpObjId = right.m_tpObjId
    && left.m_beginTime = right.m_beginTime && left.m_cycleId = right.m_cycleId
    && left.m_billId = right.m_billId

/-- `operator+=` -/
def add (b r_right : UserSumBill2 S) : UserSumBill2 S :=
  { b with
    m_value := b.m_value + r_right.m_value
    m_feePolicyId := r_right.m_feePolicyId
    m_maxValue := if r_right.m_maxValue ≠ 999999999999 then r_right.m_maxValue else b.m_maxValue }

def isZero (b : UserSumBill2 S) : Bool := b.m_value = 0

end UserSumBill2

/-- Second accumulations with their value. -/
def userSumBill2s : BillClass (UserSumBill2 S) (S ×ₗ Int ×ₗ Int ×ₗ Int ×ₗ Int) Int where
  key := UserSumBill2.key
  value := UserSumBill2.m_value
  less := UserSumBill2.less
  same := UserSumBill2.same
  add := UserSumBill2.add
  isZero := UserSumBill2.isZero
  less_iff := fun a b => by
    simp only [UserSumBill2.less, UserSumBill2.key, Prod.Lex.toLex_lt_toLex, first_key_iff,
      decide_eq_true_eq]
  same_iff := fun a b => by simp [UserSumBill2.same, UserSumBill2.key, and_assoc]
  key_add := fun _ _ => rfl
  value_add := fun _ _ => rfl

theorem userSumBill2s_shown (b : UserSumBill2 S) : userSumBill2s.Shown b := by
  simp [BillClass.Shown, userSumBill2s, UserSumBill2.isZero]

end BillStruct
