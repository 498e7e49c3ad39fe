import Boss.BillStruct
import Boss.DetailBillMgr
import Mathlib.Data.List.Sort

/-!
# Bills in units and in parts of a unit

A user bill has its amounts in parts of a unit, `m_divisor` of them to one, a detail bill in units.
`updateUserBill` writes the units of a detail bill back as parts, and `getDetailBill` reads a user
bill by `ComBill::carry`, which rounds by the mode of the item.

What was written back is read as it was unless the mode is the direct carry, which adds a unit even
where there is no part to carry (`write_back_iff`).  The amounts of a bill are rounded one by one, and
so the parts of a sum may miss the sum by a unit or two (`components_near`).
-/

namespace AcctBillMgr

open BillStruct PayRelationSolution DetailBillMgr Rounding

/-! ## Rounding by item -/

def MAX_ITEM : Nat := 100000

def CARRY_MODE_ROUND : Char := '0'
def CARRY_MODE_CUT : Char := '1'
def CARRY_MODE_ADD : Char := '2'

/-- What goes wrong: the exception for an item out of range, and a place past the end of an array,
where what is read is not determined. -/
inductive ItemError
  | range (r_itemCode : Int)
  | pastEnd (r_itemCode : Int)
deriving DecidableEq, Repr

/-- The items' marks and modes, and the parts of a unit. -/
structure ComBill where
  m_divisor : Int
  divisor_pos : 0 < m_divisor
  m_existFlag : Fin MAX_ITEM → Char
  m_carryModes : Fin MAX_ITEM → Char

/-- An entry of an array. -/
def readItem {α : Type*} (a : Fin MAX_ITEM → α) (r_itemCode : Int) : Except ItemError α :=
  if h : 0 ≤ r_itemCode ∧ r_itemCode.toNat < MAX_ITEM then .ok (a ⟨r_itemCode.toNat, h.2⟩)
  else .error (.pastEnd r_itemCode)

/-- To the nearest unit. -/
def roundValue (m_divisor r_value : Int) : Int :=
  if r_value ≥ 0 then (r_value + m_divisor.tdiv 2).tdiv m_divisor
  else (r_value - m_divisor.tdiv 2).tdiv m_divisor

/-- A value in units by a mode; other modes round. -/
def carryValue (m_divisor : Int) (mode : Char) (r_value : Int) : Int :=
  if mode = CARRY_MODE_ROUND then roundValue m_divisor r_value
  else if mode = CARRY_MODE_CUT then r_value.tdiv m_divisor
  else if mode = CARRY_MODE_ADD then
    if r_value ≥ 0 then r_value.tdiv m_divisor + 1 else r_value.tdiv m_divisor - 1
  else roundValue m_divisor r_value

namespace ComBill

variable (bill : ComBill)

def carry (r_itemCode r_value : Int) : Except ItemError Int :=
  if r_itemCode > MAX_ITEM ∨ r_itemCode < 0 then .error (.range r_itemCode)
  else do
    let mode ← readItem bill.m_carryModes r_itemCode
    return carryValue bill.m_divisor mode r_value

def ifItemExists (r_detailItem : Int) : Except ItemError Bool :=
  if r_detailItem > MAX_ITEM ∨ r_detailItem < 0 then .ok false
  else do
    let flag ← readItem bill.m_existFlag r_detailItem
    return flag = '1'

end ComBill

/-! ## Between the bills -/

variable {S : Type} [LinearOrder S]

/-- `UserBill::updatePart` -/
def updatePart (b r_right : UserBill S) : UserBill S :=
  { b with m_discntValue := r_right.m_discntValue, m_adjustBefore := r_right.m_adjustBefore }

/-- A fee in parts. -/
def userBillOf (m_divisor : Int) (m_subId : S) (fee : DetailItemFee) : UserBill S where
  m_userId := m_subId
  m_billId := fee.m_detailItemCode
  m_value := fee.m_ofee * m_divisor
  m_discntValue := fee.m_nfee * m_divisor
  m_adjustBefore := fee.m_bfee * m_divisor

/-- The fees of all users. -/
def entriesOf (users : List (UserDetailBill S)) : List (S × DetailItemFee) :=
  users.flatMap fun u => u.m_feeVector.map (u.m_subId, ·)

/-- `updateUserBill`; how a bill is put among the others is not in the source. -/
def updateUserBill (updatePartBill : List (UserBill S) → UserBill S → List (UserBill S))
    (m_divisor : Int) (detailBill : DetailBill S) (userBills : List (UserBill S)) :
    List (UserBill S) :=
  (entriesOf detailBill.m_detailBillVector).foldl
    (fun bills e => updatePartBill bills (userBillOf m_divisor e.1 e.2)) userBills

/-- A fee in units. -/
def detailItemFee (bill : ComBill) (itera : UserBill S) : Except ItemError DetailItemFee := do
  let code := itera.m_billId
  let m_ofee ← bill.carry code itera.m_value
  let m_nfee ← bill.carry code itera.m_discntValue
  let m_afee ← bill.carry code (itera.m_value - itera.m_discntValue - itera.m_adjustBefore)
  let m_cfee ← bill.carry code itera.m_value
  let m_bfee ← bill.carry code itera.m_adjustBefore
  return { m_detailItemCode := code, m_ofee, m_nfee, m_afee, m_cfee, m_bfee }

/-- `operator<` of the fees of a user, by item. -/
def sortFees (fees : List DetailItemFee) : List DetailItemFee :=
  fees.insertionSort fun left right => left.m_detailItemCode ≤ right.m_detailItemCode

/-- `operator<` of the users, by priority, the higher the earlier. -/
def sortUsers (users : List (UserDetailBill S)) : List (UserDetailBill S) :=
  users.insertionSort fun left right =>
    left.m_priority > right.m_priority ∨
      left.m_priority = right.m_priority ∧ left.m_subId ≤ right.m_subId

/-- A fee of a user, who may be on the list already. -/
def addFee (orderNo : S → Int) (m_subId : S) (fee : DetailItemFee) :
    List (UserDetailBill S) → List (UserDetailBill S)
  | [] => [⟨m_subId, orderNo m_subId, sortFees [fee]⟩]
  | u :: rest =>
      if u.m_subId = m_subId then { u with m_feeVector := sortFees (u.m_feeVector ++ [fee]) } :: rest
      else u :: addFee orderNo m_subId fee rest

/-- The user bills one after the other. -/
def readBills (bill : ComBill) (orderNo : S → Int) (r_userIds : Finset S) :
    List (UserBill S) → List (UserDetailBill S) → Except ItemError (List (UserDetailBill S))
  | [], users => .ok users
  | itera :: rest, users =>
      if itera.m_userId ∈ r_userIds then do
        let fee ← detailItemFee bill itera
        readBills bill orderNo r_userIds rest (addFee orderNo itera.m_userId fee users)
      else readBills bill orderNo r_userIds rest users

/-- `getDetailBill` for the users of a group; `members` are the members' places, when they can be
read.  The result is whether there is a bill, and the bill. -/
def getDetailBill (bill : ComBill) (members : Option (S → Int)) (r_userGrpId : S)
    (r_userIds : Finset S) (r_userBills : List (UserBill S)) :
    Except ItemError (Bool × DetailBill S) :=
  match members with
  | none => .ok (false, ⟨.GROUP, r_userGrpId, []⟩)
  | some orderNo => do
      let users ← readBills bill orderNo r_userIds r_userBills []
      return (!(sortUsers users).isEmpty, ⟨.GROUP, r_userGrpId, sortUsers users⟩)

/-! ## What rounding does -/

section Rounded

variable {d x : Int}

/-- The rounded value is the quotient rounded half away from zero. -/
theorem halfAway_roundValue (hd : 0 < d) (v : Int) : HalfAway ((v : ℚ) / d) (roundValue d v) := by
  unfold roundValue
  split
  · rename_i hv
    exact halfAway_tdiv_add_half hv hd
  · rename_i hv
    exact halfAway_tdiv_sub_half (le_of_not_ge hv) hd

/-- A value without a remainder is not rounded. -/
theorem roundValue_mul (hd : 0 < d) (x : Int) : roundValue d (x * d) = x := by
  have hround := halfAway_roundValue hd (x * d)
  rw [Int.cast_mul, mul_div_cancel_right₀ _ (Int.cast_ne_zero.mpr hd.ne')] at hround
  exact le_antisymm (hround.ge_of_ge le_rfl) (hround.le_of_le le_rfl)

/-- **Whole units are carried to themselves**, except by the direct carry. -/
theorem carryValue_mul_iff (hd : 0 < d) (mode : Char) (x : Int) :
    carryValue d mode (x * d) = x ↔ mode ≠ CARRY_MODE_ADD := by
  unfold carryValue
  rw [roundValue_mul hd, Int.mul_tdiv_cancel _ hd.ne']
  split_ifs with hround hcut hadd hsign
  · exact iff_of_true rfl (hround ▸ by decide)
  · exact iff_of_true rfl (hcut ▸ by decide)
  · simp [hadd]
  · simp [hadd]
  · simp [hadd]

end Rounded

/-! ## Reading a bill -/

/-- What tells the fees of a bill apart. -/
def keyOf (e : S × DetailItemFee) : S × Int := (e.1, e.2.m_detailItemCode)

/-- A fee that is added is one more entry. -/
theorem perm_addFee (orderNo : S → Int) (m_subId : S) (fee : DetailItemFee)
    (users : List (UserDetailBill S)) :
    (entriesOf (addFee orderNo m_subId fee users)).Perm ((m_subId, fee) :: entriesOf users) := by
  induction users with
  | nil => exact List.Perm.refl _
  | cons u rest ih =>
      unfold addFee
      split
      · rename_i hsame
        subst hsame
        unfold entriesOf
        rw [List.flatMap_cons, List.flatMap_cons, ← List.cons_append]
        refine List.Perm.append_right _ ?_
        have hsort := (List.perm_insertionSort (fun left right : DetailItemFee =>
          left.m_detailItemCode ≤ right.m_detailItemCode) (u.m_feeVector ++ [fee])).trans
            List.perm_append_comm
        exact hsort.map (u.m_subId, ·)
      · unfold entriesOf at ih ⊢
        rw [List.flatMap_cons, List.flatMap_cons]
        exact (ih.append_left _).trans List.perm_middle

/-- Sorting the users keeps the entries. -/
theorem perm_sortUsers (users : List (UserDetailBill S)) :
    (entriesOf (sortUsers users)).Perm (entriesOf users) :=
  (List.perm_insertionSort _ users).flatMap_right _

section Read

variable {bill : ComBill} {orderNo : S → Int} {r_userIds : Finset S} {bills : List (UserBill S)}
  {users : List (UserDetailBill S)}

/-- What is read when nothing goes wrong. -/
theorem readBills_ok {feeOf : UserBill S → DetailItemFee}
    (h : ∀ b ∈ bills, b.m_userId ∈ r_userIds ∧ detailItemFee bill b = .ok (feeOf b)) :
    ∃ users', readBills bill orderNo r_userIds bills users = .ok users' ∧
      (entriesOf users').Perm
        (entriesOf users ++ bills.map fun b => (b.m_userId, feeOf b)) := by
  induction bills generalizing users with
  | nil => exact ⟨users, rfl, by rw [List.map_nil, List.append_nil]⟩
  | cons b rest ih =>
      obtain ⟨hid, hfee⟩ := h b List.mem_cons_self
      obtain ⟨users', hread, hperm⟩ := @ih (addFee orderNo b.m_userId (feeOf b) users)
        fun b' hb' => h b' (List.mem_cons_of_mem b hb')
      refine ⟨users', ?_, ?_⟩
      · unfold readBills
        rw [if_pos hid, hfee]
        exact hread
      · refine hperm.trans (((perm_addFee orderNo _ _ _).append_right _).trans ?_)
        rw [List.map_cons]
        exact List.perm_middle.symm

/-- Nothing is read when something goes wrong. -/
theorem detailItemFee_of_readBills {users' : List (UserDetailBill S)}
    (h : readBills bill orderNo r_userIds bills users = .ok users') {b : UserBill S} (hb : b ∈ bills)
    (hid : b.m_userId ∈ r_userIds) : ∃ fee, detailItemFee bill b = .ok fee := by
  induction bills generalizing users with
  | nil => exact absurd hb List.not_mem_nil
  | cons b' rest ih =>
      unfold readBills at h
      cases hfee : detailItemFee bill b' with
      | error e =>
          rcases List.mem_cons.mp hb with rfl | hb
          · rw [if_pos hid, hfee] at h
            cases h
          · split at h
            · rw [hfee] at h
              cases h
            · exact ih h hb
      | ok fee =>
          rcases List.mem_cons.mp hb with rfl | hb
          · exact ⟨fee, hfee⟩
          · split at h
            · rw [hfee] at h
              exact ih h hb
            · exact ih h hb

end Read

/-! ## Writing back -/

/-- What `updatePartBill` is for: a bill that is there gets the parts, another one is added. -/
def UpdatesPart (updatePartBill : List (UserBill S) → UserBill S → List (UserBill S)) : Prop :=
  ∀ bills b, (updatePartBill bills b).Perm
    (if ∃ old ∈ bills, old.key = b.key then
      bills.map fun old => if old.key = b.key then updatePart old b else old
    else bills ++ [b])

section Write

variable {updatePartBill : List (UserBill S) → UserBill S → List (UserBill S)} {m_divisor : Int}

/-- Fees of different users or items become as many bills. -/
theorem foldl_updatePartBill (hupdate : UpdatesPart updatePartBill)
    (entries : List (S × DetailItemFee)) (bills : List (UserBill S))
    (hkeys : (entries.map keyOf).Nodup)
    (hnew : ∀ e ∈ entries, ∀ old ∈ bills, old.key ≠ toLex (keyOf e)) :
    (entries.foldl (fun bills e => updatePartBill bills (userBillOf m_divisor e.1 e.2)) bills).Perm
      (bills ++ entries.map fun e => userBillOf m_divisor e.1 e.2) := by
  induction entries generalizing bills with
  | nil => simp
  | cons e rest ih =>
      rw [List.map_cons, List.nodup_cons] at hkeys
      have hadd : (updatePartBill bills (userBillOf m_divisor e.1 e.2)).Perm
          (bills ++ [userBillOf m_divisor e.1 e.2]) := by
        have hperm := hupdate bills (userBillOf m_divisor e.1 e.2)
        rwa [if_neg fun ⟨old, hold, hsame⟩ => hnew e List.mem_cons_self old hold hsame] at hperm
      rw [List.foldl_cons, List.map_cons]
      refine (ih _ hkeys.2 ?_).trans ?_
      · intro e' he' old hold
        rcases List.mem_append.mp (hadd.mem_iff.mp hold) with hold | hold
        · exact hnew e' (List.mem_cons_of_mem e he') old hold
        · obtain rfl := List.mem_singleton.mp hold
          intro hsame
          have hkey : keyOf e' = keyOf e := toLex.injective hsame.symm
          exact hkeys.1 (hkey ▸ List.mem_map_of_mem he')
      · refine (hadd.append_right _).trans ?_
        rw [List.append_assoc, List.singleton_append]

end Write

/-- The fees that are kept: the original, the actual and the adjusted one. -/
def threeFees (fee : DetailItemFee) : Int × Int × Int := (fee.m_ofee, fee.m_nfee, fee.m_bfee)

/-- The fees of a user's item on a bill. -/
def feesAt (users : List (UserDetailBill S)) (key : S × Int) : List (Int × Int × Int) :=
  ((entriesOf users).filter fun e => keyOf e = key).map fun e => threeFees e.2

/-- A bill that is written back and read again is what it was, and no array is read past its end
for its items. -/
def WritesBack (updatePartBill : List (UserBill S) → UserBill S → List (UserBill S))
    (bill : ComBill) (orderNo : S → Int) (r_userGrpId : S) (r_userIds : Finset S)
    (detailBill : DetailBill S) : Prop :=
  (∃ found read, getDetailBill bill (some orderNo) r_userGrpId r_userIds
      (updateUserBill updatePartBill bill.m_divisor detailBill []) = .ok (found, read) ∧
    ∀ e ∈ entriesOf detailBill.m_detailBillVector,
      feesAt read.m_detailBillVector (keyOf e) = [threeFees e.2]) ∧
  ∀ e ∈ entriesOf detailBill.m_detailBillVector,
    (∀ r_value, bill.carry e.2.m_detailItemCode r_value ≠
      .error (.pastEnd e.2.m_detailItemCode)) ∧
    bill.ifItemExists e.2.m_detailItemCode ≠ .error (.pastEnd e.2.m_detailItemCode)

/-- An item in the arrays that has no direct carry. -/
def PlainItem (bill : ComBill) (r_itemCode : Int) : Prop :=
  ∃ mode, readItem bill.m_carryModes r_itemCode = .ok mode ∧ mode ≠ CARRY_MODE_ADD

section WriteBack

variable {bill : ComBill} {code : Int}

/-- An item that is read is inside the table. -/
theorem readItem_ok {α : Type*} {a : Fin MAX_ITEM → α} {x : α} (h : readItem a code = .ok x) :
    0 ≤ code ∧ code.toNat < MAX_ITEM := by
  unfold readItem at h
  split at h
  · assumption
  · cases h

/-- An item in the arrays is carried by its mode. -/
theorem carry_eq {mode : Char} (hmode : readItem bill.m_carryModes code = .ok mode) (v : Int) :
    bill.carry code v = .ok (carryValue bill.m_divisor mode v) := by
  have hin := readItem_ok hmode
  unfold ComBill.carry
  rw [if_neg (by omega), hmode]
  rfl

omit [LinearOrder S] in
/-- What is read of a bill whose item has a carry mode. -/
theorem detailItemFee_eq {mode : Char} {b : UserBill S}
    (hmode : readItem bill.m_carryModes b.m_billId = .ok mode) :
    detailItemFee bill b = .ok
      { m_detailItemCode := b.m_billId
        m_ofee := carryValue bill.m_divisor mode b.m_value
        m_nfee := carryValue bill.m_divisor mode b.m_discntValue
        m_afee := carryValue bill.m_divisor mode
          (b.m_value - b.m_discntValue - b.m_adjustBefore)
        m_cfee := carryValue bill.m_divisor mode b.m_value
        m_bfee := carryValue bill.m_divisor mode b.m_adjustBefore } := by
  unfold detailItemFee
  simp only [carry_eq hmode]
  rfl

/-- The fee that is read of what was written back. -/
def readBack (m_divisor : Int) (mode : Char) (fee : DetailItemFee) : DetailItemFee where
  m_detailItemCode := fee.m_detailItemCode
  m_ofee := carryValue m_divisor mode (fee.m_ofee * m_divisor)
  m_nfee := carryValue m_divisor mode (fee.m_nfee * m_divisor)
  m_afee := carryValue m_divisor mode
    (fee.m_ofee * m_divisor - fee.m_nfee * m_divisor - fee.m_bfee * m_divisor)
  m_cfee := carryValue m_divisor mode (fee.m_ofee * m_divisor)
  m_bfee := carryValue m_divisor mode (fee.m_bfee * m_divisor)

omit [LinearOrder S] in
/-- What is written for a fee is read back with its values rounded. -/
theorem detailItemFee_userBillOf {mode : Char} (m_subId : S) {fee : DetailItemFee}
    (hmode : readItem bill.m_carryModes fee.m_detailItemCode = .ok mode) :
    detailItemFee bill (userBillOf bill.m_divisor m_subId fee) =
      .ok (readBack bill.m_divisor mode fee) :=
  detailItemFee_eq hmode

omit [LinearOrder S] in
/-- What an item is carried with when it is carried at all. -/
theorem mode_of_detailItemFee {b : UserBill S} {fee : DetailItemFee}
    (h : detailItemFee bill b = .ok fee) :
    ∃ mode, readItem bill.m_carryModes b.m_billId = .ok mode := by
  unfold detailItemFee ComBill.carry at h
  dsimp only at h
  split at h
  · cases h
  · cases hmode : readItem bill.m_carryModes b.m_billId with
    | error e =>
        rw [hmode] at h
        cases h
    | ok mode => exact ⟨mode, rfl⟩

/-- The fees of one item of a user, when everything on a bill has been read one by one. -/
theorem feesAt_of_perm {users : List (UserDetailBill S)} {entries : List (S × DetailItemFee)}
    {f : S × DetailItemFee → S × DetailItemFee} (hperm : (entriesOf users).Perm (entries.map f))
    (hf : ∀ e, keyOf (f e) = keyOf e) (hkeys : (entries.map keyOf).Nodup) {e : S × DetailItemFee}
    (he : e ∈ entries) : feesAt users (keyOf e) = [threeFees (f e).2] := by
  have hone : ∀ l : List (S × DetailItemFee), (l.map keyOf).Nodup → e ∈ l →
      (l.filter fun x => keyOf x = keyOf e) = [e] := by
    intro l hl he
    induction l with
    | nil => exact absurd he List.not_mem_nil
    | cons x rest ih =>
        rw [List.map_cons, List.nodup_cons] at hl
        rcases List.mem_cons.mp he with rfl | he
        · have hnone : (rest.filter fun x => keyOf x = keyOf e) = [] := by
            rw [List.filter_eq_nil_iff]
            intro y hy hsame
            exact hl.1 (of_decide_eq_true hsame ▸ List.mem_map_of_mem hy)
          rw [List.filter_cons_of_pos (by simp), hnone]
        · rw [List.filter_cons_of_neg, ih hl.2 he]
          intro hsame
          exact hl.1 (of_decide_eq_true hsame ▸ List.mem_map_of_mem he)
  have hfilter := hperm.filter fun x => keyOf x = keyOf e
  rw [List.filter_map] at hfilter
  have hkey : ((fun x => decide (keyOf x = keyOf e)) ∘ f) = fun x => decide (keyOf x = keyOf e) := by
    funext x
    simp [hf]
  rw [hkey, hone entries hkeys he, List.map_singleton, List.perm_singleton] at hfilter
  unfold feesAt
  rw [hfilter]
  rfl

variable {updatePartBill : List (UserBill S) → UserBill S → List (UserBill S)} {orderNo : S → Int}
  {r_userGrpId : S} {r_userIds : Finset S} {detailBill : DetailBill S}

/-- The mode of an item in the arrays. -/
def modeOf (bill : ComBill) (r_itemCode : Int) : Char :=
  (readItem bill.m_carryModes r_itemCode).toOption.getD CARRY_MODE_ROUND

/-- The carry mode that is read is the one of the item. -/
theorem readItem_modeOf {mode : Char} (h : readItem bill.m_carryModes code = .ok mode) :
    readItem bill.m_carryModes code = .ok (modeOf bill code) := by
  unfold modeOf
  rw [h]
  rfl

/-- With an order of the users the bill is what is read, sorted. -/
theorem getDetailBill_some (bills : List (UserBill S)) :
    getDetailBill bill (some orderNo) r_userGrpId r_userIds bills =
      (readBills bill orderNo r_userIds bills []).map fun users =>
        (!(sortUsers users).isEmpty, ⟨.GROUP, r_userGrpId, sortUsers users⟩) := by
  unfold getDetailBill
  dsimp only
  cases readBills bill orderNo r_userIds bills [] <;> rfl

/-- Every fee of a bill is written to a bill of its own. -/
theorem updateUserBill_perm (hupdate : UpdatesPart updatePartBill)
    (hkeys : ((entriesOf detailBill.m_detailBillVector).map keyOf).Nodup) :
    (updateUserBill updatePartBill bill.m_divisor detailBill []).Perm
      ((entriesOf detailBill.m_detailBillVector).map fun e =>
        userBillOf bill.m_divisor e.1 e.2) :=
  foldl_updatePartBill hupdate _ [] hkeys fun _ _ _ hold => absurd hold List.not_mem_nil

omit [LinearOrder S] in
/-- An entry belongs to a user of the list. -/
theorem mem_of_mem_entriesOf {users : List (UserDetailBill S)} {e : S × DetailItemFee}
    (he : e ∈ entriesOf users) : ∃ u ∈ users, u.m_subId = e.1 := by
  obtain ⟨u, hu, hfees⟩ := List.mem_flatMap.mp he
  obtain ⟨fee, -, rfl⟩ := List.mem_map.mp hfees
  exact ⟨u, hu, rfl⟩

variable (orderNo r_userGrpId) in
/-- What is read of a bill whose items are in the arrays. -/
theorem getDetailBill_of_modes (hupdate : UpdatesPart updatePartBill)
    (hkeys : ((entriesOf detailBill.m_detailBillVector).map keyOf).Nodup)
    (hids : ∀ u ∈ detailBill.m_detailBillVector, u.m_subId ∈ r_userIds)
    (hmodes : ∀ e ∈ entriesOf detailBill.m_detailBillVector,
      ∃ mode, readItem bill.m_carryModes e.2.m_detailItemCode = .ok mode) :
    ∃ found read, getDetailBill bill (some orderNo) r_userGrpId r_userIds
        (updateUserBill updatePartBill bill.m_divisor detailBill []) = .ok (found, read) ∧
      ∀ e ∈ entriesOf detailBill.m_detailBillVector, feesAt read.m_detailBillVector (keyOf e) =
        [threeFees (readBack bill.m_divisor (modeOf bill e.2.m_detailItemCode) e.2)] := by
  let feeOf : UserBill S → DetailItemFee := fun b => (detailItemFee bill b).toOption.getD {}
  let read : S × DetailItemFee → S × DetailItemFee := fun e =>
    (e.1, readBack bill.m_divisor (modeOf bill e.2.m_detailItemCode) e.2)
  have hfee : ∀ e ∈ entriesOf detailBill.m_detailBillVector,
      detailItemFee bill (userBillOf bill.m_divisor e.1 e.2) = .ok (read e).2 := by
    intro e he
    obtain ⟨mode, hmode⟩ := hmodes e he
    exact detailItemFee_userBillOf e.1 (readItem_modeOf hmode)
  have hbills : (updateUserBill updatePartBill bill.m_divisor detailBill []).Perm _ :=
    updateUserBill_perm hupdate hkeys
  have hok : ∀ b ∈ updateUserBill updatePartBill bill.m_divisor detailBill [],
      b.m_userId ∈ r_userIds ∧ detailItemFee bill b = .ok (feeOf b) := by
    intro b hb
    obtain ⟨e, he, rfl⟩ := List.mem_map.mp (hbills.mem_iff.mp hb)
    obtain ⟨u, hu, hid⟩ := mem_of_mem_entriesOf he
    refine ⟨(hid ▸ hids u hu : e.1 ∈ r_userIds), ?_⟩
    unfold feeOf
    rw [hfee e he]
    rfl
  obtain ⟨users', hread, hperm⟩ := @readBills_ok _ _ bill orderNo r_userIds _ [] feeOf hok
  have hsame : ((entriesOf detailBill.m_detailBillVector).map fun e =>
      ((userBillOf bill.m_divisor e.1 e.2).m_userId,
        feeOf (userBillOf bill.m_divisor e.1 e.2))) =
      (entriesOf detailBill.m_detailBillVector).map read := by
    refine List.map_congr_left fun e he => ?_
    unfold feeOf
    rw [hfee e he]
    rfl
  refine ⟨!(sortUsers users').isEmpty, ⟨.GROUP, r_userGrpId, sortUsers users'⟩, ?_, fun e he => ?_⟩
  · rw [getDetailBill_some, hread]
    rfl
  · refine feesAt_of_perm (f := read) ?_ (fun _ => rfl) hkeys he
    have hmap := hbills.map fun b => (b.m_userId, feeOf b)
    rw [List.map_map] at hmap
    exact (perm_sortUsers users').trans (hperm.trans (hsame ▸ hmap))

omit [LinearOrder S] in
/-- A fee comes back just when it is not carried upwards. -/
theorem threeFees_readBack_iff {e : S × DetailItemFee} :
    [threeFees (readBack bill.m_divisor (modeOf bill e.2.m_detailItemCode) e.2)] =
      [threeFees e.2] ↔ modeOf bill e.2.m_detailItemCode ≠ CARRY_MODE_ADD := by
  unfold threeFees readBack
  rw [List.singleton_inj, Prod.mk.injEq, Prod.mk.injEq,
    carryValue_mul_iff bill.divisor_pos, carryValue_mul_iff bill.divisor_pos,
    carryValue_mul_iff bill.divisor_pos, and_self, and_self]

/-- Where the bills are read, every item is in the arrays. -/
theorem modes_of_getDetailBill (hupdate : UpdatesPart updatePartBill)
    (hkeys : ((entriesOf detailBill.m_detailBillVector).map keyOf).Nodup)
    (hids : ∀ u ∈ detailBill.m_detailBillVector, u.m_subId ∈ r_userIds)
    {found : Bool} {read : DetailBill S}
    (hget : getDetailBill bill (some orderNo) r_userGrpId r_userIds
      (updateUserBill updatePartBill bill.m_divisor detailBill []) = .ok (found, read)) :
    ∀ e ∈ entriesOf detailBill.m_detailBillVector,
      ∃ mode, readItem bill.m_carryModes e.2.m_detailItemCode = .ok mode := by
  intro e he
  obtain ⟨u, hu, hid⟩ := mem_of_mem_entriesOf he
  rw [getDetailBill_some] at hget
  cases hread : readBills bill orderNo r_userIds
      (updateUserBill updatePartBill bill.m_divisor detailBill []) [] with
  | error err =>
      rw [hread] at hget
      cases hget
  | ok users =>
      obtain ⟨fee, hfee⟩ := detailItemFee_of_readBills hread
        ((updateUserBill_perm hupdate hkeys).mem_iff.mpr (List.mem_map_of_mem he))
        (hid ▸ hids u hu)
      exact mode_of_detailItemFee hfee

/-- **Bills are read as they were written** just when every item is in the arrays and has no direct
carry. -/
theorem write_back_iff (hupdate : UpdatesPart updatePartBill)
    (hkeys : ((entriesOf detailBill.m_detailBillVector).map keyOf).Nodup)
    (hids : ∀ u ∈ detailBill.m_detailBillVector, u.m_subId ∈ r_userIds) :
    WritesBack updatePartBill bill orderNo r_userGrpId r_userIds detailBill ↔
      ∀ e ∈ entriesOf detailBill.m_detailBillVector, PlainItem bill e.2.m_detailItemCode := by
  constructor
  · rintro ⟨⟨found, read, hget, hsame⟩, -⟩ e he
    have hmodes := modes_of_getDetailBill hupdate hkeys hids hget
    obtain ⟨found', read', hget', hread⟩ :=
      getDetailBill_of_modes orderNo r_userGrpId hupdate hkeys hids hmodes
    obtain ⟨rfl, rfl⟩ : found = found' ∧ read = read' := by
      rw [hget] at hget'
      exact Prod.mk.inj (Except.ok.inj hget')
    obtain ⟨mode, hmode⟩ := hmodes e he
    exact ⟨_, readItem_modeOf hmode, threeFees_readBack_iff.mp ((hread e he).symm.trans (hsame e he))⟩
  · intro hplain
    have hmodes : ∀ e ∈ entriesOf detailBill.m_detailBillVector,
        ∃ mode, readItem bill.m_carryModes e.2.m_detailItemCode = .ok mode := fun e he =>
      (hplain e he).imp fun _ h => h.1
    obtain ⟨found, read, hget, hread⟩ :=
      getDetailBill_of_modes orderNo r_userGrpId hupdate hkeys hids hmodes
    refine ⟨⟨found, read, hget, fun e he => ?_⟩, fun e he => ?_⟩
    · obtain ⟨mode, hmode, hadd⟩ := hplain e he
      have hsame : mode = modeOf bill e.2.m_detailItemCode :=
        Except.ok.inj (hmode.symm.trans (readItem_modeOf hmode))
      exact (hread e he).trans (threeFees_readBack_iff.mpr (hsame ▸ hadd))
    · obtain ⟨mode, hmode, -⟩ := hplain e he
      have hin := readItem_ok hmode
      constructor
      · intro v
        rw [carry_eq hmode]
        nofun
      · unfold ComBill.ifItemExists readItem
        rw [if_neg (by omega), dif_pos hin]
        nofun

end WriteBack

/-- The divisor of the tests is positive. -/
theorem ten_pos : (0 : Int) < 10 := by decide

/-- Tenths of a unit, with one mode for all items. -/
def tenths (mode : Char) : ComBill := ⟨10, ten_pos, fun _ => '1', fun _ => mode⟩

/-- A bill that is there gets the parts, another one comes last. -/
def putPart (bills : List (UserBill S)) (b : UserBill S) : List (UserBill S) :=
  if ∃ old ∈ bills, old.key = b.key then
    bills.map fun old => if old.key = b.key then updatePart old b else old
  else bills ++ [b]

theorem putPart_updatesPart : UpdatesPart (putPart (S := S)) := fun _ _ => List.Perm.refl _

/-- A user with a fee of 3 on an item, 1 of it after a discount. -/
def oneFee (m_detailItemCode : Int) : DetailBill Nat :=
  ⟨.GROUP, 9, [⟨4, 0, [{ m_detailItemCode, m_ofee := 3, m_nfee := 1 }]⟩]⟩

/-- One fee in tenths with the rounding mode. -/
theorem write_back_iff_oneFee :
    WritesBack putPart (tenths CARRY_MODE_ROUND) (fun _ => 0) 9 {4} (oneFee 5) ↔
      ∀ e ∈ entriesOf (oneFee 5).m_detailBillVector,
        PlainItem (tenths CARRY_MODE_ROUND) e.2.m_detailItemCode :=
  write_back_iff putPart_updatesPart (by decide) (by decide)

/-- A direct carry makes 4 and 2 of the fees 3 and 1, and the place of item 100000 is past the end. -/
theorem write_back_fails :
    ¬ WritesBack putPart (tenths CARRY_MODE_ADD) (fun _ => 0) 9 {4} (oneFee 5) ∧
      (tenths CARRY_MODE_ROUND).carry MAX_ITEM 30 = .error (.pastEnd MAX_ITEM) ∧
      (tenths CARRY_MODE_ROUND).ifItemExists MAX_ITEM = .error (.pastEnd MAX_ITEM) := by
  refine ⟨?_, rfl, rfl⟩
  rintro ⟨⟨found, read, hget, hsame⟩, -⟩
  have hread : getDetailBill (tenths CARRY_MODE_ADD) (some fun _ => 0) 9 {4}
      (updateUserBill putPart 10 (oneFee 5) []) = .ok (true, ⟨.GROUP, 9, [⟨4, 0,
        [{ m_detailItemCode := 5, m_ofee := 4, m_nfee := 2, m_afee := 3, m_cfee := 4,
           m_bfee := 1 }]⟩]⟩) := rfl
  obtain ⟨rfl, rfl⟩ := Prod.mk.inj (Except.ok.inj (hread.symm.trans hget))
  exact absurd (hsame (4, { m_detailItemCode := 5, m_ofee := 3, m_nfee := 1 }) (by decide)) (by decide)

/-! ## Parts of a sum -/

section Components

variable {d v x y z : Int}

/-- What is cut off has the sign of the value and is less than a unit. -/
theorem cut_error (hd : 0 < d) (v : Int) :
    (0 ≤ v → 0 ≤ v - d * carryValue d CARRY_MODE_CUT v ∧
        v - d * carryValue d CARRY_MODE_CUT v < d) ∧
      (v < 0 → -d < v - d * carryValue d CARRY_MODE_CUT v ∧
        v - d * carryValue d CARRY_MODE_CUT v ≤ 0) := by
  have hcut : carryValue d CARRY_MODE_CUT v = v.tdiv d := rfl
  have hmod := Int.mul_tdiv_add_tmod v d
  have hrest : v - d * v.tdiv d = v.tmod d := by omega
  rw [hcut, hrest]
  constructor
  · intro hv
    exact ⟨Int.tmod_nonneg d hv, Int.tmod_lt_of_pos v hd⟩
  · intro hv
    have hneg : (-v).tmod d = -v.tmod d := Int.neg_tmod v d
    have hlow := Int.tmod_nonneg d (show 0 ≤ -v by omega)
    have hhigh := Int.tmod_lt_of_pos (-v) hd
    omega

/-- The direct carry is a unit further from 0. -/
theorem add_error (hd : 0 < d) (v : Int) :
    (0 ≤ v → -d ≤ v - d * carryValue d CARRY_MODE_ADD v ∧
        v - d * carryValue d CARRY_MODE_ADD v < 0) ∧
      (v < 0 → 0 < v - d * carryValue d CARRY_MODE_ADD v ∧
        v - d * carryValue d CARRY_MODE_ADD v ≤ d) := by
  have hcut := cut_error hd v
  have hadd : carryValue d CARRY_MODE_ADD v =
      if v ≥ 0 then carryValue d CARRY_MODE_CUT v + 1 else carryValue d CARRY_MODE_CUT v - 1 := rfl
  rw [hadd]
  split
  · rw [mul_add, mul_one]
    omega
  · rw [mul_sub, mul_one]
    omega

/-- Rounding misses by half a unit at most, and by just that away from 0 only. -/
theorem roundValue_error (hd : 0 < d) (v : Int) :
    -d ≤ 2 * (v - d * roundValue d v) ∧ 2 * (v - d * roundValue d v) ≤ d ∧
      (0 ≤ v → 2 * (v - d * roundValue d v) < d) ∧
        (v ≤ 0 → -d < 2 * (v - d * roundValue d v)) := by
  obtain ⟨hnear, haway⟩ := (halfAway_div_iff hd).mp (halfAway_roundValue hd v)
  have habs : d * |roundValue d v| = |d * roundValue d v| := by rw [abs_mul, abs_of_pos hd]
  rw [habs] at haway
  -- a product with `d` is 0 or not less than `d`
  have hunits : d * roundValue d v ≤ -d ∨ d * roundValue d v = 0 ∨ d ≤ d * roundValue d v := by
    rcases lt_trichotomy (roundValue d v) 0 with hr | hr | hr
    · exact .inl (by nlinarith)
    · exact .inr (.inl (by rw [hr, mul_zero]))
    · exact .inr (.inr (le_mul_of_one_le_right hd.le hr))
  generalize d * roundValue d v = w at hnear haway hunits ⊢
  rcases abs_cases (v - w) with ⟨h, _⟩ | ⟨h, _⟩ <;> rcases abs_cases v with ⟨hv, _⟩ | ⟨hv, _⟩ <;>
    rcases abs_cases w with ⟨hw, _⟩ | ⟨hw, _⟩ <;> omega

/-- The difference of whole numbers by its multiple. -/
theorem abs_le_of_mul {k j : Int} (hd : 0 < d) (hlow : -(d * (j + 1)) < d * k)
    (hhigh : d * k < d * (j + 1)) : |k| ≤ j := by
  have hlow' : d * -(j + 1) < d * k := by rwa [mul_neg]
  have hlow'' := lt_of_mul_lt_mul_left hlow' hd.le
  have hhigh' := lt_of_mul_lt_mul_left hhigh hd.le
  rw [abs_le]
  omega

/-- **A rounded sum and its rounded parts** differ by two units at most, and by one when all are
rounded to the nearest. -/
theorem carryValue_sum (hd : 0 < d) (mode : Char) (hsum : v = x + y + z) :
    |carryValue d mode v - (carryValue d mode x + carryValue d mode y + carryValue d mode z)| ≤
      if mode = CARRY_MODE_CUT ∨ mode = CARRY_MODE_ADD then 2 else 1 := by
  have hdiff : ∀ a b c e : Int, d * (a - (b + c + e)) = d * a - d * b - d * c - d * e := by
    intro a b c e
    ring
  have hround : |roundValue d v - (roundValue d x + roundValue d y + roundValue d z)| ≤ 1 := by
    have hv := roundValue_error hd v
    have hx := roundValue_error hd x
    have hy := roundValue_error hd y
    have hz := roundValue_error hd z
    refine abs_le_of_mul hd ?_ ?_ <;> rw [hdiff] <;> omega
  by_cases hcut : mode = CARRY_MODE_CUT
  · subst hcut
    have hv := cut_error hd v
    have hx := cut_error hd x
    have hy := cut_error hd y
    have hz := cut_error hd z
    rw [if_pos (.inl rfl)]
    refine abs_le_of_mul hd ?_ ?_ <;> rw [hdiff] <;> omega
  by_cases hadd : mode = CARRY_MODE_ADD
  · subst hadd
    have hv := add_error hd v
    have hx := add_error hd x
    have hy := add_error hd y
    have hz := add_error hd z
    rw [if_pos (.inr rfl)]
    refine abs_le_of_mul hd ?_ ?_ <;> rw [hdiff] <;> omega
  · rw [if_neg fun h => h.elim hcut hadd]
    unfold carryValue
    simpa only [if_neg hcut, if_neg hadd, ite_self] using hround

end Components

omit [LinearOrder S] in
/-- **Original, net, discount and adjustment** add up to within the bound of the item's mode, and
exactly where the amounts are whole units that are not carried directly. -/
theorem components_near {bill : ComBill} {b : UserBill S} {fee : DetailItemFee}
    (h : detailItemFee bill b = .ok fee) :
    |fee.m_ofee - (fee.m_nfee + fee.m_afee + fee.m_bfee)| ≤
        (if modeOf bill b.m_billId = CARRY_MODE_CUT ∨ modeOf bill b.m_billId = CARRY_MODE_ADD then 2
        else 1) ∧
      (modeOf bill b.m_billId ≠ CARRY_MODE_ADD → bill.m_divisor ∣ b.m_value →
        bill.m_divisor ∣ b.m_discntValue → bill.m_divisor ∣ b.m_adjustBefore →
        fee.m_ofee = fee.m_nfee + fee.m_afee + fee.m_bfee) := by
  obtain ⟨mode, hmode⟩ := mode_of_detailItemFee h
  rw [detailItemFee_eq (readItem_modeOf hmode)] at h
  obtain rfl := Except.ok.inj h
  refine ⟨carryValue_sum bill.divisor_pos _ (by omega), ?_⟩
  rintro hadd ⟨v, hv⟩ ⟨n, hn⟩ ⟨a, ha⟩
  have hrest : b.m_value - b.m_discntValue - b.m_adjustBefore = (v - n - a) * bill.m_divisor := by
    rw [hv, hn, ha]
    ring
  have hcarry : ∀ x, carryValue bill.m_divisor (modeOf bill b.m_billId) (x * bill.m_divisor) = x :=
    fun x => (carryValue_mul_iff bill.divisor_pos _ x).mpr hadd
  dsimp only
  rw [hrest, hv, hn, ha, mul_comm bill.m_divisor v, mul_comm bill.m_divisor n,
    mul_comm bill.m_divisor a, hcarry, hcarry, hcarry, hcarry]
  omega

/-- Of 10 tenths, 4 and 4 and 2 are each nothing. -/
theorem components_miss :
    ∃ fee, detailItemFee (tenths CARRY_MODE_ROUND) (⟨4, 5, 10, 4, 2⟩ : UserBill Nat) = .ok fee ∧
      fee.m_ofee ≠ fee.m_nfee + fee.m_afee + fee.m_bfee :=
  ⟨_, rfl, by decide⟩

/-- A case of the bounds, in tenths and with the rounding mode. -/
theorem components_near_ten :
    |(1 : Int) - (0 + 0 + 0)| ≤
        (if modeOf (tenths CARRY_MODE_ROUND) 5 = CARRY_MODE_CUT ∨
          modeOf (tenths CARRY_MODE_ROUND) 5 = CARRY_MODE_ADD then 2 else 1) ∧
      (modeOf (tenths CARRY_MODE_ROUND) 5 ≠ CARRY_MODE_ADD → (10 : Int) ∣ 10 → (10 : Int) ∣ 4 →
        (10 : Int) ∣ 2 → (1 : Int) = 0 + 0 + 0) :=
  @components_near Nat (tenths CARRY_MODE_ROUND) ⟨4, 5, 10, 4, 2⟩
    { m_detailItemCode := 5, m_ofee := 1, m_cfee := 1 } rfl

end AcctBillMgr
