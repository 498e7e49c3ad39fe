import Mathlib.Algebra.BigOperators.Group.List.Basic
import Mathlib.Algebra.Ring.Int.Defs
import Boss.BillStruct
import Boss.SortedMap

/-!
# Bill lists of a rated call

All usage and money of a call ends in lists of bills, one list for each class of bills.
The list is searched with `lower_bound`, and a bill enters it in full (`updateBillTotal`),
as an increment (`updateBillIncre`) or without regard to zero (`updateBill` of the shared
account data).

The three updates are one insertion `updateWith`, whose effect on an ascending list is
`updateWith_spec`: the list stays ascending and one key gets a new entry.  What a sequence of
updates has entered for a key is `entered`; `Books` says that the list holds exactly that, and
each update with a bill that is shown preserves it.

So a list is sorted, has the keys that were entered and does not depend on the order of increments,
and it has the values that were entered as long as no bill is passed over that has one
(`updates_sorted_map`).  An adjustment of a user bill is lost otherwise (`adjustment_lost`).
-/

namespace RateGlobalInfo

open SortedMap BillStruct

variable {β κ ν : Type*} [LinearOrder κ] [AddCommMonoid ν] (C : BillClass β κ ν)

/-- `lower_bound(r_billList.begin(), r_billList.end(), r_bill)` -/
def billPlace (r_billList : List β) (r_bill : β) : Nat :=
  lowerBound (fun t_bill => C.less t_bill r_bill) r_billList

/-- The bill that equals `r_bill`, when the list has one. -/
def getBillItem (r_billList : List β) (r_bill : β) : Option β :=
  match r_billList[billPlace C r_billList r_bill]? with
  | none => none
  | some t_bill => if C.same t_bill r_bill then some t_bill else none

/-- Search for `r_bill`: a bill found is merged, and where none is found `r_bill` is
inserted when `fresh` says so. -/
def updateWith (fresh : Bool) (merge : β → β) (r_billList : List β) (r_bill : β) : List β :=
  match getBillItem C r_billList r_bill with
  | some t_bill => r_billList.set (billPlace C r_billList r_bill) (merge t_bill)
  | none =>
      if fresh then r_billList.insertIdx (billPlace C r_billList r_bill) r_bill else r_billList

/-- The bill replaces its entry; a zero bill is not inserted. -/
def updateBillTotal (r_billList : List β) (r_bill : β) : List β :=
  updateWith C (!C.isZero r_bill) (fun _ => r_bill) r_billList r_bill

/-- The bill is added to its entry; a zero bill does nothing. -/
def updateBillIncre (r_billList : List β) (r_bill : β) : List β :=
  if C.isZero r_bill then r_billList
  else updateWith C true (fun t_bill => C.add t_bill r_bill) r_billList r_bill

/-- `ComBill::updateBill`: the bill replaces its entry, and a zero bill is inserted as well. -/
def updateBill (r_billList : List β) (r_bill : β) : List β :=
  updateWith C true (fun _ => r_bill) r_billList r_bill

variable {C} {l : List β} {b r : β} {k : κ}

theorem billPlace_eq (l : List β) (r : β) :
    billPlace C l r = lowerBound (fun a => decide (C.key a < C.key r)) l := by
  have hless : (fun a => C.less a r) = fun a => decide (C.key a < C.key r) := by
    funext a
    exact Bool.eq_iff_iff.mpr (by rw [C.less_iff, decide_eq_true_iff])
  rw [billPlace, hless]

/-- The search of an ascending list: the entry of the key, or the gap it belongs in. -/
theorem billPlace_cases (h : Ascending C.key l) (r : β) :
    (∃ pre b post, l = pre ++ b :: post ∧ C.key b = C.key r ∧ billPlace C l r = pre.length) ∨
    (∃ pre post, l = pre ++ post ∧ (∀ a ∈ pre, C.key a < C.key r) ∧
      (∀ a ∈ post, C.key r < C.key a) ∧ billPlace C l r = pre.length) := by
  rw [billPlace_eq]
  exact lowerBound_cases h (C.key r)

/-- On an ascending list the search answers for the whole list. -/
theorem getBillItem_eq (h : Ascending C.key l) (r : β) :
    getBillItem C l r = lookup C.key l (C.key r) := by
  rcases billPlace_cases h r with ⟨pre, b, post, rfl, hkey, hplace⟩ | ⟨pre, post, rfl, hpre, hpost,
      hplace⟩
  · have hget : (pre ++ b :: post)[billPlace C (pre ++ b :: post) r]? = some b := by simp [hplace]
    rw [getBillItem, hget, lookup_middle h, if_pos hkey.symm]
    exact if_pos ((C.same_iff b r).mpr hkey)
  · have hnone : lookup C.key (pre ++ post) (C.key r) = none := lookup_eq_none.mpr fun a ha => by
      rcases List.mem_append.mp ha with ha | ha
      · exact (hpre a ha).ne
      · exact (hpost a ha).ne'
    rw [hnone, getBillItem, hplace, List.getElem?_append_right (Nat.le_refl _), Nat.sub_self]
    cases post with
    | nil => rfl
    | cons b post =>
        have hne : ¬ C.same b r = true := fun hsame =>
          (hpost b List.mem_cons_self).ne' ((C.same_iff b r).mp hsame)
        exact if_neg hne

/-- What the entry of `r_bill` is after the update. -/
def merged (fresh : Bool) (merge : β → β) (r : β) : Option β → Option β
  | some a => some (merge a)
  | none => if fresh then some r else none

/-- **The insertion.**  The list stays ascending, the key of `r_bill` has its new entry and
every other key keeps its own. -/
theorem updateWith_spec (fresh : Bool) (merge : β → β) (h : Ascending C.key l)
    (hmerge : ∀ a, C.key a = C.key r → C.key (merge a) = C.key r) :
    Ascending C.key (updateWith C fresh merge l r) ∧ ∀ k,
      lookup C.key (updateWith C fresh merge l r) k =
        if k = C.key r then merged fresh merge r (lookup C.key l k) else lookup C.key l k := by
  have hitem := getBillItem_eq h r
  rcases billPlace_cases h r with ⟨pre, b, post, rfl, hkey, hplace⟩ | ⟨pre, post, rfl, hpre, hpost,
      hplace⟩
  · rw [lookup_middle h, if_pos hkey.symm] at hitem
    have hset : updateWith C fresh merge (pre ++ b :: post) r = pre ++ merge b :: post := by
      rw [updateWith, hitem]
      simp [hplace]
    have hnew : C.key (merge b) = C.key b := (hmerge b hkey).trans hkey.symm
    have hasc : Ascending C.key (pre ++ merge b :: post) := h.replace hnew
    rw [hset]
    refine ⟨hasc, fun k => ?_⟩
    rw [lookup_middle hasc, lookup_middle h, hnew, hkey]
    by_cases hk : k = C.key r
    · simp only [if_pos hk, merged]
    · simp only [if_neg hk]
  · have hnone : lookup C.key (pre ++ post) (C.key r) = none := lookup_eq_none.mpr fun a ha => by
      rcases List.mem_append.mp ha with ha | ha
      · exact (hpre a ha).ne
      · exact (hpost a ha).ne'
    rw [hnone] at hitem
    cases fresh with
    | false =>
        have hset : updateWith C false merge (pre ++ post) r = pre ++ post := by
          rw [updateWith, hitem]
          rfl
        rw [hset]
        refine ⟨h, fun k => ?_⟩
        by_cases hk : k = C.key r
        · rw [if_pos hk, hk, hnone]
          rfl
        · rw [if_neg hk]
    | true =>
        have hset : updateWith C true merge (pre ++ post) r = pre ++ r :: post := by
          rw [updateWith, hitem]
          simp [hplace]
        have hasc : Ascending C.key (pre ++ r :: post) := ascending_middle.mpr ⟨h, hpre, hpost⟩
        rw [hset]
        refine ⟨hasc, fun k => ?_⟩
        rw [lookup_middle hasc]
        by_cases hk : k = C.key r
        · rw [if_pos hk, if_pos hk, hk, hnone]
          rfl
        · rw [if_neg hk, if_neg hk]

/-- `updateBill` sets the entry of the key, whatever the bill. -/
theorem updateBill_spec (h : Ascending C.key l) :
    Ascending C.key (updateBill C l b) ∧ ∀ k,
      lookup C.key (updateBill C l b) k = if k = C.key b then some b else lookup C.key l k := by
  obtain ⟨hasc, hlookup⟩ := updateWith_spec (r := b) true (fun _ => b) h
    fun _ _ => rfl
  refine ⟨hasc, fun k => (hlookup k).trans ?_⟩
  cases lookup C.key l k <;> rfl

/-! ## The value of a key -/

variable (C) in
/-- The value the list has for a key, 0 where it has no entry. -/
def valueAt (l : List β) (k : κ) : ν := ((lookup C.key l k).map C.value).getD 0

/-- A total of a key without an entry: it becomes the entry unless it is zero. -/
theorem updateBillTotal_fresh (h : Ascending C.key l) (hfresh : ∀ a ∈ l, C.key a ≠ C.key b)
    (hb : C.Shown b) :
    Ascending C.key (updateBillTotal C l b) ∧
      valueAt C (updateBillTotal C l b) (C.key b) = C.value b ∧
      ∀ a, a ∈ updateBillTotal C l b ↔ a ∈ l ∨ C.isZero b = false ∧ a = b := by
  obtain ⟨hasc, hlookup⟩ := updateWith_spec (r := b) (!C.isZero b) (fun _ => b) h
    fun _ _ => rfl
  have hnone : lookup C.key l (C.key b) = none := lookup_eq_none.mpr hfresh
  refine ⟨hasc, ?_, fun a => ?_⟩
  · rw [valueAt, updateBillTotal, hlookup, if_pos rfl, hnone]
    cases hzero : C.isZero b with
    | true => exact (hb hzero).symm
    | false => rfl
  · rw [updateBillTotal, hasc.mem_iff, hlookup, h.mem_iff]
    by_cases hk : C.key a = C.key b
    · have hne : a ∉ l := fun ha => hfresh a ha hk
      cases hzero : C.isZero b <;> simp [hk, hnone, merged, eq_comm]
    · have hne : a ≠ b := fun heq => hk (congrArg C.key heq)
      simp [hk, hne]

/-- An increment is added to the value of its key, and to no other. -/
theorem updateBillIncre_spec (h : Ascending C.key l) (hb : C.Shown b) :
    Ascending C.key (updateBillIncre C l b) ∧ ∀ k,
      valueAt C (updateBillIncre C l b) k =
        valueAt C l k + if C.key b = k then C.value b else 0 := by
  cases hzero : C.isZero b with
  | true =>
      have hsame : updateBillIncre C l b = l := if_pos hzero
      rw [hsame]
      exact ⟨h, fun k => by simp [hb hzero]⟩
  | false =>
      have hsame : updateBillIncre C l b = updateWith C true (fun a => C.add a b) l b :=
        if_neg (by simp [hzero])
      obtain ⟨hasc, hlookup⟩ := updateWith_spec (r := b) true (fun a => C.add a b) h
        fun a ha => (C.key_add a b).trans ha
      rw [hsame]
      refine ⟨hasc, fun k => ?_⟩
      rw [valueAt, valueAt, hlookup]
      by_cases hk : k = C.key b
      · rw [if_pos hk, if_pos hk.symm]
        cases lookup C.key l k <;> simp [merged, C.value_add]
      · rw [if_neg hk, if_neg (Ne.symm hk), add_zero]

/-- The values of one key among some bills. -/
def valuesOf (C : BillClass β κ ν) (k : κ) (bs : List β) : List ν :=
  (bs.filter fun b => decide (C.key b = k)).map C.value

theorem valuesOf_eq_nil {bs : List β} (h : ∀ b ∈ bs, C.key b ≠ k) : valuesOf C k bs = [] := by
  simpa [valuesOf] using h

/-- Among bills of different keys at most one has the key. -/
theorem valuesOf_of_pairwise {bs : List β} (h : bs.Pairwise fun a b => C.key a ≠ C.key b)
    (k : κ) : valuesOf C k bs = [] ∨ ∃ b ∈ bs, C.key b = k ∧ valuesOf C k bs = [C.value b] := by
  induction bs with
  | nil => exact Or.inl rfl
  | cons b bs ih =>
      obtain ⟨hb, hbs⟩ := List.pairwise_cons.mp h
      by_cases hk : C.key b = k
      · have hnone : valuesOf C k bs = [] := by
          simpa [valuesOf] using fun a ha => hk ▸ (hb a ha).symm
        have hfirst : valuesOf C k (b :: bs) = C.value b :: valuesOf C k bs := by
          simp [valuesOf, hk]
        exact Or.inr ⟨b, List.mem_cons_self, hk, by rw [hfirst, hnone]⟩
      · have hskip : valuesOf C k (b :: bs) = valuesOf C k bs := by
          rw [valuesOf, List.filter_cons_of_neg (by simpa using hk), valuesOf]
        rw [hskip]
        rcases ih hbs with hnone | ⟨a, ha, hkey, hone⟩
        · exact Or.inl hnone
        · exact Or.inr ⟨a, List.mem_cons_of_mem b ha, hkey, hone⟩

/-- Many increments add up. -/
theorem foldl_updateBillIncre_spec (h : Ascending C.key l) (bs : List β)
    (hbs : ∀ b ∈ bs, C.Shown b) :
    Ascending C.key (bs.foldl (updateBillIncre C) l) ∧ ∀ k,
      valueAt C (bs.foldl (updateBillIncre C) l) k = valueAt C l k + (valuesOf C k bs).sum := by
  induction bs generalizing l with
  | nil => exact ⟨h, fun k => by simp [valuesOf]⟩
  | cons b bs ih =>
      rw [List.forall_mem_cons] at hbs
      obtain ⟨hasc, hvalue⟩ := updateBillIncre_spec h hbs.1
      obtain ⟨hall, hvalues⟩ := ih hasc hbs.2
      refine ⟨hall, fun k => ?_⟩
      rw [List.foldl_cons, hvalues, hvalue, add_assoc]
      by_cases hk : C.key b = k <;> simp [valuesOf, hk]

/-- An increment that is not zero leaves its key with an entry. -/
theorem updateBillIncre_isSome (h : Ascending C.key l) (hzero : C.isZero b = false) (k : κ) :
    (lookup C.key (updateBillIncre C l b) k).isSome = true ↔
      (lookup C.key l k).isSome = true ∨ C.key b = k := by
  have hsame : updateBillIncre C l b = updateWith C true (fun a => C.add a b) l b :=
    if_neg (by simp [hzero])
  obtain ⟨-, hlookup⟩ := updateWith_spec (r := b) true (fun a => C.add a b) h
    fun a ha => (C.key_add a b).trans ha
  rw [hsame, hlookup]
  by_cases hk : k = C.key b
  · rw [if_pos hk, hk]
    cases lookup C.key l (C.key b) <;> simp [merged]
  · rw [if_neg hk]
    simp [Ne.symm hk]

theorem foldl_updateBillIncre_isSome (h : Ascending C.key l) (bs : List β)
    (hbs : ∀ b ∈ bs, C.isZero b = false) (k : κ) :
    (lookup C.key (bs.foldl (updateBillIncre C) l) k).isSome = true ↔
      (lookup C.key l k).isSome = true ∨ ∃ b ∈ bs, C.key b = k := by
  induction bs generalizing l with
  | nil => simp
  | cons b bs ih =>
      rw [List.forall_mem_cons] at hbs
      have hshown : C.Shown b := fun hzero => absurd hzero (by simp [hbs.1])
      rw [List.foldl_cons, ih (updateBillIncre_spec h hshown).1 hbs.2,
        updateBillIncre_isSome h hbs.1]
      simp [or_assoc]

/-- Zero increments can be left out. -/
theorem foldl_updateBillIncre_filter (l bs : List β) :
    bs.foldl (updateBillIncre C) l =
      (bs.filter fun b => !C.isZero b).foldl (updateBillIncre C) l := by
  induction bs generalizing l with
  | nil => rfl
  | cons b bs ih =>
      cases hzero : C.isZero b with
      | true =>
          have hsame : updateBillIncre C l b = l := if_pos hzero
          rw [List.foldl_cons, hsame, ih, List.filter_cons_of_neg (by simp [hzero])]
      | false => rw [List.foldl_cons, ih, List.filter_cons_of_pos (by simp [hzero]), List.foldl_cons]

/-- Two lists with the same keys and the same values show the same entries. -/
theorem entries_eq {l' : List β} (h : Ascending C.key l) (h' : Ascending C.key l')
    (hsome : ∀ k, (lookup C.key l k).isSome = true ↔ (lookup C.key l' k).isSome = true)
    (hvalue : ∀ k, valueAt C l k = valueAt C l' k) :
    l.map (fun b => (C.key b, C.value b)) = l'.map fun b => (C.key b, C.value b) := by
  have hmap : ∀ {l : List β}, Ascending C.key l →
      Ascending Prod.fst (l.map fun b => (C.key b, C.value b)) := fun h => List.pairwise_map.mpr h
  have hlookup : ∀ (l : List β) k, lookup Prod.fst (l.map fun b => (C.key b, C.value b)) k =
      (lookup C.key l k).map fun b => (C.key b, C.value b) := fun l k => by
    simp only [lookup, List.find?_map, Function.comp_def]
  apply (hmap h).ext (hmap h')
  intro k
  have hkey := hsome k
  have hval := hvalue k
  rw [hlookup, hlookup]
  unfold valueAt at hval
  cases hb : lookup C.key l k with
  | none =>
      cases hb' : lookup C.key l' k with
      | none => rfl
      | some b' => simp [hb, hb'] at hkey
  | some b =>
      cases hb' : lookup C.key l' k with
      | none => simp [hb, hb'] at hkey
      | some b' =>
          rw [hb, hb'] at hval
          simpa [(lookup_some hb).2, (lookup_some hb').2] using hval

/-- **Increments may be made in any order.** -/
theorem foldl_updateBillIncre_perm (h : Ascending C.key l) {bs bs' : List β} (hperm : bs.Perm bs') :
    (bs.foldl (updateBillIncre C) l).map (fun b => (C.key b, C.value b)) =
      (bs'.foldl (updateBillIncre C) l).map fun b => (C.key b, C.value b) := by
  have hfilter := hperm.filter fun b => !C.isZero b
  have hkept : ∀ bs : List β, ∀ b ∈ bs.filter fun b => !C.isZero b, C.isZero b = false := by
    intro bs b hb
    simpa using (List.mem_filter.mp hb).2
  have hshown : ∀ bs : List β, ∀ b ∈ bs.filter fun b => !C.isZero b, C.Shown b := by
    intro bs b hb hzero
    exact absurd hzero (by simp [hkept bs b hb])
  obtain ⟨hasc, hvalue⟩ := foldl_updateBillIncre_spec h _ (hshown bs)
  obtain ⟨hasc', hvalue'⟩ := foldl_updateBillIncre_spec h _ (hshown bs')
  rw [foldl_updateBillIncre_filter l bs, foldl_updateBillIncre_filter l bs']
  apply entries_eq hasc hasc'
  · intro k
    rw [foldl_updateBillIncre_isSome h _ (hkept bs), foldl_updateBillIncre_isSome h _ (hkept bs')]
    simp only [hfilter.mem_iff]
  · intro k
    have hsum : (valuesOf C k (bs.filter fun b => !C.isZero b)).sum =
        (valuesOf C k (bs'.filter fun b => !C.isZero b)).sum :=
      ((hfilter.filter _).map C.value).sum_eq
    rw [hvalue, hvalue', hsum]

/-! ## Sequences of updates -/

/-- A call of `updateBillTotal` or `updateBillIncre`. -/
inductive BillUpdate (β : Type*)
  | total (r_bill : β)
  | incre (r_bill : β)

/-- The bill handed to the call. -/
def BillUpdate.bill : BillUpdate β → β
  | .total b => b
  | .incre b => b

variable (C) in
/-- Perform one call. -/
def update (r_billList : List β) : BillUpdate β → List β
  | .total b => updateBillTotal C r_billList b
  | .incre b => updateBillIncre C r_billList b

variable (C) in
/-- Perform a sequence of calls. -/
def updates (r_billList : List β) (calls : List (BillUpdate β)) : List β :=
  calls.foldl (update C) r_billList

variable (C) in
/-- A bill of this key that is not zero is entered by the call. -/
def Enters (k : κ) (call : BillUpdate β) : Prop :=
  C.key call.bill = k ∧ C.isZero call.bill = false

variable (C) in
/-- What one call makes of the value entered for a key. -/
def enter (k : κ) (v : ν) : BillUpdate β → ν
  | .total b => if C.key b = k then C.value b else v
  | .incre b => if C.key b = k then v + C.value b else v

variable (C) in
/-- What a sequence of calls has entered for a key. -/
def entered (k : κ) (calls : List (BillUpdate β)) : ν :=
  calls.foldl (enter C k) 0

variable (C) in
/-- The increments of a key in a sequence of calls. -/
def increments (k : κ) : List (BillUpdate β) → List ν
  | [] => []
  | .total _ :: rest => increments k rest
  | .incre b :: rest => if C.key b = k then C.value b :: increments k rest else increments k rest

variable (C) in
/-- No total of the key is set. -/
def NoTotal (k : κ) (calls : List (BillUpdate β)) : Prop :=
  ∀ b, .total b ∈ calls → C.key b ≠ k

/-- Without a total the calls add their increments. -/
theorem foldl_enter {calls : List (BillUpdate β)} (h : NoTotal C k calls) (v : ν) :
    calls.foldl (enter C k) v = v + (increments C k calls).sum := by
  induction calls generalizing v with
  | nil => simp [increments]
  | cons call rest ih =>
      have hrest : NoTotal C k rest := fun b hb => h b (List.mem_cons_of_mem _ hb)
      rw [List.foldl_cons, ih hrest]
      cases call with
      | total b => rw [enter, if_neg (h b List.mem_cons_self), increments]
      | incre b =>
          rw [enter, increments]
          by_cases hk : C.key b = k
          · rw [if_pos hk, if_pos hk, List.sum_cons, add_assoc]
          · rw [if_neg hk, if_neg hk]

/-- The last total of a key and the increments behind it are what is entered. -/
theorem entered_total {older newer : List (BillUpdate β)} (h : NoTotal C (C.key b) newer) :
    entered C (C.key b) (older ++ .total b :: newer)
      = C.value b + (increments C (C.key b) newer).sum := by
  rw [entered, List.foldl_append, List.foldl_cons, foldl_enter h, enter, if_pos rfl]

/-- The list holds what the calls have entered: a key has an entry once a bill that is not
zero was entered for it, and if the bills are shown, the entry has the value entered. -/
structure Books (C : BillClass β κ ν) (l : List β) (calls : List (BillUpdate β)) : Prop where
  ascending : Ascending C.key l
  some_iff : ∀ k, (lookup C.key l k).isSome = true ↔ ∃ call ∈ calls, Enters C k call
  value : (∀ call ∈ calls, C.Shown call.bill) → ∀ k b, lookup C.key l k = some b →
    C.value b = entered C k calls
  absent : (∀ call ∈ calls, C.Shown call.bill) → ∀ k, lookup C.key l k = none →
    entered C k calls = 0

theorem books_nil : Books C [] [] where
  ascending := ascending_nil
  some_iff := by simp [lookup]
  value := by simp [lookup]
  absent := fun _ _ _ => rfl

/-- A list whose lookups are those of the list before, but for one key, whose entry the call
has made, holds what the calls have entered. -/
theorem Books.snoc {l' : List β} {calls : List (BillUpdate β)} {call : BillUpdate β}
    (h : Books C l calls) (hasc : Ascending C.key l')
    (hother : ∀ k, k ≠ C.key call.bill → lookup C.key l' k = lookup C.key l k)
    (hsome : (lookup C.key l' (C.key call.bill)).isSome = true ↔
      (lookup C.key l (C.key call.bill)).isSome = true ∨ C.isZero call.bill = false)
    (hvalue : (∀ c ∈ calls, C.Shown c.bill) → C.Shown call.bill → ∀ b,
      lookup C.key l' (C.key call.bill) = some b →
      C.value b = enter C (C.key call.bill) (entered C (C.key call.bill) calls) call)
    (habsent : (∀ c ∈ calls, C.Shown c.bill) → C.Shown call.bill →
      lookup C.key l' (C.key call.bill) = none →
      enter C (C.key call.bill) (entered C (C.key call.bill) calls) call = 0) :
    Books C l' (calls ++ [call]) := by
  have hentered : ∀ k, entered C k (calls ++ [call]) = enter C k (entered C k calls) call :=
    fun k => by simp [entered]
  have hkeep : ∀ k, k ≠ C.key call.bill → entered C k (calls ++ [call]) = entered C k calls := by
    intro k hk
    rw [hentered]
    cases call with
    | total b => exact if_neg (Ne.symm hk)
    | incre b => exact if_neg (Ne.symm hk)
  have hshown : (∀ c ∈ calls ++ [call], C.Shown c.bill) →
      (∀ c ∈ calls, C.Shown c.bill) ∧ C.Shown call.bill := fun hall =>
    ⟨fun c hc => hall c (List.mem_append_left _ hc), hall call (by simp)⟩
  refine ⟨hasc, fun k => ?_, fun hall k b hb => ?_, fun hall k hnone => ?_⟩
  · by_cases hk : k = C.key call.bill
    · subst hk
      simp [hsome, h.some_iff, Enters, or_and_right, exists_or]
    · simp [hother k hk, h.some_iff, Enters, or_and_right, exists_or, Ne.symm hk]
  · by_cases hk : k = C.key call.bill
    · subst hk
      rw [hentered, hvalue (hshown hall).1 (hshown hall).2 b hb]
    · rw [hkeep k hk]
      exact h.value (hshown hall).1 k b (hother k hk ▸ hb)
  · by_cases hk : k = C.key call.bill
    · subst hk
      rw [hentered, habsent (hshown hall).1 (hshown hall).2 hnone]
    · rw [hkeep k hk]
      exact h.absent (hshown hall).1 k (hother k hk ▸ hnone)

theorem Books.total {calls : List (BillUpdate β)} (h : Books C l calls) (b : β) :
    Books C (updateBillTotal C l b) (calls ++ [.total b]) := by
  obtain ⟨hasc, hlookup⟩ := updateWith_spec (r := b) (!C.isZero b) (fun _ => b)
    h.ascending fun _ _ => rfl
  have hown : lookup C.key (updateBillTotal C l b) (C.key b) =
      merged (!C.isZero b) (fun _ => b) b (lookup C.key l (C.key b)) :=
    (hlookup (C.key b)).trans (if_pos rfl)
  refine h.snoc hasc (fun k hk => (hlookup k).trans (if_neg hk)) ?_ (fun _ _ a ha => ?_)
    fun _ hshown hnone => ?_
  · show (lookup C.key (updateBillTotal C l b) (C.key b)).isSome = true ↔ _
    rw [hown]
    cases hold : lookup C.key l (C.key b) <;> cases hzero : C.isZero b <;>
      simp [merged, BillUpdate.bill, hold, hzero]
  · replace ha := hown.symm.trans ha
    have hab : a = b := by
      revert ha
      cases lookup C.key l (C.key b) <;> cases C.isZero b <;> simp [merged, eq_comm]
    rw [hab]
    exact (if_pos rfl).symm
  · replace hnone := hown.symm.trans hnone
    have hzero : C.isZero b = true := by
      revert hnone
      cases lookup C.key l (C.key b) <;> cases C.isZero b <;> simp [merged]
    exact (if_pos rfl).trans (hshown hzero)

theorem Books.incre {calls : List (BillUpdate β)} (h : Books C l calls) (b : β) :
    Books C (updateBillIncre C l b) (calls ++ [.incre b]) := by
  have henter : ∀ v, enter C (C.key b) v (.incre b) = v + C.value b := fun v => if_pos rfl
  cases hzero : C.isZero b with
  | true =>
      have hsame : updateBillIncre C l b = l := if_pos hzero
      rw [hsame]
      refine h.snoc h.ascending (fun _ _ => rfl) ?_ (fun hcalls hshown a ha => ?_)
        fun hcalls hshown hnone => ?_
      · simp [BillUpdate.bill, hzero]
      · have hvalue : C.value b = 0 := hshown hzero
        rw [BillUpdate.bill, henter, hvalue, add_zero]
        exact h.value hcalls _ a ha
      · have hvalue : C.value b = 0 := hshown hzero
        rw [BillUpdate.bill, henter, hvalue, add_zero]
        exact h.absent hcalls _ hnone
  | false =>
      obtain ⟨hasc, hlookup⟩ := updateWith_spec (r := b) true (fun a => C.add a b)
        h.ascending fun a ha => (C.key_add a b).trans ha
      have hsame : updateBillIncre C l b = updateWith C true (fun a => C.add a b) l b :=
        if_neg (by simp [hzero])
      rw [← hsame] at hasc hlookup
      have hown : lookup C.key (updateBillIncre C l b) (C.key b) =
          merged true (fun a => C.add a b) b (lookup C.key l (C.key b)) :=
        (hlookup (C.key b)).trans (if_pos rfl)
      refine h.snoc hasc (fun k hk => (hlookup k).trans (if_neg hk)) ?_ (fun hcalls _ a ha => ?_)
        fun _ _ hnone => ?_
      · show (lookup C.key (updateBillIncre C l b) (C.key b)).isSome = true ↔ _
        rw [hown]
        cases lookup C.key l (C.key b) <;> simp [merged, BillUpdate.bill, hzero]
      · replace ha := hown.symm.trans ha
        rw [BillUpdate.bill, henter]
        cases hold : lookup C.key l (C.key b) with
        | none =>
            obtain rfl : b = a := by simpa [hold, merged] using ha
            rw [h.absent hcalls _ hold, zero_add]
        | some c =>
            obtain rfl : C.add c b = a := by simpa [hold, merged] using ha
            rw [C.value_add, h.value hcalls _ c hold]
      · replace hnone := hown.symm.trans hnone
        cases hold : lookup C.key l (C.key b) <;> simp [hold, merged] at hnone

theorem Books.update {calls : List (BillUpdate β)} (h : Books C l calls) (call : BillUpdate β) :
    Books C (RateGlobalInfo.update C l call) (calls ++ [call]) := by
  cases call with
  | total b => exact h.total b
  | incre b => exact h.incre b

/-- **Bill lists hold what was entered.** -/
theorem Books.updates {calls : List (BillUpdate β)} (h : Books C l calls)
    (more : List (BillUpdate β)) :
    Books C (RateGlobalInfo.updates C l more) (calls ++ more) := by
  induction more generalizing l calls with
  | nil => simpa [RateGlobalInfo.updates] using h
  | cons call rest ih => simpa [RateGlobalInfo.updates] using ih (h.update call)

theorem updates_increments (l bs : List β) :
    RateGlobalInfo.updates C l (bs.map .incre) = bs.foldl (updateBillIncre C) l :=
  List.foldl_map

variable (C) in
/-- **A bill list is a sorted map.**  After any calls on an empty list the keys grow strictly, a
key is found when a bill of it that is not zero was entered, and increments may be made in any
order.  If the bills of the calls are shown, the bill found has the last total of the key and all
increments behind it. -/
theorem updates_sorted_map (calls : List (BillUpdate β)) :
    Ascending C.key (updates C [] calls) ∧
    (∀ r, (getBillItem C (updates C [] calls) r).isSome = true ↔
      ∃ call ∈ calls, Enters C (C.key r) call) ∧
    (∀ bs bs' : List β, bs.Perm bs' →
      (updates C (updates C [] calls) (bs.map .incre)).map (fun b => (C.key b, C.value b)) =
        (updates C (updates C [] calls) (bs'.map .incre)).map (fun b => (C.key b, C.value b)) ∧
      ((∀ a b, C.key a = C.key b → C.value a = C.value b → a = b) →
        updates C (updates C [] calls) (bs.map .incre) =
          updates C (updates C [] calls) (bs'.map .incre))) ∧
    ((∀ call ∈ calls, C.Shown call.bill) →
      ∀ r b, getBillItem C (updates C [] calls) r = some b →
      C.key b = C.key r ∧
      (∀ older t newer, calls = older ++ .total t :: newer → C.key t = C.key r →
        NoTotal C (C.key r) newer → C.value b = C.value t + (increments C (C.key r) newer).sum) ∧
      (NoTotal C (C.key r) calls → C.value b = (increments C (C.key r) calls).sum)) := by
  have h : Books C (updates C [] calls) calls := books_nil.updates calls
  refine ⟨h.ascending, fun r => ?_, fun bs bs' hperm => ?_, fun hcalls r b hb => ?_⟩
  · rw [getBillItem_eq h.ascending]
    exact h.some_iff (C.key r)
  · rw [updates_increments, updates_increments]
    have hentries := foldl_updateBillIncre_perm h.ascending hperm
    refine ⟨hentries, fun hext => List.map_injective_iff.mpr (fun a b hab => ?_) hentries⟩
    exact hext a b (congrArg Prod.fst hab) (congrArg Prod.snd hab)
  · rw [getBillItem_eq h.ascending] at hb
    refine ⟨(lookup_some hb).2, fun older t newer heq hkey hno => ?_, fun hno => ?_⟩
    · rw [h.value hcalls _ b hb, heq, ← hkey]
      exact entered_total (hkey ▸ hno)
    · rw [h.value hcalls _ b hb, entered, foldl_enter hno, zero_add]

/-- A user's bill of 30 with increments of a fee and of an adjustment. -/
def adjusted (adjustBefore : Int) : List (BillUpdate (UserBill Int)) :=
  [.total ⟨1, 7, 30, 0, 0⟩, .incre ⟨1, 7, 2, 0, adjustBefore⟩]

/-- With a fee beside it the adjustment is added. -/
theorem updates_sorted_map_adjusted :
    ∃ b, getBillItem userBills (updates userBills [] (adjusted 5)) ⟨1, 7, 0, 0, 0⟩ = some b ∧
      userBills.value b = (32, 0, 5) := by
  obtain ⟨-, hsome, -, hvalue⟩ := updates_sorted_map (userBills (S := Int)) (adjusted 5)
  have hshown : ∀ call ∈ adjusted 5, userBills.Shown call.bill := by
    simp [adjusted, BillUpdate.bill, userBills_shown_iff]
  obtain ⟨b, hb⟩ := Option.isSome_iff_exists.mp
    ((hsome ⟨1, 7, 0, 0, 0⟩).mpr ⟨_, List.mem_cons_self, rfl, rfl⟩)
  obtain ⟨-, htotal, -⟩ := hvalue hshown _ b hb
  refine ⟨b, hb, ?_⟩
  rw [htotal [] ⟨1, 7, 30, 0, 0⟩ [.incre ⟨1, 7, 2, 0, 5⟩] rfl rfl (by simp [NoTotal])]
  decide

/-- **Without a fee it is lost**: the list still has an adjustment of 0, where 5 was entered. -/
theorem adjustment_lost :
    ¬ ∀ (calls : List (BillUpdate (UserBill Int))) (r b : UserBill Int),
      getBillItem userBills (updates userBills [] calls) r = some b →
      ∀ older t newer, calls = older ++ .total t :: newer → userBills.key t = userBills.key r →
        NoTotal userBills (userBills.key r) newer →
        userBills.value b = userBills.value t + (increments userBills (userBills.key r) newer).sum := by
  intro h
  have hitem : getBillItem userBills
      (updates userBills [] [.total ⟨1, 7, 30, 0, 0⟩, .incre ⟨1, 7, 0, 0, 5⟩]) ⟨1, 7, 0, 0, 0⟩ =
        some (⟨1, 7, 30, 0, 0⟩ : UserBill Int) := by decide
  have hvalue := h _ _ _ hitem [] _ _ rfl rfl (by simp [NoTotal])
  exact absurd hvalue (by decide)

-- a total between increments of the same key, and a zero increment
example :
    (updates (userSumBill1s (S := Int)) []
      [.incre ⟨1, 7, 30, 4, 0, 0⟩, .incre ⟨1, 2, 30, 0, 0, 0⟩, .total ⟨1, 7, 30, 9, 0, 0⟩,
        .incre ⟨1, 2, 30, 5, 0, 0⟩, .incre ⟨1, 7, 30, 1, 0, 0⟩]).map
          (fun b => (b.m_tpObjId, b.m_value)) = [(2, 5), (7, 10)] := by decide

end RateGlobalInfo
