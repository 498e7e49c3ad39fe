import Boss.DataSet
import Boss.RunSearch
import Mathlib.Algebra.Order.Ring.Rat
import Mathlib.Order.Compare
import Mathlib.Order.WithBot

/-!
# Indexes of a data set

An index of a data set lists its rows in the order of some of its fields, each ascending or
descending.  A search goes to the first row that is not before the key row, asks whether it is equal
to it, and then goes on to the first row that is behind the key row.

`Index.locate_spec` says what the search returns: the equal rows when some row of the index is
behind them, and only the first of them when they end the index.

A `double` is the number that it stands for, so that `0` and `-0` are one, or a NaN.  A text is the
characters in front of its zero.
-/

namespace DatasetIndex

open Dataset (DataType Field)
open SortedMap RunSearch

/-! ## Data -/

/-- The numbers of a `double`, with the infinities. -/
abbrev Number := WithBot (WithTop ℚ)

def Number.ofInt (l : Int) : Number := ((l : ℚ) : WithTop ℚ)

/-- What a field holds; a `double` that is `none` is a NaN. -/
inductive Data
  | int (l : Int)
  | int64 (l : Int)
  | double (d : Option Number)
  | str (s : List UInt8)
  deriving DecidableEq

namespace Data

def getDataType : Data → DataType
  | .int _ => .FTINT
  | .int64 _ => .FTINT64
  | .double _ => .FTDOUBLE
  | .str _ => .FTSTRING

/-- `operator ==`. -/
def same : Data → Data → Bool
  | .str left, .str right => compare left right = .eq
  | .int left, .int right => left = right
  | .int64 left, .int64 right => left = right
  | .double (some left), .double (some right) => left = right
  | _, _ => false

/-- `operator <`. -/
def less : Data → Data → Bool
  | .str left, .str right => compare left right = .lt
  | .int left, .int right => left < right
  | .int64 left, .int64 right => left < right
  | .double (some left), .double (some right) => left < right
  | _, _ => false

/-- Everything but a NaN can be put in order. -/
def Ordered (d : Data) : Prop := d ≠ .double none

/-- The number of a datum that is one. -/
def number : Data → Option Number
  | .int l => some (Number.ofInt l)
  | .int64 l => some (Number.ofInt l)
  | .double d => d
  | .str _ => none

def text : Data → Option (List UInt8)
  | .str s => some s
  | _ => none

/-- Two data have the same number or the same text. -/
def Equals (left right : Data) : Prop :=
  left.number.isSome ∧ left.number = right.number ∨ left.text.isSome ∧ left.text = right.text

instance (left right : Data) : Decidable (left.Equals right) := by
  unfold Equals
  infer_instance

/-! ## The order of data -/

def tag : Data → Nat
  | .int _ => 0
  | .int64 _ => 1
  | .double _ => 2
  | .str _ => 3

def whole : Data → Int
  | .int l => l
  | .int64 l => l
  | _ => 0

def real : Data → Option Number
  | .double d => d
  | _ => none

def letters : Data → List UInt8
  | .str s => s
  | _ => []

/-- Data of one type in their order, those of different types apart. -/
def cmp : Data → Data → Ordering :=
  compareLex (compareOn tag) (compareLex (compareOn whole)
    (compareLex (compareOn real) (compareOn letters)))

instance transCmp_cmp : Std.TransCmp cmp :=
  inferInstanceAs (Std.TransCmp (compareLex (compareOn tag) (compareLex (compareOn whole)
    (compareLex (compareOn real) (compareOn letters)))))

/-- Two data of one type. -/
inductive Alike : Data → Data → Prop
  | int (l m : Int) : Alike (.int l) (.int m)
  | int64 (l m : Int) : Alike (.int64 l) (.int64 m)
  | double (d e : Option Number) : Alike (.double d) (.double e)
  | str (s t : List UInt8) : Alike (.str s) (.str t)

/-- Values with one tag are alike. -/
theorem Alike.of_tag {left right : Data} (h : left.tag = right.tag) : Alike left right := by
  cases left <;> cases right <;> first | constructor | cases h

/-- Values of one data type are alike. -/
theorem Alike.of_getDataType {left right : Data} (h : left.getDataType = right.getDataType) :
    Alike left right := by
  cases left <;> cases right <;> first | constructor | cases h

/-- Being alike goes both ways. -/
theorem Alike.symm {left right : Data} (h : Alike left right) : Alike right left := by
  cases h <;> constructor

/-- Two values compare as equal only when they are the same. -/
theorem cmp_eq_iff {left right : Data} : left.cmp right = .eq ↔ left = right := by
  constructor
  · intro h
    simp only [cmp, compareLex, compareOn, Ordering.then_eq_eq,
      Std.LawfulEqOrd.compare_eq_iff_eq] at h
    obtain ⟨htag, hwhole, hreal, hletters⟩ := h
    cases Alike.of_tag htag with
    | int l m => exact congrArg int hwhole
    | int64 l m => exact congrArg int64 hwhole
    | double d e => exact congrArg double hreal
    | str s t => exact congrArg str hletters
  · rintro rfl
    exact Std.ReflCmp.compare_self

/-- `operator ==` on data of one type. -/
theorem same_iff {left right : Data} (h : Alike left right) :
    left.same right = true ↔ left = right ∧ left.Ordered := by
  cases h with
  | int l m => simp [same, Ordered]
  | int64 l m => simp [same, Ordered]
  | double d e => cases d <;> cases e <;> simp [same, Ordered]
  | str s t => simp [same, Ordered]

/-- Short numbers are compared as numbers. -/
theorem cmp_int (l m : Int) : (int l).cmp (int m) = compare l m := by
  have htag : compareOn tag (int l) (int m) = .eq := Std.ReflCmp.compare_self
  have hreal : compareOn real (int l) (int m) = .eq := Std.ReflCmp.compare_self
  have hletters : compareOn letters (int l) (int m) = .eq := Std.ReflCmp.compare_self
  simp only [cmp, compareLex, htag, hreal, hletters, Ordering.then_eq, Ordering.eq_then]
  rfl

/-- Long numbers are compared as numbers. -/
theorem cmp_int64 (l m : Int) : (int64 l).cmp (int64 m) = compare l m := by
  have htag : compareOn tag (int64 l) (int64 m) = .eq := Std.ReflCmp.compare_self
  have hreal : compareOn real (int64 l) (int64 m) = .eq := Std.ReflCmp.compare_self
  have hletters : compareOn letters (int64 l) (int64 m) = .eq := Std.ReflCmp.compare_self
  simp only [cmp, compareLex, htag, hreal, hletters, Ordering.then_eq, Ordering.eq_then]
  rfl

/-- Doubles are compared as numbers. -/
theorem cmp_double (d e : Option Number) : (double d).cmp (double e) = compare d e := by
  have htag : compareOn tag (double d) (double e) = .eq := Std.ReflCmp.compare_self
  have hwhole : compareOn whole (double d) (double e) = .eq := Std.ReflCmp.compare_self
  have hletters : compareOn letters (double d) (double e) = .eq := Std.ReflCmp.compare_self
  simp only [cmp, compareLex, htag, hwhole, hletters, Ordering.then_eq, Ordering.eq_then]
  rfl

/-- Texts are compared byte by byte. -/
theorem cmp_str (s t : List UInt8) : (str s).cmp (str t) = compare s t := by
  have htag : compareOn tag (str s) (str t) = .eq := Std.ReflCmp.compare_self
  have hwhole : compareOn whole (str s) (str t) = .eq := Std.ReflCmp.compare_self
  have hreal : compareOn real (str s) (str t) = .eq := Std.ReflCmp.compare_self
  simp only [cmp, compareLex, htag, hwhole, hreal, Ordering.eq_then]
  rfl

/-- `operator <` on data of one type, none of them a NaN. -/
theorem less_iff {left right : Data} (h : Alike left right) (hleft : left.Ordered)
    (hright : right.Ordered) : left.less right = true ↔ left.cmp right = .lt := by
  cases h with
  | int l m => rw [cmp_int, compare_lt_iff_lt, less, decide_eq_true_iff]
  | int64 l m => rw [cmp_int64, compare_lt_iff_lt, less, decide_eq_true_iff]
  | double d e =>
      cases d with
      | none => exact absurd rfl hleft
      | some d =>
          cases e with
          | none => exact absurd rfl hright
          | some e =>
              rw [cmp_double, less, decide_eq_true_iff, ← compare_lt_iff_lt]
              rfl
  | str s t => rw [cmp_str, less, decide_eq_true_iff]

/-- Both operators of a row are asked through the order. -/
theorem less_eq {left right : Data} (h : Alike left right) (hleft : left.Ordered)
    (hright : right.Ordered) : left.less right = (left.cmp right == .lt) := by
  rw [Bool.eq_iff_iff, less_iff h hleft hright, beq_iff_eq]

/-- Alike values are taken for the same when they compare as equal. -/
theorem same_eq {left right : Data} (h : Alike left right) (hleft : left.Ordered) :
    left.same right = (left.cmp right == .eq) := by
  rw [Bool.eq_iff_iff, same_iff h, beq_iff_eq, cmp_eq_iff, and_iff_left hleft]

end Data

/-! ## Rows -/

/-- The data of a row by the number of their field. -/
abbrev Row := Nat → Data

/-- The fields of an index; `true` for an ascending one. -/
abbrev Keys := List (Nat × Bool)

namespace Row

/-- `operator <`, for the fields of the index in use. -/
def less : Keys → Row → Row → Bool
  | [], _, _ => false
  | (index, true) :: rest, left, right =>
    if (left index).less (right index) then true
    else if (left index).same (right index) then less rest left right
    else false
  | (index, false) :: rest, left, right =>
    if (left index).less (right index) then false
    else if (left index).same (right index) then less rest left right
    else true

/-- All fields of the index are equal. -/
def same (keys : Keys) (left right : Row) : Bool :=
  keys.all fun k => (left k.1).same (right k.1)

/-- `operator ==`; it asserts that the index has a field. -/
def eq (keys : Keys) (left right : Row) : Option Bool :=
  if keys = [] then none else some (same keys left right)

def cmp : Keys → Row → Row → Ordering
  | [], _, _ => .eq
  | (index, ascending) :: rest, left, right =>
    (if ascending then (left index).cmp (right index) else (right index).cmp (left index)).then
      (cmp rest left right)

instance transCmp_cmp (keys : Keys) : Std.TransCmp (cmp keys) := by
  induction keys with
  | nil =>
      exact {
        eq_swap := rfl
        isLE_trans := fun _ _ => rfl }
  | cons k rest ih =>
      obtain ⟨index, ascending⟩ := k
      have hup : Std.TransCmp fun left right : Row => (left index).cmp (right index) := {
        eq_swap := Std.OrientedCmp.eq_swap
        isLE_trans := Std.TransCmp.isLE_trans }
      cases ascending with
      | true =>
          exact inferInstanceAs (Std.TransCmp (compareLex
            (fun left right : Row => (left index).cmp (right index)) (cmp rest)))
      | false =>
          have hdown : Std.TransCmp fun left right : Row => (right index).cmp (left index) :=
            Std.TransCmp.opposite
          exact inferInstanceAs (Std.TransCmp (compareLex
            (fun left right : Row => (right index).cmp (left index)) (cmp rest)))

/-- Two values compare as equal only when they are the same. -/
theorem cmp_eq_iff {keys : Keys} {left right : Row} :
    cmp keys left right = .eq ↔ ∀ k ∈ keys, left k.1 = right k.1 := by
  induction keys with
  | nil => simp [cmp]
  | cons k rest ih =>
      obtain ⟨index, ascending⟩ := k
      rw [cmp, Ordering.then_eq_eq, ih, List.forall_mem_cons]
      cases ascending with
      | true => exact and_congr_left fun _ => Data.cmp_eq_iff
      | false => exact and_congr_left fun _ => Data.cmp_eq_iff.trans eq_comm

/-- Rows that have data of one type in the fields of an index, none of them a NaN. -/
def Comparable (keys : Keys) (left right : Row) : Prop :=
  ∀ k ∈ keys, Data.Alike (left k.1) (right k.1) ∧ (left k.1).Ordered ∧ (right k.1).Ordered

theorem Comparable.symm {keys : Keys} {left right : Row} (h : Comparable keys left right) :
    Comparable keys right left := fun k hk => ⟨(h k hk).1.symm, (h k hk).2.2, (h k hk).2.1⟩

/-- Where rows can be compared, `operator <` is an order. -/
theorem less_eq {keys : Keys} {left right : Row} (h : Comparable keys left right) :
    less keys left right = (cmp keys left right == .lt) := by
  induction keys with
  | nil => rfl
  | cons k rest ih =>
      obtain ⟨halike, hleft, hright⟩ := h k List.mem_cons_self
      have hrest := ih fun k hk => h k (List.mem_cons_of_mem _ hk)
      obtain ⟨index, ascending⟩ := k
      cases ascending with
      | true =>
          rw [less, cmp, Data.less_eq halike hleft hright, Data.same_eq halike hleft, hrest]
          cases (left index).cmp (right index) <;> rfl
      | false =>
          have hswap : (right index).cmp (left index) = ((left index).cmp (right index)).swap :=
            Std.OrientedCmp.eq_swap
          rw [less, cmp, Data.less_eq halike hleft hright, Data.same_eq halike hleft, hrest,
            if_neg Bool.false_ne_true, hswap]
          cases (left index).cmp (right index) <;> rfl

/-- Alike values are taken for the same when they compare as equal. -/
theorem same_eq {keys : Keys} {left right : Row} (h : Comparable keys left right) :
    same keys left right = (cmp keys left right == .eq) := by
  rw [Bool.eq_iff_iff, beq_iff_eq, cmp_eq_iff, same, List.all_eq_true]
  apply forall₂_congr
  intro k hk
  rw [Data.same_iff (h k hk).1, and_iff_left (h k hk).2.1]

end Row

/-! ## The search -/

/-- What `Index::locate` returns: whether there is an equal row, and the ends of the range. -/
structure Range where
  found : Bool
  first : Nat
  last : Nat
  deriving DecidableEq, Repr

/-- `Index::locate`, for the elements that are before a value, equal to it and behind it.  Only one
element is in the range when the upper bound is the end of the index. -/
def Index.locate {α : Type} (before : α → Bool) (equal : α → Option Bool) (behind : α → Bool)
    (data : List α) : Option Range :=
  let it := lowerBound before data
  match data[it]? with
  | none => some ⟨false, data.length, data.length⟩
  | some a => (equal a).map fun found =>
    if found then
      let it2 := it + lowerBound (fun b => !behind b) (data.drop it)
      if it2 = data.length then ⟨true, it, it + 1⟩ else ⟨true, it, it2⟩
    else ⟨false, data.length, data.length⟩

variable {α : Type} {data : List α}

/-- What is in a range. -/
def Range.of (r : Range) (data : List α) : List α := (data.take r.last).drop r.first

/-- A range behind a first part is a part of what follows. -/
theorem Range.of_append (found : Bool) (pre rest : List α) (n : Nat) :
    (⟨found, pre.length, pre.length + n⟩ : Range).of (pre ++ rest) = rest.take n := by
  rw [Range.of, List.take_length_add_append, List.drop_left]

/-- Where no element is equal, the search fails wherever it ends. -/
theorem Index.locate_of_forall_ne {before behind : α → Bool} {equal : α → Option Bool}
    (h : ∀ a ∈ data, equal a = some false) :
    Index.locate before equal behind data = some ⟨false, data.length, data.length⟩ := by
  simp only [Index.locate]
  cases hit : data[lowerBound before data]? with
  | none => rfl
  | some a => simp [h a (List.mem_of_getElem? hit)]

/-- **What the search returns** where the elements are in order: the elements that are equal if one
is behind them, and only the first of them if none is. -/
theorem Index.locate_spec {f : α → Ordering} (h : Ascends f data) :
    ∃ r, Index.locate (fun a => f a = .lt) (fun a => some (f a = .eq)) (fun a => f a = .gt) data =
        some r ∧
      (r.found = true ↔ ∃ a ∈ data, f a = .eq) ∧
      (r.found = true → r.of data =
        if ∃ a ∈ data, f a = .gt then data.filter (fun a => f a = .eq)
        else (data.filter fun a => f a = .eq).take 1) := by
  obtain ⟨pre, mid, post, rfl, hparts, hlower, hupper⟩ := h.split
  have hequal := hparts.exists_here_iff
  have hnegated : (fun a => !decide (f a = .gt)) = fun a => decide (f a ≠ .gt) :=
    funext fun a => decide_not.symm
  cases mid with
  | nil =>
      have hne : ∀ a ∈ pre ++ ([] ++ post), f a ≠ .eq := fun a ha heq =>
        hequal.mp ⟨a, ha, heq⟩ rfl
      refine ⟨⟨false, _, _⟩, Index.locate_of_forall_ne fun a ha => ?_, ?_, nofun⟩
      · rw [decide_eq_false (hne a ha)]
      · rw [hequal]
        exact ⟨nofun, fun h => absurd rfl h⟩
  | cons a mid =>
      have ha : f a = .eq := hparts.here a List.mem_cons_self
      simp only [Index.locate, hlower, List.getElem?_append_right (Nat.le_refl pre.length),
        Nat.sub_self, List.drop_left, hnegated, hupper, hparts.filter_here, hequal,
        hparts.exists_behind_iff]
      cases post with
      | nil =>
          refine ⟨⟨true, pre.length, pre.length + 1⟩, ?_, by simp, fun _ => ?_⟩
          · simp [ha]
          · rw [Range.of_append, if_neg (not_not_intro rfl), List.append_nil]
      | cons b post =>
          refine ⟨⟨true, pre.length, pre.length + (a :: mid).length⟩, ?_, by simp, fun _ => ?_⟩
          · simp [ha]
          · rw [Range.of_append, if_pos (List.cons_ne_nil b post), List.take_left]

end DatasetIndex
