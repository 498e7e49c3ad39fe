import Boss.IndexKey
import Mathlib.Algebra.GroupWithZero.Nat

/-!
# How long a key of a tree is

`IndexBTree` measures its keys itself: `getKeyLenth` adds up what the types of the indexed
columns take in a slot, and that many bytes of a key are stored and compared.  The keys come
from `getIndexKey` and `getSearchKey`, which go by the declared lengths.  A numeric string
takes half of its declared length in a slot, so that only the first half of it is compared.

Main results: `keyAgrees_iff`, and `measured_iff_of_exact` for declared lengths.
-/

namespace IndexBTreeKey

open ByteMemory RecordConvert IndexKey

/-- The loop of `getKeyLenth` over the columns of the table, which does not end with the first
match; a type that is not known is an error. -/
def matchColumns (columnName : List Char) : List ColumnDef → Nat → Bool → Option (Nat × Bool)
  | [], iKeyLenth, isMatchColumn => some (iKeyLenth, isMatchColumn)
  | c :: cs, iKeyLenth, isMatchColumn =>
      if sameName c.m_name columnName then
        match c.slotLen with
        | none => none
        | some n => matchColumns columnName cs (iKeyLenth + n) true
      else matchColumns columnName cs iKeyLenth isMatchColumn

/-- The loop of `getKeyLenth` over the columns of the index. -/
def keyLenthFrom (d : TableDesc) (iKeyLenth : Nat) : List (List Char) → Option Nat
  | [] => some iKeyLenth
  | columnName :: names =>
      match matchColumns columnName d.columns iKeyLenth false with
      | none => none
      | some matched => if matched.2 then keyLenthFrom d matched.1 names else none

/-- `IndexBTree::getKeyLenth`. -/
def getKeyLenth (d : TableDesc) (m_columnList : List (List Char)) : Option Nat :=
  keyLenthFrom d 0 m_columnList

/-- A key of a tree is as long as the keys that the index makes, and two records have the same
key just when they agree in all indexed columns. -/
structure KeyAgrees (d : TableDesc) (names : List (List Char)) : Prop where
  lenth : getKeyLenth d names = some (getHashKeyLenth d names)
  same : ∀ pRecord pRecord', ∃ key key', getIndexKey d names pRecord = .ok key ∧
    getIndexKey d names pRecord' = .ok key' ∧ ∀ m_iKeyLenth, getKeyLenth d names = some m_iKeyLenth →
      (read key 0 m_iKeyLenth = read key' 0 m_iKeyLenth ↔
        ∀ name ∈ names, columnBytes d pRecord name = columnBytes d pRecord' name)

/-- The columns of a name. -/
def columnsNamed (d : TableDesc) (columnName : List Char) : List ColumnDef :=
  d.columns.filter fun c => sameName c.m_name columnName

/-- What the types of the columns of a name take in a slot. -/
def typeLen (d : TableDesc) (columnName : List Char) : Nat :=
  ((columnsNamed d columnName).map (·.slotLen.getD 0)).sum

/-- The indexed columns are there and of known types, their types take as many bytes as they are
declared with, and these fit the buffer of a key. -/
structure Measured (d : TableDesc) (names : List (List Char)) : Prop where
  found : ∀ name ∈ names, columnsNamed d name ≠ []
  known : ∀ name ∈ names, ∀ c ∈ columnsNamed d name, c.m_type ≠ .UNKNOW
  sum : (names.map (typeLen d)).sum = (names.map (declaredLen d)).sum
  fits : (names.map (declaredLen d)).sum ≤ maxColumnLen

attribute [grind =] matchColumns keyLenthFrom getKeyLenth

theorem slotLen_eq_none {c : ColumnDef} : c.slotLen = none ↔ c.m_type = .UNKNOW := by
  unfold ColumnDef.slotLen
  split <;> simp [*]

/-- The loop over the columns adds up those of the name, if all of their types are known. -/
theorem matchColumns_eq (columnName : List Char) (cs : List ColumnDef) (n : Nat) (b : Bool) :
    matchColumns columnName cs n b =
      let named := cs.filter fun c => sameName c.m_name columnName
      if ∀ c ∈ named, c.m_type ≠ .UNKNOW then
        some (n + (named.map (·.slotLen.getD 0)).sum, b || !named.isEmpty)
      else none := by
  induction cs generalizing n b with
  | nil => simp [matchColumns]
  | cons c cs ih =>
      dsimp only at ih ⊢
      rw [matchColumns]
      by_cases hname : sameName c.m_name columnName = true
      · have hfilter : (c :: cs).filter (fun c => sameName c.m_name columnName) =
            c :: cs.filter fun c => sameName c.m_name columnName := List.filter_cons_of_pos hname
        rw [if_pos hname, hfilter]
        cases hlen : c.slotLen with
        | none =>
            have hunknown := slotLen_eq_none.mp hlen
            simp [hunknown]
        | some m =>
            have hknown : c.m_type ≠ .UNKNOW := fun h => by
              rw [slotLen_eq_none.mpr h] at hlen
              cases hlen
            dsimp only
            rw [ih]
            simp only [List.forall_mem_cons, hknown, ne_eq, not_false_eq_true, true_and,
              List.map_cons, List.sum_cons, hlen, Option.getD_some, Nat.add_assoc,
              List.isEmpty_cons, Bool.not_false, Bool.or_true, Bool.true_or]
      · have hfilter : (c :: cs).filter (fun c => sameName c.m_name columnName) =
            cs.filter fun c => sameName c.m_name columnName := List.filter_cons_of_neg hname
        rw [if_neg hname, hfilter, ih]

/-- The loop over the columns of the index. -/
theorem keyLenthFrom_eq_some {d : TableDesc} {names : List (List Char)} {n k : Nat} :
    keyLenthFrom d n names = some k ↔
      (∀ name ∈ names, columnsNamed d name ≠ []) ∧
        (∀ name ∈ names, ∀ c ∈ columnsNamed d name, c.m_type ≠ .UNKNOW) ∧
          n + (names.map (typeLen d)).sum = k := by
  induction names generalizing n with
  | nil => simp [keyLenthFrom]
  | cons name names ih =>
      rw [keyLenthFrom, matchColumns_eq]
      dsimp only
      rw [← columnsNamed, ← typeLen]
      simp only [List.forall_mem_cons, List.map_cons, List.sum_cons]
      by_cases hknown : ∀ c ∈ columnsNamed d name, c.m_type ≠ .UNKNOW
      · rw [if_pos hknown]
        by_cases hfound : columnsNamed d name = []
        · simp [hfound]
        · have hmatched : (false || !(columnsNamed d name).isEmpty) = true := by
            simpa using hfound
          dsimp only
          rw [hmatched, if_pos rfl, ih, Nat.add_assoc]
          exact ⟨fun h => ⟨⟨hfound, h.1⟩, ⟨hknown, h.2.1⟩, h.2.2⟩,
            fun h => ⟨h.1.2, h.2.1.2, h.2.2⟩⟩
      · rw [if_neg hknown]
        simp only [hknown, false_and, and_false]
        simp

/-- Keys are put together from as many bytes for each column, so that they are equal where all
columns are. -/
theorem keyBytes_eq_iff {d : TableDesc} {pRecord pRecord' : Nat → UInt8}
    {names : List (List Char)} :
    keyBytes d pRecord names = keyBytes d pRecord' names ↔
      ∀ name ∈ names, columnBytes d pRecord name = columnBytes d pRecord' name :=
  flatMap_eq_iff fun name _ => by rw [length_columnBytes, length_columnBytes]

/-- **The length of a key.**  Both ways to measure a key agree, and keys are compared in full,
just where the types of the indexed columns take what the columns are declared with. -/
theorem keyAgrees_iff (d : TableDesc) (names : List (List Char)) :
    KeyAgrees d names ↔ Measured d names := by
  have hsum : getHashKeyLenth d names = (names.map (declaredLen d)).sum :=
    getHashKeyLenth_eq d names
  constructor
  · intro h
    obtain ⟨hfound, hknown, hlen⟩ := keyLenthFrom_eq_some.mp h.lenth
    refine ⟨hfound, hknown, by omega, ?_⟩
    by_contra hlong
    obtain ⟨key, key', hkey, -⟩ := h.same (fun _ => 0) (fun _ => 0)
    rw [getIndexKey, indexKeyFrom_outside (by omega) (by omega)] at hkey
    cases hkey
  · intro h
    have hlenth : getKeyLenth d names = some (getHashKeyLenth d names) := by
      refine keyLenthFrom_eq_some.mpr ⟨h.found, h.known, ?_⟩
      rw [hsum, ← h.sum, Nat.zero_add]
    have hfits : getHashKeyLenth d names ≤ maxColumnLen := by
      rw [hsum]
      exact h.fits
    refine ⟨hlenth, fun pRecord pRecord' => ⟨_, _, getIndexKey_eq hfits, getIndexKey_eq hfits, ?_⟩⟩
    intro m_iKeyLenth hkey
    obtain rfl : getHashKeyLenth d names = m_iKeyLenth := Option.some.inj (hlenth.symm.trans hkey)
    rw [read_keyBytes, read_keyBytes]
    exact keyBytes_eq_iff

/-- Sums of numbers that are no larger are equal just where the numbers are. -/
theorem sum_eq_sum_iff {A : Type} {f g : A → Nat} {xs : List A} (hle : ∀ x ∈ xs, f x ≤ g x) :
    (xs.map f).sum ≤ (xs.map g).sum ∧
      ((xs.map f).sum = (xs.map g).sum ↔ ∀ x ∈ xs, f x = g x) := by
  induction xs with
  | nil => simp
  | cons x xs ih =>
      rw [List.forall_mem_cons] at hle
      obtain ⟨hsum, hiff⟩ := ih hle.2
      rw [List.map_cons, List.map_cons, List.sum_cons, List.sum_cons, List.forall_mem_cons, ← hiff]
      omega

/-- In a table with one column of a name, numbers that are declared as long as they are leave
only numeric strings to disagree. -/
theorem measured_iff_of_exact {d : TableDesc} {names : List (List Char)}
    (hone : ∀ name ∈ names, ∃ c, column d name = some c ∧ columnsNamed d name = [c] ∧
      c.m_type ≠ .UNKNOW ∧ (c.isString = false → c.slotLen = some c.m_len)) :
    Measured d names ↔ (names.map (declaredLen d)).sum ≤ maxColumnLen ∧
      ∀ name ∈ names, ∀ c, column d name = some c → c.m_type = .NUMSTR → c.m_len ≤ 1 := by
  have hname : ∀ name ∈ names, typeLen d name ≤ declaredLen d name ∧
      (typeLen d name = declaredLen d name ↔
        ∀ c, column d name = some c → c.m_type = .NUMSTR → c.m_len ≤ 1) := by
    intro name hin
    obtain ⟨c, hc, hnamed, hknown, hexact⟩ := hone name hin
    have htype : typeLen d name = c.slotLen.getD 0 := by
      rw [typeLen, hnamed]
      exact Nat.add_zero _
    rw [htype, declaredLen_of_column hc]
    by_cases hnumstr : c.m_type = .NUMSTR
    · have hslot : c.slotLen = some ((c.m_len + 1) / 2) := by
        rw [ColumnDef.slotLen, hnumstr]
      rw [hslot, Option.getD_some]
      refine ⟨by omega, fun h c' hc' _ => ?_, fun h => ?_⟩
      · obtain rfl : c = c' := Option.some.inj (hc.symm.trans hc')
        omega
      · have := h c hc hnumstr
        omega
    · have hslot : c.slotLen = some c.m_len := by
        by_cases hvstr : c.m_type = .VSTR
        · rw [ColumnDef.slotLen, hvstr]
        · exact hexact (by simp [ColumnDef.isString, hnumstr, hvstr])
      rw [hslot, Option.getD_some]
      refine ⟨Nat.le_refl _, fun _ c' hc' htype' => ?_, fun _ => rfl⟩
      obtain rfl : c = c' := Option.some.inj (hc.symm.trans hc')
      exact absurd htype' hnumstr
  have hsum := (sum_eq_sum_iff fun name hin => (hname name hin).1).2
  constructor
  · intro h
    exact ⟨h.fits, fun name hin => (hname name hin).2.mp (hsum.mp h.sum name hin)⟩
  · intro h
    constructor
    case found =>
      intro name hin
      obtain ⟨c, -, hnamed, -⟩ := hone name hin
      simp [hnamed]
    case known =>
      intro name hin e he
      obtain ⟨c, -, hnamed, hknown, -⟩ := hone name hin
      rw [hnamed, List.mem_singleton] at he
      rwa [he]
    case sum => exact hsum.mpr fun name hin => (hname name hin).2.mpr (h.2 name hin)
    case fits => exact h.1

/-- A number of four digits is compared by its first two. -/
theorem not_keyAgrees :
    ¬ ∀ (t : TableDef) (names : List (List Char)), t.Supported →
      (∀ name ∈ names, (column (initByTableDef t) name).isSome = true) →
        KeyAgrees (initByTableDef t) names := by
  intro h
  have hsupported : phoneTable.Supported := by
    intro c hc
    simp only [phoneTable, List.mem_cons, List.not_mem_nil, or_false] at hc
    rcases hc with rfl | rfl <;> decide
  have hlenth := (h phoneTable [['n']] hsupported (by decide)).lenth
  revert hlenth
  decide

end IndexBTreeKey
