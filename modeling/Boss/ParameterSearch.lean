import Boss.ParameterExpText
import Boss.RunSearch

/-!
# Searching a parameter table

A query is searched for in three ways: from the front through the whole index (mode 0), by halves
and then on as long as records match (mode 1), or by halves for one record (mode 2).  The search by
halves compares the keys of a record with the arguments; whether a record matches is decided by the
whole where-expression.

The two go together as long as the matching records are a run (`searches_agree_iff`).  A further
comparison breaks the run of equal keys at the first record that does not satisfy it, and a column
that starts with `*` matches outside of the run.
-/

namespace ParameterSearch

open Parameter (Table Bytes ParameterCdr cstr key compareKeys)
open ParameterExp

/-- The fields of a query, as columns of the table, and its where-expression. -/
structure QueryUseExpression where
  m_inFieldList : List Nat
  m_exp : Exp

variable (T : Table)

/-- `QueryUseExpression::eq`. -/
def eq (q : QueryUseExpression) (fields : List Bytes) (left : ParameterCdr) : Option Bool :=
  q.m_exp.evaluate T fields left

/-- `QueryUseExpression::lt`, for the orders of the fields of an index. -/
def ltFrom : List Bool → List Nat → List Bytes → ParameterCdr → Option Bool
  | [], _, _, _ => some false
  | ascending :: m_order, position :: m_inFieldList, right_key :: fields, left =>
    (format T position left).bind fun left_key =>
      match compare left_key (cstr right_key) with
      | .eq => ltFrom m_order m_inFieldList fields left
      | .lt => some ascending
      | .gt => some !ascending
  | _, _, _, _ => none

/-- The fields of an index with their orders. -/
abbrev Keys := List (Nat × Bool)

def lt (keys : Keys) (q : QueryUseExpression) (fields : List Bytes) (left : ParameterCdr) :
    Option Bool :=
  ltFrom T (keys.map Prod.snd) q.m_inFieldList fields left

/-- `ParameterIndex::seach` in an index of records that can be compared. -/
def seach (keys : Keys) (q : QueryUseExpression) (fields : List Bytes) (seachType : Nat)
    (list : List ParameterCdr) : Option (List ParameterCdr) :=
  if ∀ cdr ∈ list, (eq T q fields cdr).isSome ∧ (lt T keys q fields cdr).isSome then
    some (Parameter.seach ⟨q.m_inFieldList.headD 0, seachType,
      fun cdr => eq T q fields cdr = some true,
      fun cdr => lt T keys q fields cdr = some true⟩ list)
  else none

/-- The three modes find the same. -/
def Agree (keys : Keys) (q : QueryUseExpression) (fields : List Bytes) (list : List ParameterCdr) :
    Prop :=
  ∃ scanned found one, seach T keys q fields 0 list = some scanned ∧
    seach T keys q fields 1 list = some found ∧ seach T keys q fields 2 list = some one ∧
    found.Perm scanned ∧ (one ≠ [] ↔ scanned ≠ [])

/-- All records can be compared, and those that match are a run behind the ones before the
arguments. -/
structure Searchable (keys : Keys) (q : QueryUseExpression) (fields : List Bytes)
    (list : List ParameterCdr) : Prop where
  comparable : ∀ cdr ∈ list, (eq T q fields cdr).isSome ∧ (lt T keys q fields cdr).isSome
  contiguous : RunSearch.Contiguous (fun cdr => lt T keys q fields cdr = some true)
    (fun cdr => eq T q fields cdr = some true) list

/-- The comparisons of a conjunction. -/
def conjuncts : Exp → List Exp
  | .connective .ExpAnd m_leftExp m_rightExp => conjuncts m_leftExp ++ conjuncts m_rightExp
  | exp => [exp]

/-- A conjunction of comparisons, among them that each key is the argument for it. -/
structure Keyed (keys : Keys) (exp : Exp) : Prop where
  comparisons : ∀ c ∈ conjuncts exp, ∃ type m_leftId m_rightId,
    c = .comparison type m_leftId m_rightId
  keyed : ∀ i (hi : i < keys.length), .comparison .ExpEq keys[i].1 i ∈ conjuncts exp

variable {T} {keys : Keys} {q : QueryUseExpression} {fields : List Bytes}
  {list : List ParameterCdr} {a b cdr : ParameterCdr}

/-! ## The order of an index -/

/-- The order of one field. -/
def towards (ascending : Bool) (left right : Bytes) : Ordering :=
  if ascending then compare left right else compare right left

instance transCmp_towards (ascending : Bool) : Std.TransCmp (towards ascending) := by
  cases ascending with
  | true => exact inferInstanceAs (Std.TransCmp fun left right : Bytes => compare left right)
  | false =>
      exact @Std.TransCmp.opposite Bytes (fun left right => compare left right) inferInstance

theorem towards_eq_eq {ascending : Bool} {left right : Bytes} :
    towards ascending left right = .eq ↔ left = right := by
  cases ascending with
  | true => exact Std.compare_eq_iff_eq
  | false => exact Std.compare_eq_iff_eq.trans eq_comm

theorem key_of_format {i : Nat} {l : Bytes} (h : format T i cdr = some l) :
    key T i cdr = some l := by
  obtain ⟨field, hfield, h⟩ := Option.bind_eq_some_iff.mp h
  obtain ⟨s, hs, h⟩ := Option.bind_eq_some_iff.mp h
  rw [key, hs, Option.bind_some, hfield, Option.map_some, Parameter.decoded]
  split_ifs at h ⊢
  · exact h
  · exact h

/-- The step of the comparison with the arguments. -/
theorem ltFrom_cons {ascending : Bool} {m_order : List Bool} {position : Nat}
    {m_inFieldList : List Nat} {right_key : Bytes} {left_key : Bytes}
    (h : format T position cdr = some left_key) :
    ltFrom T (ascending :: m_order) (position :: m_inFieldList) (right_key :: fields) cdr =
      match towards ascending left_key (cstr right_key) with
      | .eq => ltFrom T m_order m_inFieldList fields cdr
      | .lt => some true
      | .gt => some false := by
  rw [ltFrom, h, Option.bind_some]
  cases ascending with
  | true => rfl
  | false =>
      have hswap : compare (cstr right_key) left_key = (compare left_key (cstr right_key)).swap :=
        Std.OrientedCmp.eq_swap
      rw [towards, if_neg Bool.false_ne_true, hswap]
      cases compare left_key (cstr right_key) <;> rfl

/-- What can be compared can be read. -/
theorem format_of_ltFrom {ascending : Bool} {m_order : List Bool} {position : Nat}
    {m_inFieldList : List Nat} {right_key : Bytes}
    (h : (ltFrom T (ascending :: m_order) (position :: m_inFieldList) (right_key :: fields)
      cdr).isSome) :
    ∃ left_key, format T position cdr = some left_key := by
  rw [ltFrom] at h
  cases hformat : format T position cdr with
  | none =>
      rw [hformat] at h
      cases h
  | some left_key => exact ⟨left_key, rfl⟩

/-- The step of the comparison of two records. -/
theorem compareKeys_cons {position : Nat} {ascending : Bool} {rest : Keys}
    {left_key right_key : Bytes}
    (ha : key T position a = some left_key) (hb : key T position b = some right_key) :
    compareKeys T ((position, ascending) :: rest) a b =
      (towards ascending left_key right_key).then (compareKeys T rest a b) := by
  rw [compareKeys, compareLex, ha, hb]
  rfl

/-- **No record behind comes before the arguments** when this one does not. -/
theorem ltFrom_of_le {m_inFieldList : List Nat} (hkeys : keys.map Prod.fst <+: m_inFieldList)
    (hle : (compareKeys T keys a b).isLE)
    (hb : ltFrom T (keys.map Prod.snd) m_inFieldList fields b = some true)
    (ha : (ltFrom T (keys.map Prod.snd) m_inFieldList fields a).isSome) :
    ltFrom T (keys.map Prod.snd) m_inFieldList fields a = some true := by
  induction keys generalizing m_inFieldList fields with
  | nil => cases hb
  | cons k rest ih =>
      obtain ⟨position, ascending⟩ := k
      obtain ⟨tail, rfl⟩ := hkeys
      cases fields with
      | nil => cases hb
      | cons right_key fields =>
          simp only [List.map_cons, List.cons_append] at ha hb ⊢
          obtain ⟨ka, hka⟩ := format_of_ltFrom ha
          obtain ⟨kb, hkb⟩ := format_of_ltFrom (Option.isSome_of_eq_some hb)
          rw [ltFrom_cons hka] at ha ⊢
          rw [ltFrom_cons hkb] at hb
          rw [compareKeys_cons (key_of_format hka) (key_of_format hkb)] at hle
          cases hab : towards ascending ka kb with
          | gt =>
              rw [hab] at hle
              cases hle
          | eq =>
              obtain rfl := towards_eq_eq.mp hab
              rw [hab] at hle
              cases hf : towards ascending ka (cstr right_key) with
              | lt => rfl
              | gt =>
                  rw [hf] at hb
                  cases hb
              | eq =>
                  rw [hf] at ha hb
                  exact ih ⟨tail, rfl⟩ hle hb ha
          | lt =>
              have hf : (towards ascending kb (cstr right_key)).isLE := by
                cases hf : towards ascending kb (cstr right_key) with
                | gt =>
                    rw [hf] at hb
                    cases hb
                | _ => rfl
              rw [Std.TransCmp.lt_of_lt_of_isLE hab hf]

/-- An index is partitioned by the arguments. -/
theorem partitioned (hkeys : keys.map Prod.fst <+: q.m_inFieldList)
    (hsorted : list.Pairwise fun a b => (compareKeys T keys a b).isLE)
    (hcomparable : ∀ cdr ∈ list, (lt T keys q fields cdr).isSome) :
    SortedMap.Partitioned (fun cdr => lt T keys q fields cdr = some true) list := by
  apply hsorted.imp_of_mem
  intro a b ha _ hle hb
  rw [decide_eq_true_eq] at hb ⊢
  exact ltFrom_of_le hkeys hle hb (hcomparable a ha)

/-! ## The three modes -/

/-- **The three modes agree** exactly when all records can be compared and those that match are a
run behind the ones before the arguments. -/
theorem searches_agree_iff (hkeys : keys.map Prod.fst <+: q.m_inFieldList)
    (hsorted : list.Pairwise fun a b => (compareKeys T keys a b).isLE) :
    Agree T keys q fields list ↔ Searchable T keys q fields list := by
  by_cases hcomparable : ∀ cdr ∈ list, (eq T q fields cdr).isSome ∧ (lt T keys q fields cdr).isSome
  · have hpart := partitioned hkeys hsorted fun cdr hcdr => (hcomparable cdr hcdr).2
    have hseach (seachType : Nat) : seach T keys q fields seachType list = some (Parameter.seach
        ⟨q.m_inFieldList.headD 0, seachType, fun cdr => eq T q fields cdr = some true,
          fun cdr => lt T keys q fields cdr = some true⟩ list) := by
      rw [seach, if_pos hcomparable]
    constructor
    · rintro ⟨scanned, found, one, hscanned, hfound, -, hperm, -⟩
      rw [hseach] at hscanned hfound
      obtain rfl := Option.some.inj hscanned
      obtain rfl := Option.some.inj hfound
      exact ⟨hcomparable, (RunSearch.run_perm_filter_iff hpart).mp hperm⟩
    · rintro ⟨-, hcontiguous⟩
      exact ⟨_, _, _, hseach 0, hseach 1, hseach 2,
        (RunSearch.run_perm_filter_iff hpart).mpr hcontiguous,
        hcontiguous.single_ne_nil_iff hpart⟩
  · constructor
    · rintro ⟨scanned, -, -, hscanned, -⟩
      rw [seach, if_neg hcomparable] at hscanned
      cases hscanned
    · exact fun h => absurd h.comparable hcomparable

/-! ## Keys -/

theorem evaluate_conjuncts {exp c : Exp} (h : exp.evaluate T fields cdr = some true)
    (hc : c ∈ conjuncts exp) : c.evaluate T fields cdr = some true := by
  induction exp with
  | comparison type m_leftId m_rightId =>
      obtain rfl := List.mem_singleton.mp hc
      exact h
  | connective type m_leftExp m_rightExp ihleft ihright =>
      cases type with
      | ExpOr =>
          obtain rfl := List.mem_singleton.mp hc
          exact h
      | ExpAnd =>
          obtain ⟨answer, hleft, h⟩ := Option.bind_eq_some_iff.mp h
          cases answer with
          | false => cases h
          | true =>
              rcases List.mem_append.mp hc with hc | hc
              · exact ihleft hleft hc
              · exact ihright h hc

/-- A record whose keys are the arguments does not come before them. -/
theorem ltFrom_of_keys {m_inFieldList : List Nat} (hkeys : keys.map Prod.fst <+: m_inFieldList)
    (h : ∀ i (hi : i < keys.length), ∃ right_key, fields[i]? = some right_key ∧
      format T keys[i].1 cdr = some (cstr right_key)) :
    ltFrom T (keys.map Prod.snd) m_inFieldList fields cdr = some false := by
  induction keys generalizing m_inFieldList fields with
  | nil => rfl
  | cons k rest ih =>
      obtain ⟨position, ascending⟩ := k
      obtain ⟨tail, rfl⟩ := hkeys
      obtain ⟨right_key, hright, hformat⟩ := h 0 (Nat.zero_lt_succ _)
      cases fields with
      | nil => cases hright
      | cons field fields =>
          obtain rfl := Option.some.inj hright
          have hhead : format T position cdr = some (cstr field) := hformat
          simp only [List.map_cons, List.cons_append]
          rw [ltFrom_cons hhead, towards_eq_eq.mpr rfl]
          exact ih ⟨tail, rfl⟩ fun i hi => h (i + 1) (Nat.succ_lt_succ hi)

/-- **A record that matches before the arguments** has a key that starts with `*`. -/
theorem Keyed.star_of_before (h : Keyed keys q.m_exp)
    (hkeys : keys.map Prod.fst <+: q.m_inFieldList)
    (hmatch : eq T q fields cdr = some true) (hbefore : lt T keys q fields cdr = some true) :
    ∃ k ∈ keys, ∃ l, format T k.1 cdr = some l ∧ isStar l = true := by
  by_contra hnone
  have hfalse : lt T keys q fields cdr = some false := by
    apply ltFrom_of_keys hkeys
    intro i hi
    have heq := evaluate_conjuncts hmatch (h.keyed i hi)
    obtain ⟨l, hformat, heq⟩ := Option.bind_eq_some_iff.mp heq
    obtain ⟨right_key, hright, htest⟩ := Option.map_eq_some_iff.mp heq
    refine ⟨right_key, hright, ?_⟩
    rw [Comparison.test, Bool.or_eq_true, decide_eq_true_eq, strcmp, Std.compare_eq_iff_eq] at htest
    rcases htest with hstar | rfl
    · exact absurd ⟨_, List.getElem_mem hi, l, hformat, hstar⟩ hnone
    · exact hformat
  rw [hbefore] at hfalse
  cases hfalse

/-! ## A further comparison -/

/-- The key is given, and a record is wanted that is in force at a time. -/
def inForce : QueryUseExpression :=
  ⟨[0, 1], .connective .ExpAnd (.comparison .ExpEq 0 0) (.comparison .ExpGe 1 1)⟩

/-- `A` from `A` on. -/
def earlier : ParameterCdr := ⟨[0, 2], [65, 0, 65, 0]⟩

theorem searches_agree_earlier :
    Agree twoFields [(0, true)] inForce [[65], [66]] [earlier, twoLetters] :=
  (searches_agree_iff (by decide) (by decide)).mpr ⟨by decide, by decide⟩

theorem inForce_keyed : Keyed [(0, true)] inForce.m_exp := by
  refine ⟨fun c hc => ?_, fun i hi => ?_⟩
  · rcases List.mem_cons.mp hc with rfl | hc
    · exact ⟨_, _, _, rfl⟩
    · obtain rfl := List.mem_singleton.mp hc
      exact ⟨_, _, _, rfl⟩
  · obtain rfl : i = 0 := Nat.lt_one_iff.mp hi
    exact List.mem_cons_self

/-- The first of two records with the same key is not in force yet, and the second is not found. -/
theorem second_record_missed :
    Keyed [(0, true)] inForce.m_exp ∧ ([(0, true)] : Keys).map Prod.fst <+: inForce.m_inFieldList ∧
      [twoLetters, earlier].Pairwise (fun a b => (compareKeys twoFields [(0, true)] a b).isLE) ∧
      seach twoFields [(0, true)] inForce [[65], [66]] 0 [twoLetters, earlier] = some [earlier] ∧
      seach twoFields [(0, true)] inForce [[65], [66]] 1 [twoLetters, earlier] = some [] ∧
      seach twoFields [(0, true)] inForce [[65], [66]] 2 [twoLetters, earlier] = some [] ∧
      ¬ Agree twoFields [(0, true)] inForce [[65], [66]] [twoLetters, earlier] := by
  have hscan : seach twoFields [(0, true)] inForce [[65], [66]] 0 [twoLetters, earlier] =
      some [earlier] := by decide +kernel
  have hrun :
      seach twoFields [(0, true)] inForce [[65], [66]] 1 [twoLetters, earlier] = some [] := by
    decide +kernel
  refine ⟨inForce_keyed, by decide, by decide, hscan, hrun, by decide +kernel, ?_⟩
  rintro ⟨scanned, found, -, hscanned, hfound, -, hperm, -⟩
  obtain rfl := Option.some.inj (hscan.symm.trans hscanned)
  obtain rfl := Option.some.inj (hrun.symm.trans hfound)
  cases hperm.length_eq

end ParameterSearch
