import Boss.Expression
import Mathlib.Data.List.Infix
import Mathlib.Data.List.TakeWhile

/-!
# Filter expressions: the parser undoes the printer

`Printed` relates a tree of operators to its texts, with any blanks between the parts and with
parentheses around the operands of `and` and `or`.  The parser works from outside: the first pair of
parentheses is the left operand because the text of an operand is balanced
(`Printed.balanced`), and the mark of a comparison is found because no column has one in its
name (`getOperatMark_comparison`).  The whole parser is then an induction over the tree.
-/

namespace Expression

open Decimal

/-! ## Strings -/

/-- A text without blanks at its ends. -/
def Tight (m : List Byte) : Prop :=
  (∃ c x, m = c :: x ∧ isBlank c = false) ∧ ∃ y d, m = y ++ [d] ∧ isBlank d = false

theorem ltrim_blanks {b : List Byte} (hb : ∀ c ∈ b, isBlank c = true) : ltrim b = [] :=
  List.dropWhile_eq_nil_iff.mpr hb

/-- Blanks only are trimmed to nothing from the right. -/
theorem rtrim_blanks {b : List Byte} (hb : ∀ c ∈ b, isBlank c = true) : rtrim b = [] := by
  unfold rtrim
  rw [List.dropWhile_eq_nil_iff.mpr (by simpa using hb), List.reverse_nil]

/-- `ltrim` stops at a tight part. -/
theorem ltrim_append {m : List Byte} (hm : Tight m) (u v : List Byte) :
    ltrim (u ++ (m ++ v)) = ltrim u ++ (m ++ v) := by
  obtain ⟨⟨c, x, rfl, hc⟩, -⟩ := hm
  unfold ltrim
  rw [List.dropWhile_append]
  by_cases hu : (u.dropWhile isBlank).isEmpty = true
  · rw [if_pos hu, List.isEmpty_iff.mp hu, List.cons_append,
      List.dropWhile_cons_of_neg (by simp [hc]), List.nil_append]
  · rw [if_neg hu]

/-- `rtrim` stops at a tight part. -/
theorem rtrim_append {m : List Byte} (hm : Tight m) (u v : List Byte) :
    rtrim (u ++ (m ++ v)) = u ++ (m ++ rtrim v) := by
  obtain ⟨-, y, d, rfl, hd⟩ := hm
  unfold rtrim
  rw [List.reverse_append, List.reverse_append, List.append_assoc, List.dropWhile_append]
  by_cases hv : (v.reverse.dropWhile isBlank).isEmpty = true
  · rw [if_pos hv, List.isEmpty_iff.mp hv]
    simp [hd]
  · rw [if_neg hv]
    simp

/-- Trimming does not go beyond a tight text in the middle. -/
theorem trim_append {m : List Byte} (hm : Tight m) (u v : List Byte) :
    trim (u ++ (m ++ v)) = ltrim u ++ (m ++ rtrim v) := by
  unfold trim
  rw [rtrim_append hm, ltrim_append hm]

/-- What stands between blanks. -/
theorem trim_between {m b₁ b₂ : List Byte} (hm : Tight m) (h₁ : ∀ c ∈ b₁, isBlank c = true)
    (h₂ : ∀ c ∈ b₂, isBlank c = true) : trim (b₁ ++ (m ++ b₂)) = m := by
  rw [trim_append hm, ltrim_blanks h₁, rtrim_blanks h₂, List.nil_append, List.append_nil]

/-- A tight text is trimmed already. -/
theorem Tight.trim {m : List Byte} (hm : Tight m) : trim m = m := by
  have hbetween := @trim_between m [] [] hm (by simp) (by simp)
  simpa using hbetween

/-- Tight ends make a tight text, whatever is between them. -/
theorem Tight.append {m n : List Byte} (hm : Tight m) (hn : Tight n) (x : List Byte) :
    Tight (m ++ (x ++ n)) := by
  obtain ⟨⟨c, y, rfl, hc⟩, -⟩ := hm
  obtain ⟨-, z, d, rfl, hd⟩ := hn
  exact ⟨⟨c, y ++ (x ++ (z ++ [d])), rfl, hc⟩, c :: y ++ (x ++ z), d, by simp, hd⟩

/-- What `trim` leaves. -/
theorem trim_eq_nil_or_tight (x : List Byte) : trim x = [] ∨ Tight (trim x) := by
  have hlast : rtrim x = [] ∨ ∃ y d, rtrim x = y ++ [d] ∧ isBlank d = false := by
    unfold rtrim
    cases hx : x.reverse.dropWhile isBlank with
    | nil => exact .inl rfl
    | cons d y =>
        have hhead := List.head?_dropWhile_not isBlank x.reverse
        rw [hx] at hhead
        exact .inr ⟨y.reverse, d, by simp, by simpa using hhead⟩
  rcases hlast with hnil | ⟨y, d, hy, hd⟩
  · refine .inl ?_
    unfold trim
    rw [hnil]
    rfl
  · have hone : Tight [d] := ⟨⟨d, [], rfl, hd⟩, [], d, rfl, hd⟩
    have htrim : trim x = ltrim y ++ [d] := by
      have happend := ltrim_append hone y []
      unfold trim
      rwa [hy]
    rw [htrim]
    refine .inr ⟨?_, ltrim y, d, rfl, hd⟩
    cases hy' : ltrim y with
    | nil => exact ⟨d, [], rfl, hd⟩
    | cons c z =>
        have hhead := List.head?_dropWhile_not isBlank y
        rw [show y.dropWhile isBlank = c :: z from hy'] at hhead
        exact ⟨c, z ++ [d], rfl, by simpa using hhead⟩

/-- Trimming twice is trimming once. -/
theorem trim_trim (x : List Byte) : trim (trim x) = trim x := by
  rcases trim_eq_nil_or_tight x with hnil | htight
  · rw [hnil]
    rfl
  · exact htight.trim

/-- A pattern that is found is in the text. -/
theorem find_isSome {pattern w : List Byte} :
    (find pattern w).isSome = true → pattern <:+: w := by
  induction w with
  | nil =>
      intro h
      by_cases hp : pattern = []
      · rw [hp]
      · simp [find, hp] at h
  | cons c rest ih =>
      intro h
      unfold find at h
      by_cases hp : pattern.isPrefixOf (c :: rest) = true
      · exact (List.isPrefixOf_iff_prefix.mp hp).isInfix
      · rw [if_neg hp, Option.isSome_map] at h
        exact (ih h).trans (List.suffix_cons c rest).isInfix

/-- A pattern is not found where one of its bytes does not occur. -/
theorem find_isSome_false {c : Byte} {pattern w : List Byte} (hpattern : c ∈ pattern) (hw : c ∉ w) :
    (find pattern w).isSome = false := by
  cases hfind : (find pattern w).isSome with
  | false => rfl
  | true => exact absurd ((find_isSome hfind).subset hpattern) hw

/-- Where a pattern is found whose first byte does not occur before. -/
theorem find_first {c : Byte} {pattern u v : List Byte} (hc : c ∉ u) :
    find (c :: pattern) (u ++ ((c :: pattern) ++ v)) = some u.length := by
  induction u with
  | nil =>
      have hprefix : (c :: pattern).isPrefixOf (c :: (pattern ++ v)) = true :=
        List.isPrefixOf_iff_prefix.mpr ⟨v, rfl⟩
      simp [find, hprefix]
  | cons a u ih =>
      have hne : ¬ (c :: pattern).isPrefixOf (a :: (u ++ (c :: pattern ++ v))) = true := by
        intro hprefix
        have hhead := (List.cons_prefix_cons.mp (List.isPrefixOf_iff_prefix.mp hprefix)).1
        exact hc (by rw [hhead]; exact List.mem_cons_self)
      rw [List.cons_append]
      unfold find
      rw [if_neg hne, ih fun hmem => hc (List.mem_cons_of_mem a hmem)]
      rfl

/-! ## The printed form -/

/-- The bytes that operators are made of, the parentheses and the end of a C string. -/
def reserved : List Byte := 0 :: text ['=', '!', '<', '>', '(', ')']

/-- What a column may be called: no reserved byte, and no blank at either end. -/
def ColumnName (name : List Byte) : Prop :=
  (∀ c ∈ name, c ∉ reserved) ∧ trim name = name

/-- `:n`. -/
def parameter (n : Nat) : List Byte := ':'.toUInt8 :: digitText n

/-- The texts of a tree: blanks may stand around each part, and the operands of `and` and `or`
stand in parentheses. -/
inductive Printed : Operator → List Byte → Prop
  | comparison {operat : Comparison} {name : List Byte} {n : Nat} {b₁ b₂ b₃ b₄ : List Byte}
      (hoperat : operat ≠ .neq) (hname : ColumnName name) (hn : n < 2 ^ 31)
      (h₁ : ∀ c ∈ b₁, isBlank c = true) (h₂ : ∀ c ∈ b₂, isBlank c = true)
      (h₃ : ∀ c ∈ b₃, isBlank c = true) (h₄ : ∀ c ∈ b₄, isBlank c = true) :
      Printed (.comparison operat name n)
        (b₁ ++ (name ++ (b₂ ++ (operat.mark ++ (b₃ ++ (parameter n ++ b₄))))))
  | and {left right : Operator} {u v b₁ b₂ b₃ b₄ : List Byte}
      (hleft : Printed left u) (hright : Printed right v)
      (h₁ : ∀ c ∈ b₁, isBlank c = true) (h₂ : ∀ c ∈ b₂, isBlank c = true)
      (h₃ : ∀ c ∈ b₃, isBlank c = true) (h₄ : ∀ c ∈ b₄, isBlank c = true) :
      Printed (.and left right)
        (b₁ ++ ((lparen :: (u ++ [rparen])) ++
          (b₂ ++ (text ['a', 'n', 'd'] ++ (b₃ ++ ((lparen :: (v ++ [rparen])) ++ b₄))))))
  | or {left right : Operator} {u v b₁ b₂ b₃ b₄ : List Byte}
      (hleft : Printed left u) (hright : Printed right v)
      (h₁ : ∀ c ∈ b₁, isBlank c = true) (h₂ : ∀ c ∈ b₂, isBlank c = true)
      (h₃ : ∀ c ∈ b₃, isBlank c = true) (h₄ : ∀ c ∈ b₄, isBlank c = true) :
      Printed (.or left right)
        (b₁ ++ ((lparen :: (u ++ [rparen])) ++
          (b₂ ++ (text ['o', 'r'] ++ (b₃ ++ ((lparen :: (v ++ [rparen])) ++ b₄))))))

/-! ## Balanced texts -/

/-- A text in which the search for the end of a pair comes out where it went in, with as many
more parentheses opened as closed. -/
def Balanced (w : List Byte) : Prop :=
  ∃ k, ∀ rest i r l, l < r →
    firstPair (w ++ rest) i r l = firstPair rest (i + w.length) (r + k) (l + k)

/-- An opening parenthesis is counted. -/
theorem firstPair_open {rest : List Byte} {i r l : Nat} (hle : l ≤ r) :
    firstPair (lparen :: rest) i r l = firstPair rest (i + 1) (r + 1) l := by
  have hne : lparen ≠ rparen := by decide
  rw [firstPair, if_pos rfl, if_neg hne, if_neg (by omega)]

/-- A closing parenthesis is the one looked for when all others are matched. -/
theorem firstPair_close {rest : List Byte} {i r l : Nat} :
    firstPair (rparen :: rest) i r l
      = if r = l + 1 then (i, l + 1) else firstPair rest (i + 1) r (l + 1) := by
  have hne : rparen ≠ lparen := by decide
  rw [firstPair, if_neg hne, if_pos rfl]

/-- A text without parentheses is balanced. -/
theorem Balanced.plain {w : List Byte} (hw : ∀ c ∈ w, c ≠ lparen ∧ c ≠ rparen) : Balanced w := by
  refine ⟨0, ?_⟩
  induction w with
  | nil =>
      intro rest i r l _
      rfl
  | cons c w ih =>
      intro rest i r l hlt
      obtain ⟨hleft, hright⟩ := hw c List.mem_cons_self
      rw [List.cons_append, firstPair, if_neg hleft, if_neg hright, if_neg (by omega),
        ih (fun d hd => hw d (List.mem_cons_of_mem c hd)) rest (i + 1) r l hlt, List.length_cons]
      have hi : i + 1 + w.length = i + (w.length + 1) := by omega
      rw [hi]

/-- Two balanced texts are balanced one behind the other. -/
theorem Balanced.append {u v : List Byte} (hu : Balanced u) (hv : Balanced v) : Balanced (u ++ v) := by
  obtain ⟨k, hu⟩ := hu
  obtain ⟨m, hv⟩ := hv
  refine ⟨k + m, ?_⟩
  intro rest i r l hlt
  rw [List.append_assoc, hu _ i r l hlt, hv rest _ _ _ (by omega), List.length_append]
  congr 1 <;> omega

/-- Around a balanced text the pair of parentheses is closed by its own parenthesis. -/
theorem Balanced.paren {u : List Byte} (hu : Balanced u) : Balanced (lparen :: (u ++ [rparen])) := by
  obtain ⟨k, hu⟩ := hu
  refine ⟨k + 1, ?_⟩
  intro rest i r l hlt
  rw [List.cons_append, firstPair_open (by omega), List.append_assoc, hu _ _ _ _ (by omega)]
  rw [List.singleton_append, firstPair_close, if_neg (by omega), List.length_cons,
    List.length_append]
  congr 1
  · simp only [List.length_singleton]
    omega
  · omega

/-- The first pair of a text that begins with one. -/
theorem firstPair_paren {u : List Byte} (hu : Balanced u) (rest : List Byte) :
    ∃ k, firstPair ((lparen :: (u ++ [rparen])) ++ rest) 0 0 0 = (u.length + 1, k + 1) := by
  obtain ⟨k, hu⟩ := hu
  refine ⟨k, ?_⟩
  rw [List.cons_append, firstPair_open le_rfl, List.append_assoc, hu _ _ _ _ (by omega),
    List.singleton_append, firstPair_close, if_pos (by omega)]
  congr 1 <;> omega

/-- A text without parentheses has no pair. -/
theorem firstPair_plain {w : List Byte} (hw : ∀ c ∈ w, c ≠ lparen ∧ c ≠ rparen) :
    (firstPair w 0 0 0).2 = 0 := by
  cases w with
  | nil => rfl
  | cons c w =>
      obtain ⟨hleft, hright⟩ := hw c List.mem_cons_self
      simp [firstPair, hleft, hright]

/-! ## The bytes of a printed text -/

/-- Blanks do not occur in a mark. -/
theorem isBlank_not_reserved {c : Byte} (hc : isBlank c = true) : c ∉ reserved := by
  simp only [isBlank, Bool.or_eq_true, decide_eq_true_eq] at hc
  rcases hc with rfl | rfl <;> decide

/-- Digits do not occur in a mark. -/
theorem isDigit_not_reserved {c : Byte} (hc : isDigit c = true) : c ∉ reserved := by
  simp only [isDigit, Bool.and_eq_true, decide_eq_true_eq] at hc
  intro hmem
  simp only [reserved, text, List.map_cons, List.map_nil, List.mem_cons, List.not_mem_nil,
    or_false] at hmem
  rcases hmem with rfl | rfl | rfl | rfl | rfl | rfl | rfl <;> exact absurd hc (by decide)

/-- A digit is no blank. -/
theorem isDigit_not_blank {c : Byte} (hc : isDigit c = true) : isBlank c = false := by
  cases hblank : isBlank c with
  | false => rfl
  | true =>
      simp only [isBlank, Bool.or_eq_true, decide_eq_true_eq] at hblank
      rcases hblank with rfl | rfl <;> exact absurd hc (by decide)

/-- A parameter has no character of a mark. -/
theorem parameter_not_reserved (n : Nat) : ∀ c ∈ parameter n, c ∉ reserved := by
  intro c hc
  rcases List.mem_cons.mp hc with rfl | hc
  · decide
  · exact isDigit_not_reserved (digitText_digits n c hc)

/-- A parameter begins and ends without a blank. -/
theorem parameter_tight (n : Nat) : Tight (parameter n) := by
  refine ⟨⟨_, _, rfl, by decide⟩, ?_⟩
  obtain ⟨c, x, hx⟩ := digitText_cons n
  have hne : digitText n ≠ [] := by simp [hx]
  refine ⟨':'.toUInt8 :: (digitText n).dropLast, (digitText n).getLast hne, ?_, ?_⟩
  · rw [List.cons_append, List.dropLast_append_getLast]
    rfl
  · exact isDigit_not_blank (digitText_digits n _ (List.getLast_mem hne))

/-- A mark begins and ends without a blank. -/
theorem mark_tight (operat : Comparison) : Tight operat.mark := by
  cases operat with
  | eq => exact ⟨⟨_, _, rfl, by decide⟩, [], _, rfl, by decide⟩
  | ge => exact ⟨⟨_, _, rfl, by decide⟩, [_], _, rfl, by decide⟩
  | gt => exact ⟨⟨_, _, rfl, by decide⟩, [], _, rfl, by decide⟩
  | lt => exact ⟨⟨_, _, rfl, by decide⟩, [], _, rfl, by decide⟩
  | le => exact ⟨⟨_, _, rfl, by decide⟩, [_], _, rfl, by decide⟩
  | ne => exact ⟨⟨_, _, rfl, by decide⟩, [_], _, rfl, by decide⟩
  | neq => exact ⟨⟨_, _, rfl, by decide⟩, [_, _], _, rfl, by decide⟩

/-- A property of the bytes of a text, checked one by one. -/
theorem forall_mem_of_all {P : Byte → Prop} [DecidablePred P] {w : List Byte}
    (h : w.all (fun c => decide (P c)) = true) : ∀ c ∈ w, P c := by
  simpa using h

/-- A mark other than the two-character one for unequal has neither zeros nor parentheses. -/
theorem mark_bytes {operat : Comparison} (hoperat : operat ≠ .neq) :
    ∀ c ∈ operat.mark, c ≠ 0 ∧ c ≠ lparen ∧ c ≠ rparen := by
  cases operat with
  | neq => exact absurd rfl hoperat
  | _ => exact forall_mem_of_all (by decide)

/-- What occurs in no mark is neither a zero nor a parenthesis. -/
theorem not_reserved_bytes {c : Byte} (hc : c ∉ reserved) : c ≠ 0 ∧ c ≠ lparen ∧ c ≠ rparen := by
  refine ⟨?_, ?_, ?_⟩ <;> rintro rfl <;> exact hc (by decide)

/-- The bytes of a comparison. -/
theorem comparison_bytes {operat : Comparison} {name : List Byte} {n : Nat} {b₁ b₂ b₃ b₄ : List Byte}
    (hoperat : operat ≠ .neq) (hname : ColumnName name)
    (h₁ : ∀ c ∈ b₁, isBlank c = true) (h₂ : ∀ c ∈ b₂, isBlank c = true)
    (h₃ : ∀ c ∈ b₃, isBlank c = true) (h₄ : ∀ c ∈ b₄, isBlank c = true) :
    ∀ c ∈ b₁ ++ (name ++ (b₂ ++ (operat.mark ++ (b₃ ++ (parameter n ++ b₄))))),
      c ≠ 0 ∧ c ≠ lparen ∧ c ≠ rparen := by
  intro c hc
  simp only [List.mem_append] at hc
  rcases hc with hc | hc | hc | hc | hc | hc | hc
  · exact not_reserved_bytes (isBlank_not_reserved (h₁ c hc))
  · exact not_reserved_bytes (hname.1 c hc)
  · exact not_reserved_bytes (isBlank_not_reserved (h₂ c hc))
  · exact mark_bytes hoperat c hc
  · exact not_reserved_bytes (isBlank_not_reserved (h₃ c hc))
  · exact not_reserved_bytes (parameter_not_reserved n c hc)
  · exact not_reserved_bytes (isBlank_not_reserved (h₄ c hc))

/-- No byte of a printed text ends a C string. -/
theorem Printed.ne_zero {tree : Operator} {w : List Byte} (h : Printed tree w) : ∀ c ∈ w, c ≠ 0 := by
  have hopen : lparen ≠ 0 := by decide
  have hclose : rparen ≠ 0 ∧ ∀ c ∈ ([] : List Byte), c ≠ 0 := ⟨by decide, by simp⟩
  have hblank : ∀ {b : List Byte}, (∀ c ∈ b, isBlank c = true) → ∀ c ∈ b, c ≠ 0 :=
    fun hb c hc => (not_reserved_bytes (isBlank_not_reserved (hb c hc))).1
  induction h with
  | comparison hoperat hname hn h₁ h₂ h₃ h₄ =>
      exact fun c hc => (comparison_bytes hoperat hname h₁ h₂ h₃ h₄ c hc).1
  | and hleft hright h₁ h₂ h₃ h₄ ihleft ihright =>
      simp only [List.forall_mem_append, List.forall_mem_cons]
      exact ⟨hblank h₁, ⟨hopen, ihleft, hclose⟩, hblank h₂, forall_mem_of_all (by decide), hblank h₃,
        ⟨hopen, ihright, hclose⟩, hblank h₄⟩
  | or hleft hright h₁ h₂ h₃ h₄ ihleft ihright =>
      simp only [List.forall_mem_append, List.forall_mem_cons]
      exact ⟨hblank h₁, ⟨hopen, ihleft, hclose⟩, hblank h₂, forall_mem_of_all (by decide), hblank h₃,
        ⟨hopen, ihright, hclose⟩, hblank h₄⟩

/-- What is printed has its parentheses balanced. -/
theorem Printed.balanced {tree : Operator} {w : List Byte} (h : Printed tree w) : Balanced w := by
  have hblank : ∀ {b : List Byte}, (∀ c ∈ b, isBlank c = true) → Balanced b := fun hb =>
    .plain fun c hc => (not_reserved_bytes (isBlank_not_reserved (hb c hc))).2
  induction h with
  | comparison hoperat hname hn h₁ h₂ h₃ h₄ =>
      exact .plain fun c hc => (comparison_bytes hoperat hname h₁ h₂ h₃ h₄ c hc).2
  | and hleft hright h₁ h₂ h₃ h₄ ihleft ihright =>
      have hword : Balanced (text ['a', 'n', 'd']) := .plain (forall_mem_of_all (by decide))
      exact (hblank h₁).append (ihleft.paren.append ((hblank h₂).append (hword.append
        ((hblank h₃).append (ihright.paren.append (hblank h₄))))))
  | or hleft hright h₁ h₂ h₃ h₄ ihleft ihright =>
      have hword : Balanced (text ['o', 'r']) := .plain (forall_mem_of_all (by decide))
      exact (hblank h₁).append (ihleft.paren.append ((hblank h₂).append (hword.append
        ((hblank h₃).append (ihright.paren.append (hblank h₄))))))

/-- What is printed is not empty. -/
theorem Printed.ne_nil {tree : Operator} {w : List Byte} (h : Printed tree w) : w ≠ [] := by
  cases h <;> simp [parameter]

theorem cString_eq {w : List Byte} (hw : ∀ c ∈ w, c ≠ 0) : cString w = w :=
  List.takeWhile_eq_self_iff.mpr (by simpa using hw)

/-! ## One step of the parser -/

/-- The mark of a comparison is the first that is looked for and found. -/
theorem getOperatMark_comparison {operat : Comparison} (hoperat : operat ≠ .neq) {u v : List Byte}
    (hu : ∀ c ∈ u, c ∉ reserved) (hv : ∀ c ∈ v, c ∉ reserved) :
    getOperatMark (u ++ (operat.mark ++ v)) = operat.mark ∧
      find operat.mark (u ++ (operat.mark ++ v)) = some u.length := by
  have hfind : find operat.mark (u ++ (operat.mark ++ v)) = some u.length := by
    have hfirst : ∀ {c : Byte} (pattern : List Byte), c ∈ reserved →
        find (c :: pattern) (u ++ ((c :: pattern) ++ v)) = some u.length :=
      fun pattern hc => find_first fun hmem => hu _ hmem hc
    cases operat with
    | neq => exact absurd rfl hoperat
    | _ => exact hfirst _ (by decide)
  refine ⟨?_, hfind⟩
  -- a mark that is looked for before has a byte that the text does not have
  have habsent : ∀ {c : Byte} {pattern : List Byte}, c ∈ pattern → c ∈ reserved → c ∉ operat.mark →
      (find pattern (u ++ (operat.mark ++ v))).isSome = false := by
    intro c pattern hc hreserved hmark
    refine find_isSome_false hc ?_
    intro hmem
    rcases List.mem_append.mp hmem with hmem | hmem
    · exact hu c hmem hreserved
    · rcases List.mem_append.mp hmem with hmem | hmem
      · exact hmark hmem
      · exact hv c hmem hreserved
  have hfound : (find operat.mark (u ++ (operat.mark ++ v))).isSome = true := by
    rw [hfind]
    rfl
  have hskip : ∀ {c : Byte} {pattern : List Byte} {marks : List (List Byte)}, c ∈ pattern →
      c ∈ reserved → c ∉ operat.mark →
      (pattern :: marks).find? (fun mark => (find mark (u ++ (operat.mark ++ v))).isSome)
        = marks.find? fun mark => (find mark (u ++ (operat.mark ++ v))).isSome := by
    intro c pattern marks hc hreserved hmark
    exact List.find?_cons_of_neg (by simp [habsent hc hreserved hmark])
  have hstop : ∀ {marks : List (List Byte)},
      (operat.mark :: marks).find? (fun mark => (find mark (u ++ (operat.mark ++ v))).isSome)
        = some operat.mark := List.find?_cons_of_pos hfound
  have hgreater : ∀ {x : List Char}, '>'.toUInt8 ∈ text ('>' :: x) := List.mem_cons_self
  have hless : ∀ {x : List Char}, '<'.toUInt8 ∈ text ('<' :: x) := List.mem_cons_self
  have hnot : ∀ {x : List Char}, '!'.toUInt8 ∈ text ('!' :: x) := List.mem_cons_self
  dsimp only [getOperatMark]
  cases operat with
  | neq => exact absurd rfl hoperat
  | ge => exact congrArg (·.getD []) hstop
  | gt =>
      rw [hskip (c := '='.toUInt8) (by decide) (by decide) (by decide)]
      exact congrArg (·.getD []) hstop
  | ne =>
      rw [hskip hgreater (by decide) (by decide), hskip hgreater (by decide) (by decide)]
      exact congrArg (·.getD []) hstop
  | le =>
      rw [hskip hgreater (by decide) (by decide), hskip hgreater (by decide) (by decide),
        hskip hnot (by decide) (by decide)]
      exact congrArg (·.getD []) hstop
  | lt =>
      rw [hskip hgreater (by decide) (by decide), hskip hgreater (by decide) (by decide),
        hskip hnot (by decide) (by decide),
        hskip (c := '='.toUInt8) (by decide) (by decide) (by decide)]
      exact congrArg (·.getD []) hstop
  | eq =>
      rw [hskip hgreater (by decide) (by decide), hskip hgreater (by decide) (by decide),
        hskip hnot (by decide) (by decide), hskip hless (by decide) (by decide),
        hskip hless (by decide) (by decide)]
      exact congrArg (·.getD []) hstop

/-- **A comparison is taken apart** at its mark. -/
theorem getOperatType_comparison {operat : Comparison} {name : List Byte} {n : Nat}
    {b₁ b₂ b₃ b₄ : List Byte} (hoperat : operat ≠ .neq) (hname : ColumnName name)
    (h₁ : ∀ c ∈ b₁, isBlank c = true) (h₂ : ∀ c ∈ b₂, isBlank c = true)
    (h₃ : ∀ c ∈ b₃, isBlank c = true) (h₄ : ∀ c ∈ b₄, isBlank c = true) :
    getOperatType (b₁ ++ (name ++ (b₂ ++ (operat.mark ++ (b₃ ++ (parameter n ++ b₄))))))
      = some (operat.mark, name, parameter n) := by
  have hbytes := comparison_bytes (n := n) hoperat hname h₁ h₂ h₃ h₄
  have hnil : ∀ c ∈ ([] : List Byte), isBlank c = true := by simp
  -- the blanks at the ends go, and the name keeps those behind it
  obtain ⟨u, hu, htrim, hname'⟩ : ∃ u, (∀ c ∈ u, c ∉ reserved) ∧
      ltrim (b₁ ++ (name ++ b₂)) = u ∧ trim u = name := by
    rcases trim_eq_nil_or_tight name with hempty | htight
    · rw [hname.2] at hempty
      refine ⟨[], by simp, ltrim_blanks ?_, by rw [hempty]; rfl⟩
      rw [hempty, List.nil_append]
      exact List.forall_mem_append.mpr ⟨h₁, h₂⟩
    · rw [hname.2] at htight
      refine ⟨name ++ b₂, ?_, ?_, ?_⟩
      · exact List.forall_mem_append.mpr ⟨hname.1, fun c hc => isBlank_not_reserved (h₂ c hc)⟩
      · rw [ltrim_append htight, ltrim_blanks h₁, List.nil_append]
      · exact trim_between htight hnil h₂
  have hv : ∀ c ∈ b₃ ++ parameter n, c ∉ reserved :=
    List.forall_mem_append.mpr ⟨fun c hc => isBlank_not_reserved (h₃ c hc), parameter_not_reserved n⟩
  have hw : trim (b₁ ++ (name ++ (b₂ ++ (operat.mark ++ (b₃ ++ (parameter n ++ b₄))))))
      = u ++ (operat.mark ++ (b₃ ++ parameter n)) := by
    have hassoc : b₁ ++ (name ++ (b₂ ++ (operat.mark ++ (b₃ ++ (parameter n ++ b₄)))))
        = (b₁ ++ (name ++ b₂)) ++ (operat.mark ++ (b₃ ++ (parameter n ++ b₄))) := by simp
    rw [hassoc, trim_append (mark_tight operat), htrim, rtrim_append (parameter_tight n),
      rtrim_blanks h₄, List.append_nil]
  have hplain : ∀ c ∈ u ++ (operat.mark ++ (b₃ ++ parameter n)), c ≠ lparen ∧ c ≠ rparen := by
    intro c hc
    simp only [List.mem_append] at hc
    rcases hc with hc | hc | hc
    · exact (not_reserved_bytes (hu c hc)).2
    · exact (mark_bytes hoperat c hc).2
    · exact (not_reserved_bytes (hv c (List.mem_append.mpr hc))).2
  obtain ⟨hmark, hfind⟩ := getOperatMark_comparison hoperat hu hv
  have hright : trim (b₃ ++ parameter n) = parameter n := by
    simpa using trim_between (parameter_tight n) h₃ hnil
  have hdrop : (u ++ (operat.mark ++ (b₃ ++ parameter n))).drop (u.length + operat.mark.length)
      = b₃ ++ parameter n := by
    rw [← List.append_assoc, List.drop_left' (by simp)]
  dsimp only [getOperatType]
  rw [cString_eq fun c hc => (hbytes c hc).1, hw, firstPair_plain hplain, if_pos rfl, hmark, hfind,
    Option.getD_some, List.take_left' rfl, hdrop, hname', hright]

/-- **A pair is taken apart** at the word between its operands. -/
theorem getOperatType_pair {word u v b₁ b₂ b₃ b₄ : List Byte} (hword : Tight word)
    (hplain : ∀ c ∈ word, c ≠ lparen) (hu : Balanced u) (hnil : u ≠ [] ∧ v ≠ [])
    (h₁ : ∀ c ∈ b₁, isBlank c = true) (h₂ : ∀ c ∈ b₂, isBlank c = true)
    (h₃ : ∀ c ∈ b₃, isBlank c = true) (h₄ : ∀ c ∈ b₄, isBlank c = true)
    (hzero : ∀ c ∈ b₁ ++ ((lparen :: (u ++ [rparen])) ++
      (b₂ ++ (word ++ (b₃ ++ ((lparen :: (v ++ [rparen])) ++ b₄))))), c ≠ 0) :
    getOperatType (b₁ ++ ((lparen :: (u ++ [rparen])) ++
      (b₂ ++ (word ++ (b₃ ++ ((lparen :: (v ++ [rparen])) ++ b₄))))))
      = some (word, trim u, trim v) := by
  have hparen : ∀ x : List Byte, Tight (lparen :: (x ++ [rparen])) := fun x =>
    ⟨⟨lparen, _, rfl, by decide⟩, lparen :: x, rparen, rfl, by decide⟩
  have hempty : ∀ c ∈ ([] : List Byte), isBlank c = true := by simp
  have hunwrap : ∀ {x : List Byte}, x ≠ [] → unwrap (lparen :: (x ++ [rparen])) = trim x := by
    intro x hx
    have hlength : 0 < x.length := List.length_pos_of_ne_nil hx
    have hbig : (lparen :: (x ++ [rparen])).length > 2 := by
      simp only [List.length_cons, List.length_append, List.length_nil]
      omega
    unfold unwrap
    rw [if_pos hbig]
    simp
  have hw : trim (b₁ ++ ((lparen :: (u ++ [rparen])) ++
      (b₂ ++ (word ++ (b₃ ++ ((lparen :: (v ++ [rparen])) ++ b₄))))))
      = (lparen :: (u ++ [rparen])) ++ (b₂ ++ (word ++ (b₃ ++ (lparen :: (v ++ [rparen]))))) := by
    have hwhole := (hparen u).append (hparen v) (b₂ ++ (word ++ b₃))
    have hbetween := trim_between hwhole h₁ h₄
    simpa using hbetween
  obtain ⟨k, hpair⟩ := firstPair_paren hu (b₂ ++ (word ++ (b₃ ++ (lparen :: (v ++ [rparen])))))
  have hlen : (lparen :: (u ++ [rparen])).length = u.length + 1 + 1 := by simp
  have hrest : trim (b₂ ++ (word ++ (b₃ ++ (lparen :: (v ++ [rparen])))))
      = word ++ (b₃ ++ (lparen :: (v ++ [rparen]))) := by
    simpa using trim_between (hword.append (hparen v) b₃) h₂ hempty
  have htake : (word ++ (b₃ ++ (lparen :: (v ++ [rparen])))).takeWhile (· ≠ lparen) = word ++ b₃ := by
    have hno : ∀ c ∈ word ++ b₃, c ≠ lparen := List.forall_mem_append.mpr
      ⟨hplain, fun c hc => (not_reserved_bytes (isBlank_not_reserved (h₃ c hc))).2.1⟩
    rw [← List.append_assoc, List.takeWhile_append_of_pos (by simpa using hno)]
    simp
  have hdrop : (word ++ (b₃ ++ (lparen :: (v ++ [rparen])))).drop (word ++ b₃).length
      = lparen :: (v ++ [rparen]) := by
    rw [← List.append_assoc, List.drop_left' rfl]
  have hne : word ++ b₃ ≠ [] := by
    obtain ⟨⟨c, x, rfl, -⟩, -⟩ := hword
    simp
  have htrimword : trim (word ++ b₃) = word := by
    simpa using trim_between hword hempty h₃
  dsimp only [getOperatType]
  rw [cString_eq hzero, hw, hpair]
  dsimp only
  rw [if_neg (by omega), if_neg, List.take_left' hlen, List.drop_left' hlen, hrest, htake, hdrop,
    (hparen u).trim, (hparen v).trim, hunwrap hnil.1, hunwrap hnil.2, if_neg hne, htrimword]
  rw [List.length_append, hlen]
  omega

/-! ## The whole parser -/

/-- Blanks around an expression do not matter. -/
theorem getOperatorWithin_trim {w : List Byte} (hw : ∀ c ∈ w, c ≠ 0) (depth : Nat) :
    getOperatorWithin depth (trim w) = getOperatorWithin depth w := by
  have hsub : ∀ c ∈ trim w, c ≠ 0 := by
    intro c hc
    have hc : c ∈ rtrim w := (List.dropWhile_suffix _).subset hc
    have hc : c ∈ w.reverse := (List.dropWhile_suffix _).subset (List.mem_reverse.mp hc)
    exact hw c (List.mem_reverse.mp hc)
  have htype : getOperatType (trim w) = getOperatType w := by
    dsimp only [getOperatType]
    rw [cString_eq hsub, cString_eq hw, trim_trim]
  cases depth with
  | zero => rfl
  | succ depth => rw [getOperatorWithin, getOperatorWithin, htype]

/-- Every mark stands for its own comparison. -/
theorem comparisonOf_mark (operat : Comparison) : comparisonOf operat.mark = some operat := by
  cases operat <;> decide

/-- **The parser undoes the printer**, and the length of the text is enough as a depth. -/
theorem Printed.getOperatorWithin {tree : Operator} {w : List Byte} (h : Printed tree w) :
    ∀ depth, w.length < depth → Expression.getOperatorWithin depth w = some tree := by
  induction h with
  | @comparison operat name n _ _ _ _ hoperat hname hn h₁ h₂ h₃ h₄ =>
      intro depth hdepth
      obtain ⟨depth, rfl⟩ := Nat.exists_eq_succ_of_ne_zero (Nat.ne_zero_of_lt hdepth)
      have hnumber : atol (digitText n) = n := by
        have hread := @atol_printLong (.ofNat n) [] (by simp)
        rwa [List.append_nil] at hread
      rw [Expression.getOperatorWithin, getOperatType_comparison hoperat hname h₁ h₂ h₃ h₄]
      dsimp only [parameter]
      rw [comparisonOf_mark]
      dsimp only
      rw [hnumber]
  | @and left right u v b₁ b₂ b₃ b₄ hleft hright h₁ h₂ h₃ h₄ ihleft ihright =>
      intro depth hdepth
      obtain ⟨depth, rfl⟩ := Nat.exists_eq_succ_of_ne_zero (Nat.ne_zero_of_lt hdepth)
      have hword : Tight (text ['a', 'n', 'd']) := ⟨⟨_, _, rfl, by decide⟩, [_, _], _, rfl, by decide⟩
      have hzero := (Printed.and hleft hright h₁ h₂ h₃ h₄).ne_zero
      simp only [List.length_append, List.length_cons] at hdepth
      rw [Expression.getOperatorWithin,
        getOperatType_pair hword (forall_mem_of_all (by decide)) hleft.balanced
        ⟨hleft.ne_nil, hright.ne_nil⟩ h₁ h₂ h₃ h₄ hzero]
      dsimp only
      rw [show comparisonOf (text ['a', 'n', 'd']) = none by decide]
      dsimp only
      rw [if_pos rfl, getOperatorWithin_trim hleft.ne_zero, getOperatorWithin_trim hright.ne_zero,
        ihleft depth (by omega), ihright depth (by omega)]
      rfl
  | @or left right u v b₁ b₂ b₃ b₄ hleft hright h₁ h₂ h₃ h₄ ihleft ihright =>
      intro depth hdepth
      obtain ⟨depth, rfl⟩ := Nat.exists_eq_succ_of_ne_zero (Nat.ne_zero_of_lt hdepth)
      have hword : Tight (text ['o', 'r']) := ⟨⟨_, _, rfl, by decide⟩, [_], _, rfl, by decide⟩
      have hzero := (Printed.or hleft hright h₁ h₂ h₃ h₄).ne_zero
      simp only [List.length_append, List.length_cons] at hdepth
      rw [Expression.getOperatorWithin,
        getOperatType_pair hword (forall_mem_of_all (by decide)) hleft.balanced
        ⟨hleft.ne_nil, hright.ne_nil⟩ h₁ h₂ h₃ h₄ hzero]
      dsimp only
      rw [show comparisonOf (text ['o', 'r']) = none by decide]
      dsimp only
      rw [if_neg (by decide), if_pos rfl, getOperatorWithin_trim hleft.ne_zero,
        getOperatorWithin_trim hright.ne_zero, ihleft depth (by omega), ihright depth (by omega)]
      rfl

/-- **What is printed is read back**, with the outer blanks trimmed. -/
theorem Printed.getOperator {tree : Operator} {w : List Byte} (h : Printed tree w) :
    Expression.getOperator w = some tree :=
  h.getOperatorWithin _ (Nat.lt_succ_self _)

end Expression
