import Boss.ExpressionMeaning

/-!
# Filter expressions: parentheses around the whole, and chains

`getOperator` is documented with `(msisdn=:1 and startTime=:2)`, comparisons in a row inside one
pair of parentheses.  The parser serves neither part of this form.  A pair around the whole text is
taken for the left operand, and the right operand is then empty (`getOperatType_parenthesised`).  A
row without parentheses is taken for one comparison: `getOperatMark` names the mark that comes first
in its own order, wherever it stands, and the text up to it is the name of the column
(`getOperatType_weave`).

A row of comparisons is looked at here as plain texts with marks between them (`weave`), the form in
which the search for a mark passes over it.
-/

namespace Expression

open Decimal

/-! ## Parentheses around an expression -/

/-- A text in which every parenthesis has its partner. -/
inductive Paired : List Byte → Prop
  | plain {w : List Byte} (h : ∀ c ∈ w, c ≠ lparen ∧ c ≠ rparen) : Paired w
  | append {u v : List Byte} (hu : Paired u) (hv : Paired v) : Paired (u ++ v)
  | paren {u : List Byte} (hu : Paired u) : Paired (lparen :: (u ++ [rparen]))

/-- What stands in a pair of parentheses is balanced. -/
theorem Paired.balanced {w : List Byte} (h : Paired w) : Balanced w := by
  induction h with
  | plain h => exact .plain h
  | append hu hv ihu ihv => exact ihu.append ihv
  | paren hu ih => exact ih.paren

def parenthesised (e : List Byte) : List Byte := lparen :: (e ++ [rparen])

/-- Both texts are accepted, and their trees evaluate alike. -/
def SameMeaning (e e' : List Byte) : Prop :=
  ∃ tree tree', getOperator e = some tree ∧ getOperator e' = some tree' ∧
    ∀ r pParameters, evaluate r pParameters tree = evaluate r pParameters tree'

/-- The mark that is found is none or that of a comparison. -/
theorem getOperatMark_cases (w : List Byte) :
    getOperatMark w = [] ∨ ∃ operat : Comparison, getOperatMark w = operat.mark := by
  dsimp only [getOperatMark]
  generalize hfind : List.find? _ _ = found
  cases found with
  | none => exact Or.inl rfl
  | some mark =>
      have hmem := List.mem_of_find?_eq_some hfind
      simp only [List.mem_cons, List.not_mem_nil, or_false] at hmem
      rcases hmem with rfl | rfl | rfl | rfl | rfl | rfl | rfl
      · exact Or.inr ⟨.ge, rfl⟩
      · exact Or.inr ⟨.gt, rfl⟩
      · exact Or.inr ⟨.ne, rfl⟩
      · exact Or.inr ⟨.le, rfl⟩
      · exact Or.inr ⟨.lt, rfl⟩
      · exact Or.inr ⟨.eq, rfl⟩
      · exact Or.inr ⟨.neq, rfl⟩

/-- **The pair around the whole** is the left operand, and nothing is left for the right one. -/
theorem getOperatType_parenthesised {e : List Byte} (he : Paired e) (hzero : ∀ c ∈ e, c ≠ 0) :
    ∃ leftSubExpr, getOperatType (parenthesised e) =
      some (trim (getOperatMark leftSubExpr), leftSubExpr, []) := by
  have htight : Tight (parenthesised e) :=
    ⟨⟨lparen, _, rfl, by decide⟩, lparen :: e, rparen, rfl, by decide⟩
  have hstring : cString (parenthesised e) = parenthesised e := by
    refine cString_eq ?_
    unfold parenthesised
    simp only [List.forall_mem_cons, List.forall_mem_append]
    exact ⟨by decide, hzero, by decide, by simp⟩
  have hlength : (parenthesised e).length = e.length + 1 + 1 := by simp [parenthesised]
  obtain ⟨k, hpair⟩ := firstPair_paren he.balanced []
  rw [List.append_nil] at hpair
  have hpair : firstPair (parenthesised e) 0 0 0 = (e.length + 1, k + 1) := hpair
  refine ⟨unwrap (parenthesised e), ?_⟩
  dsimp only [getOperatType]
  rw [hstring, htight.trim, hpair]
  dsimp only
  rw [if_neg (by omega), if_neg (by omega), ← hlength, List.take_length, List.drop_length,
    htight.trim]
  rfl

/-- **No expression is accepted with parentheses around it.** -/
theorem getOperator_parenthesised {e : List Byte} (he : Paired e) (hzero : ∀ c ∈ e, c ≠ 0) :
    getOperator (parenthesised e) = none := by
  obtain ⟨leftSubExpr, htype⟩ := getOperatType_parenthesised he hzero
  unfold getOperator getOperatorWithin
  rw [htype]
  dsimp only
  rcases getOperatMark_cases leftSubExpr with hmark | ⟨operat, hmark⟩
  · rw [hmark]
    rfl
  · rw [hmark, (mark_tight operat).trim, comparisonOf_mark]

/-- An expression and the one in parentheses do not mean the same. -/
theorem not_sameMeaning_parenthesised {e : List Byte} (he : Paired e) (hzero : ∀ c ∈ e, c ≠ 0) :
    ¬ SameMeaning (parenthesised e) e := by
  rintro ⟨tree, -, htree, -⟩
  rw [getOperator_parenthesised he hzero] at htree
  cases htree

/-! ## The search for a mark -/

/-- The place of a mark in the order in which `getOperatMark` looks for them. -/
def Comparison.rank : Comparison → Nat
  | .ge => 0
  | .gt => 1
  | .ne => 2
  | .le => 3
  | .lt => 4
  | .eq => 5
  | .neq => 6

/-- Plain texts with marks between them. -/
def weave : List Byte → List (Comparison × List Byte) → List Byte
  | u, [] => u
  | u, m :: rest => u ++ (m.1.mark ++ weave m.2 rest)

/-- What stands in front of the woven text stays in front of it. -/
theorem weave_append_left (u v : List Byte) (l : List (Comparison × List Byte)) :
    weave (u ++ v) l = u ++ weave v l := by
  cases l with
  | nil => rfl
  | cons m rest => rw [weave, weave, List.append_assoc]

/-- The woven text can be cut at any mark. -/
theorem weave_append (u : List Byte) (pre post : List (Comparison × List Byte))
    (m : Comparison × List Byte) :
    weave u (pre ++ m :: post) = weave u pre ++ (m.1.mark ++ weave m.2 post) := by
  induction pre generalizing u with
  | nil => rfl
  | cons m' pre ih =>
      rw [List.cons_append, weave, weave, ih]
      simp only [List.append_assoc]

/-- The texts between the marks have no reserved bytes, and only the first may be empty. -/
def Plain (l : List (Comparison × List Byte)) : Prop :=
  ∀ m ∈ l, m.2 ≠ [] ∧ ∀ c ∈ m.2, c ∉ reserved

/-- A piece without characters of a mark begins the woven text. -/
theorem weave_head {v : List Byte} (hne : v ≠ []) (hv : ∀ c ∈ v, c ∉ reserved)
    (l : List (Comparison × List Byte)) : ∀ c ∈ (weave v l).head?, c ∉ reserved := by
  obtain ⟨a, x, rfl⟩ := List.exists_cons_of_ne_nil hne
  intro c hc
  have hhead : (weave (a :: x) l).head? = some a := by cases l <;> rfl
  rw [hhead] at hc
  obtain rfl := Option.some.inj hc
  exact hv a List.mem_cons_self

/-- A search passes over a text without the first byte of the pattern. -/
theorem find_skip {c : Byte} {pattern u : List Byte} (hc : c ∉ u) (x : List Byte) :
    find (c :: pattern) (u ++ x) = (find (c :: pattern) x).map (· + u.length) := by
  induction u with
  | nil => simp
  | cons a u ih =>
      have hne : ¬ (c :: pattern).isPrefixOf (a :: (u ++ x)) = true := by
        intro hprefix
        have hhead := (List.cons_prefix_cons.mp (List.isPrefixOf_iff_prefix.mp hprefix)).1
        exact hc (by rw [hhead]; exact List.mem_cons_self)
      have hstep : find (c :: pattern) (a :: (u ++ x)) =
          (find (c :: pattern) (u ++ x)).map (· + 1) := by
        rw [find, if_neg hne]
      rw [List.cons_append, hstep, ih fun hmem => hc (List.mem_cons_of_mem a hmem), Option.map_map]
      rfl

/-- A search for a mark that ends in `=` passes over the same mark without it. -/
theorem find_skip_single {c : Byte} {u x : List Byte} (hc : c ∉ u)
    (hx : ∀ d ∈ x.head?, d ∉ reserved) :
    find [c, '='.toUInt8] (u ++ ([c] ++ x)) =
      (find [c, '='.toUInt8] x).map (· + (u.length + 1)) := by
  have hne : ¬ [c, '='.toUInt8].isPrefixOf (c :: x) = true := by
    intro hprefix
    obtain ⟨rest, hrest⟩ :=
      (List.cons_prefix_cons.mp (List.isPrefixOf_iff_prefix.mp hprefix)).2
    exact hx '='.toUInt8 (by rw [← hrest]; rfl) (by decide)
  have hstep : find [c, '='.toUInt8] (c :: x) = (find [c, '='.toUInt8] x).map (· + 1) := by
    rw [find, if_neg hne]
  rw [find_skip hc, List.singleton_append, hstep, Option.map_map]
  refine congrArg (fun f => Option.map f (find [c, '='.toUInt8] x)) (funext fun i => ?_)
  simp only [Function.comp_apply]
  omega

/-- A mark that is looked for earlier begins with a byte that the other does not have; two pairs
of marks differ by a final `=` only. -/
theorem mark_differs {o m : Comparison} (hrank : o.rank < m.rank) :
    (o = .ge ∧ m = .gt) ∨ (o = .le ∧ m = .lt) ∨
      ∃ c pattern, o.mark = c :: pattern ∧ c ∈ reserved ∧ c ∉ m.mark := by
  have hhead : (o = .ge ∧ m = .gt) ∨ (o = .le ∧ m = .lt) ∨
      (o.mark.headD 0 ∈ reserved ∧ o.mark.headD 0 ∉ m.mark) := by
    cases o <;> cases m <;> revert hrank <;> decide
  rcases hhead with hge | hle | ⟨hreserved, hmark⟩
  · exact Or.inl hge
  · exact Or.inr (Or.inl hle)
  · exact Or.inr (Or.inr ⟨_, o.mark.tail, by cases o <;> rfl, hreserved, hmark⟩)

/-- A search for a mark passes over a mark that is looked for later. -/
theorem find_mark_skip {o m : Comparison} (hrank : o.rank < m.rank) {u x : List Byte}
    (hu : ∀ c ∈ u, c ∉ reserved) (hx : ∀ c ∈ x.head?, c ∉ reserved) :
    find o.mark (u ++ (m.mark ++ x)) =
      (find o.mark x).map (· + (u.length + m.mark.length)) := by
  rcases mark_differs hrank with ⟨rfl, rfl⟩ | ⟨rfl, rfl⟩ | ⟨c, pattern, ho, hreserved, hmark⟩
  · exact find_skip_single (fun hmem => hu _ hmem (by decide)) hx
  · exact find_skip_single (fun hmem => hu _ hmem (by decide)) hx
  · have hnot : c ∉ u ++ m.mark := by
      rw [List.mem_append]
      rintro (hmem | hmem)
      · exact hu c hmem hreserved
      · exact hmark hmem
    rw [ho, ← List.append_assoc, find_skip hnot, List.length_append]

/-- A mark that is looked for before all marks of a row is not found in it. -/
theorem find_mark_none {o : Comparison} (ho : o ≠ .neq) {u : List Byte}
    {l : List (Comparison × List Byte)} (hu : ∀ c ∈ u, c ∉ reserved) (hl : Plain l)
    (hrank : ∀ m ∈ l, o.rank < m.1.rank) : find o.mark (weave u l) = none := by
  induction l generalizing u with
  | nil =>
      have hhead : o.mark.headD 0 ∈ o.mark ∧ o.mark.headD 0 ∈ reserved := by
        cases o with
        | neq => exact absurd rfl ho
        | _ => decide
      have hfalse := find_isSome_false hhead.1 fun hmem => hu _ hmem hhead.2
      simpa [weave] using hfalse
  | cons m rest ih =>
      obtain ⟨hne, hplain⟩ := hl m List.mem_cons_self
      rw [weave, find_mark_skip (hrank m List.mem_cons_self) hu (weave_head hne hplain rest),
        ih hplain (fun m' hm' => hl m' (List.mem_cons_of_mem m hm'))
          fun m' hm' => hrank m' (List.mem_cons_of_mem m hm')]
      rfl

/-- The word `neq` is found where it first stands. -/
theorem find_neq_first {u : List Byte} (hu : ¬ Comparison.neq.mark <:+: u) (x : List Byte) :
    find Comparison.neq.mark (u ++ (Comparison.neq.mark ++ x)) = some u.length := by
  induction u with
  | nil => rfl
  | cons a u ih =>
      have hne : ¬ Comparison.neq.mark.isPrefixOf (a :: (u ++ (Comparison.neq.mark ++ x))) = true := by
        intro hprefix
        obtain ⟨rest, hrest⟩ := List.isPrefixOf_iff_prefix.mp hprefix
        -- a word that begins in front of the mark would end there
        match u with
        | [] =>
            have hsecond : 'e'.toUInt8 = 'n'.toUInt8 := congrArg (fun l => (l.drop 1).headD 0) hrest
            exact absurd hsecond (by decide)
        | [b] =>
            have hthird : 'q'.toUInt8 = 'n'.toUInt8 := congrArg (fun l => (l.drop 2).headD 0) hrest
            exact absurd hthird (by decide)
        | b :: c :: u =>
            have hthree := congrArg (List.take 3) hrest
            have hword : Comparison.neq.mark = [a, b, c] := hthree
            exact hu ⟨[], u, by rw [hword]; rfl⟩
      have hstep : find Comparison.neq.mark (a :: (u ++ (Comparison.neq.mark ++ x))) =
          (find Comparison.neq.mark (u ++ (Comparison.neq.mark ++ x))).map (· + 1) := by
        rw [find, if_neg hne]
      rw [List.cons_append, hstep, ih fun hin => hu (hin.trans (List.suffix_cons a u).isInfix)]
      rfl

/-- A row with its leading mark: marks in front of it are looked for later, those behind it not
earlier. -/
structure Leading (pre : List (Comparison × List Byte)) (t : Comparison)
    (post : List (Comparison × List Byte)) : Prop where
  front : ∀ m ∈ pre, t.rank < m.1.rank
  behind : ∀ m ∈ post, t.rank ≤ m.1.rank

/-- Among several marks one is found first. -/
theorem exists_leading {l : List (Comparison × List Byte)} (hne : l ≠ []) :
    ∃ pre t v post, l = pre ++ (t, v) :: post ∧ Leading pre t post := by
  induction l with
  | nil => exact absurd rfl hne
  | cons m rest ih =>
      by_cases hrest : rest = []
      · exact ⟨[], m.1, m.2, [], by rw [hrest]; rfl, by simp, by simp⟩
      · obtain ⟨pre, t, v, post, rfl, hleading⟩ := ih hrest
        by_cases hle : m.1.rank ≤ t.rank
        · refine ⟨[], m.1, m.2, pre ++ (t, v) :: post, rfl, by simp, fun m' hm' => ?_⟩
          rcases List.mem_append.mp hm' with hm' | hm'
          · exact hle.trans (hleading.front m' hm').le
          · rcases List.mem_cons.mp hm' with rfl | hm'
            · exact hle
            · exact hle.trans (hleading.behind m' hm')
        · refine ⟨m :: pre, t, v, post, rfl, fun m' hm' => ?_, hleading.behind⟩
          rcases List.mem_cons.mp hm' with rfl | hm'
          · exact not_le.mp hle
          · exact hleading.front m' hm'

variable {u v : List Byte} {pre post : List (Comparison × List Byte)} {t : Comparison}

/-- The leading mark is found at its own place. -/
theorem find_mark_at (hleading : Leading pre t post) (hu : ∀ c ∈ u, c ∉ reserved)
    (hword : t = .neq → ¬ Comparison.neq.mark <:+: u) (hpre : Plain pre) (x : List Byte) :
    find t.mark (weave u pre ++ (t.mark ++ x)) = some (weave u pre).length := by
  have hfront := hleading.front
  clear hleading
  induction pre generalizing u with
  | nil =>
      cases t with
      | neq => exact find_neq_first (hword rfl) x
      | _ => exact find_first fun hmem => hu _ hmem (by decide)
  | cons m pre ih =>
      obtain ⟨hne, hplain⟩ := hpre m List.mem_cons_self
      have hrank := hfront m List.mem_cons_self
      have hhead : ∀ c ∈ (weave m.2 pre ++ (t.mark ++ x)).head?, c ∉ reserved := by
        have hwoven : weave m.2 pre ++ (t.mark ++ x) = weave m.2 (pre ++ [(t, x)]) :=
          (weave_append m.2 pre [] (t, x)).symm
        rw [hwoven]
        exact weave_head hne hplain _
      have ht : t ≠ .neq := by
        rintro rfl
        exact absurd hrank (by cases m.1 <;> decide)
      have hrest := ih hplain (fun h => absurd h ht)
        (fun m' hm' => hpre m' (List.mem_cons_of_mem m hm'))
        fun m' hm' => hfront m' (List.mem_cons_of_mem m hm')
      rw [weave, List.append_assoc, List.append_assoc, find_mark_skip hrank hu hhead, hrest]
      simp only [Option.map_some, List.length_append, Option.some.injEq]
      omega

/-- The marks in the order in which they are looked for. -/
def marksInOrder : List Comparison := [.ge, .gt, .ne, .le, .lt, .eq, .neq]

/-- `getOperatMark` names the first mark of its order that is found. -/
theorem getOperatMark_first {w : List Byte} (hfound : (find t.mark w).isSome = true)
    (hnone : ∀ o : Comparison, o.rank < t.rank → find o.mark w = none) :
    getOperatMark w = t.mark := by
  have hfirst : marksInOrder.find? (fun o => (find o.mark w).isSome) = some t := by
    refine List.find?_eq_some_iff_append.mpr
      ⟨hfound, marksInOrder.take t.rank, marksInOrder.drop (t.rank + 1), by cases t <;> rfl,
        fun o ho => ?_⟩
    have hrank : o.rank < t.rank := by
      cases t <;> cases o <;> revert ho <;> decide
    rw [hnone o hrank]
    rfl
  have horder : getOperatMark w = (((marksInOrder.map Comparison.mark).find? fun mark =>
      (find mark w).isSome).getD []) := rfl
  rw [horder, List.find?_map]
  exact congrArg (fun found => (found.map Comparison.mark).getD []) hfirst

/-- **The mark of a row** is its leading one. -/
theorem getOperatMark_weave (hleading : Leading pre t post) (hu : ∀ c ∈ u, c ∉ reserved)
    (hword : ¬ Comparison.neq.mark <:+: u) (hplain : Plain (pre ++ (t, v) :: post)) :
    getOperatMark (weave u (pre ++ (t, v) :: post)) = t.mark ∧
      find t.mark (weave u (pre ++ (t, v) :: post)) = some (weave u pre).length := by
  have hfind : find t.mark (weave u (pre ++ (t, v) :: post)) = some (weave u pre).length := by
    rw [weave_append]
    exact find_mark_at hleading hu (fun _ => hword)
      (fun m hm => hplain m (List.mem_append_left _ hm)) _
  refine ⟨getOperatMark_first (by rw [hfind]; rfl) fun o ho => ?_, hfind⟩
  have hneq : o ≠ .neq := by
    rintro rfl
    exact absurd ho (by cases t <;> decide)
  refine find_mark_none hneq hu hplain fun m hm => ?_
  rcases List.mem_append.mp hm with hm | hm
  · exact ho.trans (hleading.front m hm)
  · rcases List.mem_cons.mp hm with rfl | hm
    · exact ho
    · exact ho.trans_le (hleading.behind m hm)

/-- A mark has neither zeros nor parentheses. -/
theorem mark_plain (operat : Comparison) : ∀ c ∈ operat.mark, c ≠ 0 ∧ c ≠ lparen ∧ c ≠ rparen := by
  cases operat <;> exact forall_mem_of_all (by decide)

/-- A row has no parentheses and no end of a C string. -/
theorem weave_bytes {l : List (Comparison × List Byte)} (hu : ∀ c ∈ u, c ∉ reserved)
    (hl : Plain l) : ∀ c ∈ weave u l, c ≠ 0 ∧ c ≠ lparen ∧ c ≠ rparen := by
  induction l generalizing u with
  | nil => exact fun c hc => not_reserved_bytes (hu c hc)
  | cons m rest ih =>
      rw [weave]
      simp only [List.forall_mem_append]
      exact ⟨fun c hc => not_reserved_bytes (hu c hc), mark_plain m.1,
        ih (hl m List.mem_cons_self).2 fun m' hm' => hl m' (List.mem_cons_of_mem m hm')⟩

/-- **A row without parentheses is taken for one comparison**, by its leading mark. -/
theorem getOperatType_weave (hleading : Leading pre t post) (hu : ∀ c ∈ u, c ∉ reserved)
    (hword : ¬ Comparison.neq.mark <:+: u) (hplain : Plain (pre ++ (t, v) :: post))
    (htight : Tight (weave u (pre ++ (t, v) :: post))) {b b' : List Byte}
    (hb : ∀ c ∈ b, isBlank c = true) (hb' : ∀ c ∈ b', isBlank c = true) :
    getOperatType (b ++ (weave u (pre ++ (t, v) :: post) ++ b')) =
      some (t.mark, trim (weave u pre), trim (weave v post)) := by
  have hbytes := weave_bytes hu hplain
  have hstring : ∀ c ∈ b ++ (weave u (pre ++ (t, v) :: post) ++ b'), c ≠ 0 := by
    simp only [List.forall_mem_append]
    exact ⟨fun c hc => (not_reserved_bytes (isBlank_not_reserved (hb c hc))).1,
      fun c hc => (hbytes c hc).1,
      fun c hc => (not_reserved_bytes (isBlank_not_reserved (hb' c hc))).1⟩
  obtain ⟨hmark, hfind⟩ := getOperatMark_weave hleading hu hword hplain
  have hdrop : (weave u (pre ++ (t, v) :: post)).drop ((weave u pre).length + t.mark.length) =
      weave v post := by
    rw [weave_append, ← List.append_assoc, List.drop_left' (by simp)]
  have htake : (weave u (pre ++ (t, v) :: post)).take (weave u pre).length = weave u pre := by
    rw [weave_append, List.take_left' rfl]
  dsimp only [getOperatType]
  rw [cString_eq hstring, trim_between htight hb hb', firstPair_plain fun c hc => (hbytes c hc).2,
    if_pos rfl, hmark, hfind, Option.getD_some, htake, hdrop]

/-! ## Chains -/

/-- Without the mark of a comparison, in either case of letters. -/
def Unmarked (name : List Byte) : Prop :=
  ∀ operat : Comparison, ¬ operat.mark <:+: name.map toLower

/-- A comparison as it is written, with the blanks around its parts. -/
structure Clause where
  operat : Comparison
  name : List Byte
  num : Nat
  b₁ : List Byte
  b₂ : List Byte
  b₃ : List Byte
  b₄ : List Byte
  name_ne : name ≠ []
  name_column : ColumnName name
  name_unmarked : Unmarked name
  num_lt : num < 2 ^ 31
  blank : ∀ c ∈ b₁ ++ (b₂ ++ (b₃ ++ b₄)), isBlank c = true

namespace Clause

variable (c : Clause)

def text : List Byte :=
  c.b₁ ++ (c.name ++ (c.b₂ ++ (c.operat.mark ++ (c.b₃ ++ (parameter c.num ++ c.b₄)))))

def tree : Operator := .comparison c.operat c.name c.num

/-- The four gaps of a clause are blanks. -/
theorem blanks : (∀ x ∈ c.b₁, isBlank x = true) ∧ (∀ x ∈ c.b₂, isBlank x = true) ∧
    (∀ x ∈ c.b₃, isBlank x = true) ∧ ∀ x ∈ c.b₄, isBlank x = true := by
  have h := c.blank
  simpa only [List.forall_mem_append] using h

/-- The name of a clause begins and ends without a blank. -/
theorem name_tight : Tight c.name := by
  rcases trim_eq_nil_or_tight c.name with hnil | htight
  · exact absurd (c.name_column.2.symm.trans hnil) c.name_ne
  · rwa [c.name_column.2] at htight

end Clause

/-- The words that join comparisons. -/
inductive Connective
  | and
  | or
  deriving DecidableEq, Repr

namespace Connective

def word : Connective → List Byte
  | .and => Expression.text ['a', 'n', 'd']
  | .or => Expression.text ['o', 'r']

def join : Connective → Operator → Operator → Operator
  | .and => .and
  | .or => .or

/-- The value that leaves the decision to the other operand. -/
def neutral : Connective → Bool
  | .and => true
  | .or => false

end Connective

/-- Comparisons in a row, without parentheses. -/
def chainText (k : Connective) (c : Clause) (rest : List Clause) : List Byte :=
  c.text ++ rest.flatMap fun c => k.word ++ c.text

/-- The tree of their conjunction or disjunction. -/
def joined (k : Connective) : Clause → List Clause → Operator
  | c, [] => c.tree
  | c, c' :: rest => k.join c.tree (joined k c' rest)

/-- The marks of a chain, each with the text behind it. -/
def pieces (k : Connective) : Clause → List Clause → List (Comparison × List Byte)
  | c, [] => [(c.operat, c.b₃ ++ parameter c.num)]
  | c, c' :: rest =>
      (c.operat, c.b₃ ++ (parameter c.num ++ (c.b₄ ++ (k.word ++ (c'.b₁ ++ (c'.name ++ c'.b₂)))))) ::
        pieces k c' rest

variable {k : Connective} {c : Clause} {rest : List Clause}

/-- The marks of the pieces are those of the clauses and of the connective. -/
theorem pieces_operat (k : Connective) (c : Clause) (rest : List Clause) :
    (pieces k c rest).map Prod.fst = (c :: rest).map Clause.operat := by
  induction rest generalizing c with
  | nil => rfl
  | cons c' rest ih => rw [pieces, List.map_cons, ih, List.map_cons, List.map_cons, List.map_cons]

/-- The text of a chain is its row of marks between blanks. -/
theorem chainText_eq (k : Connective) (c : Clause) (rest : List Clause) :
    ∃ b, (∀ x ∈ b, isBlank x = true) ∧
      chainText k c rest = c.b₁ ++ (weave (c.name ++ c.b₂) (pieces k c rest) ++ b) := by
  induction rest generalizing c with
  | nil =>
      refine ⟨c.b₄, c.blanks.2.2.2, ?_⟩
      simp [chainText, Clause.text, pieces, weave]
  | cons c' rest ih =>
      obtain ⟨b, hb, htext⟩ := ih c'
      refine ⟨b, hb, ?_⟩
      have hcons : chainText k c (c' :: rest) = c.text ++ (k.word ++ chainText k c' rest) := by
        simp [chainText]
      rw [hcons, htext, pieces, weave]
      simp only [weave_append_left, Clause.text, List.append_assoc]

/-- The pieces of a chain have no parentheses. -/
theorem pieces_plain (k : Connective) (c : Clause) (rest : List Clause) :
    Plain (pieces k c rest) := by
  have hword : ∀ x ∈ k.word, x ∉ reserved := by
    cases k <;> exact forall_mem_of_all (by decide)
  have hblank : ∀ {b : List Byte}, (∀ x ∈ b, isBlank x = true) → ∀ x ∈ b, x ∉ reserved :=
    fun hb x hx => isBlank_not_reserved (hb x hx)
  induction rest generalizing c with
  | nil =>
      intro m hm
      rw [List.mem_singleton.mp hm]
      refine ⟨by simp [parameter], ?_⟩
      simp only [List.forall_mem_append]
      exact ⟨hblank c.blanks.2.2.1, parameter_not_reserved c.num⟩
  | cons c' rest ih =>
      intro m hm
      rcases List.mem_cons.mp hm with rfl | hm
      · refine ⟨by simp [parameter], ?_⟩
        simp only [List.forall_mem_append]
        exact ⟨hblank c.blanks.2.2.1, parameter_not_reserved c.num, hblank c.blanks.2.2.2, hword,
          hblank c'.blanks.1, c'.name_column.1, hblank c'.blanks.2.1⟩
      · exact ih c' m hm

/-- A row of a chain ends with a parameter. -/
theorem weave_pieces_end (u : List Byte) (k : Connective) (c : Clause) (rest : List Clause) :
    ∃ x n, weave u (pieces k c rest) = u ++ (x ++ parameter n) := by
  induction rest generalizing u c with
  | nil => exact ⟨c.operat.mark ++ c.b₃, c.num, by simp [pieces, weave]⟩
  | cons c' rest ih =>
      have hstep : ∀ v, ∃ x n, u ++ (c.operat.mark ++ weave v (pieces k c' rest)) =
          u ++ (x ++ parameter n) := by
        intro v
        obtain ⟨x, n, hrest⟩ := ih v c'
        exact ⟨c.operat.mark ++ (v ++ x), n, by rw [hrest]; simp only [List.append_assoc]⟩
      exact hstep _

/-- Behind each mark stands a parameter, and its digits end there. -/
theorem pieces_parameter (k : Connective) (c : Clause) (rest : List Clause) :
    ∃ y l, pieces k c rest = (c.operat, c.b₃ ++ (parameter c.num ++ y)) :: l ∧
      ∀ d ∈ y.head?, isDigit d = false := by
  cases rest with
  | nil => exact ⟨[], [], by simp [pieces], by simp⟩
  | cons c' rest =>
      refine ⟨_, _, rfl, fun d hd => ?_⟩
      cases hb : c.b₄ with
      | nil =>
          rw [hb] at hd
          cases k with
          | and =>
              obtain rfl : 'a'.toUInt8 = d := Option.some.inj hd
              decide
          | or =>
              obtain rfl : 'o'.toUInt8 = d := Option.some.inj hd
              decide
      | cons x b =>
          rw [hb] at hd
          obtain rfl : x = d := Option.some.inj hd
          have hblank : isBlank x = true := c.blanks.2.2.2 x (by rw [hb]; exact List.mem_cons_self)
          cases hdigit : isDigit x with
          | false => rfl
          | true =>
              rw [isDigit_not_blank hdigit] at hblank
              cases hblank

/-- Blanks in front of a parameter go, and its digits stay. -/
theorem trim_parameter {b : List Byte} (hb : ∀ x ∈ b, isBlank x = true) (n : Nat) (y : List Byte) :
    trim (b ++ (parameter n ++ y)) = parameter n ++ rtrim y := by
  rw [trim_append (parameter_tight n), ltrim_blanks hb, List.nil_append]

/-- Trimming from the right leaves a prefix. -/
theorem rtrim_prefix (y : List Byte) : rtrim y <+: y := by
  have hsuffix := List.dropWhile_suffix isBlank (l := y.reverse)
  simpa [rtrim] using List.reverse_prefix.mpr hsuffix

/-- A piece that begins with no digit does not lengthen the number before it. -/
theorem weave_head_digit {y : List Byte} (hy : ∀ d ∈ y.head?, isDigit d = false)
    (l : List (Comparison × List Byte)) : ∀ d ∈ (weave y l).head?, isDigit d = false := by
  cases y with
  | cons a x =>
      have hhead : (weave (a :: x) l).head? = some a := by cases l <;> rfl
      rwa [hhead]
  | nil =>
      cases l with
      | nil => exact hy
      | cons m rest =>
          obtain ⟨x, z, hmark, hx⟩ : ∃ x z, m.1.mark = x :: z ∧ isDigit x = false := by
            cases m.1 <;> exact ⟨_, _, rfl, by decide⟩
          rw [weave, hmark]
          intro d hd
          obtain rfl := Option.some.inj hd
          exact hx

/-- The number of a parameter is read up to what stands behind it. -/
theorem atol_parameter (n : Nat) {y : List Byte} (hy : ∀ d ∈ y.head?, isDigit d = false) :
    atol (digitText n ++ rtrim y) = n := by
  refine atol_printLong (.ofNat n) fun d hd => hy d ?_
  obtain ⟨z, hz⟩ := rtrim_prefix y
  cases hr : rtrim y with
  | nil =>
      rw [hr] at hd
      cases hd
  | cons a x =>
      rw [hr] at hd hz
      rw [← hz]
      exact hd

/-- A pattern without blanks does not end among blanks. -/
theorem infix_of_infix_blanks {pattern name b : List Byte}
    (hpattern : ∀ x ∈ pattern, isBlank x = false)
    (hb : ∀ x ∈ b, isBlank x = true) (h : pattern <:+: name ++ b) : pattern <:+: name := by
  induction b using List.reverseRecOn with
  | nil => simpa using h
  | append_singleton b a ih =>
      rw [List.forall_mem_append] at hb
      rw [← List.append_assoc, List.infix_concat_iff] at h
      rcases h with hend | hin
      · rcases List.suffix_concat_iff.mp hend with rfl | ⟨t, rfl, -⟩
        · exact List.nil_infix
        · have hblank := hb.2 a List.mem_cons_self
          rw [hpattern a (by simp)] at hblank
          cases hblank
      · exact ih hb.1 hin

/-- The name of a comparison and the blanks behind it do not have the word `neq`. -/
theorem Clause.head_unmarked (c : Clause) : ¬ Comparison.neq.mark <:+: c.name ++ c.b₂ := by
  intro hin
  have hname := infix_of_infix_blanks (forall_mem_of_all (by decide)) c.blanks.2.1 hin
  exact c.name_unmarked .neq (hname.map toLower)

/-- The name of a clause has no character of a mark. -/
theorem Clause.head_plain (c : Clause) : ∀ x ∈ c.name ++ c.b₂, x ∉ reserved :=
  List.forall_mem_append.mpr
    ⟨c.name_column.1, fun x hx => isBlank_not_reserved (c.blanks.2.1 x hx)⟩

/-- **A chain is taken for one comparison**: `getOperatType` splits it at its leading mark. -/
theorem getOperatType_chain (k : Connective) (c : Clause) (rest : List Clause)
    {pre post : List (Comparison × List Byte)} {t : Comparison} {v : List Byte}
    (hpieces : pieces k c rest = pre ++ (t, v) :: post) (hleading : Leading pre t post) :
    getOperatType (chainText k c rest) =
      some (t.mark, trim (weave (c.name ++ c.b₂) pre), trim (weave v post)) := by
  obtain ⟨b, hb, htext⟩ := chainText_eq k c rest
  obtain ⟨x, n, hend⟩ := weave_pieces_end (c.name ++ c.b₂) k c rest
  have htight : Tight (weave (c.name ++ c.b₂) (pieces k c rest)) := by
    rw [hend, List.append_assoc, ← List.append_assoc c.b₂]
    exact c.name_tight.append (parameter_tight n) _
  have hplain := pieces_plain k c rest
  rw [htext]
  rw [hpieces] at htight hplain ⊢
  exact getOperatType_weave hleading c.head_plain c.head_unmarked hplain htight c.blanks.1 hb

/-- A text that is split at a mark is accepted as a comparison. -/
theorem getOperator_mark {w leftSubExpr digits : List Byte} {operat : Comparison} {x : Byte}
    (htype : getOperatType w = some (operat.mark, leftSubExpr, x :: digits)) :
    getOperator w = some (.comparison operat leftSubExpr (atol digits)) := by
  unfold getOperator getOperatorWithin
  rw [htype]
  dsimp only
  rw [comparisonOf_mark]

/-- Every piece of a chain is a parameter between blanks, and what follows it. -/
theorem parameter_of_mem {m : Comparison × List Byte} (hm : m ∈ pieces k c rest) :
    ∃ b n y, (∀ x ∈ b, isBlank x = true) ∧ m.2 = b ++ (parameter n ++ y) := by
  induction rest generalizing c with
  | nil =>
      rw [List.mem_singleton.mp hm]
      exact ⟨c.b₃, c.num, [], c.blanks.2.2.1, by simp⟩
  | cons c' rest ih =>
      rcases List.mem_cons.mp hm with rfl | hm
      · exact ⟨c.b₃, c.num, _, c.blanks.2.2.1, rfl⟩
      · exact ih hm

/-- No mark of the chain is looked for before that of its first comparison. -/
def FirstLeads (c : Clause) (rest : List Clause) : Prop :=
  ∀ c' ∈ rest, c.operat.rank ≤ c'.operat.rank

instance (c : Clause) (rest : List Clause) : Decidable (FirstLeads c rest) :=
  inferInstanceAs (Decidable (∀ c' ∈ rest, c.operat.rank ≤ c'.operat.rank))

/-- A chain whose first comparison leads is taken for this comparison. -/
theorem getOperator_chain_first (k : Connective) (hfirst : FirstLeads c rest) :
    getOperator (chainText k c rest) = some c.tree := by
  obtain ⟨y, l, hpieces, hy⟩ := pieces_parameter k c rest
  have hleading : Leading [] c.operat l := by
    refine ⟨by simp, fun m hm => ?_⟩
    have hoperat := pieces_operat k c rest
    rw [hpieces, List.map_cons, List.map_cons] at hoperat
    have hmem : m.1 ∈ rest.map Clause.operat := by
      rw [← (List.cons.inj hoperat).2]
      exact List.mem_map_of_mem hm
    obtain ⟨c', hc', hm'⟩ := List.mem_map.mp hmem
    rw [← hm']
    exact hfirst c' hc'
  have htype := getOperatType_chain k c rest hpieces hleading
  have hname : trim (weave (c.name ++ c.b₂) []) = c.name := by
    have hbetween := @trim_between c.name [] c.b₂ c.name_tight (by simp) c.blanks.2.1
    simpa [weave] using hbetween
  rw [hname, weave_append_left, weave_append_left, trim_parameter c.blanks.2.2.1] at htype
  have hparsed : getOperator (chainText k c rest) =
      some (.comparison c.operat c.name (atol (digitText c.num ++ rtrim (weave y l)))) :=
    getOperator_mark htype
  rw [hparsed, atol_parameter c.num (weave_head_digit hy l)]
  rfl

/-- Any other chain is taken for a comparison of a column whose name has a mark. -/
theorem getOperator_chain_later (k : Connective) (hlater : ¬ FirstLeads c rest) :
    ∃ operat name num, getOperator (chainText k c rest) = some (.comparison operat name num) ∧
      c.operat.mark <:+: name := by
  have hne : pieces k c rest ≠ [] := by
    cases rest <;> simp [pieces]
  obtain ⟨pre, t, v, post, hpieces, hleading⟩ := exists_leading hne
  have htype := getOperatType_chain k c rest hpieces hleading
  have hoperat := pieces_operat k c rest
  rw [hpieces] at hoperat
  cases pre with
  | nil =>
      -- the leading mark is the first one
      obtain ⟨hfirst, hbehind⟩ := List.cons.inj hoperat
      refine absurd (fun c' hc' => ?_) hlater
      have hmem : c'.operat ∈ post.map Prod.fst := by
        rw [hbehind]
        exact List.mem_map_of_mem hc'
      obtain ⟨m, hm, hm'⟩ := List.mem_map.mp hmem
      have hle := hleading.behind m hm
      rwa [hm', show t = c.operat from hfirst] at hle
  | cons m pre =>
      obtain ⟨b, n, y, hb, hv⟩ := parameter_of_mem (m := (t, v)) (by rw [hpieces]; simp)
      have hright : trim (weave v post) = parameter n ++ rtrim (weave y post) := by
        rw [show v = b ++ (parameter n ++ y) from hv, weave_append_left, weave_append_left,
          trim_parameter hb]
      rw [hright] at htype
      refine ⟨t, _, _, getOperator_mark htype, ?_⟩
      rw [← show m.1 = c.operat from (List.cons.inj hoperat).1, weave, trim_append (mark_tight m.1)]
      exact List.infix_append' _ _ _

/-! ## What a chain evaluates to -/

variable {r : RecordConvert} {pParameters : List (List Byte)} {value : Bool}

/-- A connective asks its right side when the left one does not decide. -/
theorem evaluate_join (k : Connective) (left right : Operator) :
    evaluate r pParameters (k.join left right) =
      (evaluate r pParameters left).bind fun b =>
        if b = k.neutral then evaluate r pParameters right else some b := by
  cases k with
  | and =>
      refine congrArg (Option.bind _) (funext fun b => ?_)
      cases b <;> rfl
  | or =>
      refine congrArg (Option.bind _) (funext fun b => ?_)
      cases b <;> rfl

/-- All comparisons have the neutral value when the whole has it. -/
theorem evaluate_joined_neutral (k : Connective) (c : Clause) (rest : List Clause) :
    evaluate r pParameters (joined k c rest) = some k.neutral ↔
      ∀ c' ∈ c :: rest, evaluate r pParameters c'.tree = some k.neutral := by
  induction rest generalizing c with
  | nil => simp [joined]
  | cons c' rest ih =>
      rw [joined, evaluate_join, List.forall_mem_cons, ← ih c']
      cases hfirst : evaluate r pParameters c.tree with
      | none => simp
      | some b =>
          rw [Option.bind_some]
          by_cases hb : b = k.neutral
          · rw [if_pos hb, hb]
            simp
          · rw [if_neg hb]
            simp [hb]

/-- The first comparison alone has the value of the whole exactly when it decides it or the others
do not. -/
theorem evaluate_first_iff (hvalue : evaluate r pParameters (joined k c rest) = some value) :
    evaluate r pParameters c.tree = some value ↔
      (evaluate r pParameters c.tree = some k.neutral →
        ∀ c' ∈ rest, evaluate r pParameters c'.tree = some k.neutral) := by
  have hneutral := @evaluate_joined_neutral r pParameters k c rest
  rw [List.forall_mem_cons, hvalue] at hneutral
  cases rest with
  | nil =>
      rw [joined] at hvalue
      simp [hvalue]
  | cons c' rest =>
      rw [joined, evaluate_join] at hvalue
      obtain ⟨b, hb, hrest⟩ := Option.bind_eq_some_iff.mp hvalue
      rw [hb] at hneutral ⊢
      by_cases hneq : b = k.neutral
      · rw [hneq] at hneutral ⊢
        simp only [true_and] at hneutral
        rw [eq_comm, hneutral]
        simp
      · rw [if_neg hneq] at hrest
        obtain rfl := Option.some.inj hrest
        simp [hneq]

/-- A mark is the same in lower case. -/
theorem toLower_mark (operat : Comparison) : operat.mark.map toLower = operat.mark := by
  cases operat <;> decide

/-- A table without marks in the names of its columns has no column for a name with one. -/
theorem column_of_mark (hcolumns : ∀ col ∈ r.m_columnList, Unmarked col.m_name)
    {operat : Comparison} {name : List Byte} (hmark : operat.mark <:+: name) :
    r.column name = none := by
  refine List.find?_eq_none.mpr fun col hcol hsame => ?_
  have hlower : col.m_name.map toLower = name.map toLower := of_decide_eq_true hsame
  refine hcolumns col hcol operat ?_
  rw [hlower, ← toLower_mark operat]
  exact hmark.map toLower

/-- A text evaluates to what its comparisons evaluate to together. -/
def MeansAll (w : List Byte) (k : Connective) (c : Clause) (rest : List Clause) (r : RecordConvert)
    (pParameters : List (List Byte)) : Prop :=
  ∃ tree, getOperator w = some tree ∧
    evaluate r pParameters tree = evaluate r pParameters (joined k c rest)

/-- **A chain** means all its comparisons exactly when the first one leads and its value is that of
the whole. -/
theorem meansAll_chain_iff (hcolumns : ∀ col ∈ r.m_columnList, Unmarked col.m_name)
    (hvalue : evaluate r pParameters (joined k c rest) = some value) :
    MeansAll (chainText k c rest) k c rest r pParameters ↔
      FirstLeads c rest ∧ (evaluate r pParameters c.tree = some k.neutral →
        ∀ c' ∈ rest, evaluate r pParameters c'.tree = some k.neutral) := by
  unfold MeansAll
  rw [hvalue]
  by_cases hfirst : FirstLeads c rest
  · rw [getOperator_chain_first k hfirst, ← evaluate_first_iff hvalue]
    simp [hfirst]
  · obtain ⟨operat, name, num, hparsed, hmark⟩ := getOperator_chain_later k hfirst
    have hnone : evaluate r pParameters (.comparison operat name num) = none := by
      rw [evaluate, RecordConvert.getColumnValue, column_of_mark hcolumns hmark]
      rfl
    rw [hparsed]
    simp [hfirst, hnone]

/-- A chain has no parentheses and is not cut short. -/
theorem chainText_bytes (k : Connective) (c : Clause) (rest : List Clause) :
    ∀ x ∈ chainText k c rest, x ≠ 0 ∧ x ≠ lparen ∧ x ≠ rparen := by
  obtain ⟨b, hb, htext⟩ := chainText_eq k c rest
  rw [htext]
  simp only [List.forall_mem_append]
  exact ⟨fun x hx => not_reserved_bytes (isBlank_not_reserved (c.blanks.1 x hx)),
    weave_bytes c.head_plain (pieces_plain k c rest),
    fun x hx => not_reserved_bytes (isBlank_not_reserved (hb x hx))⟩

/-- **Parentheses and chains change the meaning.**  No expression has the same meaning with a pair
of parentheses around it; the documented form, a chain inside such a pair, is never accepted; and
a chain without parentheses evaluates to all its comparisons exactly when its first comparison has
the leading mark and decides the whole. -/
theorem parentheses_and_chains (k : Connective) (c : Clause) (rest : List Clause) :
    (∀ e, Paired e → (∀ x ∈ e, x ≠ 0) → ¬ SameMeaning (parenthesised e) e) ∧
    (∀ r pParameters, ¬ MeansAll (parenthesised (chainText k c rest)) k c rest r pParameters) ∧
    ∀ (r : RecordConvert) (pParameters : List (List Byte)) (value : Bool),
      (∀ col ∈ r.m_columnList, Unmarked col.m_name) →
      evaluate r pParameters (joined k c rest) = some value →
      (MeansAll (chainText k c rest) k c rest r pParameters ↔
        FirstLeads c rest ∧ (evaluate r pParameters c.tree = some k.neutral →
          ∀ c' ∈ rest, evaluate r pParameters c'.tree = some k.neutral)) := by
  refine ⟨fun e he hzero => not_sameMeaning_parenthesised he hzero, ?_, ?_⟩
  · rintro r pParameters ⟨tree, htree, -⟩
    have hbytes := chainText_bytes k c rest
    rw [getOperator_parenthesised (.plain fun x hx => (hbytes x hx).2) fun x hx => (hbytes x hx).1]
      at htree
    cases htree
  · exact fun r pParameters value hcolumns hvalue => meansAll_chain_iff hcolumns hvalue

/-- `msisdn=:0`, with a blank at either end. -/
def msisdnClause : Clause where
  operat := .eq
  name := text ['m', 's', 'i', 's', 'd', 'n']
  num := 0
  b₁ := text [' ']
  b₂ := []
  b₃ := []
  b₄ := text [' ']
  name_ne := by decide
  name_column := by unfold ColumnName; decide +kernel
  name_unmarked operat := by cases operat <;> decide +kernel
  num_lt := by decide
  blank := forall_mem_of_all (by decide)

/-- `startTime <= :1`, with a blank at either end. -/
def startTimeClause : Clause where
  operat := .le
  name := text ['s', 't', 'a', 'r', 't', 'T', 'i', 'm', 'e']
  num := 1
  b₁ := text [' ']
  b₂ := text [' ']
  b₃ := text [' ']
  b₄ := text [' ']
  name_ne := by decide
  name_column := by unfold ColumnName; decide +kernel
  name_unmarked operat := by cases operat <;> decide +kernel
  num_lt := by decide
  blank := forall_mem_of_all (by decide)

/-- No column of the call record has the name of a mark. -/
theorem callRecord_unmarked : ∀ col ∈ callRecord.m_columnList, Unmarked col.m_name := by
  intro col hcol
  rcases List.mem_cons.mp hcol with rfl | hcol
  · exact msisdnClause.name_unmarked
  · rw [List.mem_singleton.mp hcol]
    exact startTimeClause.name_unmarked

/-- The comparisons the other way round are a chain that the parser serves: `<=` is looked for
before `=`, and the text behind the first parameter is not read. -/
theorem parentheses_and_chains_callRecord :
    ¬ SameMeaning (parenthesised msisdnClause.text) msisdnClause.text ∧
      MeansAll (chainText .and startTimeClause [msisdnClause]) .and startTimeClause [msisdnClause]
        callRecord callParameters := by
  obtain ⟨hparens, -, hchain⟩ := parentheses_and_chains .and startTimeClause [msisdnClause]
  refine ⟨hparens _ (.plain ?_) ?_, ?_⟩
  · exact forall_mem_of_all (by decide +kernel)
  · exact forall_mem_of_all (by decide +kernel)
  · refine (hchain _ _ true callRecord_unmarked (by decide +kernel)).mpr
      ⟨by decide, fun _ c' hc' => ?_⟩
    rw [List.mem_singleton.mp hc']
    decide +kernel

/-- `( msisdn=:0 and startTime <= :1 )`, the documented form, is not accepted.  Without the
parentheses it is taken for one comparison, of a column `msisdn=:0 and startTime`: a record that
passes both comparisons has no value. -/
theorem not_meansAll_callRecord :
    getOperator (parenthesised (chainText .and msisdnClause [startTimeClause])) = none ∧
      getOperator (chainText .and msisdnClause [startTimeClause]) = some (.comparison .le
        (text ['m', 's', 'i', 's', 'd', 'n', '=', ':', '0', ' ', 'a', 'n', 'd', ' ',
          's', 't', 'a', 'r', 't', 'T', 'i', 'm', 'e']) 1) ∧
      evaluate callRecord callParameters (joined .and msisdnClause [startTimeClause]) = some true ∧
      ¬ MeansAll (chainText .and msisdnClause [startTimeClause]) .and msisdnClause [startTimeClause]
        callRecord callParameters := by
  refine ⟨by decide +kernel, by decide +kernel, by decide +kernel, ?_⟩
  rintro ⟨tree, htree, heq⟩
  have hnone : (getOperator (chainText .and msisdnClause [startTimeClause])).bind
      (evaluate callRecord callParameters) = none := by decide +kernel
  rw [htree, Option.bind_some, heq] at hnone
  exact absurd hnone (by decide +kernel)

end Expression
