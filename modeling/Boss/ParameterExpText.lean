import Boss.ParameterExp

/-!
# The texts of parameter queries

`Written` relates a tree to its texts.  The operands of a connective stand in parentheses, and
blanks may stand between any two tokens.  The end of the left operand is found because its text is
balanced.  The operator of a comparison is the first that is looked for and found, since an operator
that is looked for earlier has some byte more often (`getOperator_comparison`).
-/

namespace ParameterExp

open Expression (find firstPair lparen rparen reserved Balanced)
open Parameter (Table Bytes ParameterCdr cstr)

/-- Nothing but blanks. -/
def Blanks (b : Bytes) : Prop := ∀ c ∈ b, c = 32

/-- A text that begins and ends with a visible byte. -/
def Solid (m : Bytes) : Prop := (∃ c x, m = c :: x ∧ 32 < c) ∧ ∃ y d, m = y ++ [d] ∧ 32 < d

/-- **What is assumed of `lrtrim`**: it takes the blanks off at both ends. -/
def Strips (lrtrim : Bytes → Bytes) : Prop :=
  ∀ b₁ m b₂, Blanks b₁ → Solid m → Blanks b₂ → lrtrim (b₁ ++ (m ++ b₂)) = m

/-- A name without blanks, operator characters and parentheses. -/
structure Word (name : Bytes) : Prop where
  ne : name ≠ []
  visible : ∀ c ∈ name, 32 < c
  plain : ∀ c ∈ name, c ∉ reserved

def parenthesised (w : Bytes) : Bytes := lparen :: (w ++ [rparen])

/-- The texts of a tree, without blanks around them. -/
inductive Written : Tree → Bytes → Prop
  | comparison {type : Comparison} {inField column b₁ b₂ : Bytes} (htype : type ≠ .ExpStrnEq)
      (hinField : Word inField) (hcolumn : Word column) (h₁ : Blanks b₁) (h₂ : Blanks b₂) :
      Written (.comparison type inField column)
        (inField ++ (b₁ ++ (type.m_token ++ (b₂ ++ column))))
  | connective {type : Connective} {left right : Tree} {u v b₁ b₂ b₃ b₄ b₅ b₆ : Bytes}
      (hleft : Written left u) (hright : Written right v) (h₁ : Blanks b₁) (h₂ : Blanks b₂)
      (h₃ : Blanks b₃) (h₄ : Blanks b₄) (h₅ : Blanks b₅) (h₆ : Blanks b₆) :
      Written (.connective type left right)
        (parenthesised (b₁ ++ (u ++ b₂)) ++
          (b₃ ++ (type.m_token ++ (b₄ ++ parenthesised (b₅ ++ (v ++ b₆))))))

variable {lrtrim : Bytes → Bytes} {names : Names} {tree : Tree} {type : Comparison}
  {b b' m n u v w : Bytes}

/-! ## Blanks at the ends -/

theorem blanks_nil : Blanks [] := fun _ hc => absurd hc List.not_mem_nil

/-- A solid text is stripped of the blanks on both sides. -/
theorem Strips.both (h : Strips lrtrim) (hb : Blanks b) (hm : Solid m) (hb' : Blanks b') :
    lrtrim (b ++ (m ++ b')) = m :=
  h b m b' hb hm hb'

/-- A solid text is stripped of the blanks on its left. -/
theorem Strips.left (h : Strips lrtrim) (hb : Blanks b) (hm : Solid m) : lrtrim (b ++ m) = m := by
  simpa using h.both hb hm blanks_nil

theorem Strips.right (h : Strips lrtrim) (hm : Solid m) (hb : Blanks b) : lrtrim (m ++ b) = m :=
  h.both blanks_nil hm hb

theorem Strips.self (h : Strips lrtrim) (hm : Solid m) : lrtrim m = m :=
  h.left blanks_nil hm

/-- Solid ends make a solid text, whatever is between them. -/
theorem Solid.append (hm : Solid m) (hn : Solid n) (x : Bytes) : Solid (m ++ (x ++ n)) := by
  obtain ⟨⟨c, y, rfl, hc⟩, -⟩ := hm
  obtain ⟨-, z, d, rfl, hd⟩ := hn
  exact ⟨⟨c, y ++ (x ++ (z ++ [d])), rfl, hc⟩, c :: y ++ (x ++ z), d, by simp, hd⟩

/-- A solid text is not empty. -/
theorem Solid.ne (hm : Solid m) : m ≠ [] := by
  obtain ⟨⟨c, x, rfl, -⟩, -⟩ := hm
  exact List.cons_ne_nil c x

/-- A text of visible characters is solid. -/
theorem solid_of_visible (hne : m ≠ []) (h : ∀ c ∈ m, 32 < c) : Solid m :=
  ⟨⟨m.head hne, m.tail, (List.cons_head_tail hne).symm, h _ (List.head_mem hne)⟩,
    m.dropLast, m.getLast hne, (List.dropLast_append_getLast hne).symm, h _ (List.getLast_mem hne)⟩

theorem solid_parenthesised (w : Bytes) : Solid (parenthesised w) :=
  ⟨⟨lparen, _, rfl, by decide⟩, lparen :: w, rparen, rfl, by decide⟩

/-- The token of a comparison is solid. -/
theorem solid_comparison (type : Comparison) : Solid type.m_token := by
  apply solid_of_visible
  · cases type <;> decide
  · apply Expression.forall_mem_of_all
    cases type <;> decide

/-- The token of a connective is solid. -/
theorem solid_connective (type : Connective) : Solid type.m_token := by
  apply solid_of_visible
  · cases type <;> decide
  · apply Expression.forall_mem_of_all
    cases type <;> decide

/-! ## Bytes -/

/-- Blanks are not reserved. -/
theorem Blanks.plain (hb : Blanks b) : ∀ c ∈ b, c ∉ reserved := by
  intro c hc
  rw [hb c hc]
  decide

theorem no_parens (h : ∀ c ∈ w, c ∉ reserved) : ∀ c ∈ w, c ≠ lparen ∧ c ≠ rparen :=
  fun c hc => (Expression.not_reserved_bytes (h c hc)).2

/-- The token of a comparison has no parentheses. -/
theorem comparison_no_parens (htype : type ≠ .ExpStrnEq) :
    ∀ c ∈ type.m_token, c ≠ lparen ∧ c ≠ rparen := by
  cases type with
  | ExpStrnEq => exact absurd rfl htype
  | _ => exact Expression.forall_mem_of_all (by decide)

/-- The token of a connective has no parentheses. -/
theorem connective_no_parens (type : Connective) :
    ∀ c ∈ type.m_token, c ≠ lparen ∧ c ≠ rparen := by
  cases type <;> exact Expression.forall_mem_of_all (by decide)

/-- What is written for a tree is solid. -/
theorem Written.solid (h : Written tree w) : Solid w := by
  cases h with
  | @comparison type _ _ b₁ b₂ htype hinField hcolumn h₁ h₂ =>
      have hwhole := (solid_of_visible hinField.ne hinField.visible).append
        (solid_of_visible hcolumn.ne hcolumn.visible) (b₁ ++ (type.m_token ++ b₂))
      simpa only [List.append_assoc] using hwhole
  | @connective type _ _ u v b₁ b₂ b₃ b₄ b₅ b₆ hleft hright =>
      have hwhole := (solid_parenthesised (b₁ ++ (u ++ b₂))).append
        (solid_parenthesised (b₅ ++ (v ++ b₆))) (b₃ ++ (type.m_token ++ b₄))
      simpa only [List.append_assoc] using hwhole

/-- What is written for a comparison has no parentheses. -/
theorem comparison_plain {inField column b₁ b₂ : Bytes} (htype : type ≠ .ExpStrnEq)
    (hinField : Word inField) (hcolumn : Word column) (h₁ : Blanks b₁) (h₂ : Blanks b₂) :
    ∀ c ∈ inField ++ (b₁ ++ (type.m_token ++ (b₂ ++ column))), c ≠ lparen ∧ c ≠ rparen := by
  simp only [List.forall_mem_append]
  exact ⟨no_parens hinField.plain, no_parens h₁.plain, comparison_no_parens htype,
    no_parens h₂.plain, no_parens hcolumn.plain⟩

/-- The parentheses of a text match. -/
theorem Written.balanced (h : Written tree w) : Balanced w := by
  have hblanks {b : Bytes} (hb : Blanks b) : Balanced b := .plain (no_parens hb.plain)
  induction h with
  | comparison htype hinField hcolumn h₁ h₂ =>
      exact .plain (comparison_plain htype hinField hcolumn h₁ h₂)
  | @connective type _ _ _ _ _ _ _ _ _ _ hleft hright h₁ h₂ h₃ h₄ h₅ h₆ ihleft ihright =>
      have hoperands := ((hblanks h₁).append (ihleft.append (hblanks h₂))).paren
      have hright := ((hblanks h₅).append (ihright.append (hblanks h₆))).paren
      exact hoperands.append ((hblanks h₃).append
        ((Balanced.plain (connective_no_parens type)).append ((hblanks h₄).append hright)))

/-! ## Operators -/

/-- An operator is not found in a text that has one of its bytes less often. -/
theorem find_of_count {o : Comparison} {c : UInt8} (hc : c ∈ reserved)
    (hcount : type.m_token.count c < o.m_token.count c) (hu : ∀ c ∈ u, c ∉ reserved)
    (hv : ∀ c ∈ v, c ∉ reserved) :
    (find o.m_token (u ++ (type.m_token ++ v))).isSome = false := by
  by_contra hfound
  have hinfix := Expression.find_isSome (Bool.eq_true_of_not_eq_false hfound)
  have hle := hinfix.sublist.count_le c
  rw [List.count_append, List.count_append, List.count_eq_zero.mpr fun h => hu c h hc,
    List.count_eq_zero.mpr fun h => hv c h hc] at hle
  omega

/-- Every operator that is looked for earlier has some byte more often. -/
theorem operators_split (htype : type ≠ .ExpStrnEq) :
    ∃ earlier later, operators = earlier ++ type :: later ∧
      ∀ o ∈ earlier, ∃ c ∈ reserved, type.m_token.count c < o.m_token.count c := by
  cases type with
  | ExpStrnEq => exact absurd rfl htype
  | ExpGe => exact ⟨[], _, rfl, by decide⟩
  | ExpGt => exact ⟨[.ExpGe], _, rfl, by decide⟩
  | ExpEq => exact ⟨[.ExpGe, .ExpGt], _, rfl, by decide⟩
  | ExpNe => exact ⟨[.ExpGe, .ExpGt, .ExpEq], _, rfl, by decide⟩
  | ExpLe => exact ⟨[.ExpGe, .ExpGt, .ExpEq, .ExpNe], _, rfl, by decide⟩
  | ExpLt => exact ⟨[.ExpGe, .ExpGt, .ExpEq, .ExpNe, .ExpLe], _, rfl, by decide⟩

/-- **The operator of a comparison** is the one that is found. -/
theorem getOperator_comparison (htype : type ≠ .ExpStrnEq) (hu : ∀ c ∈ u, c ∉ reserved)
    (hv : ∀ c ∈ v, c ∉ reserved) :
    getOperator (u ++ (type.m_token ++ v)) = type.m_token ∧
      find type.m_token (u ++ (type.m_token ++ v)) = some u.length := by
  have hfind : find type.m_token (u ++ (type.m_token ++ v)) = some u.length := by
    have hfirst {c : UInt8} (pattern : Bytes) (hc : c ∈ reserved) :
        find (c :: pattern) (u ++ ((c :: pattern) ++ v)) = some u.length :=
      Expression.find_first fun hmem => hu _ hmem hc
    cases type with
    | ExpStrnEq => exact absurd rfl htype
    | _ => exact hfirst _ (by decide)
  refine ⟨?_, hfind⟩
  have hfound : (find type.m_token (u ++ (type.m_token ++ v))).isSome = true := by
    rw [hfind]
    rfl
  obtain ⟨earlier, later, hsplit, hcount⟩ := operators_split htype
  have hnone : (earlier.map Comparison.m_token).find?
      (fun token => (find token (u ++ (type.m_token ++ v))).isSome) = none := by
    rw [List.find?_eq_none]
    intro token htoken
    obtain ⟨o, ho, rfl⟩ := List.mem_map.mp htoken
    obtain ⟨c, hc, hless⟩ := hcount o ho
    rw [find_of_count hc hless hu hv]
    exact Bool.false_ne_true
  have hstop : (type.m_token :: later.map Comparison.m_token).find?
      (fun token => (find token (u ++ (type.m_token ++ v))).isSome) = some type.m_token :=
    List.find?_cons_of_pos hfound
  unfold getOperator
  rw [hsplit, List.map_append, List.map_cons, List.find?_append, hnone, Option.none_or, hstop,
    Option.getD_some]

/-! ## One step of the parser -/

/-- Among distinct names the last place of a name is its only one. -/
theorem lastId_of_nodup {id : Bytes} {inFields : List Bytes} (hnodup : inFields.Nodup)
    (hid : id ∈ inFields) : lastId id inFields = some (inFields.idxOf id) := by
  induction inFields with
  | nil => exact absurd hid List.not_mem_nil
  | cons name rest ih =>
      obtain ⟨hname, hrest⟩ := List.nodup_cons.mp hnodup
      by_cases hhead : id = name
      · subst hhead
        have hnone : ∀ l : List Bytes, id ∉ l → lastId id l = none := by
          intro l
          induction l with
          | nil => exact fun _ => rfl
          | cons m l ih =>
              intro hmem
              rw [lastId, ih (List.not_mem_of_not_mem_cons hmem),
                if_neg (List.ne_of_not_mem_cons hmem)]
              rfl
        rw [lastId, hnone rest hname, if_pos rfl, List.idxOf_cons_self]
        rfl
      · have hmem := List.mem_of_ne_of_mem hhead hid
        rw [lastId, ih hrest hmem, List.idxOf_cons_ne _ (Ne.symm hhead)]
        rfl

/-- The number of a field is its place among the names. -/
theorem getFieldID_of_mem {name : Bytes} (h : name ∈ names.m_fieldsName) :
    names.getFieldID name = some (names.m_fieldsName.idxOf name) := by
  have hfind := @List.findIdx?_eq_some_of_exists _ names.m_fieldsName (· == name)
    ⟨name, h, beq_self_eq_true name⟩
  simpa only [beq_eq_decide, Names.getFieldID, List.idxOf] using hfind

/-- **A comparison is taken apart** at its operator. -/
theorem initializeExp_comparison {inField column b₁ b₂ : Bytes} (hstrips : Strips lrtrim)
    (htype : type ≠ .ExpStrnEq) (hinField : Word inField) (hcolumn : Word column)
    (h₁ : Blanks b₁) (h₂ : Blanks b₂) (hnodup : names.inFields.Nodup)
    (hin : inField ∈ names.inFields) (hname : column ∈ names.m_fieldsName) :
    initializeExp lrtrim names type (inField ++ (b₁ ++ (type.m_token ++ (b₂ ++ column)))) =
      some (.comparison type (names.m_fieldsName.idxOf column) (names.inFields.idxOf inField)) := by
  have hu : ∀ c ∈ inField ++ b₁, c ∉ reserved :=
    List.forall_mem_append.mpr ⟨hinField.plain, h₁.plain⟩
  have hv : ∀ c ∈ b₂ ++ column, c ∉ reserved :=
    List.forall_mem_append.mpr ⟨h₂.plain, hcolumn.plain⟩
  have hfind := (getOperator_comparison htype hu hv).2
  have hleft : lrtrim (inField ++ b₁) = inField :=
    hstrips.right (solid_of_visible hinField.ne hinField.visible) h₁
  have hright : lrtrim (b₂ ++ column) = column :=
    hstrips.left h₂ (solid_of_visible hcolumn.ne hcolumn.visible)
  have hdrop : (inField ++ b₁ ++ (type.m_token ++ (b₂ ++ column))).drop
      ((inField ++ b₁).length + type.m_token.length) = b₂ ++ column := by
    rw [← List.append_assoc, List.drop_left' List.length_append]
  unfold initializeExp
  rw [← List.append_assoc, hfind, Option.bind_some, List.take_left' rfl, hleft,
    lastId_of_nodup hnodup hin, Option.bind_some, hdrop, hright, getFieldID_of_mem hname,
    Option.map_some]

/-- A comparison is told by its token, and its text is kept. -/
theorem getExpType_comparison {inField column b₁ b₂ : Bytes} (hstrips : Strips lrtrim)
    (htype : type ≠ .ExpStrnEq) (hinField : Word inField) (hcolumn : Word column)
    (h₁ : Blanks b₁) (h₂ : Blanks b₂) (hb : Blanks b) (hb' : Blanks b') :
    getExpType lrtrim (b ++ ((inField ++ (b₁ ++ (type.m_token ++ (b₂ ++ column)))) ++ b')) =
      some (type.m_token, inField ++ (b₁ ++ (type.m_token ++ (b₂ ++ column))), []) := by
  have hsolid := (Written.comparison htype hinField hcolumn h₁ h₂).solid
  have hplain := comparison_plain htype hinField hcolumn h₁ h₂
  have hoperator : getOperator (inField ++ (b₁ ++ (type.m_token ++ (b₂ ++ column)))) =
      type.m_token := by
    have hu : ∀ c ∈ inField ++ b₁, c ∉ reserved :=
      List.forall_mem_append.mpr ⟨hinField.plain, h₁.plain⟩
    have hv : ∀ c ∈ b₂ ++ column, c ∉ reserved :=
      List.forall_mem_append.mpr ⟨h₂.plain, hcolumn.plain⟩
    rw [← List.append_assoc]
    exact (getOperator_comparison htype hu hv).1
  dsimp only [getExpType]
  rw [hstrips.both hb hsolid hb', Expression.firstPair_plain hplain, if_pos rfl,
    hstrips.self hsolid, hoperator, hstrips.self (solid_comparison type)]

/-- Parentheses are two characters. -/
theorem length_parenthesised (w : Bytes) : (parenthesised w).length = w.length + 2 := by
  rw [parenthesised, List.length_cons, List.length_append, List.length_singleton]

/-- Parentheses and the blanks inside of them are taken off. -/
theorem unwrap_parenthesised (hstrips : Strips lrtrim) (hb : Blanks b) (hm : Solid m)
    (hb' : Blanks b') : unwrap lrtrim (parenthesised (b ++ (m ++ b'))) = m := by
  have hinside : 0 < (b ++ (m ++ b')).length := by
    have hlength := List.length_pos_of_ne_nil hm.ne
    rw [List.length_append, List.length_append]
    omega
  have hlength := length_parenthesised (b ++ (m ++ b'))
  have hinner : ((parenthesised (b ++ (m ++ b'))).drop 1).take
      ((parenthesised (b ++ (m ++ b'))).length - 2) = b ++ (m ++ b') := by
    rw [hlength]
    exact List.take_left' rfl
  unfold unwrap
  rw [if_pos (by omega), hinner, hstrips.both hb hm hb']

/-- **Two operands are taken apart** at the word between them. -/
theorem getExpType_connective {type : Connective} {b₁ b₂ b₃ b₄ b₅ b₆ : Bytes}
    (hstrips : Strips lrtrim) (hu : Solid u) (hbalanced : Balanced (b₁ ++ (u ++ b₂)))
    (hv : Solid v) (h₁ : Blanks b₁) (h₂ : Blanks b₂) (h₃ : Blanks b₃) (h₄ : Blanks b₄)
    (h₅ : Blanks b₅) (h₆ : Blanks b₆) (hb : Blanks b) (hb' : Blanks b') :
    getExpType lrtrim (b ++ ((parenthesised (b₁ ++ (u ++ b₂)) ++
      (b₃ ++ (type.m_token ++ (b₄ ++ parenthesised (b₅ ++ (v ++ b₆)))))) ++ b')) =
        some (type.m_token, u, v) := by
  have hleft := solid_parenthesised (b₁ ++ (u ++ b₂))
  have hright := solid_parenthesised (b₅ ++ (v ++ b₆))
  have hword := solid_connective type
  have hsolid : Solid (parenthesised (b₁ ++ (u ++ b₂)) ++
      (b₃ ++ (type.m_token ++ (b₄ ++ parenthesised (b₅ ++ (v ++ b₆)))))) := by
    simpa only [List.append_assoc] using hleft.append hright (b₃ ++ (type.m_token ++ b₄))
  obtain ⟨k, hpair⟩ := Expression.firstPair_paren hbalanced
    (b₃ ++ (type.m_token ++ (b₄ ++ parenthesised (b₅ ++ (v ++ b₆)))))
  have hlength : (parenthesised (b₁ ++ (u ++ b₂))).length = (b₁ ++ (u ++ b₂)).length + 1 + 1 :=
    length_parenthesised _
  have hrest : lrtrim (b₃ ++ (type.m_token ++ (b₄ ++ parenthesised (b₅ ++ (v ++ b₆))))) =
      type.m_token ++ (b₄ ++ parenthesised (b₅ ++ (v ++ b₆))) :=
    hstrips.left h₃ (hword.append hright b₄)
  have htake : (type.m_token ++ (b₄ ++ parenthesised (b₅ ++ (v ++ b₆)))).takeWhile (· ≠ lparen) =
      type.m_token ++ b₄ := by
    have hno : ∀ c ∈ type.m_token ++ b₄, c ≠ lparen := List.forall_mem_append.mpr
      ⟨fun c hc => (connective_no_parens type c hc).1, fun c hc => (no_parens h₄.plain c hc).1⟩
    rw [← List.append_assoc, List.takeWhile_append_of_pos (by simpa using hno)]
    simp [parenthesised]
  have hdrop : (type.m_token ++ (b₄ ++ parenthesised (b₅ ++ (v ++ b₆)))).drop
      (type.m_token ++ b₄).length = parenthesised (b₅ ++ (v ++ b₆)) := by
    rw [← List.append_assoc, List.drop_left' rfl]
  have hne : type.m_token ++ b₄ ≠ [] := List.append_ne_nil_of_left_ne_nil hword.ne b₄
  have hfirst : firstPair (parenthesised (b₁ ++ (u ++ b₂)) ++
      (b₃ ++ (type.m_token ++ (b₄ ++ parenthesised (b₅ ++ (v ++ b₆)))))) 0 0 0 =
        ((b₁ ++ (u ++ b₂)).length + 1, k + 1) := hpair
  dsimp only [getExpType]
  rw [hstrips.both hb hsolid hb', hfirst]
  dsimp only
  rw [if_neg (Nat.succ_ne_zero k), if_neg, List.take_left' hlength, List.drop_left' hlength, hrest,
    htake, hdrop, hstrips.self hleft, hstrips.self hright, unwrap_parenthesised hstrips h₁ hu h₂,
    unwrap_parenthesised hstrips h₅ hv h₆, if_neg hne, hstrips.right hword h₄]
  rw [List.length_append, hlength]
  omega

/-! ## The whole parser -/

/-- The token of a comparison is that of the comparison. -/
theorem comparisonOf_comparison (type : Comparison) : comparisonOf type.m_token = some type := by
  cases type <;> decide

/-- The token of a connective is that of no comparison. -/
theorem comparisonOf_connective (type : Connective) : comparisonOf type.m_token = none := by
  cases type <;> decide

/-- The token of a connective is that of the connective. -/
theorem connectiveOf_connective (type : Connective) : connectiveOf type.m_token = some type := by
  cases type <;> decide

/-- **The parser undoes the text**, and its length is enough as a depth. -/
theorem Written.getExpWithin (h : Written tree m) (hstrips : Strips lrtrim)
    (hnodup : names.inFields.Nodup) (hover : tree.Over names) :
    ∀ depth b b', m.length < depth → Blanks b → Blanks b' →
      ParameterExp.getExpWithin lrtrim names depth (b ++ (m ++ b')) = some (tree.exp names) := by
  induction h with
  | comparison htype hinField hcolumn h₁ h₂ =>
      intro depth b b' hdepth hb hb'
      obtain ⟨depth, rfl⟩ := Nat.exists_eq_succ_of_ne_zero (Nat.ne_zero_of_lt hdepth)
      rw [ParameterExp.getExpWithin,
        getExpType_comparison hstrips htype hinField hcolumn h₁ h₂ hb hb', Option.bind_some]
      dsimp only
      rw [comparisonOf_comparison]
      exact initializeExp_comparison hstrips htype hinField hcolumn h₁ h₂ hnodup hover.2.1 hover.2.2
  | @connective type left right u v b₁ b₂ b₃ b₄ b₅ b₆ hleft hright h₁ h₂ h₃ h₄ h₅ h₆ ihleft
      ihright =>
      intro depth b b' hdepth hb hb'
      obtain ⟨depth, rfl⟩ := Nat.exists_eq_succ_of_ne_zero (Nat.ne_zero_of_lt hdepth)
      have hbalanced : Balanced (b₁ ++ (u ++ b₂)) :=
        (Balanced.plain (no_parens h₁.plain)).append
          (hleft.balanced.append (.plain (no_parens h₂.plain)))
      simp only [List.length_append, length_parenthesised] at hdepth
      -- the operands come without blanks
      have hu := ihleft hover.1 depth [] [] (by omega) blanks_nil blanks_nil
      have hv := ihright hover.2 depth [] [] (by omega) blanks_nil blanks_nil
      rw [List.nil_append, List.append_nil] at hu hv
      rw [ParameterExp.getExpWithin, getExpType_connective hstrips hleft.solid hbalanced
        hright.solid h₁ h₂ h₃ h₄ h₅ h₆ hb hb', Option.bind_some]
      dsimp only
      rw [comparisonOf_connective]
      dsimp only
      rw [connectiveOf_connective, Option.bind_some, hu, Option.bind_some, hv, Option.map_some,
        Tree.exp]

variable {T : Table}

/-- **The text of a tree means what the tree says**: `getExp` builds the tree, and it evaluates on
every record and every list of arguments. -/
theorem text_means (hstrips : Strips lrtrim) (hnodup : names.inFields.Nodup)
    (hfields : names.m_fieldsName.length = T.fields.length) (hover : tree.Over names)
    (h : Written tree m) (hb : Blanks b) (hb' : Blanks b') :
    getExp lrtrim names (b ++ (m ++ b')) = some (tree.exp names) ∧
      ∀ (right : List Bytes) (cdr : ParameterCdr), names.inFields.length ≤ right.length →
        Short T cdr → ∃ answer, (tree.exp names).evaluate T right cdr = some answer ∧
          (answer = true ↔ tree.Says (argument names right) (column T names cdr)) := by
  refine ⟨?_, fun right cdr hright hshort => Tree.evaluate_says hfields hright hshort hover⟩
  apply h.getExpWithin hstrips hnodup hover _ b b' _ hb hb'
  simp only [List.length_append]
  omega

/-- The trimming of the expressions strips. -/
theorem strips_trim : Strips Expression.trim := by
  have hblank {b : Bytes} (hb : Blanks b) : ∀ c ∈ b, Expression.isBlank c = true := by
    intro c hc
    rw [hb c hc]
    decide
  have hvisible {c : UInt8} (hc : 32 < c) : Expression.isBlank c = false := by
    cases hcase : Expression.isBlank c with
    | false => rfl
    | true =>
        simp only [Expression.isBlank, Bool.or_eq_true, decide_eq_true_eq] at hcase
        rcases hcase with rfl | rfl <;> exact absurd hc (by decide)
  intro b₁ m b₂ h₁ hm h₂
  obtain ⟨⟨c, x, hfirst, hc⟩, y, d, hlast, hd⟩ := hm
  exact Expression.trim_between ⟨⟨c, x, hfirst, hvisible hc⟩, y, d, hlast, hvisible hd⟩
    (hblank h₁) (hblank h₂)

/-- A table of two fields. -/
def twoFields : Table where
  codec := ⟨fun _ src => src, id⟩
  fields := [⟨id, false⟩, ⟨id, false⟩]
  bufferUnit := 1024
  indexes := [[(0, true)]]
  indexes_lt := by decide

/-- Its columns are `k` and `d`, and a query has the fields `k` and `t`. -/
def twoNames : Names := ⟨[['k'.toUInt8], ['d'.toUInt8]], [['k'.toUInt8], ['t'.toUInt8]]⟩

/-- The key is given, and the time is before that of the record. -/
def keyAndTime : Tree :=
  .connective .ExpAnd (.comparison .ExpEq ['k'.toUInt8] ['k'.toUInt8])
    (.comparison .ExpLt ['t'.toUInt8] ['d'.toUInt8])

/-- The example is one over the two names. -/
theorem keyAndTime_over : keyAndTime.Over twoNames := by
  refine ⟨⟨?_, ?_, ?_⟩, ?_, ?_, ?_⟩ <;> decide

/-- `( k==k )and(t <d)`. -/
def keyAndTimeText : Bytes :=
  Expression.text
    ['(', ' ', 'k', '=', '=', 'k', ' ', ')', 'a', 'n', 'd', '(', 't', ' ', '<', 'd', ')']

/-- The text of the example is written for it. -/
theorem keyAndTime_written : Written keyAndTime keyAndTimeText := by
  have hword (c : UInt8) (h : 32 < c) (hplain : c ∉ reserved) : Word [c] :=
    ⟨List.cons_ne_nil c [], fun d hd => List.mem_singleton.mp hd ▸ h,
      fun d hd => List.mem_singleton.mp hd ▸ hplain⟩
  have hone : Blanks [32] := fun c hc => List.mem_singleton.mp hc
  have hkey : Written (.comparison .ExpEq ['k'.toUInt8] ['k'.toUInt8]) _ :=
    .comparison (by decide) (hword _ (by decide) (by decide)) (hword _ (by decide) (by decide))
      blanks_nil blanks_nil
  have htime : Written (.comparison .ExpLt ['t'.toUInt8] ['d'.toUInt8]) _ :=
    .comparison (by decide) (hword _ (by decide) (by decide)) (hword _ (by decide) (by decide))
      hone blanks_nil
  exact .connective hkey htime hone hone blanks_nil blanks_nil blanks_nil blanks_nil

/-- A record of two letters. -/
def twoLetters : ParameterCdr := ⟨[0, 2], [65, 0, 67, 0]⟩

/-- The text of the example, for a record of two letters. -/
theorem text_means_twoLetters :
    getExp Expression.trim twoNames keyAndTimeText = some (keyAndTime.exp twoNames) ∧
      ∃ answer, (keyAndTime.exp twoNames).evaluate twoFields [[65], [66]] twoLetters = some answer ∧
        (answer = true ↔ keyAndTime.Says (argument twoNames [[65], [66]])
          (column twoFields twoNames twoLetters)) := by
  have hshort : Short twoFields twoLetters := by
    intro i hi
    match i with
    | 0 => exact ⟨[65], by decide, by decide⟩
    | 1 => exact ⟨[67], by decide, by decide⟩
    | i + 2 => exact absurd hi (by simp [twoFields])
  have hmeans := text_means (T := twoFields) strips_trim (by decide) rfl keyAndTime_over
    keyAndTime_written blanks_nil blanks_nil
  rw [List.nil_append, List.append_nil] at hmeans
  exact ⟨hmeans.1, hmeans.2 _ _ (by decide) hshort⟩

end ParameterExp
