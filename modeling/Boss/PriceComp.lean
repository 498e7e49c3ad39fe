import Boss.CdrSeg

/-!
# Price trees

A price is a tree of conditions and actions.  A node has its first child and its next sibling, and
siblings with the same `m_nodeGroup` are alternatives: when a condition of a group holds, its subtree
is run and the rest of the group is passed over.

`execute` and `rateExecute` walk the tree, each with a loop of its own that looks for the sibling to
go on with.  What they should run is said once, with the groups that are settled as a list
(`actions`); passing over the rest of a group is the same as having settled it, because a group is in
one place (`actions_skip`).
-/

namespace Rate

inductive NodeType
  | COND | ADDUP | FEECOUNT | DISCNT
deriving DecidableEq, Repr

/-- A node without its links; `m_nodeAction` says whether it has an action at all. -/
structure PriceNode where
  m_nodeType : NodeType
  m_nodeGroup : Int
  m_nodeId : Int
  m_nodeActId : Int
  m_nodeAction : Bool
deriving DecidableEq, Repr

/-- A node with its first child `m_curNode` and its next sibling `m_next`, or `NULL`. -/
inductive PriceComp
  | null
  | node (info : PriceNode) (m_curNode m_next : PriceComp)
deriving DecidableEq, Repr

/-- The exceptions; the number is the one in their message. -/
inductive PriceError
  | noAction (m_nodeActId : Int)
  | condition (m_nodeActId : Int)
  | noChild (m_nodeActId : Int)
  | undefinedNode (m_nodeId : Int)
  | undefinedPrice (m_id : Int)
deriving DecidableEq, Repr

/-- An action that was run, with the segments and the totals that it was run on. -/
structure Ran (R : Type) where
  node : PriceNode
  segs : List CdrSeg
  sumRules : List (List R)

/-- What the judgement of a condition leaves. -/
structure Passed (R : Type) where
  passValue : Bool
  splitFlag : Bool
  cdrSegs : List CdrSeg
  ruleList : List R

/-- The conditions of a tree.  What they read is what the actions before them have left. -/
structure Conditions (R : Type) where
  execute : PriceNode → List PriceNode → Bool
  judge : PriceNode → List CdrSeg → List (Ran R) → Option (Passed R)

namespace PriceComp

/-- The size of a tree, with the siblings that follow it. -/
def size : PriceComp → Nat
  | null => 0
  | node _ m_curNode m_next => m_curNode.size + m_next.size + 1

/-- The first sibling that is not to be passed over. -/
def skip (passOver : PriceNode → Bool) : PriceComp → PriceComp
  | null => null
  | node info m_curNode m_next =>
      if passOver info then m_next.skip passOver else node info m_curNode m_next

theorem size_skip (passOver : PriceNode → Bool) (t : PriceComp) :
    (t.skip passOver).size ≤ t.size := by
  induction t with
  | null => exact Nat.le_refl _
  | node info m_curNode m_next _ ih =>
      rw [skip]
      split
      · exact Nat.le_trans ih (by simp only [size]; omega)
      · exact Nat.le_refl _

theorem size_skip_lt {info : PriceNode} {m_curNode m_next : PriceComp}
    (passOver : PriceNode → Bool) :
    (m_next.skip passOver).size < (node info m_curNode m_next).size := by
  have h := m_next.size_skip passOver
  simp only [size]
  omega

section Walks

variable {R : Type} (conds : Conditions R)

/-- `execute`, which adds the actions that it runs. -/
def execute : PriceComp → List PriceNode → Except PriceError (List PriceNode)
  | null, ran => .ok ran
  | node info m_curNode m_next, ran =>
      if !info.m_nodeAction then .error (.noAction info.m_nodeActId)
      else if info.m_nodeType = .COND then
        if conds.execute info ran then do
          -- a condition that holds takes effect when there is something under it
          let ran ← m_curNode.execute ran
          (m_next.skip fun next =>
            next.m_nodeGroup = info.m_nodeGroup && m_curNode != null).execute ran
        else m_next.execute ran
      else do
        let ran ← m_curNode.execute (ran ++ [info])
        m_next.execute ran
termination_by t => t.size
decreasing_by
  all_goals first | exact size_skip_lt _ | (simp only [size]; omega)

/-- `rateExecute`; the totals of a condition are pushed while its subtree is run. -/
def rateExecute : PriceComp → List CdrSeg → List (List R) → List (Ran R) →
    Except PriceError (List (Ran R))
  | null, _, _, ran => .ok ran
  | node info m_curNode m_next, segs, rules, ran =>
      if !info.m_nodeAction then .error (.undefinedNode info.m_nodeId)
      else if info.m_nodeType = .COND then
        match conds.judge info segs ran with
        | none => .error (.condition info.m_nodeActId)
        | some passed => do
            let ran ←
              if passed.passValue then
                if m_curNode = null then .error (.noChild info.m_nodeActId)
                else
                  m_curNode.rateExecute (if passed.splitFlag then passed.cdrSegs else segs)
                    (if passed.ruleList.isEmpty then rules else rules ++ [passed.ruleList]) ran
              else .ok ran
            (m_next.skip fun next =>
              next.m_nodeGroup = info.m_nodeGroup && passed.passValue &&
                next.m_nodeType = .COND && !passed.splitFlag &&
                passed.ruleList.isEmpty).rateExecute segs rules ran
      else do
        let ran ← m_curNode.rateExecute segs rules (ran ++ [⟨info, segs, rules⟩])
        m_next.rateExecute segs rules ran
termination_by t => t.size
decreasing_by
  all_goals first | exact size_skip_lt _ | (simp only [size]; omega)

end Walks

/-! ## What is to be run -/

/-- The first satisfied condition of a group settles it, and its subtree is run; every action is run,
and what is under it. -/
def actions (holds : PriceNode → List PriceNode → Bool) :
    PriceComp → List Int → List PriceNode → List PriceNode
  | null, _, ran => ran
  | node info m_curNode m_next, settled, ran =>
      if info.m_nodeType = .COND then
        if info.m_nodeGroup ∉ settled ∧ holds info ran then
          m_next.actions holds (info.m_nodeGroup :: settled) (m_curNode.actions holds [] ran)
        else m_next.actions holds settled ran
      else m_next.actions holds settled (m_curNode.actions holds [] (ran ++ [info]))

/-- A node and those that follow it. -/
def siblings : PriceComp → List PriceNode
  | null => []
  | node info _ m_next => info :: m_next.siblings

def nodes : PriceComp → List PriceNode
  | null => []
  | node info m_curNode m_next => info :: m_curNode.nodes ++ m_next.nodes

/-- Each group is in one place. -/
def Consecutive : List PriceNode → Prop
  | [] => True
  | info :: l =>
      (info.m_nodeGroup ∈ l.map PriceNode.m_nodeGroup →
        l.head?.map PriceNode.m_nodeGroup = some info.m_nodeGroup) ∧ Consecutive l

/-- A group has conditions or actions. -/
def Uniform (l : List PriceNode) : Prop :=
  l.Pairwise fun info next =>
    info.m_nodeGroup = next.m_nodeGroup → (info.m_nodeType = .COND ↔ next.m_nodeType = .COND)

instance decidableConsecutive : (l : List PriceNode) → Decidable (Consecutive l)
  | [] => isTrue trivial
  | _ :: l =>
      haveI : Decidable (Consecutive l) := decidableConsecutive l
      inferInstanceAs (Decidable (_ ∧ _))

instance (l : List PriceNode) : Decidable (Uniform l) :=
  inferInstanceAs (Decidable (List.Pairwise _ l))

/-- The shape of a tree that the source takes for granted, with no node undefined and something under
every condition. -/
def WellFormed : PriceComp → Prop
  | null => True
  | node info m_curNode m_next =>
      info.m_nodeAction ∧ (info.m_nodeType = .COND → m_curNode ≠ null) ∧
        Consecutive (info :: m_next.siblings) ∧ Uniform (info :: m_next.siblings) ∧
        m_curNode.WellFormed ∧ m_next.WellFormed

instance decidableWellFormed : (t : PriceComp) → Decidable t.WellFormed
  | null => isTrue trivial
  | node _ m_curNode m_next =>
      haveI : Decidable m_curNode.WellFormed := decidableWellFormed m_curNode
      haveI : Decidable m_next.WellFormed := decidableWellFormed m_next
      inferInstanceAs (Decidable (_ ∧ (_ → _) ∧ _ ∧ _ ∧ _ ∧ _))

/-- Conditions that neither split nor have totals, and hold in one mode as in the other. -/
def Plain {R : Type} (conds : Conditions R) (t : PriceComp) : Prop :=
  ∀ info ∈ t.nodes, info.m_nodeType = .COND → ∀ segs ran, ∃ cdrSegs,
    conds.judge info segs ran =
      some ⟨conds.execute info (ran.map Ran.node), false, cdrSegs, []⟩

section Skip

variable {holds : PriceNode → List PriceNode → Bool} {passOver passOver' : PriceNode → Bool}
  {t m_curNode m_next : PriceComp} {info : PriceNode} {settled settled' : List Int}
  {ran : List PriceNode} {g : Int}

theorem skip_false : (t.skip fun _ => false) = t := by
  cases t <;> rfl

theorem skip_congr (h : ∀ x ∈ t.siblings, passOver x = passOver' x) :
    t.skip passOver = t.skip passOver' := by
  induction t with
  | null => rfl
  | node info m_curNode m_next _ ih =>
      simp only [siblings, List.forall_mem_cons] at h
      rw [skip, skip, h.1, ih h.2]

theorem skip_wellFormed (h : t.WellFormed) : (t.skip passOver).WellFormed := by
  induction t with
  | null => trivial
  | node info m_curNode m_next _ ih =>
      rw [skip]
      split
      · exact ih h.2.2.2.2.2
      · exact h

theorem nodes_skip : ∀ x ∈ (t.skip passOver).nodes, x ∈ t.nodes := by
  induction t with
  | null => exact fun _ h => h
  | node info m_curNode m_next _ ih =>
      intro x hx
      rw [skip] at hx
      split at hx
      · exact List.mem_append_right _ (ih x hx)
      · exact hx

/-- Only the groups of the siblings matter. -/
theorem actions_congr (h : ∀ x ∈ t.siblings, x.m_nodeGroup ∈ settled ↔ x.m_nodeGroup ∈ settled') :
    t.actions holds settled ran = t.actions holds settled' ran := by
  induction t generalizing settled settled' ran with
  | null => rfl
  | node info m_curNode m_next _ ih =>
      simp only [siblings, List.forall_mem_cons] at h
      obtain ⟨hhere, hrest⟩ := h
      have hmore : ∀ x ∈ m_next.siblings, x.m_nodeGroup ∈ info.m_nodeGroup :: settled ↔
          x.m_nodeGroup ∈ info.m_nodeGroup :: settled' := fun x hx => by
        rw [List.mem_cons, List.mem_cons, hrest x hx]
      simp only [actions, hhere, ih hrest, ih hmore]

/-- Conditions of settled groups may be passed over. -/
theorem actions_skip
    (h : ∀ x ∈ t.siblings, passOver x = true → x.m_nodeType = .COND ∧ x.m_nodeGroup ∈ settled) :
    (t.skip passOver).actions holds settled ran = t.actions holds settled ran := by
  induction t with
  | null => rfl
  | node info m_curNode m_next _ ih =>
      simp only [siblings, List.forall_mem_cons] at h
      rw [skip]
      split
      · rename_i hpass
        obtain ⟨hcond, hsettled⟩ := h.1 hpass
        rw [actions, if_pos hcond, if_neg fun hnew => hnew.1 hsettled, ih h.2]
      · rfl

/-- After a group that is in one place there is none of it. -/
theorem skip_group (h : Consecutive (info :: t.siblings)) (hg : info.m_nodeGroup = g) :
    ∀ x ∈ (t.skip fun next => next.m_nodeGroup = g).siblings, x.m_nodeGroup ≠ g := by
  induction t generalizing info with
  | null => exact fun _ hx => absurd hx List.not_mem_nil
  | node info' m_curNode m_next _ ih =>
      by_cases hsame : info'.m_nodeGroup = g
      · rw [skip, if_pos (decide_eq_true hsame)]
        exact ih h.2 hsame
      · rw [skip, if_neg (by simpa using hsame)]
        intro x hx heq
        have hhead := h.1 (List.mem_map.mpr ⟨x, hx, heq.trans hg.symm⟩)
        exact hsame ((Option.some.inj hhead).trans hg)

/-- **Passing over the rest of a group is having settled it.** -/
theorem actions_next (h : (node info m_curNode m_next).WellFormed) (hcond : info.m_nodeType = .COND)
    (hpass : ∀ x ∈ m_next.siblings, x.m_nodeType = .COND ∨ x.m_nodeGroup ≠ info.m_nodeGroup →
      passOver x = decide (x.m_nodeGroup = info.m_nodeGroup)) :
    (m_next.skip passOver).actions holds [] ran =
      m_next.actions holds [info.m_nodeGroup] ran := by
  obtain ⟨-, -, hconsecutive, huniform, -⟩ := h
  have hconds : ∀ x ∈ m_next.siblings, x.m_nodeGroup = info.m_nodeGroup → x.m_nodeType = .COND :=
    fun x hx hsame => ((List.pairwise_cons.mp huniform).1 x hx hsame.symm).mp hcond
  have hgroup : ∀ x ∈ m_next.siblings, passOver x = decide (x.m_nodeGroup = info.m_nodeGroup) := by
    intro x hx
    refine hpass x hx ?_
    by_cases hsame : x.m_nodeGroup = info.m_nodeGroup
    · exact .inl (hconds x hx hsame)
    · exact .inr hsame
  rw [skip_congr hgroup]
  have hnone := skip_group hconsecutive rfl
  have hsettled : ∀ x ∈ m_next.siblings, decide (x.m_nodeGroup = info.m_nodeGroup) = true →
      x.m_nodeType = .COND ∧ x.m_nodeGroup ∈ [info.m_nodeGroup] := by
    intro x hx hsame
    have hsame := of_decide_eq_true hsame
    exact ⟨hconds x hx hsame, List.mem_singleton.mpr hsame⟩
  rw [← actions_skip hsettled]
  refine actions_congr fun x hx => ?_
  simp [hnone x hx]

end Skip

/-- Induction along a walk: into the child, and on to any sibling that may be next. -/
@[elab_as_elim]
theorem walk {motive : PriceComp → Prop} (t : PriceComp) (null : motive null)
    (node : ∀ info m_curNode m_next, motive m_curNode →
      (∀ passOver, motive (m_next.skip passOver)) → motive (node info m_curNode m_next)) :
    motive t := by
  induction hsize : t.size using Nat.strong_induction_on generalizing t with
  | _ n ih =>
      cases t with
      | null => exact null
      | node info m_curNode m_next =>
          subst hsize
          refine node info m_curNode m_next (ih _ ?_ _ rfl) fun _ => ih _ (size_skip_lt _) _ rfl
          simp only [size]
          omega

section Agree

variable {R : Type} {conds : Conditions R} {t : PriceComp}

/-- `execute` runs what is to be run. -/
theorem execute_eq (h : t.WellFormed) (ran : List PriceNode) :
    execute conds t ran = .ok (t.actions conds.execute [] ran) := by
  induction t using walk generalizing ran with
  | null => rw [execute, actions]
  | node info m_curNode m_next ihCur ihNext =>
      obtain ⟨haction, hchild, -, -, hcur, hnext⟩ := id h
      have hset : ¬ (!info.m_nodeAction) = true := by simp [haction]
      have hall := ihNext (fun _ => false)
      rw [skip_false] at hall
      rw [execute, actions, if_neg hset]
      by_cases hcond : info.m_nodeType = .COND
      · rw [if_pos hcond, if_pos hcond]
        by_cases hholds : conds.execute info ran = true
        · let passOver : PriceNode → Bool := fun next =>
            next.m_nodeGroup = info.m_nodeGroup && m_curNode != null
          have hpass : ∀ x ∈ m_next.siblings,
              x.m_nodeType = .COND ∨ x.m_nodeGroup ≠ info.m_nodeGroup →
              passOver x = decide (x.m_nodeGroup = info.m_nodeGroup) := fun x _ _ => by
            simp [passOver, hchild hcond]
          have hrest := ihNext passOver (skip_wellFormed hnext)
            (m_curNode.actions conds.execute [] ran)
          rw [actions_next h hcond hpass] at hrest
          rw [if_pos hholds, if_pos ⟨List.not_mem_nil, hholds⟩, ihCur hcur]
          exact hrest
        · rw [if_neg hholds, if_neg fun hnew => hholds hnew.2]
          exact hall hnext ran
      · rw [if_neg hcond, if_neg hcond, ihCur hcur]
        exact hall hnext _

/-- `rateExecute` runs what is to be run, on all the segments and totals that it was given. -/
theorem rateExecute_eq (h : t.WellFormed) (hplain : t.Plain conds) (segs : List CdrSeg)
    (rules : List (List R)) (ran : List (Ran R)) :
    ∃ l, rateExecute conds t segs rules ran = .ok (ran ++ l) ∧
      (ran ++ l).map Ran.node = t.actions conds.execute [] (ran.map Ran.node) ∧
      ∀ r ∈ l, r.segs = segs ∧ r.sumRules = rules := by
  induction t using walk generalizing ran with
  | null =>
      refine ⟨[], ?_, ?_, fun _ hr => absurd hr List.not_mem_nil⟩
      · rw [rateExecute, List.append_nil]
      · rw [List.append_nil, actions]
  | node info m_curNode m_next ihCur ihNext =>
      obtain ⟨haction, hchild, -, -, hcur, hnext⟩ := id h
      have hset : ¬ (!info.m_nodeAction) = true := by simp [haction]
      have hcurPlain : m_curNode.Plain conds := fun x hx =>
        hplain x (List.mem_cons_of_mem _ (List.mem_append_left _ hx))
      have hnextPlain : m_next.Plain conds := fun x hx =>
        hplain x (List.mem_cons_of_mem _ (List.mem_append_right _ hx))
      have hall := ihNext (fun _ => false)
      rw [skip_false] at hall
      rw [rateExecute, actions, if_neg hset]
      by_cases hcond : info.m_nodeType = .COND
      · obtain ⟨cdrSegs, hjudge⟩ := hplain info List.mem_cons_self hcond segs ran
        rw [if_pos hcond, if_pos hcond, hjudge]
        by_cases hholds : conds.execute info (ran.map Ran.node) = true
        · obtain ⟨l, hl, hnodes, hran⟩ := ihCur hcur hcurPlain ran
          let passOver : PriceNode → Bool := fun next =>
            next.m_nodeGroup = info.m_nodeGroup && true && next.m_nodeType = .COND && true && true
          have hpass : ∀ x ∈ m_next.siblings,
              x.m_nodeType = .COND ∨ x.m_nodeGroup ≠ info.m_nodeGroup →
              passOver x = decide (x.m_nodeGroup = info.m_nodeGroup) := fun x _ hx => by
            rcases hx with hx | hx <;> simp [passOver, hx]
          have hskipPlain : (m_next.skip passOver).Plain conds := fun x hx =>
            hnextPlain x (nodes_skip x hx)
          obtain ⟨l', hl', hnodes', hran'⟩ := ihNext passOver (skip_wellFormed hnext) hskipPlain
            (ran ++ l)
          rw [actions_next h hcond hpass, hnodes] at hnodes'
          refine ⟨l ++ l', ?_, ?_, ?_⟩
          · simp only [hholds, if_true, if_neg (hchild hcond), Bool.false_eq_true, if_false,
              List.isEmpty_nil, hl, Bool.not_false]
            rw [← List.append_assoc]
            exact hl'
          · rw [if_pos ⟨List.not_mem_nil, hholds⟩, ← List.append_assoc]
            exact hnodes'
          · rw [List.forall_mem_append]
            exact ⟨hran, hran'⟩
        · obtain ⟨l, hl, hnodes, hran⟩ := hall hnext hnextPlain ran
          refine ⟨l, ?_, ?_, hran⟩
          · simp only [hholds, Bool.false_eq_true, if_false, Bool.and_false, Bool.false_and,
              skip_false]
            exact hl
          · rw [if_neg fun hnew => hholds hnew.2]
            exact hnodes
      · obtain ⟨l, hl, hnodes, hran⟩ := ihCur hcur hcurPlain (ran ++ [⟨info, segs, rules⟩])
        obtain ⟨l', hl', hnodes', hran'⟩ := hall hnext hnextPlain (ran ++ [⟨info, segs, rules⟩] ++ l)
        rw [if_neg hcond, if_neg hcond, hl]
        have hlist : ran ++ (⟨info, segs, rules⟩ :: (l ++ l')) =
            ran ++ [⟨info, segs, rules⟩] ++ l ++ l' := by simp
        refine ⟨⟨info, segs, rules⟩ :: (l ++ l'), ?_, ?_, ?_⟩
        · rw [hlist]
          exact hl'
        · rw [hlist, hnodes', hnodes, List.map_append]
          rfl
        · simp only [List.forall_mem_cons, List.forall_mem_append, and_self, true_and]
          exact ⟨hran, hran'⟩

/-- **The two walks run the same actions**: the subtree of the first satisfied condition of every
group, and every action on the way. -/
theorem execute_rateExecute_agree (h : t.WellFormed) (hplain : t.Plain conds) (segs : List CdrSeg)
    (rules : List (List R)) :
    ∃ l, rateExecute conds t segs rules [] = .ok l ∧
      execute conds t [] = .ok (l.map Ran.node) ∧
      l.map Ran.node = t.actions conds.execute [] [] ∧
      ∀ r ∈ l, r.segs = segs ∧ r.sumRules = rules := by
  obtain ⟨l, hl, hnodes, hran⟩ := rateExecute_eq h hplain segs rules []
  refine ⟨l, hl, ?_, hnodes, hran⟩
  rw [execute_eq h]
  exact congrArg Except.ok hnodes.symm

end Agree

/-- Two conditions with an action each, the second of which holds, then a group of one action. -/
def twoGroups : PriceComp :=
  node ⟨.COND, 1, 10, 100, true⟩ (node ⟨.FEECOUNT, 1, 11, 101, true⟩ null null)
    (node ⟨.COND, 1, 20, 200, true⟩ (node ⟨.FEECOUNT, 1, 21, 201, true⟩ null null)
      (node ⟨.COND, 1, 30, 300, true⟩ (node ⟨.FEECOUNT, 1, 31, 301, true⟩ null null)
        (node ⟨.ADDUP, 2, 40, 400, true⟩ null null)))

def fromTwenty : Conditions Unit where
  execute info _ := info.m_nodeId ≥ 20
  judge info _ _ := some ⟨info.m_nodeId ≥ 20, false, [], []⟩

theorem twoGroups_agree :
    ∃ l, rateExecute fromTwenty twoGroups [] [] [] = .ok l ∧
      execute fromTwenty twoGroups [] = .ok (l.map Ran.node) ∧
      l.map (fun r => r.node.m_nodeId) = [21, 40] := by
  have hplain : Plain fromTwenty twoGroups := fun _ _ _ _ _ => ⟨[], rfl⟩
  obtain ⟨l, hl, hexecute, hnodes, -⟩ :=
    execute_rateExecute_agree (t := twoGroups) (by decide) hplain [] []
  refine ⟨l, hl, hexecute, ?_⟩
  have hids := congrArg (List.map PriceNode.m_nodeId) hnodes
  rw [List.map_map] at hids
  exact hids.trans (by decide)

end PriceComp

end Rate
