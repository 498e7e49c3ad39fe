import Boss.BTreeShape
import Boss.Runs

/-!
# The objects of a B-tree index

An index is created through one object, and others are attached to it.  `insertions_shaped` says that
it keeps the shape of a B-tree under insertions through objects whose pointer is the root.  An object
is not told when another one makes a new root: `insertions_not_shaped` inserts through it, and the
search path does not have the parent of the node that was the root before.
-/

namespace BTree

open Runs SortedSlice

variable {Key : Type}

/-- An index with the objects that have been created for it or attached to it. -/
structure System (Key : Type) where
  index : State Key
  objects : List IndexBTree

inductive Action (Key : Type) where
  /-- A new object is attached. -/
  | initialization
  | insert (object : Nat) (key : Key) (addr : ShmPosition)

variable [LinearOrder Key]

/-- One action.  An exception leaves the index in the state it has then.  What comes after a write in
front of the first slot is not followed any further. -/
def System.step (front : Front Key) (σ : System Key) : Action Key → Option (System Key)
  | .initialization => some { σ with objects := σ.objects ++ [BTree.initialization σ.index] }
  | .insert object key addr =>
    σ.objects[object]?.bind fun o =>
      match o.insert front σ.index key addr with
      | .ok (t, o') => some ⟨t, σ.objects.set object o'⟩
      | .error (.stray, _) => none
      | .error (_, t) => some { σ with index := t }

/-- The object that inserts has the root of the index, and the element of the key is not taken to be
in front of the first slot of an empty root, unless the index refuses it as repeated. -/
def AtRoot (front : Front Key) (σ : System Key) : Action Key → Prop
  | .initialization => True
  | .insert object key _ => (∀ o ∈ σ.objects[object]?, o.m_pRootNode = σ.index.m_header) ∧
      (σ.index.m_isUnique = true ∨ ¬ LedInFront front σ.index key σ.index.m_header)

instance (front : Front Key) (σ : System Key) :
    (a : Action Key) → Decidable (AtRoot front σ a)
  | .initialization => .isTrue trivial
  | .insert _ _ _ => inferInstanceAs (Decidable (_ ∧ _))

/-- One action keeps the tree. -/
theorem System.step_tree {front : Front Key} {M : Nat} (hM : 2 ≤ M) {σ τ : System Key}
    {a : Action Key} (htree : ∃ levels, Tree σ.index M levels) (hroot : AtRoot front σ a)
    (hstep : σ.step front a = some τ) : ∃ levels, Tree τ.index M levels := by
  obtain ⟨levels, htree⟩ := htree
  cases a with
  | initialization =>
      cases hstep
      exact ⟨levels, htree⟩
  | insert object key addr =>
      obtain ⟨o, ho, hstep⟩ := Option.bind_eq_some_iff.mp hstep
      have hends := htree.insert hM (hroot.1 o ho) front key addr hroot.2
      generalize o.insert front σ.index key addr = r at hends hstep
      match r with
      | .ok (t, o') =>
          cases hstep
          exact hends.2
      | .error (f, t) =>
          obtain ⟨rfl | rfl | rfl, hkeeps⟩ := hends
          all_goals
            cases hstep
            exact hkeeps.2

/-- **After any insertions through objects that have the root, the index has the shape of a B-tree**,
and no insertion through such an object finds that a path was not recorded. -/
theorem insertions_shaped (front : Front Key) {s₀ s : State Key} {o₀ : IndexBTree}
    {NODE_ELEM_NUM : Nat} (hM : 2 ≤ NODE_ELEM_NUM) (hfresh : Fresh s₀)
    (hcreate : create s₀ NODE_ELEM_NUM = .ok (s, o₀)) {actions : List (Action Key)}
    (hroot : Meets (System.step front) (AtRoot front) ⟨s, [o₀]⟩ actions) {σ : System Key}
    (hrun : run (System.step front) ⟨s, [o₀]⟩ actions = some σ) :
    Shaped σ.index NODE_ELEM_NUM ∧ ∀ object key addr, AtRoot front σ (.insert object key addr) →
      ∀ o ∈ σ.objects[object]?, ∀ f t, o.insert front σ.index key addr = .error (f, t) →
        f ≠ .searchPath ∧ f ≠ .currentNum ∧ f ≠ .rounds ∧ f ≠ .stray := by
  obtain ⟨r, htree⟩ := create_tree hfresh hcreate
  have hinv : ∃ levels, Tree σ.index NODE_ELEM_NUM levels :=
    run_invariant_of_meets (I := fun τ => ∃ levels, Tree τ.index NODE_ELEM_NUM levels)
      (fun _ _ _ hτ hok hstep => System.step_tree hM hτ hok hstep) ⟨_, htree⟩ hroot hrun
  obtain ⟨levels, hlevels⟩ := hinv
  refine ⟨hlevels.shaped hM, fun object key addr hok o ho f t hfail => ?_⟩
  have hends := hlevels.insert hM (hok.1 o ho) front key addr hok.2
  rw [hfail] at hends
  obtain ⟨rfl | rfl | rfl, -⟩ := hends <;> decide

/-- A memory that has never been used, with so many nodes. -/
def blankMemory (unique : Bool) (nodes : Nat) : State Nat where
  m_isUnique := unique
  m_header := nullShmPos
  node := fun _ => ⟨nullShmPos, nullShmPos, 0, 0, fun _ => ⟨nullShmPos, nullShmPos, 0⟩⟩
  chain := fun _ => ⟨nullShmPos, nullShmPos⟩
  usedNodes := []
  usedChain := []
  freshNodes := (List.range nodes).map fun i => ⟨1, 100 * (i + 1)⟩
  freshChain := []

/-- There is nothing in front of the nodes. -/
def blankFront : Front Nat := fun _ _ _ => ⟨0, none⟩

/-- Insertions into nodes with two slots, through two objects: the root is split twice, the second
time by the object that was attached after the first. -/
theorem insertions_shaped_four : ∃ s o σ, create (blankMemory true 8) 2 = .ok (s, o) ∧
    run (System.step blankFront) ⟨s, [o]⟩ [.insert 0 10 ⟨2, 1⟩, .insert 0 30 ⟨2, 2⟩,
      .insert 0 20 ⟨2, 3⟩, .initialization, .insert 1 40 ⟨2, 4⟩] = some σ ∧
    σ.index.usedNodes.length = 6 ∧ Shaped σ.index 2 := by
  obtain ⟨s, o, hs⟩ : ∃ s o, create (blankMemory true 8) 2 = .ok (s, o) := ⟨_, _, rfl⟩
  have hrun : (run (System.step blankFront) ⟨s, [o]⟩ [.insert 0 10 ⟨2, 1⟩, .insert 0 30 ⟨2, 2⟩,
      .insert 0 20 ⟨2, 3⟩, .initialization, .insert 1 40 ⟨2, 4⟩]).any
        (·.index.usedNodes.length = 6) = true := by
    cases hs
    decide +kernel
  have hroot : Meets (System.step blankFront) (AtRoot blankFront) ⟨s, [o]⟩
      [.insert 0 10 ⟨2, 1⟩, .insert 0 30 ⟨2, 2⟩, .insert 0 20 ⟨2, 3⟩, .initialization,
        .insert 1 40 ⟨2, 4⟩] := by
    cases hs
    decide +kernel
  obtain ⟨σ, hσ, hused⟩ := (Option.any_eq_true _ _).mp hrun
  exact ⟨s, o, σ, hs, hσ, of_decide_eq_true hused,
    (insertions_shaped blankFront (by decide) ⟨by decide, by decide⟩ hs hroot hσ).1⟩

/-! ## An object that is not told of a new root -/

/-- The object of a new index in a blank memory. -/
def firstObject : IndexBTree := ⟨⟨1, 100⟩⟩

/-- A new index with 256 slots in a node, and the keys 1 to `n` in its root. -/
def ascending (n : Nat) : State Nat :=
  { blankMemory true 3 with
    m_header := firstObject.m_pRootNode
    node := Function.update (blankMemory true 3).node firstObject.m_pRootNode
      ⟨noBrother, nullShmPos, 256, n, fun i => if i < n then ⟨⟨2, i + 1⟩, nullShmPos, i + 1⟩
        else ⟨nullShmPos, nullShmPos, 0⟩⟩
    usedNodes := [firstObject.m_pRootNode]
    freshNodes := [⟨1, 200⟩, ⟨1, 300⟩] }

theorem create_ascending : create (blankMemory true 3) 256 = .ok (ascending 0, firstObject) := by
  have hnode : ((blankMemory true 3).node firstObject.m_pRootNode).initial 256 =
      ⟨nullShmPos, nullShmPos, 256, 0, fun _ => ⟨nullShmPos, nullShmPos, 0⟩⟩ := by
    simp [Node.initial, blankMemory, Elem.initial]
  have hallocate : (blankMemory true 3).allocateNode = .ok (firstObject.m_pRootNode,
      { blankMemory true 3 with
        usedNodes := [firstObject.m_pRootNode]
        freshNodes := [⟨1, 200⟩, ⟨1, 300⟩] }) := rfl
  rw [create, hallocate]
  simp only [bind, Except.bind, pure, Except.pure, State.setNodeTypeLeaf, State.setBrotherNode,
    State.setNode, Function.update_self, Function.update_idem, hnode, ascending, Nat.not_lt_zero,
    if_false]

theorem node_ascending (n : Nat) : (ascending n).node firstObject.m_pRootNode =
    ⟨noBrother, nullShmPos, 256, n, fun i => if i < n then ⟨⟨2, i + 1⟩, nullShmPos, i + 1⟩
      else ⟨nullShmPos, nullShmPos, 0⟩⟩ := rfl

/-- All keys are below the next one, even those in slots that are not in use. -/
theorem key_ascending_lt (n i : Nat) :
    (((ascending n).node firstObject.m_pRootNode).elemt i).m_pKeyValue < n + 1 := by
  rw [node_ascending]
  dsimp only
  split_ifs with hi
  · exact Nat.succ_lt_succ hi
  · exact Nat.succ_pos n

/-- The next key is not found. -/
theorem search_ascending (n : Nat) : firstObject.search blankFront (ascending n) (n + 1) =
    .ok ⟨false, [], firstObject.m_pRootNode, [], false⟩ := by
  have hway : wayDown (ascending n) (· ≤ n + 1) (ascending n).depth firstObject.m_pRootNode [] =
      .ok (firstObject.m_pRootNode, []) := rfl
  have hne : ∀ i, n + 1 ≠ (((ascending n).node firstObject.m_pRootNode).elemt i).m_pKeyValue :=
    fun i => (key_ascending_lt n i).ne'
  have hfront : n + 1 ≠ (blankFront (ascending n).node (ascending n).chain
      firstObject.m_pRootNode).m_pKeyValue := Nat.succ_ne_zero n
  rw [IndexBTree.search, hway]
  simp only [bind, Except.bind, searchLeaf, if_neg (hne _), if_neg hfront, ite_self]

/-- The next key goes behind all others. -/
theorem insertElem_ascending (n : Nat) :
    insertElem (ascending n) [] firstObject.m_pRootNode (n + 1) ⟨2, n + 1⟩ =
      .ok (ascending (n + 1)) := by
  have hplace : place ((ascending n).node firstObject.m_pRootNode).elemt (n + 1) n = n := by
    cases n with
    | zero => rfl
    | succ n => rw [place, if_neg (key_ascending_lt (n + 1) n).not_gt]
  have hput : ((ascending n).node firstObject.m_pRootNode).putElem n
      ⟨⟨2, n + 1⟩, nullShmPos, n + 1⟩ = (ascending (n + 1)).node firstObject.m_pRootNode := by
    have hshift : ∀ f : Nat → Elem Nat, shiftUp n n f = f := by
      intro f
      cases n <;> simp [shiftUp]
    simp only [node_ascending, Node.putElem, hshift]
    congr 1
    funext i
    rw [Function.update_apply]
    grind
  have hnum : ((ascending n).node firstObject.m_pRootNode).m_pCurrentNum = n := rfl
  have hparent : ((ascending n).node firstObject.m_pRootNode).m_pParentNode = nullShmPos := rfl
  unfold insertElem
  dsimp only
  rw [hnum, hplace, hput, hparent, if_neg fun h => h.2 rfl]
  simp only [State.setNode, ascending, Function.update_self, Function.update_idem]
  rfl

theorem insert_ascending {n : Nat} (hn : n < 256) :
    firstObject.insert blankFront (ascending n) (n + 1) ⟨2, n + 1⟩ =
      .ok (ascending (n + 1), firstObject) := by
  have hnode : nodeInsert [] (ascending n).depth (ascending n) firstObject.m_pRootNode (n + 1)
      ⟨2, n + 1⟩ = .ok (ascending (n + 1), none) := by
    rw [State.depth, nodeInsert]
    dsimp only
    rw [if_neg, if_pos, insertElem_ascending]
    · rfl
    · exact hn
    · rw [node_ascending]
      dsimp only
      omega
  rw [IndexBTree.insert, search_ascending]
  simp only [Except.mapError, bind, Except.bind, Bool.false_eq_true, if_false, hnode]
  rfl

/-- The keys 1 to `n` are inserted through the first object. -/
def ascend (n : Nat) : List (Action Nat) :=
  (List.range n).map fun i => .insert 0 (i + 1) ⟨2, i + 1⟩

/-- As long as there is room, the second object stays at the root. -/
theorem run_ascend {n : Nat} (hn : n ≤ 256) (rest : List (Action Nat)) :
    run (System.step blankFront) ⟨ascending 0, [firstObject, firstObject]⟩ (ascend n ++ rest) =
      run (System.step blankFront) ⟨ascending n, [firstObject, firstObject]⟩ rest := by
  induction n generalizing rest with
  | zero => rfl
  | succ n ih =>
      rw [ascend, List.range_succ, List.map_append, List.append_assoc]
      rw [← ascend, ih (by omega), List.map_singleton, List.singleton_append, run, System.step,
        List.getElem?_cons_zero, Option.bind_some, insert_ascending (by omega)]
      rfl

/-- What a call fails with. -/
def failure {α : Type} : Outcome Key α → Option Failure
  | .ok _ => none
  | .error (f, _) => some f

/-- **The 257th key splits the root, and another object does not learn of the new one.**  A smaller
key that is inserted through it is not registered with the parent: the path does not have it. -/
theorem insertions_not_shaped :
    ¬ ∀ (front : Front Nat) (s₀ s : State Nat) (o₀ : IndexBTree) (actions : List (Action Nat))
      (σ : System Nat), Fresh s₀ → create s₀ 256 = .ok (s, o₀) →
      run (System.step front) ⟨s, [o₀]⟩ actions = some σ → Shaped σ.index 256 ∧
        ∀ o ∈ σ.objects, ∀ key addr f t, o.insert front σ.index key addr = .error (f, t) →
          f ≠ .searchPath := by
  intro h
  have hsplit : (run (System.step blankFront) ⟨ascending 256, [firstObject, firstObject]⟩
      [.insert 0 257 ⟨2, 257⟩]).any (fun σ => decide (firstObject ∈ σ.objects ∧
        failure (firstObject.insert blankFront σ.index 0 ⟨2, 258⟩) = some .searchPath)) = true := by
    decide +kernel
  obtain ⟨σ, hrun, hlost⟩ := (Option.any_eq_true _ _).mp hsplit
  obtain ⟨hmem, hlost⟩ := of_decide_eq_true hlost
  have hattach : System.step blankFront ⟨ascending 0, [firstObject]⟩ .initialization =
      some ⟨ascending 0, [firstObject, firstObject]⟩ := rfl
  have hall : run (System.step blankFront) ⟨ascending 0, [firstObject]⟩
      (.initialization :: (ascend 256 ++ [.insert 0 257 ⟨2, 257⟩])) = some σ := by
    rw [run, hattach, Option.bind_some, run_ascend le_rfl, hrun]
  have hshape := h blankFront _ _ _ _ σ ⟨by decide, by decide⟩ create_ascending hall
  cases hfail : firstObject.insert blankFront σ.index 0 ⟨2, 258⟩ with
  | ok r =>
      rw [hfail] at hlost
      cases hlost
  | error e =>
      rw [hfail] at hlost
      exact hshape.2 _ hmem 0 ⟨2, 258⟩ e.1 e.2 hfail (Option.some.inj hlost)

end BTree
