import Boss.BTreeLevels

/-!
# The levels of a B-tree in memory

Of a node in memory only its links and its first elements count: its `View`.  What the operations
write is said in these terms (`insertElem_spec`, `splitSteps_spec`).  `Stored` says that levels are in
memory: every block is the view of its node, the elements of a level address the nodes below, and
these know it as their parent.
-/

namespace BTree

open SortedSlice

variable {Key : Type}

/-! ## Views -/

structure View (Key : Type) where
  brother : ShmPosition
  parent : ShmPosition
  maxNum : Nat
  elems : List (Elem Key)

def Node.view (n : Node Key) : View Key :=
  ⟨n.m_pBrotherNode, n.m_pParentNode, n.m_iMaxNum, slice n.elemt n.m_pCurrentNum⟩

def State.view (s : State Key) (p : ShmPosition) : View Key := (s.node p).view

/-- Nothing but nodes is written. -/
def Writes (s t : State Key) : Prop := t = { s with node := t.node }

/-- Writing nothing is writing nodes only. -/
theorem Writes.refl (s : State Key) : Writes s s := rfl

/-- Writes of nodes one after the other are writes of nodes. -/
theorem Writes.trans {s t u : State Key} (h : Writes s t) (h' : Writes t u) : Writes s u := by
  rw [Writes] at h h' ⊢
  rw [h', h]

/-- Writing one node is a write of nodes. -/
theorem writes_setNode (s : State Key) (p : ShmPosition) (n : Node Key) :
    Writes s (s.setNode p n) := rfl

/-- The counter of a node is the number of elements it shows. -/
theorem Node.currentNum_eq (n : Node Key) : n.m_pCurrentNum = n.view.elems.length := by
  simp [Node.view]

/-- Below the counter the slots of a node are the elements it shows. -/
theorem Node.elemt_eq (n : Node Key) {i : Nat} (h : i < n.view.elems.length) :
    n.elemt i = n.view.elems[i] := by
  simp [Node.view]

/-- A node that is written shows what was written; the others show what they did. -/
@[simp] theorem view_setNode (s : State Key) (p : ShmPosition) (n : Node Key) :
    (s.setNode p n).view = Function.update s.view p n.view := by
  funext a
  by_cases h : a = p
  · subst h
    simp [State.view, State.setNode]
  · simp [State.view, State.setNode, Function.update_of_ne h]

/-- Setting the brother of a node changes nothing else that a node shows. -/
@[simp] theorem view_setBrotherNode (s : State Key) (p q : ShmPosition) :
    (s.setBrotherNode p q).view = Function.update s.view p { s.view p with brother := q } :=
  view_setNode _ _ _

/-- Setting the parent of a node changes nothing else that a node shows. -/
@[simp] theorem view_setParentNode (s : State Key) (p q : ShmPosition) :
    (s.setParentNode p q).view = Function.update s.view p { s.view p with parent := q } :=
  view_setNode _ _ _

/-- A node is a leaf exactly when it shows a brother, be it a leaf or the mark that there is none.
-/
theorem isLeafNode_eq (n : Node Key) : n.isLeafNode = decide (n.view.brother ≠ nullShmPos) := by
  have hne : noBrother ≠ nullShmPos := by decide
  by_cases h : n.m_pBrotherNode = noBrother
  · simp [Node.isLeafNode, Node.view, h, hne]
  · by_cases hnull : n.m_pBrotherNode = nullShmPos
    · simp [Node.isLeafNode, Node.view, hnull, hne.symm]
    · simp [Node.isLeafNode, Node.view, h, hnull]

/-- The key of an element is written. -/
theorem view_setKey (s : State Key) (p : ShmPosition) (left right : List (Elem Key)) (e : Elem Key)
    (h : (s.view p).elems = left ++ e :: right) (key : Key) :
    (s.setKey p left.length key).view = Function.update s.view p { s.view p with
      elems := left ++ { e with m_pKeyValue := key } :: right } := by
  rw [State.setKey, view_setNode]
  congr 1
  have hlen : (s.node p).m_pCurrentNum = (left ++ e :: right).length := by
    rw [← h]
    exact Node.currentNum_eq _
  have hget : ∀ (i : Nat) (hi : i < (left ++ e :: right).length),
      (s.node p).elemt i = (left ++ e :: right)[i] := by
    intro i hi
    have hi' : i < (s.node p).view.elems.length := by
      change i < (s.view p).elems.length
      rwa [h]
    rw [Node.elemt_eq _ hi']
    exact List.getElem_of_eq h hi'
  simp only [Node.view, State.view]
  congr 1
  apply List.ext_getElem
  · simp [hlen]
  · intro i h₁ h₂
    have hi : i < (left ++ e :: right).length := by
      simpa [hlen] using h₁
    rw [getElem_slice]
    by_cases heq : i = left.length
    · subst heq
      have hself := hget left.length hi
      simp only [List.getElem_append_right (Nat.le_refl left.length), Nat.sub_self,
        List.getElem_cons_zero] at hself
      simp [hself]
    · rw [Function.update_of_ne heq, hget i hi]
      by_cases hlt : i < left.length
      · rw [List.getElem_append_left hlt, List.getElem_append_left hlt]
      · rw [List.getElem_append_right (by omega), List.getElem_append_right (by omega)]
        obtain ⟨k, hk⟩ : ∃ k, i - left.length = k + 1 := ⟨i - left.length - 1, by omega⟩
        simp only [hk, List.getElem_cons_succ]

/-! ## Moving and registering elements -/

/-- One more slot is one more element at the end. -/
theorem slice_succ {α : Type*} (f : Nat → α) (n : Nat) : slice f (n + 1) = slice f n ++ [f n] := by
  simp [slice, List.range_succ]

/-- Dropping elements from the front shifts the slots. -/
theorem slice_drop {α : Type*} (f : Nat → α) (n k : Nat) :
    (slice f n).drop k = slice (fun i => f (k + i)) (n - k) := by
  apply List.ext_getElem
  · simp
  · intro i h₁ h₂
    simp

/-- The first elements are those of the first slots. -/
theorem slice_take {α : Type*} (f : Nat → α) {n k : Nat} (h : k ≤ n) :
    (slice f n).take k = slice f k := by
  apply List.ext_getElem
  · simp [h]
  · intro i h₁ h₂
    simp

/-- The elements depend only on the slots below the number. -/
theorem slice_congr {α : Type*} {f g : Nat → α} {n : Nat} (h : ∀ i < n, f i = g i) :
    slice f n = slice g n :=
  List.map_congr_left fun i hi => h i (List.mem_range.mp hi)

/-- The first step of a split. -/
theorem moveHalf_spec {s : State Key} {M : Nat} {p q : ShmPosition} (hmax : (s.view p).maxNum = M)
    (hfull : (s.view p).elems.length = M) :
    Writes s (moveHalf s p q) ∧ (moveHalf s p q).view =
      Function.update (Function.update s.view q
          ⟨nullShmPos, nullShmPos, M, (s.view p).elems.drop (M / 2)⟩)
        p { s.view p with elems := (s.view p).elems.take (M / 2) } := by
  have hnum : (s.node p).m_pCurrentNum = M := (Node.currentNum_eq _).trans hfull
  have hmax' : (s.node p).m_iMaxNum = M := hmax
  have helems : (s.view p).elems = slice (s.node p).elemt M := by
    rw [← hnum]
    rfl
  refine ⟨rfl, ?_⟩
  unfold moveHalf
  dsimp only
  rw [view_setNode, view_setNode, hmax', hnum]
  congr 1
  · congr 1
    rw [helems, slice_drop]
    simp only [Node.view, Node.initial]
    congr 1
    exact slice_congr fun i hi => if_pos hi
  · have hhalf : M - (M - M / 2) = M / 2 := by omega
    rw [helems, slice_take _ (by omega)]
    simp only [Node.view, State.view, hhalf]
    congr 1
    · exact hmax'.symm
    · refine slice_congr fun i hi => if_neg ?_
      omega

/-- What the third step of a split writes: the list of the leaves, or the parent of the children. -/
def registered (p q : ShmPosition) (v : ShmPosition → View Key) : ShmPosition → View Key :=
  if (v p).brother ≠ nullShmPos then
    Function.update (Function.update v q { v q with brother := (v p).brother })
      p { v p with brother := q }
  else fun a => if a ∈ (v q).elems.map Elem.m_pRecordAddrs then { v a with parent := q } else v a

/-- `reg2child` makes a node the parent of all the nodes that its elements refer to, and writes
nothing else. -/
theorem reg2child_spec (s : State Key) (q : ShmPosition) :
    Writes s (reg2child s q) ∧ (reg2child s q).view = fun a =>
      if a ∈ (s.view q).elems.map Elem.m_pRecordAddrs then { s.view a with parent := q }
      else s.view a := by
  have hloop : ∀ n, ∃ t, (List.range n).foldl (fun t i =>
        State.setParentNode t ((t.node q).elemt i).m_pRecordAddrs q) s = t ∧ Writes s t ∧
      (t.node q).elemt = (s.node q).elemt ∧ ∀ a, t.view a =
        if a ∈ (slice (s.node q).elemt n).map Elem.m_pRecordAddrs then { s.view a with parent := q }
        else s.view a := by
    intro n
    induction n with
    | zero => exact ⟨s, rfl, Writes.refl s, rfl, fun a => (if_neg List.not_mem_nil).symm⟩
    | succ n ih =>
        obtain ⟨t, ht, hwrites, helemt, hview⟩ := ih
        rw [List.range_succ, List.foldl_append, ht]
        refine ⟨_, rfl, hwrites.trans (writes_setNode _ _ _), ?_, fun a => ?_⟩
        · rw [← helemt]
          by_cases hq : q = ((t.node q).elemt n).m_pRecordAddrs
          · simp only [List.foldl_cons, List.foldl_nil, State.setParentNode, State.setNode, ← hq,
              Function.update_self]
          · simp only [List.foldl_cons, List.foldl_nil, State.setParentNode, State.setNode,
              Function.update_of_ne hq]
        · rw [List.foldl_cons, List.foldl_nil, view_setParentNode, slice_succ, List.map_append,
            helemt]
          by_cases ha : a = ((s.node q).elemt n).m_pRecordAddrs
          · subst ha
            rw [Function.update_self, if_pos (by simp), hview]
            split_ifs <;> rfl
          · rw [Function.update_of_ne ha, hview]
            simp [ha]
  obtain ⟨t, ht, hwrites, -, hview⟩ := hloop (s.node q).m_pCurrentNum
  have hself : reg2child s q = t := ht
  rw [hself]
  exact ⟨hwrites, funext hview⟩

/-- `registerNew` links a new leaf behind its brother, and makes a new inner node the parent
children. -/
theorem registerNew_spec {s : State Key} {p q : ShmPosition} (hne : p ≠ q) :
    Writes s (registerNew s p q) ∧ (registerNew s p q).view = registered p q s.view := by
  have hleaf : (s.node p).isLeafNode = decide ((s.view p).brother ≠ nullShmPos) :=
    isLeafNode_eq (s.node p)
  unfold registerNew registered
  by_cases h : (s.view p).brother ≠ nullShmPos
  · rw [if_pos h, hleaf, if_pos (decide_eq_true h), view_setBrotherNode, view_setBrotherNode,
      Function.update_of_ne hne]
    exact ⟨rfl, rfl⟩
  · rw [if_neg h, hleaf, if_neg fun ht => h (of_decide_eq_true ht)]
    exact reg2child_spec s q

/-! ## Inserting an element -/

variable [LinearOrder Key]

/-- The place of a key is behind the last element that is not greater than the key. -/
theorem place_eq (elemt : Nat → Elem Key) (key : Key) (n : Nat) :
    place elemt key n = ((slice elemt n).rdropWhile (key < ·.m_pKeyValue)).length := by
  induction n with
  | zero => rfl
  | succ n ih =>
      rw [place, slice_succ]
      by_cases h : key < (elemt n).m_pKeyValue
      · rw [if_pos h, ih, List.rdropWhile_concat_pos _ _ _ (by simpa using h)]
      · rw [if_neg h, List.rdropWhile_concat_neg _ _ _ (by simpa using h)]
        simp

/-- Putting an element in its place makes the list longer by one. -/
theorem length_putIn (es : List (Elem Key)) (e : Elem Key) :
    (putIn es e).length = es.length + 1 := by
  have hsplit : es.rdropWhile (e.m_pKeyValue < ·.m_pKeyValue) ++
      es.rtakeWhile (e.m_pKeyValue < ·.m_pKeyValue) = es := List.rdropWhile_append_rtakeWhile
  have hsum := congrArg List.length hsplit
  rw [List.length_append] at hsum
  rw [putIn, List.length_append, List.length_cons]
  omega

/-- The loop that makes room puts the element behind those that are not greater. -/
theorem view_putElem (n : Node Key) (e : Elem Key) :
    (n.putElem (place n.elemt e.m_pKeyValue n.m_pCurrentNum) e).view =
      { n.view with elems := putIn n.view.elems e } := by
  have hplace := place_eq n.elemt e.m_pKeyValue n.m_pCurrentNum
  generalize hes : slice n.elemt n.m_pCurrentNum = es at hplace
  have hsplit : es.rdropWhile (e.m_pKeyValue < ·.m_pKeyValue) ++
      es.rtakeWhile (e.m_pKeyValue < ·.m_pKeyValue) = es := List.rdropWhile_append_rtakeWhile
  have hle : place n.elemt e.m_pKeyValue n.m_pCurrentNum ≤ n.m_pCurrentNum := by
    have hsum := congrArg List.length hsplit
    rw [List.length_append, ← hes, slice_length, hes] at hsum
    omega
  have hput : slice (n.putElem (place n.elemt e.m_pKeyValue n.m_pCurrentNum) e).elemt
      (n.m_pCurrentNum + 1) = putIn es e := by
    rw [Node.putElem, slice_insert hle, hes, hplace, putIn]
    generalize es.rdropWhile _ = x at hsplit
    generalize es.rtakeWhile _ = y at hsplit
    rw [← hsplit, List.take_left, List.drop_left]
  have helems : n.view.elems = es := hes
  rw [helems, ← hput]
  rfl

/-- The place is slot 0 exactly when the key is less than every element. -/
theorem place_eq_zero_iff (elemt : Nat → Elem Key) (key : Key) (n : Nat) :
    place elemt key n = 0 ↔ ∀ a ∈ slice elemt n, key < a.m_pKeyValue := by
  rw [place_eq, List.length_eq_zero_iff, List.rdropWhile_eq_nil_iff]
  simp

/-- The parent of a node is the one in the frame above it, and the path knows the element. -/
def ParentAt (v : ShmPosition → View Key) (path : Path) (p : ShmPosition) :
    List (Frame Key) → Prop
  | [] => (v p).parent = nullShmPos
  | f :: _ => (v p).parent = f.pos ∧ f.pos ≠ nullShmPos ∧ f.pos ≠ p ∧
      path.lookup f.pos = some f.left.length ∧ (v f.pos).elems = f.block.elems

/-- The parent has the key of an element that came in front of all of `es`. -/
def touched (v : ShmPosition → View Key) (es : List (Elem Key)) (key : Key) :
    List (Frame Key) → ShmPosition → View Key
  | [] => v
  | f :: _ => Function.update v f.pos { v f.pos with elems := (f.touch es key).block.elems }

/-- **An element is inserted into a node with room.** -/
theorem insertElem_spec {s : State Key} {path : Path} {p : ShmPosition} {frames : List (Frame Key)}
    (hparent : ParentAt s.view path p frames) (key : Key) (addr : ShmPosition) :
    ∃ t, insertElem s path p key addr = .ok t ∧ Writes s t ∧
      t.view = touched (Function.update s.view p { s.view p with
        elems := putIn (s.view p).elems (entry addr key) }) (s.view p).elems key frames := by
  have hview : (s.node p |>.putElem (place (s.node p).elemt key (s.node p).m_pCurrentNum)
      ⟨addr, nullShmPos, key⟩).view =
      { s.view p with elems := putIn (s.view p).elems (entry addr key) } :=
    view_putElem (s.node p) (entry addr key)
  have hfirst := place_eq_zero_iff (s.node p).elemt key (s.node p).m_pCurrentNum
  have helems : slice (s.node p).elemt (s.node p).m_pCurrentNum = (s.view p).elems := rfl
  rw [helems] at hfirst
  unfold insertElem
  dsimp only
  cases frames with
  | nil =>
      have hnull : (s.node p).m_pParentNode = nullShmPos := hparent
      rw [if_neg fun h => h.2 hnull]
      refine ⟨_, rfl, writes_setNode _ _ _, ?_⟩
      rw [view_setNode, hview]
      rfl
  | cons f fs =>
      obtain ⟨hpos, hne, hother, hlookup, hblock⟩ := hparent
      have hpos' : (s.node p).m_pParentNode = f.pos := hpos
      rw [hpos', State.getElemPosiInNode, hlookup, touched]
      by_cases hall : ∀ a ∈ (s.view p).elems, key < a.m_pKeyValue
      · rw [if_pos ⟨hfirst.mpr hall, hne⟩, Frame.touch, if_pos hall]
        refine ⟨_, rfl, (writes_setNode _ _ _).trans (writes_setNode _ _ _), ?_⟩
        rw [view_setKey _ _ f.left f.right f.elem, view_setNode, hview]
        · rfl
        · rw [view_setNode, Function.update_of_ne hother]
          exact hblock
      · rw [if_neg fun h => hall (hfirst.mp h.1), Frame.touch, if_neg hall]
        refine ⟨_, rfl, writes_setNode _ _ _, ?_⟩
        rw [view_setNode, hview, ← hblock]
        funext a
        by_cases ha : a = f.pos
        · subst ha
          rw [Function.update_self, Function.update_of_ne hother]
        · rw [Function.update_of_ne ha]

omit [LinearOrder Key] in
/-- The way up does not change when only nodes off the way are written and the parent of its lowest
node stays. -/
theorem ParentAt.congr {v v' : ShmPosition → View Key} {path : Path} {p q : ShmPosition}
    {frames : List (Frame Key)} (h : ParentAt v path p frames)
    (hp : (v' p).parent = (v p).parent) (hnew : ∀ f ∈ frames, f.pos ≠ q)
    (hother : ∀ a, a ≠ p → a ≠ q → v' a = v a) : ParentAt v' path p frames := by
  cases frames with
  | nil => exact hp.trans h
  | cons f fs =>
      obtain ⟨hpos, hnull, hne, hlookup, hblock⟩ := h
      refine ⟨hp.trans hpos, hnull, hne, hlookup, ?_⟩
      rw [hother _ hne (hnew f List.mem_cons_self)]
      exact hblock

/-- A key that is not the new least one of its node changes no key above. -/
theorem touched_of_not {v : ShmPosition → View Key} {path : Path} {p : ShmPosition}
    {frames : List (Frame Key)} (hparent : ParentAt v path p frames) {es : List (Elem Key)}
    {key : Key} (h : ¬ ∀ a ∈ es, key < a.m_pKeyValue) : touched v es key frames = v := by
  cases frames with
  | nil => rfl
  | cons f fs =>
      obtain ⟨-, -, -, -, hblock⟩ := hparent
      rw [touched, Frame.touch, if_neg h, ← hblock]
      exact Function.update_eq_self _ _

/-- **The first three steps of a split.**  The node and its new brother have the halves, the parent
has the key of an element that came in front, and the new node is registered. -/
theorem splitSteps_spec {s : State Key} {path : Path} {M : Nat} {p q : ShmPosition}
    {frames : List (Frame Key)} (hM : 2 ≤ M) (hmax : (s.view p).maxNum = M)
    (hfull : (s.view p).elems.length = M) (hparent : ParentAt s.view path p frames) (hne : p ≠ q)
    (hnew : ∀ f ∈ frames, f.pos ≠ q) (key : Key) (addr : ShmPosition) :
    ∃ t, splitSteps s path p q key addr = .ok t ∧ Writes s t ∧
      t.view = registered p q (touched
        (Function.update (Function.update s.view q
            ⟨nullShmPos, nullShmPos, M, (halves M (s.view p).elems (entry addr key)).2⟩)
          p { s.view p with elems := (halves M (s.view p).elems (entry addr key)).1 })
        ((s.view p).elems.take (M / 2)) key frames) := by
  obtain ⟨hwrites, hmoved⟩ := moveHalf_spec (q := q) hmax hfull
  generalize hes : (s.view p).elems = es at *
  have hlen : (es.take (M / 2)).length = M / 2 := by
    rw [List.length_take]
    omega
  have hp : (moveHalf s p q).view p = { s.view p with elems := es.take (M / 2) } := by
    rw [hmoved, Function.update_self]
  have hq : (moveHalf s p q).view q = ⟨nullShmPos, nullShmPos, M, es.drop (M / 2)⟩ := by
    rw [hmoved, Function.update_of_ne hne.symm, Function.update_self]
  -- the last key that stayed
  have hlast : ∃ a, (es.take (M / 2)).getLast? = some a ∧
      (moveHalf s p q).keyOf p (((moveHalf s p q).node p).m_pCurrentNum - 1) = a.m_pKeyValue := by
    have hnum : ((moveHalf s p q).node p).m_pCurrentNum = M / 2 := by
      have hcount := Node.currentNum_eq ((moveHalf s p q).node p)
      change _ = ((moveHalf s p q).view p).elems.length at hcount
      rw [hcount, hp]
      exact hlen
    have hlt : M / 2 - 1 < (es.take (M / 2)).length := by omega
    refine ⟨(es.take (M / 2))[M / 2 - 1], ?_, ?_⟩
    · rw [List.getLast?_eq_getElem?, hlen, List.getElem?_eq_getElem hlt]
    · have hlt' : M / 2 - 1 < ((moveHalf s p q).node p).view.elems.length := by
        change _ < ((moveHalf s p q).view p).elems.length
        rwa [hp]
      rw [hnum, State.keyOf, Node.elemt_eq _ hlt']
      congr 1
      exact List.getElem_of_eq (congrArg View.elems hp) hlt'
  obtain ⟨a, ha, hkey⟩ := hlast
  have hany : (es.take (M / 2)).getLast?.any (·.m_pKeyValue < (entry addr key).m_pKeyValue) =
      decide (a.m_pKeyValue < key) := by
    rw [ha]
    rfl
  have hbeside : ∀ l h : List (Elem Key), ParentAt
      (Function.update (Function.update s.view q ⟨nullShmPos, nullShmPos, M, h⟩)
        p { s.view p with elems := l }) path p frames := by
    refine fun l h => hparent.congr ?_ hnew fun c hcp hcq => ?_
    · rw [Function.update_self]
    · rw [Function.update_of_ne hcp, Function.update_of_ne hcq]
  have hinsert : ∃ t, insertHalf (moveHalf s p q) path p q key addr = .ok t ∧
      Writes (moveHalf s p q) t ∧ t.view = touched (Function.update (Function.update s.view q
          ⟨nullShmPos, nullShmPos, M, (halves M es (entry addr key)).2⟩)
        p { s.view p with elems := (halves M es (entry addr key)).1 }) (es.take (M / 2)) key
        frames := by
    rw [insertHalf, hkey]
    by_cases hless : a.m_pKeyValue < key
    · have hcut : halves M es (entry addr key) =
          (es.take (M / 2), putIn (es.drop (M / 2)) (entry addr key)) :=
        if_pos (hany.trans (decide_eq_true hless))
      have hnot : ¬ ∀ c ∈ es.take (M / 2), key < c.m_pKeyValue := fun hall =>
        (hall a (List.mem_of_getLast? ha)).not_gt hless
      have halone : ParentAt (moveHalf s p q).view path q [] := by
        change ((moveHalf s p q).view q).parent = nullShmPos
        rw [hq]
      obtain ⟨t, ht, hwrites', hview⟩ := insertElem_spec halone key addr
      rw [if_pos hless, hcut, touched_of_not (hbeside _ _) hnot]
      refine ⟨t, ht, hwrites', hview.trans ?_⟩
      rw [touched, hq, hmoved, Function.update_comm hne, Function.update_idem,
        Function.update_comm hne.symm]
    · have hcut : halves M es (entry addr key) =
          (putIn (es.take (M / 2)) (entry addr key), es.drop (M / 2)) :=
        if_neg fun h => hless (of_decide_eq_true (hany.symm.trans h))
      have hparent' : ParentAt (moveHalf s p q).view path p frames := by
        rw [hmoved]
        exact hbeside _ _
      obtain ⟨t, ht, hwrites', hview⟩ := insertElem_spec hparent' key addr
      rw [if_neg hless, hcut]
      refine ⟨t, ht, hwrites', hview.trans ?_⟩
      rw [hp, hmoved, Function.update_idem]
  obtain ⟨t, ht, hwrites', hview⟩ := hinsert
  obtain ⟨hregister, hlast⟩ := registerNew_spec (s := t) hne
  refine ⟨registerNew t p q, ?_, (hwrites.trans hwrites').trans hregister, ?_⟩
  · unfold splitSteps
    rw [ht]
    rfl
  · rw [hlast, hview]

end BTree
