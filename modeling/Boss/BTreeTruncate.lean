import Boss.BTreeObjects

/-!
# Truncating a B-tree index

`IndexBTree::truncate` gives back the pages of the nodes and of the chain elements, and
`truncateIndex` sets `m_header` of the descriptor to the null position.  Nothing makes a new
root.  An object that is attached afterwards has a null pointer for its root, and an object that
was attached before keeps the pointer to its old root, whose bytes nobody has touched.

Main result: `truncate_not_resets`, a truncation never resets the root of an attached object.
-/

namespace BTree

variable {Key : Type}

/-- `IndexBTree::truncate`: `truncateTable` of the nodes and of the chain elements, and
`truncateIndex`.  `nodes` and `chain` are what the memory manager will hand out next. -/
def truncate (s : State Key) (nodes chain : List ShmPosition) : State Key :=
  { s with
    m_header := nullShmPos
    usedNodes := []
    usedChain := []
    freshNodes := nodes
    freshChain := chain }

inductive Call (Key : Type) where
  | select (key : Key)
  | insert (key : Key) (addr : ShmPosition)

/-- What a caller sees of a call.  After the last two the program is not followed any further. -/
inductive Answer where
  | selected (found : Bool) (results : List ShmPosition)
  | inserted
  | raised (f : Failure)
  | stray
  /-- The members of a node are used through a null pointer. -/
  | nullPointer
  deriving DecidableEq, Repr

variable [LinearOrder Key] (front : Front Key)

/-- One call through an object. -/
def answer (s : State Key) (o : IndexBTree) : Call Key → Answer × State Key × IndexBTree
  | .select key =>
    if o.m_pRootNode = nullShmPos then (.nullPointer, s, o)
    else
      match o.search front s key with
      | .ok r => (.selected r.found r.results, s, o)
      | .error .stray => (.stray, s, o)
      | .error f => (.raised f, s, o)
  | .insert key addr =>
    if o.m_pRootNode = nullShmPos then (.nullPointer, s, o)
    else
      match o.insert front s key addr with
      | .ok (t, o) => (.inserted, t, o)
      | .error (.stray, t) => (.stray, t, o)
      | .error (f, t) => (.raised f, t, o)

/-- The answers to a sequence of calls, as far as the program is followed. -/
def answers : State Key → IndexBTree → List (Call Key) → List Answer
  | _, _, [] => []
  | s, o, call :: calls =>
    let r := answer front s o call
    if r.1 = .stray ∨ r.1 = .nullPointer then [r.1] else r.1 :: answers r.2.1 r.2.2 calls

/-! ## After a truncation -/

/-- A truncated index is like `new`, a newly created one: whatever is called, through the object
`o` that was there before or through one that is attached afterwards, gets the same answers. -/
def Resets (s : State Key) (o : IndexBTree) (nodes chain : List ShmPosition)
    (new : State Key × IndexBTree) : Prop :=
  ∀ calls, ∀ o' ∈ [o, initialization (truncate s nodes chain)],
    answers front (truncate s nodes chain) o' calls = answers front new.1 new.2 calls

omit [LinearOrder Key] in
/-- The root of a new index is a node. -/
theorem create_root {s : State Key} {new : State Key × IndexBTree} {M : Nat}
    (h : create s M = .ok new) : new.2.m_pRootNode ∈ s.freshNodes := by
  unfold create State.allocateNode at h
  cases hfresh : s.freshNodes with
  | nil =>
      rw [hfresh] at h
      cases h
  | cons r rest =>
      rw [hfresh] at h
      cases h
      exact List.mem_cons_self

theorem answer_ne_nullPointer {s : State Key} {o : IndexBTree} (ho : o.m_pRootNode ≠ nullShmPos)
    (key : Key) : (answer front s o (.select key)).1 ≠ .nullPointer := by
  rw [answer, if_neg ho]
  split <;> exact fun h => by cases h

/-- **No truncated index is like a new one.**  The first call through an object that is attached
after the truncation uses a null pointer. -/
theorem truncate_not_resets {s : State Key} {new : State Key × IndexBTree}
    {nodes chain : List ShmPosition} {M : Nat} (hnull : nullShmPos ∉ nodes) (hcreate : create (truncate s nodes chain) M = .ok new)
    (o : IndexBTree) (key : Key) : ¬ Resets front s o nodes chain new := by
  intro hresets
  have hsame := hresets [.select key] (initialization (truncate s nodes chain)) (by simp)
  have hroot : new.2.m_pRootNode ∈ nodes := create_root hcreate
  have hnew := answer_ne_nullPointer front (s := new.1) (o := new.2)
    (fun heq => hnull (heq ▸ hroot)) key
  have hattached : answers front (truncate s nodes chain)
      (initialization (truncate s nodes chain)) [.select key] = [.nullPointer] := rfl
  rw [hattached, answers] at hsame
  split at hsame
  · exact hnew (List.cons.inj hsame).1.symm
  · exact hnew (List.cons.inj hsame).1.symm

/-- An index of one node with the key 10. -/
def oneKey : State Nat :=
  match create (blankMemory true 2) 2 with
  | .error (_, s) => s
  | .ok (s, o) =>
    match o.insert blankFront s 10 ⟨2, 1⟩ with
    | .error (_, t) => t
    | .ok (t, _) => t

theorem truncate_not_resets_oneKey : ∃ new, create (truncate oneKey [⟨1, 300⟩] []) 2 = .ok new ∧
    ¬ Resets blankFront oneKey (initialization oneKey) [⟨1, 300⟩] [] new := by
  obtain ⟨new, hnew⟩ : ∃ new, create (truncate oneKey [⟨1, 300⟩] []) 2 = .ok new := ⟨_, rfl⟩
  exact ⟨new, hnew, truncate_not_resets _ (by decide) hnew _ 10⟩

/-- The index of one key is truncated; the object that it has still finds the key, which a new
index does not have. -/
theorem not_resets_oneKey :
    ¬ ∀ (s : State Nat) (nodes chain : List ShmPosition) (new : State Nat × IndexBTree),
      nullShmPos ∉ nodes → create (truncate s nodes chain) 2 = .ok new →
      Resets blankFront s (initialization s) nodes chain new := by
  intro h
  obtain ⟨new, hnew⟩ : ∃ new, create (truncate oneKey [⟨1, 300⟩] []) 2 = .ok new := ⟨_, rfl⟩
  have hsame := h oneKey [⟨1, 300⟩] [] new (by decide) hnew [.select 10] (initialization oneKey)
    (by simp)
  cases hnew
  revert hsame
  decide +kernel

end BTree
