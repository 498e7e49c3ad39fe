import Boss.BTreeStore
import Boss.LinkedChain
import Mathlib.Data.List.Flatten
import Mathlib.Data.List.Perm.Basic

/-!
# Insertion into a B-tree in memory

`Stored` says that levels are in memory: every block is the view of its node, the elements of a level
address the nodes below, and these know it as their parent.  An insertion takes stored levels to
stored levels (`nodeInsert_spec`), whatever the order of the keys: the node that is split registers
its new brother with the parent that its own element is in, and the position of that element is on
the path of the search.  It fails only if the memory manager has no memory.
-/

namespace BTree

open LinkedChain

variable {Key : Type}

/-! ## Blocks in memory -/

/-- The node at the position of a block has its elements. -/
structure Holds (v : ShmPosition → View Key) (M : Nat) (leaf : Bool) (b : Block Key) : Prop where
  maxNum : (v b.pos).maxNum = M
  leaf_iff : leaf = true ↔ (v b.pos).brother ≠ nullShmPos
  elems : (v b.pos).elems = b.elems
  room : b.elems.length ≤ M

/-- Every element addresses a node with this parent. -/
def Parents (v : ShmPosition → View Key) (l : Level Key) : Prop :=
  ∀ u ∈ l, ∀ e ∈ u.elems, (v e.m_pRecordAddrs).parent = u.pos

def places (l : Level Key) : List ShmPosition := l.map Block.pos

def addresses (l : Level Key) : List ShmPosition := (flat l).map Elem.m_pRecordAddrs

/-- The levels are in memory.  Only the root may be less than half full; it has no parent. -/
def Stored (v : ShmPosition → View Key) (M : Nat) : Bool → List (Level Key) → Prop
  | _, [] => False
  | leaf, [top] => (∀ b ∈ top, Holds v M leaf b) ∧ ∃ b, top = [b] ∧
      (v b.pos).parent = nullShmPos ∧ (leaf = false → b.elems ≠ [])
  | leaf, low :: up :: rest => (∀ b ∈ low, Holds v M leaf b) ∧
      (∀ b ∈ low, M / 2 ≤ b.elems.length) ∧ (addresses up).Perm (places low) ∧ Parents v up ∧
      Stored v M false (up :: rest)

/-- The positions of all nodes. -/
def positions (levels : List (Level Key)) : List ShmPosition := levels.flatMap places

@[simp] theorem places_append (l l' : Level Key) : places (l ++ l') = places l ++ places l' :=
  List.map_append

@[simp] theorem places_cons (b : Block Key) (l : Level Key) : places (b :: l) = b.pos :: places l :=
  rfl

/-- The addresses in two parts of a level, one behind the other. -/
@[simp] theorem addresses_append (l l' : Level Key) :
    addresses (l ++ l') = addresses l ++ addresses l' := by
  simp [addresses]

/-- The addresses of the first block come before those of the rest. -/
@[simp] theorem addresses_cons (b : Block Key) (l : Level Key) :
    addresses (b :: l) = b.elems.map Elem.m_pRecordAddrs ++ addresses l := by
  simp [addresses]

@[simp] theorem positions_cons (l : Level Key) (levels : List (Level Key)) :
    positions (l :: levels) = places l ++ positions levels := rfl

/-- An element of a block of the level has its address among those of the level. -/
theorem mem_addresses {l : Level Key} {u : Block Key} {a : Elem Key} (hu : u ∈ l)
    (ha : a ∈ u.elems) : a.m_pRecordAddrs ∈ addresses l :=
  List.mem_map_of_mem (List.mem_flatMap_of_mem hu ha)

/-- In a stored tree every block of the lowest level is in memory as it stands. -/
theorem Stored.holds {v : ShmPosition → View Key} {M : Nat} {leaf : Bool} {l : Level Key}
    {ups : List (Level Key)} (h : Stored v M leaf (l :: ups)) : ∀ b ∈ l, Holds v M leaf b := by
  cases ups with
  | nil => exact h.1
  | cons _ _ => exact h.1

/-- A node that keeps its maximum, its brother and its elements still holds its block; its parent
does not matter. -/
theorem Holds.congr {v v' : ShmPosition → View Key} {M : Nat} {leaf : Bool} {b : Block Key}
    (h : Holds v M leaf b) (hmax : (v' b.pos).maxNum = (v b.pos).maxNum)
    (hbrother : (v' b.pos).brother = (v b.pos).brother)
    (helems : (v' b.pos).elems = (v b.pos).elems) : Holds v' M leaf b :=
  ⟨hmax.trans h.maxNum, by rw [hbrother]; exact h.leaf_iff, helems.trans h.elems, h.room⟩

/-- Only the nodes of the levels matter. -/
theorem Stored.congr {v v' : ShmPosition → View Key} {M : Nat} {leaf : Bool}
    {levels : List (Level Key)} (h : Stored v M leaf levels)
    (hsame : ∀ p ∈ positions levels, v' p = v p) : Stored v' M leaf levels := by
  induction levels generalizing leaf with
  | nil => exact h
  | cons low ups ih =>
      have hholds : ∀ b ∈ low, Holds v' M leaf b := by
        intro b hb
        have hpos := hsame b.pos (List.mem_append_left _ (List.mem_map_of_mem hb))
        exact (h.holds b hb).congr (by rw [hpos]) (by rw [hpos]) (by rw [hpos])
      cases ups with
      | nil =>
          obtain ⟨-, b, rfl, hparent, hfilled⟩ := h
          refine ⟨hholds, b, rfl, ?_, hfilled⟩
          rw [hsame b.pos (by simp)]
          exact hparent
      | cons up rest =>
          obtain ⟨-, hhalf, hperm, hparents, hups⟩ := h
          refine ⟨hholds, hhalf, hperm, fun u hu e he => ?_,
            ih hups fun p hp => hsame p (List.mem_append_right _ hp)⟩
          have hmem : e.m_pRecordAddrs ∈ places low :=
            hperm.subset (mem_addresses hu he)
          rw [hsame _ (List.mem_append_left _ hmem)]
          exact hparents u hu e he

variable [LinearOrder Key]

/-! ## A touched frame -/

section

variable (f : Frame Key) (es : List (Elem Key)) (key : Key)

/-- Touching a frame leaves the blocks in front of it. -/
@[simp] theorem Frame.touch_before : (f.touch es key).before = f.before := by
  unfold Frame.touch
  split_ifs <;> rfl

/-- Touching a frame leaves the blocks behind it. -/
@[simp] theorem Frame.touch_after : (f.touch es key).after = f.after := by
  unfold Frame.touch
  split_ifs <;> rfl

/-- Touching a frame leaves its place. -/
@[simp] theorem Frame.touch_pos : (f.touch es key).pos = f.pos := by
  unfold Frame.touch
  split_ifs <;> rfl

/-- Touching a frame leaves the elements on the left of the way. -/
@[simp] theorem Frame.touch_left : (f.touch es key).left = f.left := by
  unfold Frame.touch
  split_ifs <;> rfl

/-- Touching a frame leaves the elements on the right of the way. -/
@[simp] theorem Frame.touch_right : (f.touch es key).right = f.right := by
  unfold Frame.touch
  split_ifs <;> rfl

/-- Touching a frame changes the key of the element on the way, not its address. -/
@[simp] theorem Frame.touch_address :
    (f.touch es key).elem.m_pRecordAddrs = f.elem.m_pRecordAddrs := by
  unfold Frame.touch
  split_ifs <;> rfl

/-- A touched block refers to the same children as before. -/
theorem Frame.touch_addresses : (f.touch es key).block.elems.map Elem.m_pRecordAddrs =
    f.block.elems.map Elem.m_pRecordAddrs := by
  simp [Frame.block]

/-- A level with a touched block refers to the same children as before. -/
@[simp] theorem Frame.addresses_touch : addresses (f.touch es key).level = addresses f.level := by
  simp [Frame.level, Frame.block]

/-- A level with a touched block lies at the same places as before. -/
@[simp] theorem Frame.places_touch : places (f.touch es key).level = places f.level := by
  simp [Frame.level, Frame.block]

end

/-- **A key is registered with a parent.** -/
theorem Stored.touch {v : ShmPosition → View Key} {M : Nat} {f : Frame Key}
    {rest : List (Level Key)} (h : Stored v M false (f.level :: rest))
    (hnodup : (positions (f.level :: rest)).Nodup) (es : List (Elem Key)) (key : Key) :
    Stored (Function.update v f.pos { v f.pos with elems := (f.touch es key).block.elems }) M false
      ((f.touch es key).level :: rest) := by
  have hlength : (f.touch es key).block.elems.length = f.block.elems.length := by
    simpa using congrArg List.length (f.touch_addresses es key)
  have hself : f.block ∈ f.level := List.mem_append_right _ List.mem_cons_self
  have hbeside : ∀ c, c ∈ f.before ∨ c ∈ f.after → c ∈ f.level ∧ c.pos ≠ f.pos := by
    have hplaces := (List.nodup_append.mp hnodup).1
    rw [Frame.level, places_append, places_cons, List.nodup_append, List.nodup_cons] at hplaces
    obtain ⟨-, ⟨hafter, -⟩, hbefore⟩ := hplaces
    rintro c (hc | hc)
    · exact ⟨List.mem_append_left _ hc, hbefore _ (List.mem_map_of_mem hc) _ List.mem_cons_self⟩
    · refine ⟨List.mem_append_right _ (List.mem_cons_of_mem _ hc), fun heq => hafter ?_⟩
      exact List.mem_map.mpr ⟨c, hc, heq⟩
  generalize hv' : Function.update v f.pos
    { v f.pos with elems := (f.touch es key).block.elems } = v'
  have hat : v' f.pos = { v f.pos with elems := (f.touch es key).block.elems } := by
    rw [← hv', Function.update_self]
  have hother : ∀ p, p ≠ f.pos → v' p = v p := fun p hp => by
    rw [← hv', Function.update_of_ne hp]
  have hparent : ∀ p, (v' p).parent = (v p).parent := by
    intro p
    by_cases hp : p = f.pos
    · rw [hp, hat]
    · rw [hother p hp]
  have hblock : Holds v' M false (f.touch es key).block := by
    have hold := h.holds _ hself
    have hpos : (f.touch es key).block.pos = f.pos := f.touch_pos es key
    refine ⟨?_, ?_, ?_, hlength.trans_le hold.room⟩
    · rw [hpos, hat]
      exact hold.maxNum
    · rw [hpos, hat]
      exact hold.leaf_iff
    · rw [hpos, hat]
  have hmem : ∀ c ∈ (f.touch es key).level,
      c = (f.touch es key).block ∨ c ∈ f.level ∧ c.pos ≠ f.pos := by
    intro c hc
    rw [Frame.level, Frame.touch_before, Frame.touch_after] at hc
    rcases List.mem_append.mp hc with hc | hc
    · exact Or.inr (hbeside c (Or.inl hc))
    · rcases List.mem_cons.mp hc with hc | hc
      · exact Or.inl hc
      · exact Or.inr (hbeside c (Or.inr hc))
  have hholds : ∀ c ∈ (f.touch es key).level, Holds v' M false c := by
    intro c hc
    rcases hmem c hc with rfl | ⟨hc, hne⟩
    · exact hblock
    · have hsame := hother c.pos hne
      exact (h.holds c hc).congr (by rw [hsame]) (by rw [hsame]) (by rw [hsame])
  cases rest with
  | nil =>
      obtain ⟨-, b, hb, hroot, hfilled⟩ := h
      obtain ⟨hbefore, hafter⟩ := single_block ⟨b, hb⟩
      have hb' : f.block = b := by
        rw [Frame.level, hbefore, hafter] at hb
        exact (List.cons.inj hb).1
      subst hb'
      refine ⟨hholds, (f.touch es key).block, ?_, ?_, fun hleaf => ?_⟩
      · rw [Frame.level, Frame.touch_before, Frame.touch_after, hbefore, hafter]
        rfl
      · rw [hparent]
        rw [← hroot]
        exact congrArg (fun p => (v p).parent) (f.touch_pos es key)
      · rw [← List.length_pos_iff, hlength, List.length_pos_iff]
        exact hfilled hleaf
  | cons up rest =>
      obtain ⟨-, hhalf, hperm, hparents, hups⟩ := h
      refine ⟨hholds, fun c hc => ?_, ?_, fun u hu e he => ?_, ?_⟩
      · rcases hmem c hc with rfl | ⟨hc, -⟩
        · rw [hlength]
          exact hhalf _ hself
        · exact hhalf c hc
      · rw [Frame.places_touch]
        exact hperm
      · rw [hparent]
        exact hparents u hu e he
      · refine hups.congr fun p hp => hother p ?_
        rintro rfl
        exact (List.nodup_append.mp hnodup).2.2 _ (List.mem_map_of_mem hself) _ hp rfl

/-! ## What is put in -/

/-- Putting an element in its place adds it to the others and loses none. -/
theorem putIn_perm (es : List (Elem Key)) (e : Elem Key) : (putIn es e).Perm (e :: es) := by
  have hsplit : es.rdropWhile (e.m_pKeyValue < ·.m_pKeyValue) ++
      es.rtakeWhile (e.m_pKeyValue < ·.m_pKeyValue) = es := List.rdropWhile_append_rtakeWhile
  rw [putIn]
  exact List.perm_middle.trans (by rw [hsplit])

/-- The two halves of a split together have the old elements and the new one. -/
theorem halves_perm (M : Nat) (es : List (Elem Key)) (e : Elem Key) :
    ((halves M es e).1 ++ (halves M es e).2).Perm (e :: es) := by
  have hsplit := List.take_append_drop (M / 2) es
  unfold halves
  split_ifs
  · have hperm := (putIn_perm (es.drop (M / 2)) e).append_left (es.take (M / 2))
    refine hperm.trans (List.perm_middle.trans ?_)
    rw [hsplit]
  · have hperm := (putIn_perm (es.take (M / 2)) e).append_right (es.drop (M / 2))
    refine hperm.trans ?_
    rw [List.cons_append, hsplit]

/-- Both halves of a split of a full node have at least half of the maximum and at most the maximum.
-/
theorem halves_length {M : Nat} {es : List (Elem Key)} (e : Elem Key) (hM : 2 ≤ M)
    (hlen : es.length = M) :
    (M / 2 ≤ (halves M es e).1.length ∧ (halves M es e).1.length ≤ M) ∧
      M / 2 ≤ (halves M es e).2.length ∧ (halves M es e).2.length ≤ M := by
  unfold halves
  split_ifs <;> simp only [length_putIn, List.length_take, List.length_drop] <;> omega

/-- What the new half addresses was there or is new. -/
theorem mem_of_mem_right {M : Nat} {before after : Level Key} {b : Block Key} {e : Elem Key}
    {p : ShmPosition} (hp : p ∈ (halves M b.elems e).2.map Elem.m_pRecordAddrs) :
    p ∈ e.m_pRecordAddrs :: addresses (before ++ b :: after) := by
  obtain ⟨a, ha, rfl⟩ := List.mem_map.mp hp
  rcases List.mem_cons.mp ((halves_perm M b.elems e).subset (List.mem_append_right _ ha)) with
    rfl | ha
  · exact List.mem_cons_self
  · exact List.mem_cons_of_mem _ (mem_addresses (by simp) ha)

/-- The level of the insertion has the new element. -/
theorem InsertUp.head {M : Nat} {frames : List (Frame Key)} {before after : Level Key}
    {b : Block Key} {e : Elem Key} {levels : List (Level Key)}
    (h : InsertUp M frames before b after e levels) :
    ∃ cur ups, levels = cur :: ups ∧ (flat cur).Perm (e :: flat (before ++ b :: after)) := by
  have hmiddle : ∀ {es : List (Elem Key)}, es.Perm (e :: b.elems) →
      (flat before ++ (es ++ flat after)).Perm (e :: flat (before ++ b :: after)) := by
    intro es hes
    have hperm := (hes.append_right (flat after)).append_left (flat before)
    simpa using hperm.trans List.perm_middle
  have hcut : ∀ {l h : List (Elem Key)}, halves M b.elems e = (l, h) →
      (l ++ h).Perm (e :: b.elems) := by
    intro l h hlh
    have hperm := halves_perm M b.elems e
    rwa [hlh] at hperm
  cases h with
  | roomTop hroom => exact ⟨_, _, rfl, by simpa using hmiddle (putIn_perm b.elems e)⟩
  | room hroom => exact ⟨_, _, rfl, by simpa using hmiddle (putIn_perm b.elems e)⟩
  | splitTop hfull hhalves => exact ⟨_, _, rfl, by simpa using hmiddle (hcut hhalves)⟩
  | split hfull hhalves hf' hup => exact ⟨_, _, rfl, by simpa using hmiddle (hcut hhalves)⟩

/-! ## One insertion -/

/-- The nodes below a level, with the one that is to be entered: they know their parents, and are
none of the others. -/
structure Kids (v : ShmPosition → View Key) (cur : Level Key) (p addr : ShmPosition)
    (others : List ShmPosition) : Prop where
  parents : Parents v cur
  parent : (v addr).parent = p
  apart : ∀ x ∈ addr :: addresses cur, x ∉ others
  nodup : (addr :: addresses cur).Nodup

/-- The root. -/
def rootOf : List (Level Key) → ShmPosition
  | [] => nullShmPos
  | [top] => (places top).headD nullShmPos
  | _ :: up :: rest => rootOf (up :: rest)

/-- Following the brothers from the first leaf on visits the leaves. -/
def Chained (v : ShmPosition → View Key) (l : Level Key) : Prop :=
  LinkedChain.Path (fun p => (v p).brother) nullShmPos ((places l).headD nullShmPos) (places l) noBrother

/-- An insertion can begin at `b`, or go on there. -/
structure Ready (s : State Key) (M : Nat) (path : Path) (leaf : Bool) (frames : List (Frame Key))
    (before : Level Key) (b : Block Key) (after : Level Key) (addr : ShmPosition) : Prop where
  stored : Stored s.view M leaf ((before ++ b :: after) :: frames.map Frame.level)
  path : ∀ f ∈ frames, path.lookup f.pos = some f.left.length
  leads : Leads b.pos frames
  nodup : (positions ((before ++ b :: after) :: frames.map Frame.level) ++ s.freshNodes).Nodup
  ne_null : ∀ p ∈ positions ((before ++ b :: after) :: frames.map Frame.level) ++ s.freshNodes,
    p ≠ nullShmPos
  kids : leaf = false → Kids s.view (before ++ b :: after) b.pos addr
    (positions ((before ++ b :: after) :: frames.map Frame.level) ++ s.freshNodes)

/-- Nothing is written but the nodes of the levels and fresh ones, and the parents of the nodes
below. -/
def Keeps (s t : State Key) (leaf : Bool) (levels : List (Level Key)) (kids : List ShmPosition) :
    Prop :=
  ∀ p, p ∉ positions levels ++ s.freshNodes → t.view p = s.view p ∨
    leaf = false ∧ p ∈ kids ∧ t.view p = { s.view p with parent := (t.view p).parent }

/-- Only nodes have changed, and which of them are in use. -/
def Takes (s t : State Key) (taken : List ShmPosition) : Prop :=
  s.freshNodes = taken ++ t.freshNodes ∧ t = { s with
    node := t.node
    freshNodes := t.freshNodes
    usedNodes := taken.reverse ++ s.usedNodes }

/-- What an insertion has done. -/
structure Inserted (s t : State Key) (M : Nat) (leaf : Bool) (frames : List (Frame Key))
    (before : Level Key) (b : Block Key) (after : Level Key) (e : Elem Key)
    (levels : List (Level Key)) (taken : List ShmPosition) (root : Option ShmPosition) :
    Prop where
  up : InsertUp M frames before b after e levels
  stored : Stored t.view M leaf levels
  parents : leaf = false → ∀ cur ∈ levels.head?, Parents t.view cur
  takes : Takes s t taken
  perm : (positions levels).Perm
    (taken ++ positions ((before ++ b :: after) :: frames.map Frame.level))
  keeps : Keeps s t leaf ((before ++ b :: after) :: frames.map Frame.level)
    (e.m_pRecordAddrs :: addresses (before ++ b :: after))
  root_eq : root.getD (rootOf ((before ++ b :: after) :: frames.map Frame.level)) = rootOf levels
  chained : leaf = true → Chained s.view (before ++ b :: after) →
    ∀ cur ∈ levels.head?, Chained t.view cur

/-- What an insertion leaves that found no memory: levels without what could not be entered. -/
structure Abandoned (s t : State Key) (M : Nat) (leaf : Bool) (frames : List (Frame Key))
    (before : Level Key) (b : Block Key) (after : Level Key) (addr : ShmPosition)
    (levels : List (Level Key)) (taken : List ShmPosition) : Prop where
  stored : Stored t.view M leaf levels
  parents : leaf = false → ∀ cur ∈ levels.head?, Parents t.view cur
  kids : leaf = false → ∀ cur ∈ levels.head?, (addresses cur).Nodup ∧
    addresses cur ⊆ addr :: addresses (before ++ b :: after)
  takes : Takes s t taken
  nodup : (positions levels).Nodup
  subset : positions levels ⊆
    taken ++ positions ((before ++ b :: after) :: frames.map Frame.level)
  keeps : Keeps s t leaf ((before ++ b :: after) :: frames.map Frame.level)
    (addr :: addresses (before ++ b :: after))
  root_eq : rootOf levels = rootOf ((before ++ b :: after) :: frames.map Frame.level)

section

variable {s t : State Key} {leaf : Bool} {levels : List (Level Key)} {kids : List ShmPosition}
  {p : ShmPosition}

omit [LinearOrder Key] in
/-- The nodes below keep all but their parents. -/
theorem Keeps.fields (h : Keeps s t leaf levels kids) (hp : p ∉ positions levels ++ s.freshNodes) :
    (t.view p).maxNum = (s.view p).maxNum ∧ (t.view p).brother = (s.view p).brother ∧
      (t.view p).elems = (s.view p).elems := by
  rcases h p hp with heq | ⟨-, -, heq⟩
  · rw [heq]
    exact ⟨rfl, rfl, rfl⟩
  · rw [heq]
    exact ⟨rfl, rfl, rfl⟩

omit [LinearOrder Key] in
/-- A node that is neither in the tree, nor fresh, nor a child keeps what it shows. -/
theorem Keeps.same (h : Keeps s t leaf levels kids) (hp : p ∉ positions levels ++ s.freshNodes)
    (hkid : p ∉ kids) : t.view p = s.view p :=
  (h p hp).resolve_right fun hmem => hkid hmem.2.1

end

section

variable {s : State Key} {M : Nat} {path : Path} {leaf : Bool} {frames : List (Frame Key)}
  {before after : Level Key} {b : Block Key} {addr : ShmPosition}

section

omit [LinearOrder Key]

/-- The block in the middle of a level has its place among those of the level. -/
theorem mem_places_middle : b.pos ∈ places (before ++ b :: after) := by
  simp

/-- Before the insertion the block that takes the element is in memory as it stands. -/
theorem Ready.holds (h : Ready s M path leaf frames before b after addr) :
    Holds s.view M leaf b :=
  h.stored.holds b (by simp)

/-- The parent is in the frame above. -/
theorem Ready.parentAt (h : Ready s M path leaf frames before b after addr) :
    ParentAt s.view path b.pos frames := by
  cases frames with
  | nil =>
      obtain ⟨-, c, hc, hroot, -⟩ := h.stored
      obtain ⟨rfl, rfl⟩ := single_block ⟨c, hc⟩
      obtain rfl := (List.cons.inj hc).1
      exact hroot
  | cons f fs =>
      obtain ⟨-, -, -, hparents, hups⟩ := h.stored
      have hself : f.block ∈ f.level := List.mem_append_right _ List.mem_cons_self
      have helem : f.elem ∈ f.block.elems := List.mem_append_right _ List.mem_cons_self
      have hplace : f.pos ∈ places f.level := List.mem_map_of_mem hself
      have hnodup := (List.nodup_append.mp h.nodup).1
      refine ⟨?_, h.ne_null _ ?_, ?_, h.path f List.mem_cons_self, (hups.holds _ hself).elems⟩
      · have hparent := hparents _ hself _ helem
        rwa [h.leads.1] at hparent
      · simp [hplace]
      · rintro heq
        rw [List.map_cons, positions_cons, List.nodup_append] at hnodup
        exact hnodup.2.2 _ mem_places_middle f.pos
          (List.mem_append_left _ hplace) heq.symm

/-- The block of the insertion is at no other position, and its level apart from those above. -/
theorem Ready.apart (h : Ready s M path leaf frames before b after addr) :
    (∀ c, c ∈ before ∨ c ∈ after → c.pos ≠ b.pos) ∧
      ∀ p ∈ places (before ++ b :: after),
        p ∉ positions (frames.map Frame.level) ∧ p ∉ s.freshNodes := by
  have hnodup := h.nodup
  rw [positions_cons, List.append_assoc, List.nodup_append] at hnodup
  obtain ⟨hcur, -, hups⟩ := hnodup
  rw [places_append, places_cons, List.nodup_append, List.nodup_cons] at hcur
  obtain ⟨-, ⟨hafter, -⟩, hbefore⟩ := hcur
  refine ⟨?_, fun p hp => ⟨fun hmem => ?_, fun hmem => ?_⟩⟩
  · rintro c (hc | hc)
    · exact hbefore _ (List.mem_map_of_mem hc) _ List.mem_cons_self
    · intro heq
      exact hafter (List.mem_map.mpr ⟨c, hc, heq⟩)
  · exact hups p hp p (List.mem_append_left _ hmem) rfl
  · exact hups p hp p (List.mem_append_right _ hmem) rfl

end

/-! ### A node with room -/

/-- Carrying a new least key up the way leaves the parent of every node. -/
theorem touched_parent (v : ShmPosition → View Key) (es : List (Elem Key)) (key : Key)
    (frames : List (Frame Key)) (p : ShmPosition) :
    (touched v es key frames p).parent = (v p).parent := by
  cases frames with
  | nil => rfl
  | cons f fs =>
      by_cases hp : p = f.pos
      · subst hp
        rw [touched, Function.update_self]
      · rw [touched, Function.update_of_ne hp]

/-- Carrying a new least key up the way leaves the brother of every node. -/
theorem touched_brother (v : ShmPosition → View Key) (es : List (Elem Key)) (key : Key)
    (frames : List (Frame Key)) (p : ShmPosition) :
    (touched v es key frames p).brother = (v p).brother := by
  cases frames with
  | nil => rfl
  | cons f fs =>
      by_cases hp : p = f.pos
      · subst hp
        rw [touched, Function.update_self]
      · rw [touched, Function.update_of_ne hp]

/-- Carrying a new least key up the way leaves the nodes that are not on a level above. -/
theorem touched_of_notMem (v : ShmPosition → View Key) (es : List (Elem Key)) (key : Key)
    (frames : List (Frame Key)) {p : ShmPosition} (hp : p ∉ positions (frames.map Frame.level)) :
    touched v es key frames p = v p := by
  cases frames with
  | nil => rfl
  | cons f fs =>
      rw [touched, Function.update_of_ne]
      rintro rfl
      exact hp (by simp [Frame.level, Frame.block])

/-- The children of a touched block name the same parent as before. -/
theorem Parents.touch {v : ShmPosition → View Key} {f : Frame Key} (h : Parents v f.level)
    (es : List (Elem Key)) (key : Key) : Parents v (f.touch es key).level := by
  intro u hu e he
  rw [Frame.level, Frame.touch_before, Frame.touch_after] at hu
  rcases List.mem_append.mp hu with hu | hu
  · exact h u (List.mem_append_left _ hu) e he
  · rcases List.mem_cons.mp hu with rfl | hu
    · have hmem : e.m_pRecordAddrs ∈ f.block.elems.map Elem.m_pRecordAddrs := by
        rw [← f.touch_addresses es key]
        exact List.mem_map_of_mem he
      obtain ⟨e', he', haddr⟩ := List.mem_map.mp hmem
      rw [← haddr, h f.block (List.mem_append_right _ List.mem_cons_self) e' he']
      exact (f.touch_pos es key).symm
    · exact h u (List.mem_append_right _ (List.mem_cons_of_mem _ hu)) e he

omit [LinearOrder Key] in
/-- The root depends only on the places of the levels. -/
theorem rootOf_congr {levels levels' : List (Level Key)}
    (h : levels.map places = levels'.map places) : rootOf levels = rootOf levels' := by
  induction levels generalizing levels' with
  | nil =>
      obtain rfl := List.map_eq_nil_iff.mp h.symm
      rfl
  | cons l ups ih =>
      obtain ⟨l', ups', rfl, hl, hups⟩ := List.map_eq_cons_iff.mp h.symm
      cases ups with
      | nil =>
          obtain rfl := List.map_eq_nil_iff.mp hups
          simp only [rootOf, hl]
      | cons up rest =>
          cases ups' with
          | nil => cases hups
          | cons up' rest' =>
              have hrest : rootOf (up :: rest) = rootOf (up' :: rest') := ih hups.symm
              exact hrest

omit [LinearOrder Key] in
/-- The positions of a tree depend only on the places of its levels. -/
theorem positions_congr {levels levels' : List (Level Key)}
    (h : levels.map places = levels'.map places) : positions levels = positions levels' := by
  rw [positions, positions, List.flatMap_def, List.flatMap_def, h]

/-- The levels above, with the new key. -/
def touchedLevels (es : List (Elem Key)) (key : Key) : List (Frame Key) → List (Level Key)
  | [] => []
  | f :: fs => (f.touch es key).level :: fs.map Frame.level

/-- The touched levels lie at the same places as before. -/
theorem places_touchedLevels (es : List (Elem Key)) (key : Key) (frames : List (Frame Key)) :
    (touchedLevels es key frames).map places = (frames.map Frame.level).map places := by
  cases frames with
  | nil => rfl
  | cons f fs => simp [touchedLevels]

section Room

variable {t : State Key} {key : Key}

/-- The level with an element more in one of its nodes. -/
abbrev roomier (before : Level Key) (b : Block Key) (after : Level Key) (addr : ShmPosition)
    (key : Key) : Level Key :=
  before ++ ⟨b.pos, putIn b.elems (entry addr key)⟩ :: after

/-- What `insertElem` makes of the nodes. -/
def Put (s t : State Key) (frames : List (Frame Key)) (b : Block Key) (addr : ShmPosition)
    (key : Key) : Prop :=
  t.view = touched (Function.update s.view b.pos { s.view b.pos with
    elems := putIn b.elems (entry addr key) }) b.elems key frames

/-- After the element is put, its block has the elements with the new one among them. -/
theorem Put.self (hput : Put s t frames b addr key)
    (hnot : b.pos ∉ positions (frames.map Frame.level)) :
    t.view b.pos = { s.view b.pos with elems := putIn b.elems (entry addr key) } := by
  rw [hput, touched_of_notMem _ _ _ _ hnot, Function.update_self]

/-- Putting an element leaves the nodes that are neither its block nor on a level above. -/
theorem Put.same (hput : Put s t frames b addr key) {p : ShmPosition} (hp : p ≠ b.pos)
    (hup : p ∉ positions (frames.map Frame.level)) : t.view p = s.view p := by
  rw [hput, touched_of_notMem _ _ _ _ hup, Function.update_of_ne hp]

/-- Putting an element leaves the parent of every node. -/
theorem Put.parent (hput : Put s t frames b addr key) (p : ShmPosition) :
    (t.view p).parent = (s.view p).parent := by
  rw [hput, touched_parent]
  by_cases hp : p = b.pos
  · subst hp
    rw [Function.update_self]
  · rw [Function.update_of_ne hp]

/-- Putting an element leaves the brother of every node. -/
theorem Put.brother (hput : Put s t frames b addr key) (p : ShmPosition) :
    (t.view p).brother = (s.view p).brother := by
  rw [hput, touched_brother]
  by_cases hp : p = b.pos
  · subst hp
    rw [Function.update_self]
  · rw [Function.update_of_ne hp]

/-- The other nodes of the level stay as they are. -/
theorem Put.level (hput : Put s t frames b addr key)
    (h : Ready s M path leaf frames before b after addr) {c : Block Key}
    (hc : c ∈ roomier before b after addr key) :
    c = ⟨b.pos, putIn b.elems (entry addr key)⟩ ∨
      c ∈ before ++ b :: after ∧ t.view c.pos = s.view c.pos := by
  obtain ⟨hbeside, hups⟩ := h.apart
  have hother : c ∈ before ∨ c ∈ after → c ∈ before ++ b :: after ∧
      t.view c.pos = s.view c.pos := by
    intro hc
    have hin : c ∈ before ++ b :: after := by
      rcases hc with hc | hc <;> simp [hc]
    exact ⟨hin, hput.same (hbeside c hc) (hups c.pos (List.mem_map_of_mem hin)).1⟩
  rcases List.mem_append.mp hc with hc | hc
  · exact Or.inr (hother (Or.inl hc))
  · rcases List.mem_cons.mp hc with hc | hc
    · exact Or.inl hc
    · exact Or.inr (hother (Or.inr hc))

/-- Once the element is put, every block of its level is in memory as it stands, the one with the
new element included. -/
theorem Put.holds (hput : Put s t frames b addr key)
    (h : Ready s M path leaf frames before b after addr) (hroom : b.elems.length < M)
    {c : Block Key} (hc : c ∈ roomier before b after addr key) : Holds t.view M leaf c := by
  have hlength := length_putIn b.elems (entry addr key)
  rcases hput.level h hc with rfl | ⟨hc, hpos⟩
  · have hself := hput.self (h.apart.2 b.pos mem_places_middle).1
    refine ⟨?_, ?_, ?_, by dsimp only; omega⟩
    · rw [hself]
      exact h.holds.maxNum
    · rw [hself]
      exact h.holds.leaf_iff
    · rw [hself]
  · exact (h.stored.holds c hc).congr (by rw [hpos]) (by rw [hpos]) (by rw [hpos])

/-- The levels are stored with the new element. -/
theorem Put.stored (hput : Put s t frames b addr key)
    (h : Ready s M path leaf frames before b after addr) (hroom : b.elems.length < M) :
    Stored t.view M leaf (roomier before b after addr key :: touchedLevels b.elems key frames) := by
  have hall : ∀ c ∈ roomier before b after addr key, Holds t.view M leaf c :=
    fun c hc => hput.holds h hroom hc
  have hlength := length_putIn b.elems (entry addr key)
  cases frames with
  | nil =>
      obtain ⟨-, c, hc, hroot, hfilled⟩ := h.stored
      obtain ⟨rfl, rfl⟩ := single_block ⟨c, hc⟩
      obtain rfl := (List.cons.inj hc).1
      refine ⟨hall, _, rfl, (hput.parent b.pos).trans hroot, fun _ hnil => ?_⟩
      have hzero := congrArg List.length hnil
      dsimp only [List.length_nil] at hzero
      omega
  | cons f fs =>
      obtain ⟨-, hhalf, hperm, hparents, hstored⟩ := h.stored
      refine ⟨hall, fun c hc => ?_, ?_, ?_, ?_⟩
      · rcases hput.level h hc with rfl | ⟨hc, -⟩
        · have hb := hhalf b (by simp)
          dsimp only
          omega
        · exact hhalf c hc
      · rw [Frame.addresses_touch]
        simpa using hperm
      · refine Parents.touch (fun u hu e he => ?_) b.elems key
        rw [hput.parent]
        exact hparents u hu e he
      · rw [hput, touched]
        refine Stored.touch (hstored.congr fun p hp => ?_) ?_ b.elems key
        · refine Function.update_of_ne ?_ _ _
          rintro rfl
          exact (h.apart.2 b.pos mem_places_middle).1 hp
        · have hnodup := (List.nodup_append.mp h.nodup).1
          rw [List.map_cons, positions_cons] at hnodup
          exact (List.nodup_append.mp hnodup).2.1

end Room

/-- **A node with room.** -/
theorem nodeInsert_room (h : Ready s M path leaf frames before b after addr)
    (hroom : b.elems.length < M) (rounds : Nat) (key : Key) :
    ∃ t levels, nodeInsert path (rounds + 1) s b.pos key addr = .ok (t, none) ∧
      Inserted s t M leaf frames before b after (entry addr key) levels [] none := by
  have hholds := h.holds
  obtain ⟨t, ht, hwrites, hview⟩ := insertElem_spec h.parentAt key addr
  rw [hholds.elems] at hview
  have hput : Put s t frames b addr key := hview
  have hnode : nodeInsert path (rounds + 1) s b.pos key addr = .ok (t, none) := by
    have hmax : (s.node b.pos).m_iMaxNum = M := hholds.maxNum
    have hnum : (s.node b.pos).m_pCurrentNum = b.elems.length := by
      rw [Node.currentNum_eq]
      exact congrArg List.length hholds.elems
    unfold nodeInsert
    dsimp only
    rw [hmax, hnum, if_neg (by omega), if_pos hroom, ht]
    rfl
  have hplaces : (roomier before b after addr key :: touchedLevels b.elems key frames).map places =
      ((before ++ b :: after) :: frames.map Frame.level).map places := by
    rw [List.map_cons, List.map_cons, places_touchedLevels]
    simp
  refine ⟨t, roomier before b after addr key :: touchedLevels b.elems key frames, hnode, ?_⟩
  constructor
  · cases frames with
    | nil => exact .roomTop hroom
    | cons f fs => exact .room hroom
  · exact hput.stored h hroom
  · rintro hleaf cur ⟨⟩
    have hkids := h.kids hleaf
    intro u hu e he
    rw [hput.parent]
    rcases hput.level h hu with rfl | ⟨hu, -⟩
    · rcases List.mem_cons.mp ((putIn_perm _ _).subset he) with rfl | he
      · exact hkids.parent
      · exact hkids.parents b (by simp) e he
    · exact hkids.parents u hu e he
  · have hfresh : t.freshNodes = s.freshNodes := by rw [hwrites]
    refine ⟨hfresh.symm, ?_⟩
    rw [List.reverse_nil, List.nil_append, hfresh]
    exact hwrites
  · rw [positions_congr hplaces]
    exact List.Perm.refl _
  · intro p hp
    rw [List.mem_append, positions_cons, List.mem_append, not_or, not_or] at hp
    refine Or.inl (hput.same ?_ hp.1.2)
    rintro rfl
    exact hp.1.1 mem_places_middle
  · exact rootOf_congr hplaces.symm
  · rintro - hchained cur ⟨⟩
    have hcur : places (roomier before b after addr key) = places (before ++ b :: after) := by
      simp
    rw [Chained, hcur, LinkedChain.path_congr fun p _ => hput.brother p]
    exact hchained

/-! ### A full node -/

/-- The brother that a node gets, and the one that its new brother gets. -/
def brothers (leaf : Bool) (q brother : ShmPosition) : ShmPosition × ShmPosition :=
  if leaf then (q, brother) else (brother, nullShmPos)

/-- What the first three steps of a split leave in memory. -/
theorem Ready.splitSteps (h : Ready s M path leaf frames before b after addr) (hM : 2 ≤ M)
    (hfull : b.elems.length = M) {q : ShmPosition} {fresh : List ShmPosition}
    (hq : s.freshNodes = q :: fresh) (key : Key) :
    let s' := { s with freshNodes := fresh, usedNodes := q :: s.usedNodes }
    let cut := halves M b.elems (entry addr key)
    ∃ t, BTree.splitSteps s' path b.pos q key addr = .ok t ∧ Writes s' t ∧
      t.view b.pos = { s.view b.pos with
        elems := cut.1, brother := (brothers leaf q (s.view b.pos).brother).1 } ∧
      t.view q = ⟨(brothers leaf q (s.view b.pos).brother).2, nullShmPos, M, cut.2⟩ ∧
      ∀ p, p ≠ b.pos → p ≠ q → t.view p =
        if leaf = false ∧ p ∈ cut.2.map Elem.m_pRecordAddrs then
          { touched s.view (b.elems.take (M / 2)) key frames p with parent := q }
        else touched s.view (b.elems.take (M / 2)) key frames p := by
  intro s' cut
  have hholds := h.holds
  obtain ⟨-, hups⟩ := h.apart
  have hself := hups b.pos mem_places_middle
  have hne : b.pos ≠ q := by
    rintro rfl
    exact hself.2 (by simp [hq])
  have hnew : q ∉ positions (frames.map Frame.level) := by
    intro hmem
    have hnodup := h.nodup
    rw [hq, positions_cons, List.nodup_append] at hnodup
    exact hnodup.2.2 q (List.mem_append_right _ hmem) q List.mem_cons_self rfl
  have hframe : ∀ f ∈ frames, f.pos ≠ q := by
    rintro f hf rfl
    refine hnew (List.mem_flatMap.mpr ⟨f.level, List.mem_map_of_mem hf, ?_⟩)
    simp [Frame.level, Frame.block]
  obtain ⟨t, ht, hwrites, hview⟩ := splitSteps_spec (s := s') hM hholds.maxNum
    ((congrArg List.length hholds.elems).trans hfull) h.parentAt hne hframe key addr
  have hsame : s'.view = s.view := rfl
  rw [hsame, hholds.elems] at hview
  refine ⟨t, ht, hwrites, ?_⟩
  -- the views before the new node is registered
  generalize hv : touched (Function.update (Function.update s.view q
      ⟨nullShmPos, nullShmPos, M, cut.2⟩) b.pos { s.view b.pos with elems := cut.1 })
    (b.elems.take (M / 2)) key frames = v at hview
  have hvself : v b.pos = { s.view b.pos with elems := cut.1 } := by
    rw [← hv, touched_of_notMem _ _ _ _ hself.1, Function.update_self]
  have hvnew : v q = ⟨nullShmPos, nullShmPos, M, cut.2⟩ := by
    rw [← hv, touched_of_notMem _ _ _ _ hnew, Function.update_of_ne hne.symm, Function.update_self]
  have hvother : ∀ p, p ≠ b.pos → p ≠ q →
      v p = touched s.view (b.elems.take (M / 2)) key frames p := by
    intro p hp hpq
    rw [← hv]
    cases frames with
    | nil => rw [touched, Function.update_of_ne hp, Function.update_of_ne hpq, touched]
    | cons f fs =>
        have hfb : f.pos ≠ b.pos := h.parentAt.2.2.1
        have hfq := hframe f List.mem_cons_self
        rw [touched, touched]
        by_cases hpf : p = f.pos
        · subst hpf
          rw [Function.update_self, Function.update_self, Function.update_of_ne hfb,
            Function.update_of_ne hfq]
        · rw [Function.update_of_ne hpf, Function.update_of_ne hpf, Function.update_of_ne hp,
            Function.update_of_ne hpq]
  rw [hview, registered, hvself, hvnew]
  cases leaf with
  | true =>
      have hbrother := hholds.leaf_iff.mp rfl
      rw [if_pos hbrother]
      refine ⟨?_, ?_, fun p hp hpq => ?_⟩
      · rw [Function.update_self]
        rfl
      · rw [Function.update_of_ne hne.symm, Function.update_self]
        rfl
      · rw [Function.update_of_ne hp, Function.update_of_ne hpq, hvother p hp hpq,
          if_neg fun hleaf => Bool.noConfusion hleaf.1]
  | false =>
      have hbrother : ¬ (s.view b.pos).brother ≠ nullShmPos :=
        fun hne => Bool.noConfusion (hholds.leaf_iff.mpr hne)
      rw [if_neg hbrother]
      have hkids := h.kids rfl
      have hapart : ∀ p ∈ cut.2.map Elem.m_pRecordAddrs, p ≠ b.pos ∧ p ≠ q := by
        intro p hp
        have hout := hkids.apart p (mem_of_mem_right hp)
        constructor
        · rintro rfl
          exact hout (List.mem_append_left _ (List.mem_append_left _ mem_places_middle))
        · rintro rfl
          exact hout (List.mem_append_right _ (by simp [hq]))
      refine ⟨?_, ?_, fun p hp hpq => ?_⟩
      · dsimp only
        rw [if_neg fun hmem => (hapart _ hmem).1 rfl, hvself]
        rfl
      · dsimp only
        rw [if_neg fun hmem => (hapart _ hmem).2 rfl, hvnew]
        rfl
      · dsimp only
        rw [hvother p hp hpq]
        by_cases hmem : p ∈ cut.2.map Elem.m_pRecordAddrs
        · rw [if_pos hmem, if_pos ⟨rfl, hmem⟩]
        · rw [if_neg hmem, if_neg fun h => hmem h.2]

/-- A level whose block `b` was cut in two, in memory. -/
structure Halved (v w : ShmPosition → View Key) (M : Nat) (leaf : Bool) (old cur : Level Key)
    (q : ShmPosition) : Prop where
  holds : ∀ c ∈ cur, Holds w M leaf c
  half : ∀ c ∈ cur, M / 2 ≤ c.elems.length
  places : (places cur).Perm (q :: places old)
  parents : leaf = false → Parents w cur
  chained : leaf = true → Chained v old → Chained w cur

omit [LinearOrder Key] in
/-- A block of a cut level is one of the two halves or was there before. -/
theorem mem_cut {before after : Level Key} {x y c : Block Key}
    (hc : c ∈ before ++ x :: y :: after) : c = x ∨ c = y ∨ c ∈ before ∨ c ∈ after := by
  rcases List.mem_append.mp hc with hc | hc
  · exact Or.inr (Or.inr (Or.inl hc))
  · rcases List.mem_cons.mp hc with hc | hc
    · exact Or.inl hc
    · rcases List.mem_cons.mp hc with hc | hc
      · exact Or.inr (Or.inl hc)
      · exact Or.inr (Or.inr (Or.inr hc))

omit [LinearOrder Key] in
/-- The nodes below know their parents after a split: those in the new node have it, and the others
keep theirs. -/
theorem Kids.cut {v w : ShmPosition → View Key} {before after : Level Key} {b : Block Key}
    {addr q : ShmPosition} {others : List ShmPosition}
    (h : Kids v (before ++ b :: after) b.pos addr others) {e : Elem Key} {l r : List (Elem Key)}
    (he : e.m_pRecordAddrs = addr) (hperm : (l ++ r).Perm (e :: b.elems))
    (hkid : ∀ p ∈ addr :: addresses (before ++ b :: after), (w p).parent =
      if p ∈ r.map Elem.m_pRecordAddrs then q else (v p).parent) :
    Parents w (before ++ ⟨b.pos, l⟩ :: ⟨q, r⟩ :: after) := by
  obtain ⟨hold, hadd, -, hnodup⟩ := h
  have hlr : ((l ++ r).map Elem.m_pRecordAddrs).Nodup := by
    rw [(hperm.map _).nodup_iff, List.map_cons, he]
    refine hnodup.sublist (List.Sublist.cons_cons _ ?_)
    rw [addresses_append, addresses_cons]
    exact (List.sublist_append_left _ _).trans (List.sublist_append_right _ _)
  have hlist : ∀ a ∈ l ++ r, a.m_pRecordAddrs ∈ addr :: addresses (before ++ b :: after) ∧
      (v a.m_pRecordAddrs).parent = b.pos := by
    intro a ha
    rcases List.mem_cons.mp (hperm.subset ha) with rfl | ha
    · rw [he]
      exact ⟨List.mem_cons_self, hadd⟩
    · refine ⟨List.mem_cons_of_mem _ (List.mem_map_of_mem ?_), hold b (by simp) a ha⟩
      simp [ha]
  rintro u hu a ha
  rcases mem_cut hu with rfl | rfl | hu
  · have hin := hlist a (List.mem_append_left _ ha)
    rw [hkid _ hin.1, if_neg, hin.2]
    intro hmem
    rw [List.map_append, List.nodup_append] at hlr
    exact hlr.2.2 _ (List.mem_map_of_mem ha) _ hmem rfl
  · rw [hkid _ (hlist a (List.mem_append_right _ ha)).1, if_pos (List.mem_map_of_mem ha)]
  · have haddr : a.m_pRecordAddrs ∈ addresses before ∨ a.m_pRecordAddrs ∈ addresses after := by
      rcases hu with hu | hu
      · exact Or.inl (mem_addresses hu ha)
      · exact Or.inr (mem_addresses hu ha)
    have hall : a.m_pRecordAddrs ∈ addr :: addresses (before ++ b :: after) := by
      rcases haddr with haddr | haddr <;> simp [haddr]
    have hin : u ∈ before ++ b :: after := by
      rcases hu with hu | hu <;> simp [hu]
    rw [hkid _ hall, if_neg, hold u hin a ha]
    intro hmem
    obtain ⟨a', ha', heq⟩ := List.mem_map.mp hmem
    -- it would be an element of the split node as well
    rw [List.nodup_cons, addresses_append, addresses_cons, List.nodup_append,
      List.nodup_append] at hnodup
    obtain ⟨hnotAddr, -, ⟨-, -, hbAfter⟩, hbefore⟩ := hnodup
    rcases List.mem_cons.mp (hperm.subset (List.mem_append_right _ ha')) with rfl | ha'
    · rw [he] at heq
      rw [heq] at hnotAddr
      apply hnotAddr
      rcases haddr with haddr | haddr <;> simp [haddr]
    · have hb : a.m_pRecordAddrs ∈ b.elems.map Elem.m_pRecordAddrs :=
        heq ▸ List.mem_map_of_mem ha'
      rcases haddr with haddr | haddr
      · exact hbefore _ haddr _ (List.mem_append_left _ hb) rfl
      · exact hbAfter _ hb _ haddr rfl

/-- **The level of a split**, whatever else was written. -/
theorem Ready.assemble (h : Ready s M path leaf frames before b after addr) (hM : 2 ≤ M)
    (hfull : b.elems.length = M) {q : ShmPosition} (hq : q ∈ s.freshNodes) {e : Elem Key}
    (he : e.m_pRecordAddrs = addr) {w : ShmPosition → View Key}
    (hself : (w b.pos).maxNum = M ∧ (w b.pos).elems = (halves M b.elems e).1 ∧
      (w b.pos).brother = (brothers leaf q (s.view b.pos).brother).1)
    (hnew : (w q).maxNum = M ∧ (w q).elems = (halves M b.elems e).2 ∧
      (w q).brother = (brothers leaf q (s.view b.pos).brother).2)
    (hbeside : ∀ c, c ∈ before ∨ c ∈ after → (w c.pos).maxNum = (s.view c.pos).maxNum ∧
      (w c.pos).brother = (s.view c.pos).brother ∧ (w c.pos).elems = (s.view c.pos).elems)
    (hkids : leaf = false → ∀ p ∈ addr :: addresses (before ++ b :: after), (w p).parent =
      if p ∈ (halves M b.elems e).2.map Elem.m_pRecordAddrs then q else (s.view p).parent) :
    Halved s.view w M leaf (before ++ b :: after)
      (before ++ ⟨b.pos, (halves M b.elems e).1⟩ :: ⟨q, (halves M b.elems e).2⟩ :: after) q := by
  have hholds := h.holds
  obtain ⟨hlow, hhigh⟩ := halves_length e hM hfull
  have hcutPerm := halves_perm M b.elems e
  generalize (halves M b.elems e).1 = l at *
  generalize (halves M b.elems e).2 = r at *
  generalize hcur : before ++ (⟨b.pos, l⟩ : Block Key) :: ⟨q, r⟩ :: after = cur
  have hmem : ∀ c ∈ cur, c = ⟨b.pos, l⟩ ∨ c = ⟨q, r⟩ ∨ c ∈ before ∨ c ∈ after :=
    fun c hc => mem_cut (hcur ▸ hc)
  have hin : ∀ c, c ∈ before ∨ c ∈ after → c ∈ before ++ b :: after := by
    rintro c (hc | hc) <;> simp [hc]
  have hhalf : ∀ c, c ∈ before ∨ c ∈ after → M / 2 ≤ c.elems.length := by
    intro c hc
    cases frames with
    | nil =>
        obtain ⟨-, d, hd, -⟩ := h.stored
        obtain ⟨rfl, rfl⟩ := single_block ⟨d, hd⟩
        simp at hc
    | cons f fs => exact h.stored.2.1 c (hin c hc)
  refine ⟨fun c hc => ?_, fun c hc => ?_, ?_, fun hleaf => ?_, fun hleaf => ?_⟩
  · rcases hmem c hc with rfl | rfl | hc
    · refine ⟨hself.1, ?_, hself.2.1, hlow.2⟩
      rw [hself.2.2]
      cases leaf with
      | true => exact iff_of_true rfl (h.ne_null q (List.mem_append_right _ hq))
      | false => exact hholds.leaf_iff
    · refine ⟨hnew.1, ?_, hnew.2.1, hhigh.2⟩
      rw [hnew.2.2]
      cases leaf with
      | true => exact hholds.leaf_iff
      | false => exact iff_of_false Bool.false_ne_true fun hne => hne rfl
    · obtain ⟨hmax, hbrother, helems⟩ := hbeside c hc
      exact (h.stored.holds c (hin c hc)).congr hmax hbrother helems
  · rcases hmem c hc with rfl | rfl | hc
    · exact hlow.1
    · exact hhigh.1
    · exact hhalf c hc
  · simp only [← hcur, places_append, places_cons]
    exact ((List.Perm.swap q b.pos (places after)).append_left _).trans List.perm_middle
  · exact hcur ▸ (h.kids hleaf).cut he hcutPerm (hkids hleaf)
  · subst hleaf
    intro hchained
    have hhead : (places cur).headD nullShmPos =
        (places (before ++ b :: after)).headD nullShmPos := by
      rw [← hcur]
      cases before <;> rfl
    have hcur : places cur = places before ++ b.pos :: q :: places after := by
      simp only [← hcur, places_append, places_cons]
    rw [Chained, places_append, places_cons] at hchained
    rw [Chained, hhead, hcur, places_append, places_cons]
    refine LinkedChain.path_insert hchained (h.ne_null q (List.mem_append_right _ hq))
      hself.2.2 hnew.2.2 fun p hp => ?_
    obtain ⟨c, hc, rfl⟩ : ∃ c, (c ∈ before ∨ c ∈ after) ∧ c.pos = p := by
      rcases hp with hp | hp
      · obtain ⟨c, hc, rfl⟩ := List.mem_map.mp hp
        exact ⟨c, Or.inl hc, rfl⟩
      · obtain ⟨c, hc, rfl⟩ := List.mem_map.mp hp
        exact ⟨c, Or.inr hc, rfl⟩
    exact (hbeside c hc).2.1

end

omit [LinearOrder Key] in
/-- The key of slot 0 is the key of the first element. -/
theorem keyOf_zero {s : State Key} {p : ShmPosition} {a : Elem Key} {l : List (Elem Key)}
    (h : (s.view p).elems = a :: l) : s.keyOf p 0 = a.m_pKeyValue := by
  have hlt : 0 < (s.node p).view.elems.length := by
    change 0 < (s.view p).elems.length
    simp [h]
  rw [State.keyOf, Node.elemt_eq _ hlt]
  congr 1
  exact List.getElem_of_eq h hlt

/-- A full node asks for memory and is split. -/
theorem nodeInsert_full {s : State Key} {path : Path} {p : ShmPosition} {M : Nat} (hM : 2 ≤ M)
    (hmax : (s.view p).maxNum = M) (hfull : (s.view p).elems.length = M) (rounds : Nat) (key : Key)
    (addr : ShmPosition) :
    nodeInsert path (rounds + 1) s p key addr = s.allocateNode.bind fun (q, t) =>
      (splitSteps t path p q key addr).bind fun t => (newParent t path p).bind fun (t, root) =>
        (nodeInsert path rounds (t.setParentNode q (t.node p).m_pParentNode)
          ((t.setParentNode q (t.node p).m_pParentNode).node p).m_pParentNode
          ((t.setParentNode q (t.node p).m_pParentNode).keyOf q 0) q).bind fun (t, root') =>
            .ok (t, root'.or root) := by
  have hnum : (s.node p).m_pCurrentNum = M := (Node.currentNum_eq _).trans hfull
  have hmax' : (s.node p).m_iMaxNum = M := hmax
  rw [nodeInsert]
  dsimp only
  rw [hmax', hnum, if_neg (by omega), if_neg (Nat.lt_irrefl M)]
  rfl

/-- A root that was split gets a parent with one element. -/
theorem newParent_spec {t : State Key} (path : Path) {p r : ShmPosition} {M : Nat}
    {fresh : List ShmPosition} {a : Elem Key} {l : List (Elem Key)}
    (hroot : (t.view p).parent = nullShmPos) (hfresh : t.freshNodes = r :: fresh)
    (hmax : (t.view p).maxNum = M) (helems : (t.view p).elems = a :: l) (hne : r ≠ p) :
    ∃ u, newParent t path p = .ok (u, some r) ∧
      u = { t with node := u.node, freshNodes := fresh, usedNodes := r :: t.usedNodes } ∧
      u.view = Function.update (Function.update t.view p { t.view p with parent := r }) r
        ⟨nullShmPos, nullShmPos, M, [entry p a.m_pKeyValue]⟩ := by
  have hnull : (t.node p).m_pParentNode = nullShmPos := hroot
  have halloc : t.allocateNode =
      .ok (r, { t with freshNodes := fresh, usedNodes := r :: t.usedNodes }) := by
    rw [State.allocateNode, hfresh]
  generalize ht : ({ t with freshNodes := fresh, usedNodes := r :: t.usedNodes } : State Key) = t₁
    at halloc
  generalize hu : (t₁.setParentNode p r).setNode r (((t₁.setParentNode p r).node r).initial
    ((t₁.setParentNode p r).node p).m_iMaxNum) = t₂
  have hview₁ : (t₁.setParentNode p r).view =
      Function.update t.view p { t.view p with parent := r } := by
    rw [← ht]
    exact view_setParentNode _ _ _
  have hmax₁ : ((t₁.setParentNode p r).node p).m_iMaxNum = M := by
    have hself : (t₁.setParentNode p r).view p = { t.view p with parent := r } := by
      rw [hview₁, Function.update_self]
    exact (congrArg View.maxNum hself).trans hmax
  have hview₂ : t₂.view = Function.update (Function.update t.view p { t.view p with parent := r })
      r ⟨nullShmPos, nullShmPos, M, []⟩ := by
    rw [← hu, view_setNode, hview₁, hmax₁]
    rfl
  have hat : t₂.view r = ⟨nullShmPos, nullShmPos, M, []⟩ := by
    rw [hview₂, Function.update_self]
  have hkey : t₂.keyOf p 0 = a.m_pKeyValue := by
    refine keyOf_zero (l := l) ?_
    rw [hview₂, Function.update_of_ne hne.symm, Function.update_self]
    exact helems
  obtain ⟨u, hinsert, hwrites, hview⟩ := insertElem_spec
    (show ParentAt t₂.view path r [] from congrArg View.parent hat) a.m_pKeyValue p
  refine ⟨u, ?_, ?_, ?_⟩
  · unfold newParent
    rw [if_pos hnull, halloc]
    change (insertElem ((t₁.setParentNode p r).setNode r (((t₁.setParentNode p r).node r).initial
      ((t₁.setParentNode p r).node p).m_iMaxNum)) path r _ p).bind _ = _
    rw [hu, hkey, hinsert]
    rfl
  · rw [hwrites, ← hu, ← ht]
    rfl
  · rw [hview, touched, hat, hview₂, Function.update_idem]
    rfl

/-- What is in memory when the new node has been registered below. -/
structure Cut (s t : State Key) (M : Nat) (leaf : Bool) (frames : List (Frame Key))
    (b : Block Key) (e : Elem Key) (q : ShmPosition) (l : List (Elem Key)) (c : Elem Key)
    (r : List (Elem Key)) : Prop where
  halves : halves M b.elems e = (l, c :: r)
  ne_nil : l ≠ []
  fresh : s.freshNodes = q :: t.freshNodes
  rest : t = { s with
    node := t.node
    freshNodes := t.freshNodes
    usedNodes := q :: s.usedNodes }
  self : t.view b.pos = { s.view b.pos with
    elems := l, brother := (brothers leaf q (s.view b.pos).brother).1 }
  new : t.view q = ⟨(brothers leaf q (s.view b.pos).brother).2, nullShmPos, M, c :: r⟩
  other : ∀ p, p ≠ b.pos → p ≠ q → t.view p =
    if leaf = false ∧ p ∈ (c :: r).map Elem.m_pRecordAddrs then
      { touched s.view (b.elems.take (M / 2)) e.m_pKeyValue frames p with parent := q }
    else touched s.view (b.elems.take (M / 2)) e.m_pKeyValue frames p

section

variable {s : State Key} {M : Nat} {path : Path} {leaf : Bool} {frames : List (Frame Key)}
  {before after : Level Key} {b : Block Key} {addr : ShmPosition}

/-- Inserting into a full block cuts it in two; what is left of the insertion is a new parent, if
the block has none, and the insertion of the right half into the parent. -/
theorem Ready.cut (h : Ready s M path leaf frames before b after addr) (hM : 2 ≤ M)
    (hfull : b.elems.length = M) {q : ShmPosition} {fresh : List ShmPosition}
    (hfresh : s.freshNodes = q :: fresh) (k : Nat) (key : Key) :
    ∃ t l c r, Cut s t M leaf frames b (entry addr key) q l c r ∧
      nodeInsert path (k + 1) s b.pos key addr =
        (newParent t path b.pos).bind fun (t, root) =>
          (nodeInsert path k (t.setParentNode q (t.node b.pos).m_pParentNode)
            ((t.setParentNode q (t.node b.pos).m_pParentNode).node b.pos).m_pParentNode
            ((t.setParentNode q (t.node b.pos).m_pParentNode).keyOf q 0) q).bind fun (t, root') =>
              .ok (t, root'.or root) := by
  have hholds := h.holds
  have halloc : s.allocateNode =
      .ok (q, { s with freshNodes := fresh, usedNodes := q :: s.usedNodes }) := by
    rw [State.allocateNode, hfresh]
  obtain ⟨t, hsteps, hwrites, hself, hnew, hother⟩ := h.splitSteps hM hfull hfresh key
  obtain ⟨hlow, hhigh⟩ := halves_length (entry addr key) hM hfull
  have hhalf : 0 < M / 2 := Nat.div_pos hM (by decide)
  obtain ⟨l, c, r, hcut⟩ : ∃ l c r, BTree.halves M b.elems (entry addr key) = (l, c :: r) := by
    obtain ⟨c, r, hr⟩ := List.exists_cons_of_length_pos
      (show 0 < (BTree.halves M b.elems (entry addr key)).2.length by omega)
    exact ⟨_, c, r, Prod.ext rfl hr⟩
  have hl : l ≠ [] := by
    rintro rfl
    rw [hcut, List.length_nil] at hlow
    omega
  dsimp only at hself hnew hother
  rw [hcut] at hself hnew hother
  have htfresh : t.freshNodes = fresh := by rw [hwrites]
  refine ⟨t, l, c, r, ⟨hcut, hl, by rw [hfresh, htfresh], ?_, hself, hnew, hother⟩, ?_⟩
  · rw [htfresh]
    exact hwrites
  · rw [nodeInsert_full hM hholds.maxNum ((congrArg List.length hholds.elems).trans hfull), halloc]
    change (BTree.splitSteps _ path b.pos q key addr).bind _ = _
    rw [hsteps]
    rfl

/-- **The level that was cut**, whatever else the levels above have written. -/
theorem Cut.assemble {t : State Key} {q : ShmPosition} {l r : List (Elem Key)} {c : Elem Key}
    {key : Key} (hc : Cut s t M leaf frames b (entry addr key) q l c r)
    (h : Ready s M path leaf frames before b after addr) (hM : 2 ≤ M)
    (hfull : b.elems.length = M) {w : ShmPosition → View Key}
    (hfields : ∀ p ∈ q :: places (before ++ b :: after), (w p).maxNum = (t.view p).maxNum ∧
      (w p).brother = (t.view p).brother ∧ (w p).elems = (t.view p).elems)
    (hkids : leaf = false → ∀ p ∈ addr :: addresses (before ++ b :: after), w p = t.view p) :
    Halved s.view w M leaf (before ++ b :: after)
      (before ++ ⟨b.pos, l⟩ :: ⟨q, c :: r⟩ :: after) q := by
  obtain ⟨hbeside, hapart⟩ := h.apart
  have hq : q ∈ s.freshNodes := by simp [hc.fresh]
  have hqcur : q ∉ places (before ++ b :: after) := fun hmem => (hapart q hmem).2 hq
  have hself := hfields b.pos (List.mem_cons_of_mem _ mem_places_middle)
  have hnew := hfields q List.mem_cons_self
  rw [hc.self] at hself
  rw [hc.new] at hnew
  have hsame : ∀ p, p ≠ b.pos → p ≠ q → p ∉ positions (frames.map Frame.level) →
      t.view p = if leaf = false ∧ p ∈ (c :: r).map Elem.m_pRecordAddrs then
        { s.view p with parent := q } else s.view p := by
    intro p hp hpq hup
    rw [hc.other p hp hpq, touched_of_notMem _ _ _ _ hup]
  have hbrothers : ∀ d, d ∈ before ∨ d ∈ after → (w d.pos).maxNum = (s.view d.pos).maxNum ∧
      (w d.pos).brother = (s.view d.pos).brother ∧ (w d.pos).elems = (s.view d.pos).elems := by
    intro d hd
    have hmem : d.pos ∈ places (before ++ b :: after) := by
      refine List.mem_map_of_mem ?_
      rcases hd with hd | hd <;> simp [hd]
    have hdq : d.pos ≠ q := fun heq => hqcur (heq ▸ hmem)
    have hd' := hfields d.pos (List.mem_cons_of_mem _ hmem)
    rw [hsame d.pos (hbeside d hd) hdq (hapart d.pos hmem).1] at hd'
    split_ifs at hd' <;> exact hd'
  have hchildren : leaf = false → ∀ p ∈ addr :: addresses (before ++ b :: after), (w p).parent =
      if p ∈ (c :: r).map Elem.m_pRecordAddrs then q else (s.view p).parent := by
    intro hleaf p hp
    have hout := (h.kids hleaf).apart p hp
    rw [List.mem_append, positions_cons, List.mem_append, not_or, not_or] at hout
    have hpb : p ≠ b.pos := by
      rintro rfl
      exact hout.1.1 mem_places_middle
    have hpq : p ≠ q := by
      rintro rfl
      exact hout.2 hq
    rw [hkids hleaf p hp, hsame p hpb hpq hout.1.2]
    by_cases hmem : p ∈ (c :: r).map Elem.m_pRecordAddrs
    · rw [if_pos ⟨hleaf, hmem⟩, if_pos hmem]
    · rw [if_neg fun h => hmem h.2, if_neg hmem]
  have hassembled := h.assemble (e := entry addr key) hM hfull hq rfl (w := w)
    (by
      rw [hc.halves]
      exact ⟨hself.1.trans h.holds.maxNum, hself.2.2, hself.2.1⟩)
    (by
      rw [hc.halves]
      exact ⟨hnew.1, hnew.2.2, hnew.2.1⟩)
    hbrothers
    (by
      rw [hc.halves]
      exact hchildren)
  rw [hc.halves] at hassembled
  exact hassembled

/-- A node of the level that was cut, or above it, is none of the children that got a new parent. -/
theorem Cut.view_eq {t : State Key} {q : ShmPosition} {l r : List (Elem Key)} {c : Elem Key}
    {key : Key} (hc : Cut s t M leaf frames b (entry addr key) q l c r)
    (h : Ready s M path leaf frames before b after addr) {p : ShmPosition}
    (hp : p ∈ positions ((before ++ b :: after) :: frames.map Frame.level)) (hpb : p ≠ b.pos) :
    t.view p = touched s.view (b.elems.take (M / 2)) key frames p := by
  have hq : q ∈ s.freshNodes := by simp [hc.fresh]
  have hpq : p ≠ q := by
    rintro rfl
    exact (List.nodup_append.mp h.nodup).2.2 _ hp _ hq rfl
  rw [hc.other p hpb hpq, if_neg]
  · rfl
  · rintro ⟨hleaf, hmem⟩
    have hkid : p ∈ addr :: addresses (before ++ b :: after) := by
      refine mem_of_mem_right (M := M) (e := entry addr key) ?_
      rwa [hc.halves]
    exact (h.kids hleaf).apart p hkid (List.mem_append_left _ hp)

variable (before after) in
/-- What a cut has written besides the level and the ones above. -/
theorem Cut.keeps {t : State Key} {q : ShmPosition} {l r : List (Elem Key)} {c : Elem Key}
    {key : Key} (hc : Cut s t M leaf frames b (entry addr key) q l c r) :
    Keeps s t leaf ((before ++ b :: after) :: frames.map Frame.level)
      (addr :: addresses (before ++ b :: after)) := by
  intro p hp
  rw [List.mem_append, positions_cons, List.mem_append, not_or, not_or, hc.fresh, List.mem_cons,
    not_or] at hp
  have hpb : p ≠ b.pos := by
    rintro rfl
    exact hp.1.1 mem_places_middle
  rw [hc.other p hpb hp.2.1, touched_of_notMem _ _ _ _ hp.1.2]
  by_cases hkid : leaf = false ∧ p ∈ (c :: r).map Elem.m_pRecordAddrs
  · rw [if_pos hkid]
    refine Or.inr ⟨hkid.1, mem_of_mem_right (M := M) (e := entry addr key) ?_, rfl⟩
    rw [hc.halves]
    exact hkid.2
  · rw [if_neg hkid]
    exact Or.inl rfl

variable (before after) in
/-- The two halves address what the block has addressed, and the new element. -/
theorem Cut.kids_perm {t : State Key} {q : ShmPosition} {l r : List (Elem Key)} {c : Elem Key}
    {key : Key} (hc : Cut s t M leaf frames b (entry addr key) q l c r) :
    (addresses (before ++ ⟨b.pos, l⟩ :: ⟨q, c :: r⟩ :: after)).Perm
      (addr :: addresses (before ++ b :: after)) := by
  have hperm := (halves_perm M b.elems (entry addr key)).map Elem.m_pRecordAddrs
  rw [hc.halves, List.map_append, List.map_cons] at hperm
  have hmiddle := (hperm.append_right (addresses after)).append_left (addresses before)
  simp only [addresses_append, addresses_cons, List.append_assoc] at hmiddle ⊢
  exact hmiddle.trans List.perm_middle

/-- **The level above is ready for the new node.** -/
theorem Cut.above {t : State Key} {f : Frame Key} {fs : List (Frame Key)} {q : ShmPosition}
    {l r : List (Elem Key)} {c : Elem Key} {key : Key}
    (hc : Cut s t M leaf (f :: fs) b (entry addr key) q l c r)
    (h : Ready s M path leaf (f :: fs) before b after addr) :
    Ready (t.setParentNode q f.pos) M path false fs
      (f.touch (b.elems.take (M / 2)) key).before (f.touch (b.elems.take (M / 2)) key).block
      (f.touch (b.elems.take (M / 2)) key).after q := by
  have hq : q ∈ s.freshNodes := by simp [hc.fresh]
  obtain ⟨-, -, hperm, hparents, hups⟩ := h.stored
  obtain ⟨-, hapart⟩ := h.apart
  have hlevel : (f.touch (b.elems.take (M / 2)) key).before ++
      (f.touch (b.elems.take (M / 2)) key).block :: (f.touch (b.elems.take (M / 2)) key).after =
      (f.touch (b.elems.take (M / 2)) key).level := rfl
  have hpositions : positions ((f.touch (b.elems.take (M / 2)) key).level ::
      fs.map Frame.level) = positions (f.level :: fs.map Frame.level) := by
    simp
  have hnodup := h.nodup
  rw [hc.fresh, List.map_cons, positions_cons, List.append_assoc, List.nodup_append] at hnodup
  obtain ⟨hcur, hrest, hcross⟩ := hnodup
  have hqcur : q ∉ places (before ++ b :: after) := fun hmem => (hapart q hmem).2 hq
  have hview : ∀ p, p ≠ q → (t.setParentNode q f.pos).view p = t.view p := by
    intro p hp
    rw [view_setParentNode, Function.update_of_ne hp]
  have hparent : ∀ p ∈ places (before ++ b :: after),
      ((t.setParentNode q f.pos).view p).parent = (s.view p).parent := by
    intro p hp
    have hpq : p ≠ q := by
      rintro rfl
      exact hqcur hp
    rw [hview p hpq]
    by_cases hpb : p = b.pos
    · rw [hpb, hc.self]
    · rw [hc.view_eq h (List.mem_append_left _ hp) hpb, touched_parent]
  have hmem : ∀ x, x ∈ addresses f.level → x ∈ places (before ++ b :: after) :=
    fun x hx => hperm.subset hx
  rw [← hlevel] at hpositions
  constructor
  · rw [hlevel]
    have hnodup : (positions (f.level :: fs.map Frame.level)).Nodup :=
      (List.nodup_append.mp hrest).1
    refine (Stored.touch hups hnodup (b.elems.take (M / 2)) key).congr fun p hp => ?_
    rw [← hlevel, hpositions] at hp
    have hpb : p ≠ b.pos := by
      rintro rfl
      exact hcross _ mem_places_middle _ (List.mem_append_left _ hp) rfl
    have hpq : p ≠ q := by
      rintro rfl
      exact (List.nodup_append.mp hrest).2.2 _ hp _ List.mem_cons_self rfl
    rw [hview p hpq, hc.view_eq h (List.mem_append_right _ hp) hpb]
    rfl
  · exact fun g hg => h.path g (List.mem_cons_of_mem _ hg)
  · have hleads := h.leads.2
    rwa [← f.touch_pos (b.elems.take (M / 2)) key] at hleads
  · rw [hpositions]
    exact hrest.sublist ((List.Sublist.refl _).append (List.sublist_cons_self _ _))
  · rw [hpositions]
    refine fun p hp => h.ne_null p ?_
    rw [hc.fresh, List.map_cons, positions_cons, List.append_assoc]
    refine List.mem_append_right _ ?_
    rcases List.mem_append.mp hp with hp | hp
    · exact List.mem_append_left _ hp
    · exact List.mem_append_right _ (List.mem_cons_of_mem _ hp)
  · intro _
    rw [hpositions, hlevel]
    refine ⟨Parents.touch (fun u hu e he => ?_) _ _, ?_, fun x hx hout => ?_, ?_⟩
    · rw [hparent _ (hmem _ (mem_addresses hu he))]
      exact hparents u hu e he
    · rw [view_setParentNode, Function.update_self]
      exact (f.touch_pos _ _).symm
    · rw [Frame.addresses_touch] at hx
      rcases List.mem_cons.mp hx with rfl | hx
      · rcases List.mem_append.mp hout with hout | hout
        · exact (List.nodup_append.mp hrest).2.2 _ hout _ List.mem_cons_self rfl
        · exact (List.nodup_cons.mp (List.nodup_append.mp hrest).2.1).1 hout
      · refine hcross x (hmem x hx) x ?_ rfl
        rcases List.mem_append.mp hout with hout | hout
        · exact List.mem_append_left _ hout
        · exact List.mem_append_right _ (List.mem_cons_of_mem _ hout)
    · rw [Frame.addresses_touch, (hperm.cons q).nodup_iff, List.nodup_cons]
      exact ⟨hqcur, hcur⟩

end

/-- A node that has a parent gets no new one. -/
theorem newParent_of_parent {t : State Key} {path : Path} {p f : ShmPosition}
    (hparent : (t.view p).parent = f) (hf : f ≠ nullShmPos) :
    newParent t path p = .ok (t, none) := by
  have hne : (t.node p).m_pParentNode ≠ nullShmPos := by
    intro heq
    exact hf (hparent.symm.trans heq)
  rw [newParent, if_neg hne]
  rfl

/-- A root that cannot get a parent raises the exception for missing memory. -/
theorem newParent_noMemory {t : State Key} {path : Path} {p : ShmPosition}
    (hroot : (t.view p).parent = nullShmPos) (hfresh : t.freshNodes = []) :
    newParent t path p = .error (.noMemory, t) := by
  have hnull : (t.node p).m_pParentNode = nullShmPos := hroot
  rw [newParent, if_pos hnull, State.allocateNode, hfresh]
  rfl

section

variable {s : State Key} {M : Nat} {path : Path} {leaf : Bool}
  {before after : Level Key} {b : Block Key} {addr : ShmPosition}

/-- What the levels above write leaves the level that was cut, and what is below. -/
theorem Cut.below {t u : State Key} {f : Frame Key} {fs : List (Frame Key)} {q : ShmPosition}
    {l r : List (Elem Key)} {c : Elem Key} {key : Key}
    (hc : Cut s t M leaf (f :: fs) b (entry addr key) q l c r)
    (h : Ready s M path leaf (f :: fs) before b after addr)
    (hup : Keeps (t.setParentNode q f.pos) u false (f.level :: fs.map Frame.level)
      (q :: addresses f.level)) :
    (∀ p ∈ q :: places (before ++ b :: after),
        p ∉ positions (f.level :: fs.map Frame.level) ++ t.freshNodes) ∧
      (∀ p ∈ q :: places (before ++ b :: after), (u.view p).maxNum = (t.view p).maxNum ∧
        (u.view p).brother = (t.view p).brother ∧ (u.view p).elems = (t.view p).elems) ∧
      (leaf = false → ∀ p ∈ addr :: addresses (before ++ b :: after), u.view p = t.view p) ∧
      Keeps s u leaf ((before ++ b :: after) :: (f :: fs).map Frame.level)
        (addr :: addresses (before ++ b :: after)) := by
  obtain ⟨-, -, hperm, -, -⟩ := h.stored
  have hnodup := h.nodup
  rw [hc.fresh, List.map_cons, positions_cons, List.append_assoc, List.nodup_append] at hnodup
  obtain ⟨-, hrest, hcross⟩ := hnodup
  have hfreshEq : (t.setParentNode q f.pos).freshNodes = t.freshNodes := rfl
  have hsame : ∀ p, p ∉ positions (f.level :: fs.map Frame.level) ++ t.freshNodes → p ≠ q →
      p ∉ places (before ++ b :: after) → u.view p = t.view p := by
    intro p hp hpq hcur
    rw [hup.same hp (by
      rw [List.mem_cons, not_or]
      exact ⟨hpq, fun hmem => hcur (hperm.subset hmem)⟩), view_setParentNode,
      Function.update_of_ne hpq]
  have hbelow : ∀ p ∈ q :: places (before ++ b :: after),
      p ∉ positions (f.level :: fs.map Frame.level) ++ t.freshNodes := by
    intro p hp hmem
    rcases List.mem_cons.mp hp with rfl | hp
    · rcases List.mem_append.mp hmem with hmem | hmem
      · exact (List.nodup_append.mp hrest).2.2 _ hmem _ List.mem_cons_self rfl
      · exact (List.nodup_cons.mp (List.nodup_append.mp hrest).2.1).1 hmem
    · refine hcross p hp p ?_ rfl
      rcases List.mem_append.mp hmem with hmem | hmem
      · exact List.mem_append_left _ hmem
      · exact List.mem_append_right _ (List.mem_cons_of_mem _ hmem)
  refine ⟨hbelow, fun p hp => ?_, fun hleaf p hp => ?_, fun p hp => ?_⟩
  · have hkept := hup.fields (hbelow p hp)
    by_cases hpq : p = q
    · subst hpq
      rwa [view_setParentNode, Function.update_self] at hkept
    · rwa [view_setParentNode, Function.update_of_ne hpq] at hkept
  · have hout := (h.kids hleaf).apart p hp
    rw [hc.fresh, List.map_cons, positions_cons, List.append_assoc, List.mem_append,
      List.mem_append, List.mem_cons, not_or, not_or, not_or] at hout
    exact hsame p (by
      rw [List.mem_append, not_or]
      exact ⟨hout.2.1, hout.2.2.2⟩) hout.2.2.1 hout.1
  · have hkept := hc.keeps before after p hp
    rw [hc.fresh, List.map_cons, positions_cons, List.append_assoc, List.mem_append,
      List.mem_append, List.mem_cons, not_or, not_or, not_or] at hp
    rw [hsame p (by
      rw [List.mem_append, not_or]
      exact ⟨hp.2.1, hp.2.2.2⟩) hp.2.2.1 hp.1]
    exact hkept

/-- **The level that was cut, when the levels above could not take in the new node**: what they do
not address is not in the tree any more. -/
theorem Cut.abandon {t u : State Key} {f f' : Frame Key} {fs : List (Frame Key)} {q : ShmPosition}
    {l r : List (Elem Key)} {c : Elem Key} {key : Key} {levels : List (Level Key)}
    {taken : List ShmPosition} (hc : Cut s t M leaf (f :: fs) b (entry addr key) q l c r)
    (h : Ready s M path leaf (f :: fs) before b after addr) (hM : 2 ≤ M)
    (hfull : b.elems.length = M) (hf' : f' = f.touch (b.elems.take (M / 2)) key)
    (hfail : Abandoned (t.setParentNode q f.pos) u M false fs f'.before f'.block f'.after q levels
      taken) :
    ∃ levels', Abandoned s u M leaf (f :: fs) before b after addr levels' (q :: taken) := by
  obtain ⟨-, -, hperm, -, -⟩ := h.stored
  obtain ⟨hstored, hparents, hkids, ⟨hfresh, hrest⟩, hnodup, hsubset, hkeeps, hroot⟩ := hfail
  have hlevel : f'.before ++ f'.block :: f'.after = f'.level := rfl
  have hplaces : places f'.level = places f.level := by simp [hf']
  have haddresses : addresses f'.level = addresses f.level := by simp [hf']
  have hpositions : positions (f'.level :: fs.map Frame.level) =
      positions (f.level :: fs.map Frame.level) := by
    rw [positions_cons, hplaces, positions_cons]
  have hfreshEq : (t.setParentNode q f.pos).freshNodes = t.freshNodes := rfl
  rw [hlevel] at hkids hsubset hkeeps hroot
  rw [haddresses] at hkids hkeeps
  rw [hpositions] at hsubset
  rw [hfreshEq] at hfresh
  have hkeeps' : Keeps (t.setParentNode q f.pos) u false (f.level :: fs.map Frame.level)
      (q :: addresses f.level) := by
    intro p hp
    exact hkeeps p (by rwa [hpositions])
  obtain ⟨hbelow, hfields, hchildren, hkept⟩ := hc.below h hkeeps'
  have hcut := hc.assemble h hM hfull hfields hchildren
  have hcutKids := hc.kids_perm before after
  generalize hcur : before ++ (⟨b.pos, l⟩ : Block Key) :: ⟨q, c :: r⟩ :: after = cur at *
  obtain ⟨up, ups, rfl⟩ : ∃ up ups, levels = up :: ups := by
    cases levels with
    | nil => exact hstored.elim
    | cons up ups => exact ⟨up, ups, rfl⟩
  obtain ⟨hupNodup, hupSubset⟩ := hkids rfl up rfl
  have hmem : ∀ p ∈ addresses up, p ∈ places cur := by
    intro p hp
    refine hcut.places.symm.subset ?_
    rcases List.mem_cons.mp (hupSubset hp) with rfl | hp
    · exact List.mem_cons_self
    · exact List.mem_cons_of_mem _ (hperm.subset hp)
  have hcurNodup : (places cur).Nodup := by
    have hall := h.nodup
    rw [hc.fresh, positions_cons, List.append_assoc, List.nodup_append] at hall
    rw [hcut.places.nodup_iff, List.nodup_cons]
    exact ⟨fun hq => hall.2.2 q hq q (by simp) rfl, hall.1⟩
  -- the blocks that are addressed
  generalize hkeep : cur.filter (fun d => d.pos ∈ addresses up) = kept
  have hsub : kept.Sublist cur := hkeep ▸ List.filter_sublist
  have hkeptPlaces : places kept = (places cur).filter (· ∈ addresses up) := by
    rw [← hkeep, places, places, List.filter_map]
    rfl
  refine ⟨kept :: up :: ups, ?_⟩
  constructor
  · refine ⟨fun d hd => hcut.holds d (hsub.subset hd), fun d hd => hcut.half d (hsub.subset hd), ?_,
      hparents rfl up rfl, hstored⟩
    refine (List.perm_ext_iff_of_nodup hupNodup ?_).mpr fun p => ?_
    · rw [hkeptPlaces]
      exact hcurNodup.filter _
    · rw [hkeptPlaces, List.mem_filter, decide_eq_true_iff]
      exact ⟨fun hp => ⟨hmem p hp, hp⟩, And.right⟩
  · rintro hleaf d ⟨⟩ v hv
    exact hcut.parents hleaf v (hsub.subset hv)
  · rintro hleaf d ⟨⟩
    have hflat : (addresses kept).Sublist (addresses cur) :=
      (hsub.flatMap Block.elems).map Elem.m_pRecordAddrs
    refine ⟨?_, fun p hp => hcutKids.subset (hflat.subset hp)⟩
    exact (hcutKids.nodup_iff.mpr (h.kids hleaf).nodup).sublist hflat
  · refine ⟨by rw [hc.fresh, hfresh]; rfl, ?_⟩
    rw [hrest, hc.rest]
    simp [State.setParentNode, State.setNode]
  · rw [positions_cons, List.nodup_append]
    refine ⟨hcurNodup.sublist (hsub.map Block.pos), hnodup, fun p hp p' hp' => ?_⟩
    rintro rfl
    refine hbelow p (hcut.places.subset ((hsub.map Block.pos).subset hp)) ?_
    rcases List.mem_append.mp (hsubset hp') with hmem | hmem
    · exact List.mem_append_right _ (hfresh ▸ List.mem_append_left _ hmem)
    · exact List.mem_append_left _ hmem
  · intro p hp
    rw [positions_cons, List.mem_append] at hp
    rw [List.map_cons, positions_cons]
    rcases hp with hp | hp
    · have hin := hcut.places.subset ((hsub.map Block.pos).subset hp)
      rcases List.mem_cons.mp hin with rfl | hin
      · exact List.mem_append_left _ List.mem_cons_self
      · exact List.mem_append_right _ (List.mem_append_left _ hin)
    · rcases List.mem_append.mp (hsubset hp) with hp | hp
      · exact List.mem_append_left _ (List.mem_cons_of_mem _ hp)
      · exact List.mem_append_right _ (List.mem_append_right _ hp)
  · exact hkept
  · refine hroot.trans ?_
    change rootOf _ = rootOf (f.level :: fs.map Frame.level)
    refine rootOf_congr ?_
    rw [List.map_cons, List.map_cons, hplaces]

omit [LinearOrder Key] in
/-- Nothing was done. -/
theorem Ready.abandoned (h : Ready s M path leaf frames before b after addr) :
    Abandoned s s M leaf frames before b after addr
      ((before ++ b :: after) :: frames.map Frame.level) [] := by
  constructor
  · exact h.stored
  · rintro hleaf cur ⟨⟩
    exact (h.kids hleaf).parents
  · rintro hleaf cur ⟨⟩
    exact ⟨(List.nodup_cons.mp (h.kids hleaf).nodup).2, List.subset_cons_self _ _⟩
  · exact ⟨rfl, rfl⟩
  · exact (List.nodup_append.mp h.nodup).1
  · exact List.Subset.refl _
  · exact fun p _ => Or.inl rfl
  · rfl

/-- An insertion goes on in the level above. -/
theorem nodeInsert_cut {f : Frame Key} {fs : List (Frame Key)}
    (h : Ready s M path leaf (f :: fs) before b after addr) (hM : 2 ≤ M)
    (hfull : b.elems.length = M) {q : ShmPosition} {fresh : List ShmPosition}
    (hfresh : s.freshNodes = q :: fresh) (key : Key) {k : Nat}
    (ih : ∀ {s : State Key} {before after : Level Key} {b : Block Key} {addr : ShmPosition},
      Ready s M path false fs before b after addr → ∀ key : Key,
        (∃ t levels taken, nodeInsert path k s b.pos key addr = .error (.noMemory, t) ∧
          Abandoned s t M false fs before b after addr levels taken) ∨
          ∃ t levels taken root, nodeInsert path k s b.pos key addr = .ok (t, root) ∧
            Inserted s t M false fs before b after (entry addr key) levels taken root) :
    (∃ t levels taken, nodeInsert path (k + 1) s b.pos key addr = .error (.noMemory, t) ∧
      Abandoned s t M leaf (f :: fs) before b after addr levels taken) ∨
      ∃ t levels taken root, nodeInsert path (k + 1) s b.pos key addr = .ok (t, root) ∧
        Inserted s t M leaf (f :: fs) before b after (entry addr key) levels taken root := by
  obtain ⟨t, l, c, r, hc, hnode⟩ := h.cut hM hfull hfresh k key
  have habove := hc.above h
  obtain ⟨hparent, hnull, -, -, -⟩ := h.parentAt
  obtain ⟨-, -, hperm, -, -⟩ := h.stored
  obtain ⟨-, hapart⟩ := h.apart
  have hq : q ∈ s.freshNodes := by simp [hc.fresh]
  have hpq : b.pos ≠ q := by
    rintro rfl
    exact (hapart _ mem_places_middle).2 hq
  have hparent₁ : (t.view b.pos).parent = f.pos := by
    rw [hc.self]
    exact hparent
  have hnode₁ : (t.node b.pos).m_pParentNode = f.pos := hparent₁
  have hnode₂ : ((t.setParentNode q f.pos).node b.pos).m_pParentNode = f.pos := by
    have hview : (t.setParentNode q f.pos).view b.pos = t.view b.pos := by
      rw [view_setParentNode, Function.update_of_ne hpq]
    exact (congrArg View.parent hview).trans hparent₁
  have hkey : (t.setParentNode q f.pos).keyOf q 0 = c.m_pKeyValue := by
    refine keyOf_zero (l := r) ?_
    rw [view_setParentNode, Function.update_self, hc.new]
  have hgo : nodeInsert path (k + 1) s b.pos key addr =
      (nodeInsert path k (t.setParentNode q f.pos) f.pos c.m_pKeyValue q).bind
        fun (t, root') => .ok (t, root'.or none) := by
    rw [hnode, newParent_of_parent hparent₁ hnull]
    change (nodeInsert path k (t.setParentNode q (t.node b.pos).m_pParentNode)
      ((t.setParentNode q (t.node b.pos).m_pParentNode).node b.pos).m_pParentNode
      ((t.setParentNode q (t.node b.pos).m_pParentNode).keyOf q 0) q).bind _ = _
    rw [hnode₁, hnode₂, hkey]
  rw [hgo]
  have hpos : (f.touch (b.elems.take (M / 2)) key).block.pos = f.pos := f.touch_pos _ _
  rcases ih habove c.m_pKeyValue with ⟨u, levels, taken, hfail, habandoned⟩ |
    ⟨u, levels, taken, root, hok, hins⟩
  · rw [hpos] at hfail
    rw [hfail]
    obtain ⟨levels', habandoned'⟩ := hc.abandon h hM hfull rfl habandoned
    exact Or.inl ⟨u, levels', _, rfl, habandoned'⟩
  · rw [hpos] at hok
    obtain ⟨up, rest, rfl, hhead⟩ := hins.up.head
    have hlevel : (f.touch (b.elems.take (M / 2)) key).before ++
        (f.touch (b.elems.take (M / 2)) key).block :: (f.touch (b.elems.take (M / 2)) key).after =
        (f.touch (b.elems.take (M / 2)) key).level := rfl
    have hpositions : positions ((f.touch (b.elems.take (M / 2)) key).level ::
        fs.map Frame.level) = positions (f.level :: fs.map Frame.level) := by
      simp
    have haddresses : (addresses up).Perm (q :: places (before ++ b :: after)) := by
      refine (hhead.map Elem.m_pRecordAddrs).trans ?_
      have hsame : addresses ((f.touch (b.elems.take (M / 2)) key).before ++
          (f.touch (b.elems.take (M / 2)) key).block ::
            (f.touch (b.elems.take (M / 2)) key).after) = addresses f.level := by
        rw [hlevel, Frame.addresses_touch]
      change (q :: addresses _).Perm _
      rw [hsame]
      exact hperm.cons q
    have hkeeps : Keeps (t.setParentNode q f.pos) u false (f.level :: fs.map Frame.level)
        (q :: addresses f.level) := by
      have hup := hins.keeps
      rw [hlevel, Frame.addresses_touch] at hup
      exact fun p hp => hup p (by rwa [hpositions])
    obtain ⟨-, hfields, hchildren, hkept⟩ := hc.below h hkeeps
    have hcut := hc.assemble h hM hfull hfields hchildren
    have hroot := hins.root_eq
    obtain ⟨htaken, hlast⟩ := hins.takes
    have hmore := hins.perm
    rw [hlevel, hpositions] at hmore
    rw [hlevel] at hroot
    refine Or.inr ⟨u, (before ++ ⟨b.pos, l⟩ :: ⟨q, c :: r⟩ :: after) :: up :: rest, q :: taken,
      root.or none, by rw [hok]; rfl, ?_⟩
    constructor
    · exact .split hfull hc.halves rfl hins.up
    · exact ⟨hcut.holds, hcut.half, haddresses.trans hcut.places.symm, hins.parents rfl up rfl,
        hins.stored⟩
    · rintro hleaf cur ⟨⟩
      exact hcut.parents hleaf
    · refine ⟨?_, ?_⟩
      · rw [hc.fresh]
        exact congrArg (q :: ·) htaken
      · rw [hlast, hc.rest]
        simp [State.setParentNode, State.setNode]
    · refine (hcut.places.append hmore).trans ?_
      rw [List.cons_append, List.cons_append]
      exact (List.perm_append_comm_assoc _ _ _).cons q
    · exact hkept
    · rw [Option.or_none]
      refine Eq.trans ?_ hroot
      congr 1
      change rootOf (f.level :: fs.map Frame.level) = _
      refine rootOf_congr ?_
      simp
    · rintro hleaf hold cur ⟨⟩
      exact hcut.chained hleaf hold

/-- The root, its new brother and the slots that are free are all different. -/
theorem Cut.root_nodup {t : State Key} {q : ShmPosition} {l r : List (Elem Key)} {c e : Elem Key}
    (hc : Cut s t M leaf [] b e q l c r) (h : Ready s M path leaf [] before b after addr) :
    (b.pos :: q :: t.freshNodes).Nodup := by
  have hnodup := h.nodup
  rw [hc.fresh, List.nodup_append] at hnodup
  obtain ⟨-, hfresh, hcross⟩ := hnodup
  have hb : b.pos ∈ positions ((before ++ b :: after) :: ([] : List (Frame Key)).map Frame.level) :=
    List.mem_append_left _ mem_places_middle
  exact List.nodup_cons.mpr ⟨fun hmem => hcross _ hb _ hmem rfl, hfresh⟩

/-- The root that was split is below a new one. -/
theorem Cut.newRoot {t u : State Key} {q r' : ShmPosition} {l r : List (Elem Key)} {a c : Elem Key}
    {key : Key} {fresh : List ShmPosition}
    (hc : Cut s t M leaf [] b (entry addr key) q (a :: l) c r)
    (h : Ready s M path leaf [] before b after addr) (hM : 2 ≤ M) (hfresh : t.freshNodes = r' :: fresh)
    (hrest : u = { t with node := u.node, freshNodes := fresh, usedNodes := r' :: t.usedNodes })
    (hview : u.view = Function.update
      (Function.update t.view b.pos { t.view b.pos with parent := r' }) r'
      ⟨nullShmPos, nullShmPos, M, [entry b.pos a.m_pKeyValue]⟩) :
    Ready (u.setParentNode q r') M path false [] [] ⟨r', [entry b.pos a.m_pKeyValue]⟩ [] q := by
  have hnodup := hc.root_nodup h
  rw [hfresh, List.nodup_cons, List.nodup_cons, List.nodup_cons] at hnodup
  obtain ⟨hb, hq, hr, hfreshNodup⟩ := hnodup
  have hbr : b.pos ≠ r' := fun heq => hb (by simp [heq])
  have hbq : b.pos ≠ q := fun heq => hb (by simp [heq])
  have hqr : q ≠ r' := fun heq => hq (heq ▸ List.mem_cons_self)
  have hne : r' ≠ nullShmPos := by
    refine h.ne_null r' (List.mem_append_right _ ?_)
    simp [hc.fresh, hfresh]
  have hufresh : (u.setParentNode q r').freshNodes = fresh := by
    rw [hrest]
    rfl
  have hself : (u.setParentNode q r').view r' =
      ⟨nullShmPos, nullShmPos, M, [entry b.pos a.m_pKeyValue]⟩ := by
    rw [view_setParentNode, Function.update_of_ne hqr.symm, hview, Function.update_self]
  have hpositions : positions (([] ++ (⟨r', [entry b.pos a.m_pKeyValue]⟩ : Block Key) :: []) ::
      ([] : List (Frame Key)).map Frame.level) = [r'] := rfl
  constructor
  · refine ⟨?_, _, rfl, ?_, fun _ => List.cons_ne_nil _ _⟩
    · intro d hd
      obtain rfl := List.mem_singleton.mp hd
      refine ⟨?_, ?_, ?_, (show 1 ≤ 2 by decide).trans hM⟩
      · rw [hself]
      · rw [hself]
        exact iff_of_false Bool.false_ne_true fun hne => hne rfl
      · rw [hself]
    · rw [hself]
  · simp
  · trivial
  · rw [hpositions, hufresh, List.singleton_append, List.nodup_cons]
    exact ⟨hr, hfreshNodup⟩
  · rw [hpositions, hufresh]
    intro p hp
    rcases List.mem_append.mp hp with hp | hp
    · rwa [List.mem_singleton.mp hp]
    · refine h.ne_null p (List.mem_append_right _ ?_)
      simp [hc.fresh, hfresh, hp]
  · intro _
    rw [hpositions, hufresh]
    refine ⟨?_, ?_, ?_, ?_⟩
    · intro d hd e he
      obtain rfl := List.mem_singleton.mp hd
      obtain rfl := List.mem_singleton.mp he
      change ((u.setParentNode q r').view b.pos).parent = r'
      rw [view_setParentNode, Function.update_of_ne hbq, hview, Function.update_of_ne hbr,
        Function.update_self]
    · rw [view_setParentNode, Function.update_self]
    · intro x hx hmem
      rcases List.mem_cons.mp hx with rfl | hx
      · rcases List.mem_append.mp hmem with hmem | hmem
        · exact hqr (List.mem_singleton.mp hmem)
        · exact hq (List.mem_cons_of_mem _ hmem)
      · obtain rfl : x = b.pos := List.mem_singleton.mp hx
        rcases List.mem_append.mp hmem with hmem | hmem
        · exact hbr (List.mem_singleton.mp hmem)
        · exact hb (by simp [hmem])
    · have hpair : addresses (([] : Level Key) ++ [⟨r', [entry b.pos a.m_pKeyValue]⟩]) = [b.pos] :=
        rfl
      rw [hpair]
      simpa using hbq.symm

/-- A root that was cut stays the root when there is no memory for a new one. -/
theorem Cut.abandonRoot {t : State Key} {q : ShmPosition} {l r : List (Elem Key)} {c : Elem Key}
    {key : Key} (hc : Cut s t M leaf [] b (entry addr key) q l c r)
    (h : Ready s M path leaf [] before b after addr) (hM : 2 ≤ M) (hfull : b.elems.length = M) :
    Abandoned s t M leaf [] before b after addr [[⟨b.pos, l⟩]] [q] := by
  have hcut := hc.assemble h hM hfull (fun _ _ => ⟨rfl, rfl, rfl⟩) fun _ _ _ => rfl
  have hcutKids := hc.kids_perm before after
  have hroot : (t.view b.pos).parent = nullShmPos := by
    rw [hc.self]
    exact h.parentAt
  obtain ⟨-, d, hd, -, -⟩ := h.stored
  obtain ⟨rfl, rfl⟩ := single_block ⟨d, hd⟩
  have hmem : (⟨b.pos, l⟩ : Block Key) ∈ [] ++ ⟨b.pos, l⟩ :: ⟨q, c :: r⟩ :: ([] : Level Key) := by
    simp
  constructor
  · refine ⟨fun d hd => ?_, ⟨b.pos, l⟩, rfl, hroot, fun _ => hc.ne_nil⟩
    obtain rfl := List.mem_singleton.mp hd
    exact hcut.holds _ hmem
  · rintro hleaf cur ⟨⟩ d hd
    obtain rfl := List.mem_singleton.mp hd
    exact hcut.parents hleaf _ hmem
  · rintro hleaf cur ⟨⟩
    have hflat : (addresses [(⟨b.pos, l⟩ : Block Key)]).Sublist
        (addresses ([] ++ ⟨b.pos, l⟩ :: ⟨q, c :: r⟩ :: [])) := by
      simp [addresses]
    exact ⟨(hcutKids.nodup_iff.mpr (h.kids hleaf).nodup).sublist hflat,
      fun p hp => hcutKids.subset (hflat.subset hp)⟩
  · exact ⟨hc.fresh, hc.rest⟩
  · exact List.nodup_singleton _
  · change [b.pos] ⊆ [q] ++ [b.pos]
    simp
  · exact hc.keeps [] []
  · rfl

/-- What the new root takes in leaves the node that was cut, and what is below. -/
theorem Cut.belowRoot {t u v : State Key} {q r' : ShmPosition} {l r es : List (Elem Key)}
    {c : Elem Key} {key : Key} {fresh : List ShmPosition} {x : View Key}
    (hc : Cut s t M leaf [] b (entry addr key) q l c r)
    (h : Ready s M path leaf [] before b after addr) (hfresh : t.freshNodes = r' :: fresh)
    (hufresh : u.freshNodes = fresh)
    (hview : u.view = Function.update
      (Function.update t.view b.pos { t.view b.pos with parent := r' }) r' x)
    (hup : Keeps (u.setParentNode q r') v false [[⟨r', es⟩]] [q, b.pos]) :
    (∀ p ∈ q :: places (before ++ b :: after), (v.view p).maxNum = (t.view p).maxNum ∧
        (v.view p).brother = (t.view p).brother ∧ (v.view p).elems = (t.view p).elems) ∧
      (leaf = false → ∀ p ∈ addr :: addresses (before ++ b :: after), v.view p = t.view p) ∧
      Keeps s v leaf ((before ++ b :: after) :: ([] : List (Frame Key)).map Frame.level)
        (addr :: addresses (before ++ b :: after)) := by
  obtain ⟨-, d, hd, -, -⟩ := h.stored
  obtain ⟨rfl, rfl⟩ := single_block ⟨d, hd⟩
  have hnodup := hc.root_nodup h
  rw [hfresh, List.nodup_cons, List.nodup_cons, List.nodup_cons] at hnodup
  obtain ⟨hb, hq, -, -⟩ := hnodup
  have hbr : b.pos ≠ r' := fun heq => hb (by simp [heq])
  have hbq : b.pos ≠ q := fun heq => hb (by simp [heq])
  have hqr : q ≠ r' := fun heq => hq (heq ▸ List.mem_cons_self)
  have hqf : q ∉ fresh := fun hmem => hq (List.mem_cons_of_mem _ hmem)
  have hbf : b.pos ∉ fresh := fun hmem => hb (by simp [hmem])
  have hmem : b.pos ∈ positions (([] ++ b :: []) :: ([] : List (Frame Key)).map Frame.level) :=
    List.mem_append_left _ mem_places_middle
  have hout : ∀ p, p ≠ r' → p ∉ fresh →
      p ∉ positions [[(⟨r', es⟩ : Block Key)]] ++ (u.setParentNode q r').freshNodes := by
    intro p hpr hpf
    have hpositions : positions [[(⟨r', es⟩ : Block Key)]] = [r'] := rfl
    change p ∉ _ ++ u.freshNodes
    rw [hpositions, hufresh]
    simp [hpr, hpf]
  have hsetq : ∀ p, p ≠ q → (u.setParentNode q r').view p = u.view p := by
    intro p hp
    rw [view_setParentNode, Function.update_of_ne hp]
  have huview : ∀ p, p ≠ r' → p ≠ b.pos → u.view p = t.view p := by
    intro p hpr hpb
    rw [hview, Function.update_of_ne hpr, Function.update_of_ne hpb]
  have hkept : ∀ p, p ≠ r' → p ∉ fresh → p ≠ q → p ≠ b.pos → v.view p = t.view p := by
    intro p hpr hpf hpq hpb
    rw [hup.same (hout p hpr hpf) (by simp [hpq, hpb]), hsetq p hpq, huview p hpr hpb]
  refine ⟨fun p hp => ?_, fun hleaf p hp => ?_, fun p hp => ?_⟩
  · rcases List.mem_cons.mp hp with rfl | hp
    · have hfields := hup.fields (hout _ hqr hqf)
      rwa [view_setParentNode, Function.update_self, huview _ hqr hbq.symm] at hfields
    · obtain rfl : p = b.pos := List.mem_singleton.mp hp
      have hfields := hup.fields (hout _ hbr hbf)
      rwa [hsetq _ hbq, hview, Function.update_of_ne hbr, Function.update_self] at hfields
  · have hapart := (h.kids hleaf).apart p hp
    rw [hc.fresh, hfresh, List.mem_append, List.mem_cons, List.mem_cons, not_or, not_or,
      not_or] at hapart
    refine hkept p hapart.2.2.1 hapart.2.2.2 hapart.2.1 ?_
    rintro rfl
    exact hapart.1 hmem
  · have hcutKept := hc.keeps [] [] p hp
    rw [List.mem_append, not_or, hc.fresh, hfresh, List.mem_cons, List.mem_cons, not_or,
      not_or] at hp
    have hpb : p ≠ b.pos := by
      rintro rfl
      exact hp.1 hmem
    rw [hkept p hp.2.2.1 hp.2.2.2 hp.2.1 hpb]
    exact hcutKept

/-- An insertion ends with a new root. -/
theorem nodeInsert_cutRoot (h : Ready s M path leaf [] before b after addr) (hM : 2 ≤ M)
    (hfull : b.elems.length = M) {q : ShmPosition} {fresh : List ShmPosition}
    (hfresh : s.freshNodes = q :: fresh) (k : Nat) (key : Key) :
    (∃ t levels taken, nodeInsert path (k + 2) s b.pos key addr = .error (.noMemory, t) ∧
      Abandoned s t M leaf [] before b after addr levels taken) ∨
      ∃ t levels taken root, nodeInsert path (k + 2) s b.pos key addr = .ok (t, root) ∧
        Inserted s t M leaf [] before b after (entry addr key) levels taken root := by
  obtain ⟨t, l, c, r, hc, hnode⟩ := h.cut hM hfull hfresh (k + 1) key
  obtain ⟨a, l, rfl⟩ := List.exists_cons_of_ne_nil hc.ne_nil
  have hroot : (t.view b.pos).parent = nullShmPos := by
    rw [hc.self]
    exact h.parentAt
  cases htfresh : t.freshNodes with
  | nil =>
      rw [hnode, newParent_noMemory hroot htfresh]
      exact Or.inl ⟨t, _, _, rfl, hc.abandonRoot h hM hfull⟩
  | cons r' fresh' =>
      have hnodup := hc.root_nodup h
      rw [htfresh, List.nodup_cons, List.nodup_cons, List.nodup_cons] at hnodup
      obtain ⟨hb, hq, -, -⟩ := hnodup
      have hbr : r' ≠ b.pos := fun heq => hb (by simp [heq])
      have hbq : b.pos ≠ q := fun heq => hb (by simp [heq])
      have hqr : q ≠ r' := fun heq => hq (heq ▸ List.mem_cons_self)
      have hmax : (t.view b.pos).maxNum = M := by
        rw [hc.self]
        exact h.holds.maxNum
      obtain ⟨u, hnew, hrest, hview⟩ := newParent_spec path hroot htfresh hmax
        (a := a) (l := l) (by rw [hc.self]) hbr
      have hready := hc.newRoot h hM htfresh hrest hview
      obtain ⟨v, levels, hok, hins⟩ := nodeInsert_room hready (show 1 < M by omega) k
        c.m_pKeyValue
      have huself : u.view b.pos = { t.view b.pos with parent := r' } := by
        rw [hview, Function.update_of_ne hbr.symm, Function.update_self]
      have hparent : (u.node b.pos).m_pParentNode = r' := congrArg View.parent huself
      have hsetq : ∀ p, p ≠ q → (u.setParentNode q r').view p = u.view p := by
        intro p hp
        rw [view_setParentNode, Function.update_of_ne hp]
      have hatq : (u.setParentNode q r').view q = { t.view q with parent := r' } := by
        rw [view_setParentNode, Function.update_self, hview, Function.update_of_ne hqr,
          Function.update_of_ne hbq.symm]
      have hparent' : ((u.setParentNode q r').node b.pos).m_pParentNode = r' := by
        exact (congrArg View.parent (hsetq _ hbq)).trans hparent
      have hkey : (u.setParentNode q r').keyOf q 0 = c.m_pKeyValue := by
        refine keyOf_zero (l := r) ?_
        rw [hatq, hc.new]
      have hgo : nodeInsert path (k + 2) s b.pos key addr =
          (nodeInsert path (k + 1) (u.setParentNode q r') r' c.m_pKeyValue q).bind
            fun (t, root') => .ok (t, root'.or (some r')) := by
        rw [hnode, hnew]
        change (nodeInsert path (k + 1) (u.setParentNode q (u.node b.pos).m_pParentNode)
          ((u.setParentNode q (u.node b.pos).m_pParentNode).node b.pos).m_pParentNode
          ((u.setParentNode q (u.node b.pos).m_pParentNode).keyOf q 0) q).bind _ = _
        rw [hparent, hparent', hkey]
      have hok' : nodeInsert path (k + 1) (u.setParentNode q r') r' c.m_pKeyValue q = .ok (v, none) :=
        hok
      obtain ⟨-, d, hd, -, -⟩ := h.stored
      obtain ⟨rfl, rfl⟩ := single_block ⟨d, hd⟩
      -- the new root had room
      obtain rfl : levels = [[⟨r', putIn [entry b.pos a.m_pKeyValue] (entry q c.m_pKeyValue)⟩]] := by
        cases hins.up with
        | roomTop => rfl
        | splitTop hfull =>
            have hone : 1 = M := hfull
            omega
      have hufresh : (u.setParentNode q r').freshNodes = fresh' := by
        rw [hrest]
        rfl
      have hperm : (addresses [(⟨r', putIn [entry b.pos a.m_pKeyValue] (entry q c.m_pKeyValue)⟩ :
          Block Key)]).Perm (q :: places ([] ++ b :: [])) := by
        have hput := putIn_perm [entry b.pos a.m_pKeyValue] (entry q c.m_pKeyValue)
        simpa [addresses, places, entry] using hput.map Elem.m_pRecordAddrs
      obtain ⟨hfields, hchildren, hkept⟩ := hc.belowRoot h htfresh (by rw [hrest]) hview hins.keeps
      have hcut := hc.assemble h hM hfull hfields hchildren
      have hvfresh : v.freshNodes = fresh' := by
        have htaken := hins.takes.1
        rw [hufresh] at htaken
        exact htaken.symm
      refine Or.inr ⟨v, ([] ++ ⟨b.pos, a :: l⟩ :: ⟨q, c :: r⟩ :: []) ::
        [[⟨r', putIn [entry b.pos a.m_pKeyValue] (entry q c.m_pKeyValue)⟩]], [q, r'], some r', ?_, ?_⟩
      · rw [hgo, hok']
        rfl
      constructor
      · exact .splitTop hfull hc.halves
      · exact ⟨hcut.holds, hcut.half, hperm.trans hcut.places.symm, hins.parents rfl _ rfl,
          hins.stored⟩
      · rintro hleaf cur ⟨⟩
        exact hcut.parents hleaf
      · refine ⟨?_, ?_⟩
        · rw [hc.fresh, htfresh, hvfresh]
          rfl
        · rw [hins.takes.2, hrest, hc.rest]
          simp [State.setParentNode, State.setNode]
      · change ([b.pos, q] ++ ([r'] ++ [])).Perm ([q, r'] ++ ([b.pos] ++ []))
        simp only [List.append_nil, List.cons_append, List.nil_append]
        exact (List.Perm.swap q b.pos [r']).trans ((List.Perm.swap r' b.pos []).cons q)
      · exact hkept
      · rfl
      · rintro hleaf hold cur ⟨⟩
        exact hcut.chained hleaf hold

end

/-- **An insertion takes stored levels to stored levels**, even if there is no memory. -/
theorem nodeInsert_spec {M : Nat} (hM : 2 ≤ M) {path : Path} {frames : List (Frame Key)}
    {s : State Key} {leaf : Bool} {before after : Level Key} {b : Block Key} {addr : ShmPosition}
    (h : Ready s M path leaf frames before b after addr) (key : Key) {rounds : Nat}
    (hrounds : frames.length + 2 ≤ rounds) :
    (∃ t levels taken, nodeInsert path rounds s b.pos key addr = .error (.noMemory, t) ∧
      Abandoned s t M leaf frames before b after addr levels taken) ∨
      ∃ t levels taken root, nodeInsert path rounds s b.pos key addr = .ok (t, root) ∧
        Inserted s t M leaf frames before b after (entry addr key) levels taken root := by
  induction frames generalizing s leaf before b after addr key rounds with
  | nil =>
      obtain ⟨k, rfl⟩ : ∃ k, rounds = k + 2 := ⟨rounds - 2, by simp at hrounds; omega⟩
      by_cases hroom : b.elems.length < M
      · obtain ⟨t, levels, ht, hins⟩ := nodeInsert_room h hroom (k + 1) key
        exact Or.inr ⟨t, levels, [], none, ht, hins⟩
      have hfull : b.elems.length = M := le_antisymm h.holds.room (not_lt.mp hroom)
      cases hfresh : s.freshNodes with
      | nil =>
          rw [nodeInsert_full hM h.holds.maxNum ((congrArg List.length h.holds.elems).trans hfull),
            State.allocateNode, hfresh]
          exact Or.inl ⟨s, _, _, rfl, h.abandoned⟩
      | cons q fresh => exact nodeInsert_cutRoot h hM hfull hfresh k key
  | cons f fs ih =>
      rw [List.length_cons] at hrounds
      obtain ⟨k, rfl⟩ : ∃ k, rounds = k + 1 := ⟨rounds - 1, by omega⟩
      by_cases hroom : b.elems.length < M
      · obtain ⟨t, levels, ht, hins⟩ := nodeInsert_room h hroom k key
        exact Or.inr ⟨t, levels, [], none, ht, hins⟩
      have hfull : b.elems.length = M := le_antisymm h.holds.room (not_lt.mp hroom)
      cases hfresh : s.freshNodes with
      | nil =>
          rw [nodeInsert_full hM h.holds.maxNum ((congrArg List.length h.holds.elems).trans hfull),
            State.allocateNode, hfresh]
          exact Or.inl ⟨s, _, _, rfl, h.abandoned⟩
      | cons q fresh =>
          exact nodeInsert_cut h hM hfull hfresh key fun hready key => ih hready key (by omega)

end BTree
