import Mathlib.Data.List.Find
import Mathlib.Data.List.Nodup
import Mathlib.Data.List.Pairwise
import Mathlib.Data.List.Perm.Basic
import Mathlib.Tactic.Common

/-!
# The rows of a hash index

A slot of the hash index is a vertical list of rows, and a row is a horizontal
list of addresses whose records carry one key.  The key of a row is not stored:
it is read from the record at the head of the row, wherever that record's bytes
are at that moment.  This module is the index in these terms, over any type of
addresses and keys: rows are searched from the front, a new row goes to the
front, a further address goes to the second place of its row, and a row that
loses its head is continued by its second element.

`WellIndexed` says what the index is for: one row per key, every address of a row
under the row's key and in the slot of that key, every live address once.  Then
`select` returns exactly the live addresses of a key.

Main results: `WellIndexed.select_spec`, `WellIndexed.insert_ok` and `WellIndexed.delete_spec`.
-/

namespace IndexRows

/-- A horizontal list; a row without elements does not exist. -/
structure Row (A : Type*) where
  head : A
  tail : List A
  deriving DecidableEq, Repr

namespace Row

variable {A B : Type*}

def all (r : Row A) : List A := r.head :: r.tail

def map (f : A → B) (r : Row A) : Row B := ⟨f r.head, r.tail.map f⟩

/-- A further element goes behind the head, so that the vertical list is not
touched. -/
def insertSecond (r : Row A) (a : A) : Row A := ⟨r.head, a :: r.tail⟩

/-- The row of the given elements, if there are any. -/
def ofList : List A → Option (Row A)
  | [] => none
  | a :: rest => some ⟨a, rest⟩

@[simp] theorem map_head (f : A → B) (r : Row A) : (r.map f).head = f r.head := rfl

@[simp] theorem map_all (f : A → B) (r : Row A) : (r.map f).all = r.all.map f := rfl

@[simp] theorem insertSecond_head (r : Row A) (a : A) : (r.insertSecond a).head = r.head := rfl

@[simp] theorem head_mem_all (r : Row A) : r.head ∈ r.all := List.mem_cons_self

/-- A row has the record that was put in second place and those it had. -/
theorem mem_insertSecond {r : Row A} {a b : A} :
    b ∈ (r.insertSecond a).all ↔ b = a ∨ b ∈ r.all := by
  simp only [insertSecond, all, List.mem_cons]
  tauto

theorem insertSecond_perm (r : Row A) (a : A) : (r.insertSecond a).all.Perm (a :: r.all) :=
  List.Perm.swap a r.head r.tail

/-- The row of a list has the records of the list. -/
theorem ofList_all {l : List A} {r : Row A} (h : ofList l = some r) : r.all = l := by
  cases l with
  | nil => cases h
  | cons a rest => obtain rfl := Option.some.inj h; rfl

end Row

/-- The vertical lists of all slots. -/
abbrev Rows (A : Type*) := Nat → List (Row A)

/-- All addresses of a vertical list. -/
def flat {A : Type*} (l : List (Row A)) : List A := l.flatMap Row.all

section Flat

variable {A : Type*}

@[simp] theorem flat_nil : flat ([] : List (Row A)) = [] := rfl

@[simp] theorem flat_cons (r : Row A) (l : List (Row A)) : flat (r :: l) = r.all ++ flat l := rfl

theorem flat_append (l₁ l₂ : List (Row A)) : flat (l₁ ++ l₂) = flat l₁ ++ flat l₂ :=
  List.flatMap_append

theorem mem_flat {l : List (Row A)} {a : A} : a ∈ flat l ↔ ∃ r ∈ l, a ∈ r.all :=
  List.mem_flatMap

/-- Rows that are read through two functions that agree on their elements. -/
theorem map_congr_flat {B : Type*} {f g : A → B} {l : List (Row A)}
    (hsame : ∀ x ∈ flat l, f x = g x) : l.map (Row.map f) = l.map (Row.map g) := by
  refine List.map_congr_left fun r hr => ?_
  have hall : ∀ x ∈ r.all, f x = g x := fun x hx => hsame x (mem_flat.mpr ⟨r, hr, hx⟩)
  unfold Row.map
  rw [hall r.head r.head_mem_all,
    List.map_congr_left fun x hx => hall x (List.mem_cons_of_mem r.head hx)]

/-- Mapping the rows maps the records. -/
theorem flat_map {B : Type*} (f : A → B) (l : List (Row A)) :
    flat (l.map (Row.map f)) = (flat l).map f := by
  induction l with
  | nil => rfl
  | cons r rest ih => rw [List.map_cons, flat_cons, flat_cons, ih, List.map_append, Row.map_all]

end Flat

variable {A K : Type*} [DecidableEq A] [DecidableEq K]

/-- The first row whose head record has the key. -/
def findRow (keyOf : A → K) (k : K) (l : List (Row A)) : Option (Row A) :=
  l.find? fun r => keyOf r.head = k

/-- Add an address to the first row of the key; `none` when there is no row. -/
def addToRow (keyOf : A → K) (k : K) (a : A) : List (Row A) → Option (List (Row A))
  | [] => none
  | r :: rest =>
      if keyOf r.head = k then some (r.insertSecond a :: rest)
      else (addToRow keyOf k a rest).map (r :: ·)

/-- Take an address out of the first row of the key that has it. -/
def removeFrom (keyOf : A → K) (k : K) (a : A) : List (Row A) → Option (List (Row A))
  | [] => none
  | r :: rest =>
      if keyOf r.head = k ∧ a ∈ r.all then some ((Row.ofList (r.all.erase a)).toList ++ rest)
      else (removeFrom keyOf k a rest).map (r :: ·)

/-- Why an insertion is refused. -/
inductive InsertError
  | uniqueConflict
  | noSpace
  deriving DecidableEq, Repr

section Operations

variable (keyOf : A → K) (slotOf : K → Nat)

/-- `IndexHash::select` on the rows. -/
def select (rows : Rows A) (k : K) : List A :=
  match findRow keyOf k (rows (slotOf k)) with
  | some r => r.all
  | none => []

/-- `IndexHash::insert` on the rows; `space` is the answer of the allocator. -/
def insert (isUnique space : Bool) (rows : Rows A) (k : K) (a : A) : Except InsertError (Rows A) :=
  match addToRow keyOf k a (rows (slotOf k)) with
  | some l =>
      if isUnique then .error .uniqueConflict
      else if space then .ok (Function.update rows (slotOf k) l)
      else .error .noSpace
  | none =>
      if space then .ok (Function.update rows (slotOf k) (⟨a, []⟩ :: rows (slotOf k)))
      else .error .noSpace

/-- `IndexHash::deleteIdx` on the rows, with its return value. -/
def deleteIdx (rows : Rows A) (k : K) (a : A) : Bool × Rows A :=
  match removeFrom keyOf k a (rows (slotOf k)) with
  | some l => (true, Function.update rows (slotOf k) l)
  | none => (false, rows)

end Operations

/-- One vertical list in order: one row per key, each row under one key that
belongs to the slot, no address twice. -/
structure SlotOk (keyOf : A → K) (slotOf : K → Nat) (i : Nat) (l : List (Row A)) : Prop where
  same_key : ∀ r ∈ l, ∀ a ∈ r.all, keyOf a = keyOf r.head
  in_slot : ∀ r ∈ l, slotOf (keyOf r.head) = i
  one_row : l.Pairwise fun r r' => keyOf r.head ≠ keyOf r'.head
  once : (flat l).Nodup

/-- The rows index exactly the live addresses under their keys. -/
structure WellIndexed (keyOf : A → K) (slotOf : K → Nat) (live : A → Prop) (rows : Rows A) :
    Prop where
  slot : ∀ i, SlotOk keyOf slotOf i (rows i)
  indexed : ∀ a, live a ↔ ∃ i, a ∈ flat (rows i)

variable {keyOf : A → K} {slotOf : K → Nat} {k : K} {a : A} {i : Nat} {r : Row A}
  {l l' pre post : List (Row A)}

omit [DecidableEq A] in
/-- A record is added to the first row of its key. -/
theorem addToRow_some (h : addToRow keyOf k a l = some l') :
    ∃ pre r post, l = pre ++ r :: post ∧ keyOf r.head = k ∧
      l' = pre ++ r.insertSecond a :: post ∧ ∀ r' ∈ pre, keyOf r'.head ≠ k := by
  induction l generalizing l' with
  | nil => cases h
  | cons r rest ih =>
      unfold addToRow at h
      split at h
      · rename_i hkey
        exact ⟨[], r, rest, rfl, hkey, (Option.some.inj h).symm, by simp⟩
      · rename_i hkey
        obtain ⟨t, ht, rfl⟩ := Option.map_eq_some_iff.mp h
        obtain ⟨pre, r', post, rfl, hkey', rfl, hfirst⟩ := ih ht
        exact ⟨r :: pre, r', post, rfl, hkey', rfl, List.forall_mem_cons.mpr ⟨hkey, hfirst⟩⟩

omit [DecidableEq A] in
/-- Nothing is added when there is no row of the key. -/
theorem addToRow_none : addToRow keyOf k a l = none ↔ ∀ r ∈ l, keyOf r.head ≠ k := by
  induction l with
  | nil => simp [addToRow]
  | cons r rest ih =>
      unfold addToRow
      split
      · rename_i hkey
        simp [hkey]
      · rename_i hkey
        simp [ih, hkey]

/-- A record is removed from the first row of the key that has it. -/
theorem removeFrom_some (h : removeFrom keyOf k a l = some l') :
    ∃ pre r post, l = pre ++ r :: post ∧ keyOf r.head = k ∧ a ∈ r.all ∧
      l' = pre ++ (Row.ofList (r.all.erase a)).toList ++ post ∧
      ∀ r' ∈ pre, ¬ (keyOf r'.head = k ∧ a ∈ r'.all) := by
  induction l generalizing l' with
  | nil => cases h
  | cons r rest ih =>
      unfold removeFrom at h
      split at h
      · rename_i hrow
        exact ⟨[], r, rest, rfl, hrow.1, hrow.2, (Option.some.inj h).symm, by simp⟩
      · rename_i hrow
        obtain ⟨t, ht, rfl⟩ := Option.map_eq_some_iff.mp h
        obtain ⟨pre, r', post, rfl, hkey, hmem, rfl, hfirst⟩ := ih ht
        exact ⟨r :: pre, r', post, rfl, hkey, hmem, rfl, List.forall_mem_cons.mpr ⟨hrow, hfirst⟩⟩

/-- Nothing is removed when no row of the key has the record. -/
theorem removeFrom_none :
    removeFrom keyOf k a l = none ↔ ∀ r ∈ l, keyOf r.head = k → a ∉ r.all := by
  induction l with
  | nil => simp [removeFrom]
  | cons r rest ih =>
      unfold removeFrom
      split
      · rename_i hrow
        simp [hrow.1, hrow.2]
      · rename_i hrow
        simp only [Option.map_eq_none_iff, ih, List.forall_mem_cons]
        tauto

omit [DecidableEq A] in
/-- The records of a row in the middle stand in the middle. -/
theorem flat_middle (pre post : List (Row A)) (r : Row A) :
    flat (pre ++ r :: post) = flat pre ++ (r.all ++ flat post) := by
  rw [flat_append, flat_cons]

omit [DecidableEq A] in
/-- A record that is added to a row is one more record of the slot. -/
theorem flat_insertSecond_perm :
    (flat (pre ++ r.insertSecond a :: post)).Perm (a :: flat (pre ++ r :: post)) := by
  rw [flat_middle, flat_middle]
  refine List.Perm.trans ?_ List.perm_middle
  exact List.Perm.append_left _ ((r.insertSecond_perm a).append_right _)

omit [DecidableEq K] in
/-- A slot has one row for a key. -/
theorem SlotOk.row_unique (h : SlotOk keyOf slotOf i l) {r r' : Row A} (hr : r ∈ l) (hr' : r' ∈ l)
    (hkey : keyOf r.head = keyOf r'.head) : r = r' := by
  have hsymm : Std.Symm fun r r' : Row A => keyOf r.head ≠ keyOf r'.head :=
    ⟨fun _ _ hne => hne.symm⟩
  by_contra hne
  exact h.one_row.forall hr hr' hne hkey

section

omit [DecidableEq A] [DecidableEq K]

/-- A record of a new key opens a row. -/
theorem SlotOk.push (h : SlotOk keyOf slotOf i l) (hslot : slotOf (keyOf a) = i)
    (hkey : ∀ r ∈ l, keyOf r.head ≠ keyOf a) (hfresh : a ∉ flat l) :
    SlotOk keyOf slotOf i (⟨a, []⟩ :: l) where
  same_key := by
    intro r hr b hb
    rcases List.mem_cons.mp hr with rfl | hr
    · simp [Row.all] at hb; rw [hb]
    · exact h.same_key r hr b hb
  in_slot := by
    intro r hr
    rcases List.mem_cons.mp hr with rfl | hr
    · exact hslot
    · exact h.in_slot r hr
  one_row := List.pairwise_cons.mpr ⟨fun r hr => (hkey r hr).symm, h.one_row⟩
  once := by simpa [Row.all] using ⟨hfresh, h.once⟩

/-- Replacing a row by one with the same key and no new addresses but `new`. -/
theorem SlotOk.replace {r' : Row A} (h : SlotOk keyOf slotOf i (pre ++ r :: post))
    (hsame : ∀ b ∈ r'.all, keyOf b = keyOf r.head)
    (hnodup : (flat (pre ++ r' :: post)).Nodup) :
    SlotOk keyOf slotOf i (pre ++ r' :: post) := by
  have hhead : keyOf r'.head = keyOf r.head := hsame _ r'.head_mem_all
  have hr : r ∈ pre ++ r :: post := by simp
  refine ⟨?_, ?_, ?_, hnodup⟩
  · intro q hq b hb
    rcases List.mem_append.mp hq with hq | hq
    · exact h.same_key q (by simp [hq]) b hb
    · rcases List.mem_cons.mp hq with rfl | hq
      · rw [hsame b hb, hhead]
      · exact h.same_key q (by simp [hq]) b hb
  · intro q hq
    rcases List.mem_append.mp hq with hq | hq
    · exact h.in_slot q (by simp [hq])
    · rcases List.mem_cons.mp hq with rfl | hq
      · rw [hhead]; exact h.in_slot r hr
      · exact h.in_slot q (by simp [hq])
  · have hone := h.one_row
    rw [List.pairwise_append, List.pairwise_cons] at hone ⊢
    obtain ⟨hpre, ⟨hrow, hpost⟩, hcross⟩ := hone
    refine ⟨hpre, ⟨fun q hq => by rw [hhead]; exact hrow q hq, hpost⟩, ?_⟩
    intro q hq q' hq'
    rcases List.mem_cons.mp hq' with rfl | hq'
    · rw [hhead]; exact hcross q hq r List.mem_cons_self
    · exact hcross q hq q' (List.mem_cons_of_mem r hq')

/-- A record of a known key enters the row of its key. -/
theorem SlotOk.add (h : SlotOk keyOf slotOf i (pre ++ r :: post))
    (hkey : keyOf a = keyOf r.head) (hfresh : a ∉ flat (pre ++ r :: post)) :
    SlotOk keyOf slotOf i (pre ++ r.insertSecond a :: post) := by
  refine h.replace ?_ ?_
  · intro b hb
    rcases Row.mem_insertSecond.mp hb with rfl | hb
    · exact hkey
    · exact h.same_key r (by simp) b hb
  · exact flat_insertSecond_perm.nodup_iff.mpr (List.nodup_cons.mpr ⟨hfresh, h.once⟩)

/-- A slot without one of its rows is in order. -/
theorem SlotOk.drop (h : SlotOk keyOf slotOf i (pre ++ r :: post)) :
    SlotOk keyOf slotOf i (pre ++ post) := by
  have hsub : (pre ++ post).Sublist (pre ++ r :: post) :=
    List.Sublist.append_left (List.sublist_cons_self r post) pre
  refine ⟨fun q hq => h.same_key q (hsub.subset hq), fun q hq => h.in_slot q (hsub.subset hq),
    h.one_row.sublist hsub, h.once.sublist ?_⟩
  rw [flat_append, flat_middle]
  exact List.Sublist.append_left (List.sublist_append_right _ _) _

end

omit [DecidableEq K] in
/-- A slot without one of its records is in order. -/
theorem SlotOk.remove (h : SlotOk keyOf slotOf i (pre ++ r :: post)) :
    SlotOk keyOf slotOf i (pre ++ (Row.ofList (r.all.erase a)).toList ++ post) := by
  cases hof : Row.ofList (r.all.erase a) with
  | none => simpa using h.drop
  | some r' =>
      have hall : r'.all = r.all.erase a := Row.ofList_all hof
      have hsub : r'.all.Sublist r.all := hall ▸ List.erase_sublist
      have hnew : SlotOk keyOf slotOf i (pre ++ r' :: post) := by
        refine h.replace (fun b hb => h.same_key r (by simp) b (hsub.subset hb)) ?_
        refine h.once.sublist ?_
        rw [flat_middle, flat_middle]
        exact List.Sublist.append_left (hsub.append_right _) _
      simpa using hnew

variable {live : A → Prop} {rows rows' : Rows A} {isUnique space : Bool}

section

omit [DecidableEq A] [DecidableEq K]

/-- Only the keys of the live records matter. -/
theorem WellIndexed.congr {keyOf' : A → K} (h : WellIndexed keyOf slotOf live rows)
    (hkeys : ∀ a, live a → keyOf' a = keyOf a) : WellIndexed keyOf' slotOf live rows := by
  have hflat : ∀ i, ∀ r ∈ rows i, ∀ a ∈ r.all, keyOf' a = keyOf a := fun i r hr a ha =>
    hkeys a ((h.indexed a).mpr ⟨i, mem_flat.mpr ⟨r, hr, ha⟩⟩)
  refine ⟨fun i => ⟨?_, ?_, ?_, (h.slot i).once⟩, h.indexed⟩
  · intro r hr a ha
    rw [hflat i r hr a ha, hflat i r hr _ r.head_mem_all]
    exact (h.slot i).same_key r hr a ha
  · intro r hr
    rw [hflat i r hr _ r.head_mem_all]
    exact (h.slot i).in_slot r hr
  · refine (h.slot i).one_row.imp_of_mem ?_
    intro r r' hr hr' hne
    rwa [hflat i r hr _ r.head_mem_all, hflat i r' hr' _ r'.head_mem_all]

/-- An address stands in the slot of its key. -/
theorem WellIndexed.slot_of_mem (h : WellIndexed keyOf slotOf live rows) (ha : a ∈ flat (rows i)) :
    i = slotOf (keyOf a) := by
  obtain ⟨r, hr, har⟩ := mem_flat.mp ha
  rw [(h.slot i).same_key r hr a har]
  exact ((h.slot i).in_slot r hr).symm

/-- A record is live exactly when the row of its key has it. -/
theorem WellIndexed.live_iff (h : WellIndexed keyOf slotOf live rows) :
    live a ↔ ∃ r ∈ rows (slotOf (keyOf a)), keyOf r.head = keyOf a ∧ a ∈ r.all := by
  constructor
  · intro hlive
    obtain ⟨i, ha⟩ := (h.indexed a).mp hlive
    obtain rfl := h.slot_of_mem ha
    obtain ⟨r, hr, har⟩ := mem_flat.mp ha
    exact ⟨r, hr, ((h.slot _).same_key r hr a har).symm, har⟩
  · rintro ⟨r, hr, -, har⟩
    exact (h.indexed a).mpr ⟨_, mem_flat.mpr ⟨r, hr, har⟩⟩

end

/-- **Selection is exact.** -/
theorem WellIndexed.select_spec (h : WellIndexed keyOf slotOf live rows) (k : K) :
    (select keyOf slotOf rows k).Nodup ∧
      ∀ a, a ∈ select keyOf slotOf rows k ↔ live a ∧ keyOf a = k := by
  unfold select
  cases hfind : findRow keyOf k (rows (slotOf k)) with
  | none =>
      have hno : ∀ r ∈ rows (slotOf k), keyOf r.head ≠ k := by
        simpa [findRow] using hfind
      refine ⟨List.nodup_nil, fun a => ⟨fun ha => absurd ha List.not_mem_nil, ?_⟩⟩
      rintro ⟨hlive, rfl⟩
      obtain ⟨r, hr, hkey, -⟩ := h.live_iff.mp hlive
      exact absurd hkey (hno r hr)
  | some r =>
      have hr : r ∈ rows (slotOf k) := List.mem_of_find?_eq_some hfind
      have hkey : keyOf r.head = k := by simpa using List.find?_some hfind
      have hslot := h.slot (slotOf k)
      have hnodup : r.all.Nodup := by
        have honce := hslot.once
        rw [flat, List.nodup_flatMap] at honce
        exact honce.1 r hr
      refine ⟨hnodup, fun a => ⟨fun ha => ?_, ?_⟩⟩
      · exact ⟨(h.indexed a).mpr ⟨_, mem_flat.mpr ⟨r, hr, ha⟩⟩,
          (hslot.same_key r hr a ha).trans hkey⟩
      · rintro ⟨hlive, rfl⟩
        obtain ⟨r', hr', hkey', ha⟩ := h.live_iff.mp hlive
        obtain rfl := hslot.row_unique hr' hr (hkey'.trans hkey.symm)
        exact ha

omit [DecidableEq A] in
/-- The records of a row made of a list are the list. -/
theorem flat_ofList (l : List A) : flat (Row.ofList l).toList = l := by
  cases l with
  | nil => rfl
  | cons a rest => simp [Row.ofList, Row.all]

/-- Taking an address out of its row takes exactly it out of the slot. -/
theorem mem_flat_remove {b : A} (honce : (flat (pre ++ r :: post)).Nodup) (ha : a ∈ r.all) :
    b ∈ flat (pre ++ (Row.ofList (r.all.erase a)).toList ++ post) ↔
      b ∈ flat (pre ++ r :: post) ∧ b ≠ a := by
  rw [flat_middle] at honce ⊢
  obtain ⟨-, hright, hpre⟩ := List.nodup_append.mp honce
  obtain ⟨hrow, -, hpost⟩ := List.nodup_append.mp hright
  have hapre : b ∈ flat pre → b ≠ a := fun hb => hpre b hb a (List.mem_append_left _ ha)
  have hapost : b ∈ flat post → b ≠ a := fun hb hba => hpost a ha b hb hba.symm
  rw [flat_append, flat_append, flat_ofList]
  simp only [List.mem_append, hrow.mem_erase_iff]
  tauto

omit [DecidableEq A] [DecidableEq K] in
/-- Changing one slot keeps the other slots in order. -/
theorem WellIndexed.update {live' : A → Prop} (h : WellIndexed keyOf slotOf live rows)
    (hslot : SlotOk keyOf slotOf i l)
    (hlive : ∀ b, live' b ↔ b ∈ flat l ∨ ∃ j, j ≠ i ∧ b ∈ flat (rows j)) :
    WellIndexed keyOf slotOf live' (Function.update rows i l) := by
  constructor
  · intro j
    by_cases hj : j = i
    · subst hj; rw [Function.update_self]; exact hslot
    · rw [Function.update_of_ne hj]; exact h.slot j
  · intro b
    rw [hlive]
    constructor
    · rintro (hb | ⟨j, hj, hb⟩)
      · exact ⟨i, by rwa [Function.update_self]⟩
      · exact ⟨j, by rwa [Function.update_of_ne hj]⟩
    · rintro ⟨j, hb⟩
      by_cases hj : j = i
      · subst hj; rw [Function.update_self] at hb; exact .inl hb
      · rw [Function.update_of_ne hj] at hb; exact .inr ⟨j, hj, hb⟩

omit [DecidableEq A] in
/-- **Insertion.**  An accepted insertion adds the address under its key. -/
theorem WellIndexed.insert_ok (h : WellIndexed keyOf slotOf live rows) (hfresh : ¬ live a)
    (hins : insert keyOf slotOf isUnique space rows (keyOf a) a = .ok rows') :
    WellIndexed keyOf slotOf (fun b => live b ∨ b = a) rows' := by
  have hslot := h.slot (slotOf (keyOf a))
  have hnotIn : ∀ j, a ∉ flat (rows j) := fun j hj => hfresh ((h.indexed a).mpr ⟨j, hj⟩)
  have hsplit : ∀ b, live b ↔
      b ∈ flat (rows (slotOf (keyOf a))) ∨ ∃ j, j ≠ slotOf (keyOf a) ∧ b ∈ flat (rows j) := by
    intro b
    rw [h.indexed]
    constructor
    · rintro ⟨j, hj⟩
      by_cases hji : j = slotOf (keyOf a)
      · exact .inl (hji ▸ hj)
      · exact .inr ⟨j, hji, hj⟩
    · rintro (hb | ⟨j, -, hb⟩)
      · exact ⟨_, hb⟩
      · exact ⟨j, hb⟩
  unfold insert at hins
  cases hadd : addToRow keyOf (keyOf a) a (rows (slotOf (keyOf a))) with
  | none =>
      rw [hadd] at hins
      cases space <;> cases hins
      refine h.update (hslot.push rfl (addToRow_none.mp hadd) (hnotIn _)) fun b => ?_
      rw [hsplit]
      simp only [flat_cons, Row.all, List.cons_append, List.nil_append, List.mem_cons]
      grind
  | some l =>
      rw [hadd] at hins
      obtain ⟨pre, r, post, hrows, hkey, rfl, -⟩ := addToRow_some hadd
      cases isUnique <;> cases space <;> cases hins
      have hold : SlotOk keyOf slotOf (slotOf (keyOf a)) (pre ++ r :: post) := hrows ▸ hslot
      refine h.update (hold.add hkey.symm (hrows ▸ hnotIn _)) fun b => ?_
      rw [hsplit, hrows]
      simp only [flat_middle, List.mem_append, Row.mem_insertSecond]
      grind

omit [DecidableEq A] in
/-- **Unique conflict.**  An insertion is refused as a conflict exactly when the
index is unique and the key is live. -/
theorem WellIndexed.insert_conflict (h : WellIndexed keyOf slotOf live rows) :
    insert keyOf slotOf isUnique space rows k a = .error .uniqueConflict ↔
      isUnique = true ∧ ∃ b, live b ∧ keyOf b = k := by
  have hrow : addToRow keyOf k a (rows (slotOf k)) ≠ none ↔ ∃ b, live b ∧ keyOf b = k := by
    rw [Ne, addToRow_none]
    push Not
    constructor
    · rintro ⟨r, hr, hkey⟩
      exact ⟨r.head, (h.indexed _).mpr ⟨_, mem_flat.mpr ⟨r, hr, r.head_mem_all⟩⟩, hkey⟩
    · rintro ⟨b, hlive, rfl⟩
      obtain ⟨r, hr, hkey, -⟩ := h.live_iff.mp hlive
      exact ⟨r, hr, hkey⟩
  rw [← hrow]
  unfold insert
  cases addToRow keyOf k a (rows (slotOf k)) with
  | none => cases space <;> simp
  | some l => cases isUnique <;> cases space <;> simp

/-- **Deletion.**  Deleting a live address under its key takes it out; any other
deletion changes nothing. -/
theorem WellIndexed.delete_spec (h : WellIndexed keyOf slotOf live rows) :
    (live a ∧ keyOf a = k →
      (deleteIdx keyOf slotOf rows k a).1 = true ∧
      WellIndexed keyOf slotOf (fun b => live b ∧ b ≠ a) (deleteIdx keyOf slotOf rows k a).2) ∧
    (¬ (live a ∧ keyOf a = k) → deleteIdx keyOf slotOf rows k a = (false, rows)) := by
  unfold deleteIdx
  cases hrem : removeFrom keyOf k a (rows (slotOf k)) with
  | none =>
      refine ⟨?_, fun _ => rfl⟩
      rintro ⟨hlive, rfl⟩
      obtain ⟨r, hr, hkey, ha⟩ := h.live_iff.mp hlive
      exact absurd ha (removeFrom_none.mp hrem r hr hkey)
  | some l =>
      obtain ⟨pre, r, post, hrows, hkey, ha, rfl, -⟩ := removeFrom_some hrem
      have hslot : SlotOk keyOf slotOf (slotOf k) (pre ++ r :: post) := hrows ▸ h.slot (slotOf k)
      have hmem : a ∈ flat (rows (slotOf k)) := by
        rw [hrows, flat_middle]; simp [ha]
      have hka : keyOf a = k := (hslot.same_key r (by simp) a ha).trans hkey
      have hlive : live a := (h.indexed a).mpr ⟨_, hmem⟩
      refine ⟨fun _ => ⟨rfl, ?_⟩, fun hno => absurd ⟨hlive, hka⟩ hno⟩
      refine h.update hslot.remove fun b => ?_
      rw [mem_flat_remove hslot.once ha, ← hrows, h.indexed]
      constructor
      · rintro ⟨⟨j, hj⟩, hne⟩
        by_cases hjk : j = slotOf k
        · exact .inl ⟨hjk ▸ hj, hne⟩
        · exact .inr ⟨j, hjk, hj⟩
      · rintro (⟨hb, hne⟩ | ⟨j, hj, hb⟩)
        · exact ⟨⟨_, hb⟩, hne⟩
        · refine ⟨⟨j, hb⟩, ?_⟩
          rintro rfl
          exact hj ((h.slot_of_mem hb).trans (by rw [hka]))

omit [DecidableEq A] [DecidableEq K] in
/-- Only which records are live matters. -/
theorem WellIndexed.of_iff {live' : A → Prop} (h : WellIndexed keyOf slotOf live rows)
    (hiff : ∀ a, live' a ↔ live a) : WellIndexed keyOf slotOf live' rows :=
  ⟨h.slot, fun a => (hiff a).trans (h.indexed a)⟩

/-- After a deletion under its key an address is not indexed, whether it was
before or not. -/
theorem WellIndexed.delete (h : WellIndexed keyOf slotOf live rows)
    (hkey : live a → keyOf a = k) :
    WellIndexed keyOf slotOf (fun b => live b ∧ b ≠ a) (deleteIdx keyOf slotOf rows k a).2 := by
  by_cases ha : live a
  · exact (h.delete_spec.1 ⟨ha, hkey ha⟩).2
  · rw [h.delete_spec.2 fun hc => ha hc.1]
    exact h.of_iff fun b => ⟨fun hb => hb.1, fun hb => ⟨hb, fun hba => ha (hba ▸ hb)⟩⟩

/-! ## The order of a row -/

/-- A row with a further element: it becomes the second one. -/
def second (a : A) : List A → List A
  | [] => [a]
  | b :: rest => b :: a :: rest

section

omit [DecidableEq A]

/-- A selection depends on the keys of the live records only. -/
theorem WellIndexed.select_congr {keyOf' : A → K} (h : WellIndexed keyOf slotOf live rows)
    (hkeys : ∀ a, live a → keyOf' a = keyOf a) (k : K) :
    select keyOf' slotOf rows k = select keyOf slotOf rows k := by
  have hfind : findRow keyOf' k (rows (slotOf k)) = findRow keyOf k (rows (slotOf k)) := by
    have hheads : ∀ r ∈ rows (slotOf k), keyOf' r.head = keyOf r.head := fun r hr =>
      hkeys r.head ((h.indexed _).mpr ⟨_, mem_flat.mpr ⟨r, hr, r.head_mem_all⟩⟩)
    exact List.find?_congr fun r hr => by rw [hheads r hr]
  rw [select, select, hfind]

/-- **An accepted insertion** makes the address the second one of its row, and leaves the others. -/
theorem select_insert
    (hins : insert keyOf slotOf isUnique space rows (keyOf a) a = .ok rows') (k : K) :
    select keyOf slotOf rows' k =
      if k = keyOf a then second a (select keyOf slotOf rows k) else select keyOf slotOf rows k := by
  by_cases hslot : slotOf k = slotOf (keyOf a)
  · unfold insert at hins
    cases hadd : addToRow keyOf (keyOf a) a (rows (slotOf (keyOf a))) with
    | none =>
        have hno := addToRow_none.mp hadd
        rw [hadd] at hins
        cases space <;> cases hins
        rw [select, select, hslot, Function.update_self, findRow, List.find?_cons]
        by_cases hk : k = keyOf a
        · subst hk
          have hnone : findRow keyOf (keyOf a) (rows (slotOf (keyOf a))) = none := by
            simpa [findRow] using hno
          simp [hnone, second, Row.all]
        · rw [if_neg hk]
          simp [Ne.symm hk, findRow]
    | some l =>
        rw [hadd] at hins
        obtain ⟨pre, r, post, hrows, hkey, rfl, hfirst⟩ := addToRow_some hadd
        cases isUnique <;> cases space <;> cases hins
        rw [select, select, hslot, Function.update_self, hrows, findRow, findRow,
          List.find?_append, List.find?_append, List.find?_cons, List.find?_cons,
          Row.insertSecond_head, hkey]
        by_cases hk : k = keyOf a
        · subst hk
          have hpre : pre.find? (fun r => decide (keyOf r.head = keyOf a)) = none := by
            simpa using hfirst
          simp [hpre, second, Row.all, Row.insertSecond]
        · simp [hk, Ne.symm hk]
  · have hne : k ≠ keyOf a := fun hk => hslot (hk ▸ rfl)
    rw [if_neg hne]
    unfold insert at hins
    split at hins
    · cases isUnique <;> cases space <;> cases hins
      rw [select, select, Function.update_of_ne hslot]
    · cases space <;> cases hins
      rw [select, select, Function.update_of_ne hslot]

/-- A row is what the slot has of its key, in this order. -/
theorem WellIndexed.select_eq (h : WellIndexed keyOf slotOf live rows) (k : K) :
    select keyOf slotOf rows k = (flat (rows (slotOf k))).filter fun a => keyOf a = k := by
  have hslot := h.slot (slotOf k)
  generalize hl : rows (slotOf k) = l at hslot
  rw [select, hl]
  have hsplit : ∀ {l : List (Row A)}, (∀ r ∈ l, ∀ a ∈ r.all, keyOf a = keyOf r.head) →
      (l.Pairwise fun r r' => keyOf r.head ≠ keyOf r'.head) →
      (match findRow keyOf k l with | some r => r.all | none => []) =
        (flat l).filter fun a => keyOf a = k := by
    intro l hsame hone
    induction l with
    | nil => rfl
    | cons r rest ih =>
        obtain ⟨hr, hrest⟩ := List.pairwise_cons.mp hone
        rw [findRow, List.find?_cons, flat_cons, List.filter_append]
        by_cases hkey : keyOf r.head = k
        · have hall : r.all.filter (fun a => decide (keyOf a = k)) = r.all :=
            List.filter_eq_self.mpr fun a ha =>
              decide_eq_true ((hsame r List.mem_cons_self a ha).trans hkey)
          have hnone : (flat rest).filter (fun a => decide (keyOf a = k)) = [] := by
            refine List.filter_eq_nil_iff.mpr fun a ha => ?_
            obtain ⟨r', hr', har'⟩ := mem_flat.mp ha
            have := hsame r' (List.mem_cons_of_mem r hr') a har'
            have hne := hr r' hr'
            simp only [decide_eq_true_eq]
            rw [this, ← hkey]
            exact hne.symm
          rw [hall, hnone, List.append_nil]
          simp [hkey]
        · have hnone : r.all.filter (fun a => decide (keyOf a = k)) = [] := by
            refine List.filter_eq_nil_iff.mpr fun a ha => ?_
            simp only [decide_eq_true_eq]
            rw [hsame r List.mem_cons_self a ha]
            exact hkey
          rw [hnone, List.nil_append,
            ← ih (fun r' hr' => hsame r' (List.mem_cons_of_mem r hr')) hrest]
          simp [hkey, findRow]
  exact hsplit hslot.same_key hslot.one_row

end

/-- **A deletion** takes the address out of its row, and keeps the order of the others. -/
theorem WellIndexed.select_delete (h : WellIndexed keyOf slotOf live rows)
    (hkey : live a → keyOf a = k) (k' : K) :
    select keyOf slotOf (deleteIdx keyOf slotOf rows k a).2 k' =
      (select keyOf slotOf rows k').filter fun b => b ≠ a := by
  have hafter := h.delete hkey
  have hgone : ∀ {j}, a ∉ flat (rows j) → flat (rows j) = (flat (rows j)).filter fun b => b ≠ a := by
    intro j hj
    refine (List.filter_eq_self.mpr fun b hb => decide_eq_true ?_).symm
    rintro rfl
    exact hj hb
  have hflat : ∀ j, flat ((deleteIdx keyOf slotOf rows k a).2 j) =
      (flat (rows j)).filter fun b => b ≠ a := by
    intro j
    unfold deleteIdx
    cases hrem : removeFrom keyOf k a (rows (slotOf k)) with
    | none =>
        refine hgone fun hj => ?_
        have hlive := (h.indexed a).mpr ⟨j, hj⟩
        obtain ⟨r, hr, hrkey, har⟩ := h.live_iff.mp hlive
        rw [hkey hlive] at hr hrkey
        exact removeFrom_none.mp hrem r hr hrkey har
    | some l =>
        obtain ⟨pre, r, post, hrows, hrkey, har, rfl, -⟩ := removeFrom_some hrem
        have hone := (h.slot (slotOf k)).once
        by_cases hj : j = slotOf k
        · subst hj
          rw [hrows, flat_middle] at hone
          obtain ⟨-, hright, hpre⟩ := List.nodup_append.mp hone
          obtain ⟨hrow, -, hpost⟩ := List.nodup_append.mp hright
          dsimp only
          rw [Function.update_self, hrows, flat_append, flat_append, flat_ofList, flat_middle,
            List.filter_append, List.filter_append, hrow.erase_eq_filter, List.append_assoc]
          congr 1
          · refine (List.filter_eq_self.mpr fun b hb => decide_eq_true ?_).symm
            exact hpre b hb a (List.mem_append_left _ har)
          · congr 1
            · exact List.filter_congr fun b _ => by simp [bne, beq_eq_decide]
            · refine (List.filter_eq_self.mpr fun b hb => decide_eq_true ?_).symm
              exact (hpost a har b hb).symm
        · dsimp only
          rw [Function.update_of_ne hj]
          refine hgone fun hmem => hj ?_
          have hin : a ∈ flat (rows (slotOf k)) := by
            rw [hrows, flat_middle]
            simp [har]
          rw [h.slot_of_mem hmem, h.slot_of_mem hin]
  rw [hafter.select_eq, h.select_eq, hflat, List.filter_filter, List.filter_filter]
  exact List.filter_congr fun b _ => Bool.and_comm _ _

end IndexRows
