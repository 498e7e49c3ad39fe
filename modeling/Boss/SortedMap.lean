import Mathlib.Data.List.Sort
import Mathlib.Order.Lattice
import Mathlib.Tactic.Common

/-!
# Maps kept as ascending lists

A map is kept as a list of entries whose keys grow strictly.  `lowerBound` is the usual
halving search for the place of a key: it looks at the entry in the middle of what is left
and keeps the half that still holds the border between the entries before the key and the
rest.  On an ascending list it ends exactly at that border (`lowerBound_split`), so that an
entry put there keeps the list ascending, and `lookup` after the change is the changed map
(`lookup_middle`).  Two ascending lists with the same entries are the same list.
-/

namespace SortedMap

variable {α κ : Type*} {before : α → Bool} {l : List α}

/-- The halving loop: `count` entries from `first` on are left to look at. -/
def lowerBoundFrom (before : α → Bool) (l : List α) : Nat → Nat → Nat → Nat
  | 0, first, _ => first
  | fuel + 1, first, count =>
      if count = 0 then first
      else
        match l[first + count / 2]? with
        | none => first
        | some b =>
            if before b then
              lowerBoundFrom before l fuel (first + count / 2 + 1) (count - count / 2 - 1)
            else lowerBoundFrom before l fuel first (count / 2)

/-- The first place whose entry does not come before. -/
def lowerBound (before : α → Bool) (l : List α) : Nat :=
  lowerBoundFrom before l l.length 0 l.length

/-- What the loop knows: left of `first` all entries come before, right of what is left to
look at none does. -/
structure Bracketed (before : α → Bool) (l : List α) (first count : Nat) : Prop where
  inside : first + count ≤ l.length
  left : ∀ i b, i < first → l[i]? = some b → before b = true
  right : ∀ i b, first + count ≤ i → l[i]? = some b → before b = false

/-- No entry that comes before stands behind one that does not. -/
def Partitioned (before : α → Bool) (l : List α) : Prop :=
  l.Pairwise fun a b => before b = true → before a = true

theorem Partitioned.before_of_le (h : Partitioned before l) {i j : Nat} {a b : α} (hij : i ≤ j)
    (ha : l[i]? = some a) (hb : l[j]? = some b) (hbefore : before b = true) :
    before a = true := by
  rcases Nat.eq_or_lt_of_le hij with rfl | hlt
  · exact Option.some.inj (hb.symm.trans ha) ▸ hbefore
  · obtain ⟨hi, rfl⟩ := List.getElem?_eq_some_iff.mp ha
    obtain ⟨hj, rfl⟩ := List.getElem?_eq_some_iff.mp hb
    exact List.pairwise_iff_getElem.mp h i j hi hj hlt hbefore

/-- **The halving search.**  It ends with nothing left to look at. -/
theorem lowerBoundFrom_bracketed (hpart : Partitioned before l) :
    ∀ (fuel first count : Nat), count ≤ fuel → Bracketed before l first count →
      Bracketed before l (lowerBoundFrom before l fuel first count) 0 := by
  intro fuel
  induction fuel with
  | zero =>
      intro first count hfuel h
      obtain rfl : count = 0 := Nat.le_zero.mp hfuel
      exact h
  | succ fuel ih =>
      intro first count hfuel h
      rw [lowerBoundFrom]
      by_cases hcount : count = 0
      · rw [if_pos hcount]
        exact hcount ▸ h
      · rw [if_neg hcount]
        have hhalf : count / 2 < count := Nat.div_lt_self (by omega) (by omega)
        have hmid : first + count / 2 < l.length := by
          have hinside := h.inside
          omega
        obtain ⟨b, hb⟩ : ∃ b, l[first + count / 2]? = some b :=
          ⟨l[first + count / 2], List.getElem?_eq_getElem hmid⟩
        rw [hb]
        dsimp only
        by_cases hbefore : before b = true
        · rw [if_pos hbefore]
          have hinside := h.inside
          refine ih _ _ (by omega) ⟨by omega, fun i a hi ha => ?_, fun i a hi ha => ?_⟩
          · exact hpart.before_of_le (by omega) ha hb hbefore
          · exact h.right i a (by omega) ha
        · rw [if_neg hbefore]
          refine ih _ _ (by omega) ⟨by omega, h.left, fun i a hi ha => ?_⟩
          by_contra hcontra
          exact hbefore (hpart.before_of_le hi hb ha (by simpa using hcontra))

/-- The search splits the list at the border. -/
theorem lowerBound_split (hpart : Partitioned before l) :
    ∃ pre post, l = pre ++ post ∧ lowerBound before l = pre.length ∧
      (∀ a ∈ pre, before a = true) ∧ ∀ a ∈ post, before a = false := by
  have h : Bracketed before l (lowerBound before l) 0 :=
    lowerBoundFrom_bracketed hpart l.length 0 l.length (Nat.le_refl _)
      ⟨by omega, fun i b hi _ => absurd hi (Nat.not_lt_zero i), fun i b hi hb => by
        have := (List.getElem?_eq_some_iff.mp hb).1
        omega⟩
  refine ⟨l.take (lowerBound before l), l.drop (lowerBound before l),
    (List.take_append_drop _ l).symm, ?_, fun a ha => ?_, fun a ha => ?_⟩
  · exact (List.length_take_of_le h.inside).symm
  · obtain ⟨i, hi, rfl⟩ := List.mem_iff_getElem.mp ha
    have hlt : i < lowerBound before l := by
      rw [List.length_take] at hi
      omega
    rw [List.getElem_take]
    exact h.left i _ hlt (List.getElem?_eq_getElem _)
  · obtain ⟨i, hi, rfl⟩ := List.mem_iff_getElem.mp ha
    rw [List.getElem_drop]
    exact h.right _ _ (by omega) (List.getElem?_eq_getElem _)

/-- An entry inserted at a border of the list. -/
@[simp] theorem insertIdx_border (pre post : List α) (b : α) :
    (pre ++ post).insertIdx pre.length b = pre ++ b :: post := by
  induction pre with
  | nil => rfl
  | cons a pre ih => simp [ih]

section Keys

variable [LinearOrder κ] {key : α → κ} {pre post : List α} {b b' : α} {k k' : κ}

/-- The keys grow strictly along the list. -/
def Ascending (key : α → κ) (l : List α) : Prop := l.Pairwise fun a b => key a < key b

/-- The entry of a key. -/
def lookup (key : α → κ) (l : List α) (k : κ) : Option α := l.find? fun a => decide (key a = k)

theorem ascending_nil : Ascending key [] := List.Pairwise.nil

theorem Ascending.partitioned (h : Ascending key l) (k : κ) :
    Partitioned (fun a => decide (key a < k)) l :=
  h.imp fun hlt hb => decide_eq_true (hlt.trans (of_decide_eq_true hb))

theorem lookup_some (h : lookup key l k = some b) : b ∈ l ∧ key b = k :=
  ⟨List.mem_of_find?_eq_some h, by simpa using List.find?_some h⟩

theorem lookup_eq_none : lookup key l k = none ↔ ∀ a ∈ l, key a ≠ k := by
  simp [lookup]

/-- The list around an entry: the keys in front are smaller, those behind are larger. -/
theorem ascending_middle :
    Ascending key (pre ++ b :: post) ↔
      Ascending key (pre ++ post) ∧ (∀ a ∈ pre, key a < key b) ∧ ∀ a ∈ post, key b < key a := by
  simp only [Ascending, List.pairwise_append, List.pairwise_cons, List.mem_cons, forall_eq_or_imp]
  constructor
  · rintro ⟨hpre, ⟨hpost, hrest⟩, hcross⟩
    exact ⟨⟨hpre, hrest, fun a ha => (hcross a ha).2⟩, fun a ha => (hcross a ha).1, hpost⟩
  · rintro ⟨⟨hpre, hrest, hcross⟩, hbelow, habove⟩
    exact ⟨hpre, ⟨habove, hrest⟩, fun a ha => ⟨hbelow a ha, hcross a ha⟩⟩

/-- **Lookup around an entry.**  Its key leads to the entry, every other key to what the
list holds without it. -/
theorem lookup_middle (h : Ascending key (pre ++ b :: post)) :
    lookup key (pre ++ b :: post) k = if k = key b then some b else lookup key (pre ++ post) k := by
  obtain ⟨-, hbelow, -⟩ := ascending_middle.mp h
  by_cases hk : k = key b
  · subst hk
    have hpre : pre.find? (fun a => decide (key a = key b)) = none := by
      simpa using fun a ha => (hbelow a ha).ne
    simp [lookup, List.find?_append, hpre]
  · rw [if_neg hk]
    have hb : decide (key b = k) = false := decide_eq_false fun heq => hk heq.symm
    simp [lookup, List.find?_append, hb]

/-- The search finds the entry of the key, or the gap the key belongs in. -/
theorem lowerBound_cases (h : Ascending key l) (k : κ) :
    (∃ pre b post, l = pre ++ b :: post ∧ key b = k ∧
      lowerBound (fun a => decide (key a < k)) l = pre.length) ∨
    (∃ pre post, l = pre ++ post ∧ (∀ a ∈ pre, key a < k) ∧ (∀ a ∈ post, k < key a) ∧
      lowerBound (fun a => decide (key a < k)) l = pre.length) := by
  obtain ⟨pre, post, rfl, hplace, hpre, hpost⟩ := lowerBound_split (h.partitioned k)
  replace hpre : ∀ a ∈ pre, key a < k := fun a ha => of_decide_eq_true (hpre a ha)
  replace hpost : ∀ a ∈ post, k ≤ key a := fun a ha => not_lt.mp (of_decide_eq_false (hpost a ha))
  cases post with
  | nil => exact Or.inr ⟨pre, [], rfl, hpre, fun a ha => absurd ha List.not_mem_nil, hplace⟩
  | cons b post =>
      rcases (hpost b List.mem_cons_self).eq_or_lt with heq | hlt
      · exact Or.inl ⟨pre, b, post, rfl, heq.symm, hplace⟩
      · refine Or.inr ⟨pre, b :: post, rfl, hpre, fun a ha => ?_, hplace⟩
        rcases List.mem_cons.mp ha with rfl | ha
        · exact hlt
        · exact hlt.trans ((ascending_middle.mp h).2.2 a ha)

/-- An entry may be replaced by one of the same key. -/
theorem Ascending.replace (h : Ascending key (pre ++ b :: post)) (hkey : key b' = key b) :
    Ascending key (pre ++ b' :: post) := by
  rw [ascending_middle] at h ⊢
  rwa [hkey]

/-- The entries of an ascending list are those that their key leads to. -/
theorem Ascending.mem_iff (h : Ascending key l) : b ∈ l ↔ lookup key l (key b) = some b := by
  refine ⟨fun hb => ?_, fun hb => (lookup_some hb).1⟩
  obtain ⟨pre, post, rfl⟩ := List.append_of_mem hb
  rw [lookup_middle h, if_pos rfl]

/-- Ascending lists that answer every lookup alike are the same list. -/
theorem Ascending.ext {l' : List α} (h : Ascending key l) (h' : Ascending key l')
    (heq : ∀ k, lookup key l k = lookup key l' k) : l = l' := by
  have hirr : Std.Irrefl fun a b : α => key a < key b := ⟨fun a => lt_irrefl (key a)⟩
  have hasymm : Std.Asymm fun a b : α => key a < key b := ⟨fun _ _ hab => hab.asymm⟩
  exact List.Pairwise.eq_of_mem_iff h h' fun a => by rw [h.mem_iff, h'.mem_iff, heq]

end Keys

/-! ## Sorting by a comparison -/

theorem isLE_iff_ne_lt {cmp : α → α → Ordering} [Std.OrientedCmp cmp] {a b : α} :
    (cmp a b).isLE ↔ cmp b a ≠ .lt :=
  Ordering.isLE_iff_ne_gt.trans (not_congr Std.OrientedCmp.gt_iff_lt)

/-- Sorting by a comparison puts a list in its order. -/
theorem pairwise_insertionSort_of_cmp {cmp : α → α → Ordering} [Std.TransCmp cmp]
    {r : α → α → Prop} [DecidableRel r] (hr : ∀ a b, r a b ↔ (cmp a b).isLE) (l : List α) :
    (l.insertionSort r).Pairwise fun a b => (cmp a b).isLE := by
  have htotal : Std.Total r := ⟨fun a b => by
    rw [hr, hr, isLE_iff_ne_lt, Ordering.isLE_iff_eq_lt_or_eq_eq]
    cases cmp b a <;> simp⟩
  have htrans : IsTrans α r := ⟨fun a b c hab hbc =>
    (hr a c).mpr (Std.TransCmp.isLE_trans ((hr a b).mp hab) ((hr b c).mp hbc))⟩
  exact (List.pairwise_insertionSort r l).imp fun hab => (hr _ _).mp hab

end SortedMap
