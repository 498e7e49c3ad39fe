import Boss.SortedMap
import Mathlib.Data.List.TakeWhile

/-!
# Searching a list for a run

A list is searched for the elements that match.  The search from the front looks at all of them.
The search by halves goes to the first element that does not come before and reads on as long as
elements match.  Both find the same elements exactly when the matching ones are a run that begins
there (`run_perm_filter_iff`).
-/

namespace RunSearch

open SortedMap (lowerBound lowerBound_split Partitioned)

variable {α : Type*}

/-- The elements from the border on, as long as they match. -/
def run (before matching : α → Bool) (l : List α) : List α :=
  (l.drop (lowerBound before l)).takeWhile matching

/-- The element at the border, if it matches. -/
def single (before matching : α → Bool) (l : List α) : List α :=
  ((l.drop (lowerBound before l)).take 1).filter matching

/-- No matching element comes before, and behind the border no other element is in front of one. -/
structure Contiguous (before matching : α → Bool) (l : List α) : Prop where
  after : ∀ a ∈ l, matching a = true → before a = false
  unbroken : l.Pairwise fun a b => matching b = true → before a = true ∨ matching a = true

instance (before matching : α → Bool) (l : List α) : Decidable (Contiguous before matching l) :=
  decidable_of_iff ((∀ a ∈ l, matching a = true → before a = false) ∧
      l.Pairwise fun a b => matching b = true → before a = true ∨ matching a = true)
    ⟨fun h => ⟨h.1, h.2⟩, fun h => ⟨h.after, h.unbroken⟩⟩

variable {before matching : α → Bool} {l pre post : List α}

/-- Reading on finds everything exactly when no other element stands in front of a matching one. -/
theorem takeWhile_eq_filter_iff :
    post.takeWhile matching = post.filter matching ↔
      post.Pairwise fun a b => matching b = true → matching a = true := by
  induction post with
  | nil => exact iff_of_true rfl .nil
  | cons a post ih =>
      rw [List.pairwise_cons]
      by_cases ha : matching a = true
      · rw [List.takeWhile_cons_of_pos ha, List.filter_cons_of_pos ha, List.cons.injEq, ih]
        exact ⟨fun h => ⟨fun _ _ _ => ha, h.2⟩, fun h => ⟨rfl, h.2⟩⟩
      · rw [List.takeWhile_cons_of_neg ha, List.filter_cons_of_neg ha, eq_comm,
          List.filter_eq_nil_iff]
        constructor
        · intro hnone
          exact ⟨fun b hb hmatch => absurd hmatch (hnone b hb),
            List.pairwise_of_forall_mem_list fun _ _ b hb hmatch => absurd hmatch (hnone b hb)⟩
        · exact fun h b hb hmatch => ha (h.1 b hb hmatch)

/-- What the two searches have in common is a matter of length. -/
theorem takeWhile_perm_filter_iff :
    (post.takeWhile matching).Perm ((pre ++ post).filter matching) ↔
      (∀ a ∈ pre, ¬ matching a = true) ∧
        post.Pairwise fun a b => matching b = true → matching a = true := by
  have hinitial : post.takeWhile matching = (post.takeWhile matching).filter matching :=
    (List.filter_eq_self.mpr fun _ ha => List.mem_takeWhile_imp ha).symm
  have hsub : (post.takeWhile matching).Sublist (post.filter matching) := by
    rw [hinitial]
    exact (List.takeWhile_sublist matching).filter matching
  rw [List.filter_append, ← takeWhile_eq_filter_iff, ← List.filter_eq_nil_iff]
  constructor
  · intro hperm
    have hlength := hperm.length_eq
    rw [List.length_append] at hlength
    have hle := hsub.length_le
    exact ⟨List.length_eq_zero_iff.mp (by omega), hsub.eq_of_length (by omega)⟩
  · rintro ⟨hpre, hpost⟩
    rw [hpre, hpost]
    exact .refl _

/-- **The search by halves finds what the search from the front finds** exactly when the matching
elements are a run behind the border. -/
theorem run_perm_filter_iff (hpart : Partitioned before l) :
    (run before matching l).Perm (l.filter matching) ↔ Contiguous before matching l := by
  obtain ⟨pre, post, hsplit, hbound, hpre, hpost⟩ := lowerBound_split hpart
  have hrun : run before matching l = post.takeWhile matching := by
    unfold run
    rw [hbound, hsplit, List.drop_left]
  rw [hrun, hsplit, takeWhile_perm_filter_iff]
  constructor
  · rintro ⟨hnone, hpairs⟩
    refine ⟨fun a ha hmatch => ?_, ?_⟩
    · rcases List.mem_append.mp ha with ha | ha
      · exact absurd hmatch (hnone a ha)
      · exact hpost a ha
    · apply List.pairwise_append.mpr
      exact ⟨List.pairwise_of_forall_mem_list fun a ha _ _ _ => .inl (hpre a ha),
        hpairs.imp fun h hb => .inr (h hb), fun a ha _ _ _ => .inl (hpre a ha)⟩
  · rintro ⟨hafter, hunbroken⟩
    refine ⟨fun a ha hmatch => ?_, ?_⟩
    · have hfalse := hafter a (List.mem_append_left post ha) hmatch
      rw [hpre a ha] at hfalse
      cases hfalse
    · apply (List.pairwise_append.mp hunbroken).2.1.imp_of_mem
      intro a b ha _ h hb
      rcases h hb with hbefore | hmatch
      · rw [hpost a ha] at hbefore
        cases hbefore
      · exact hmatch

/-- Then the element at the border matches if any does. -/
theorem Contiguous.single_ne_nil_iff (hpart : Partitioned before l)
    (h : Contiguous before matching l) :
    single before matching l ≠ [] ↔ l.filter matching ≠ [] := by
  obtain ⟨pre, post, hsplit, hbound, -, -⟩ := lowerBound_split hpart
  have hperm := (run_perm_filter_iff hpart).mpr h
  have hrun : run before matching l = post.takeWhile matching := by
    unfold run
    rw [hbound, hsplit, List.drop_left]
  have hsingle : single before matching l = (post.take 1).filter matching := by
    unfold single
    rw [hbound, hsplit, List.drop_left]
  have hnil : l.filter matching = [] ↔ post.takeWhile matching = [] := by
    rw [← hrun]
    exact ⟨fun h => (h ▸ hperm).eq_nil, fun h => (h ▸ hperm).symm.eq_nil⟩
  rw [hsingle, Ne, Ne, hnil]
  cases post with
  | nil => exact Iff.rfl
  | cons a post => by_cases ha : matching a = true <;> simp [ha]

/-! ## The elements at a place -/

/-- Behind an element that is not before the place no element is, and behind one that is behind it
all elements are. -/
def Ascends (f : α → Ordering) (l : List α) : Prop :=
  l.Pairwise fun a b => (f b = .lt → f a = .lt) ∧ (f a = .gt → f b = .gt)

variable {f : α → Ordering}

/-- What is before the place, at it and behind it. -/
structure Parts (f : α → Ordering) (pre mid post : List α) : Prop where
  before : ∀ a ∈ pre, f a = .lt
  here : ∀ a ∈ mid, f a = .eq
  behind : ∀ a ∈ post, f a = .gt

/-- **The three parts of a list**, and how the searches for their borders end. -/
theorem Ascends.split (h : Ascends f l) :
    ∃ pre mid post, l = pre ++ (mid ++ post) ∧ Parts f pre mid post ∧
      lowerBound (fun a => f a = .lt) l = pre.length ∧
      lowerBound (fun a => f a ≠ .gt) (mid ++ post) = mid.length := by
  have hlower : Partitioned (fun a => decide (f a = .lt)) l :=
    h.imp fun hab hb => decide_eq_true (hab.1 (of_decide_eq_true hb))
  obtain ⟨pre, rest, rfl, hbound, hpre, hrest⟩ := lowerBound_split hlower
  have hupper : Partitioned (fun a => decide (f a ≠ .gt)) rest := by
    apply (List.pairwise_append.mp h).2.1.imp
    intro a b hab hb
    have hne : f b ≠ .gt := of_decide_eq_true hb
    exact decide_eq_true fun ha => hne (hab.2 ha)
  obtain ⟨mid, post, rfl, hbound', hmid, hpost⟩ := lowerBound_split hupper
  refine ⟨pre, mid, post, rfl, ⟨fun a ha => of_decide_eq_true (hpre a ha), fun a ha => ?_,
    fun a ha => ?_⟩, hbound, hbound'⟩
  · have hlt := of_decide_eq_false (hrest a (List.mem_append_left post ha))
    have hgt := of_decide_eq_true (hmid a ha)
    cases hfa : f a with
    | lt => exact absurd hfa hlt
    | eq => rfl
    | gt => exact absurd hfa hgt
  · exact Decidable.not_not.mp (of_decide_eq_false (hpost a ha))

section Parts

variable {mid : List α} (h : Parts f pre mid post)
include h

theorem Parts.mem_here_iff {a : α} (ha : a ∈ pre ++ (mid ++ post)) : a ∈ mid ↔ f a = .eq := by
  refine ⟨h.here a, fun heq => ?_⟩
  rcases List.mem_append.mp ha with hpre | hrest
  · cases (h.before a hpre).symm.trans heq
  · rcases List.mem_append.mp hrest with hmid | hpost
    · exact hmid
    · cases (h.behind a hpost).symm.trans heq

theorem Parts.mem_behind_iff {a : α} (ha : a ∈ pre ++ (mid ++ post)) : a ∈ post ↔ f a = .gt := by
  refine ⟨h.behind a, fun hgt => ?_⟩
  rcases List.mem_append.mp ha with hpre | hrest
  · cases (h.before a hpre).symm.trans hgt
  · rcases List.mem_append.mp hrest with hmid | hpost
    · cases (h.here a hmid).symm.trans hgt
    · exact hpost

theorem Parts.exists_here_iff : (∃ a ∈ pre ++ (mid ++ post), f a = .eq) ↔ mid ≠ [] := by
  constructor
  · rintro ⟨a, ha, heq⟩
    exact List.ne_nil_of_mem ((h.mem_here_iff ha).mpr heq)
  · intro hne
    obtain ⟨a, ha⟩ := List.exists_mem_of_ne_nil mid hne
    exact ⟨a, List.mem_append_right pre (List.mem_append_left post ha), h.here a ha⟩

theorem Parts.exists_behind_iff : (∃ a ∈ pre ++ (mid ++ post), f a = .gt) ↔ post ≠ [] := by
  constructor
  · rintro ⟨a, ha, hgt⟩
    exact List.ne_nil_of_mem ((h.mem_behind_iff ha).mpr hgt)
  · intro hne
    obtain ⟨a, ha⟩ := List.exists_mem_of_ne_nil post hne
    exact ⟨a, List.mem_append_right pre (List.mem_append_right mid ha), h.behind a ha⟩

/-- Picking the elements at the place out of the list gives its middle part. -/
theorem Parts.filter_here : (pre ++ (mid ++ post)).filter (fun a => f a = .eq) = mid := by
  have hnone : ∀ l : List α, (∀ a ∈ l, f a ≠ .eq) → l.filter (fun a => decide (f a = .eq)) = [] :=
    fun l hl => List.filter_eq_nil_iff.mpr fun a ha => by simp [hl a ha]
  rw [List.filter_append, List.filter_append, hnone pre fun a ha => by simp [h.before a ha],
    hnone post fun a ha => by simp [h.behind a ha],
    List.filter_eq_self.mpr fun a ha => decide_eq_true (h.here a ha), List.nil_append,
    List.append_nil]

end Parts

/-- A sorted list ascends at every place. -/
theorem Ascends.of_sorted {β : Type*} {cmp : β → β → Ordering} [Std.TransCmp cmp] (g : α → β)
    (b : β) (h : l.Pairwise fun a a' => cmp (g a') (g a) ≠ .lt) :
    Ascends (fun a => cmp (g a) b) l := by
  apply h.imp
  intro a a' hab
  have hle : (cmp (g a) (g a')).isLE := SortedMap.isLE_iff_ne_lt.mpr hab
  constructor
  · exact fun h => Std.TransCmp.lt_of_isLE_of_lt hle h
  · intro h
    apply Std.OrientedCmp.gt_iff_lt.mpr
    exact Std.TransCmp.lt_of_lt_of_isLE (Std.OrientedCmp.gt_iff_lt.mp h) hle

end RunSearch
