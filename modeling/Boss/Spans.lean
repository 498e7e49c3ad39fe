import Mathlib.Algebra.Group.Basic
import Mathlib.Algebra.BigOperators.Group.List.Basic
import Mathlib.Algebra.Order.Ring.Int
import Mathlib.Data.List.Pairwise
import Mathlib.Tactic.Abel

/-!
# Spans one after the other

Every element of a list takes the span from `lo x` up to `hi x`.  `Leads lo hi a l b` says that
the spans of the list lead from `a` to `b`, each one from where the one before it ended.  Then
their lengths sum to what is between `a` and `b`, and when no span runs backwards, a point
between `a` and `b` lies in exactly one of them.

`steps a cuts b` are the spans between neighbouring cuts of a range.

Main result: `Leads.sum`.
-/

namespace Spans

variable {ι κ T : Type*} {lo hi : ι → T} {a b m t : T} {l pre post : List ι} {x y : ι}

/-- The spans of `l` lead from `a` to `b` without a gap. -/
def Leads (lo hi : ι → T) : T → List ι → T → Prop
  | a, [], b => a = b
  | a, x :: l, b => lo x = a ∧ Leads lo hi (hi x) l b

theorem leads_append :
    Leads lo hi a (pre ++ post) b ↔ ∃ m, Leads lo hi a pre m ∧ Leads lo hi m post b := by
  induction pre generalizing a with
  | nil => simp [Leads]
  | cons x pre ih =>
      simp only [List.cons_append, Leads, ih]
      constructor
      · rintro ⟨hx, m, hpre, hpost⟩
        exact ⟨m, ⟨hx, hpre⟩, hpost⟩
      · rintro ⟨m, ⟨hx, hpre⟩, hpost⟩
        exact ⟨hx, m, hpre, hpost⟩

/-- **The lengths sum to the whole.** -/
theorem Leads.sum {T : Type*} [AddCommGroup T] {lo hi : ι → T} {a b : T}
    (h : Leads lo hi a l b) : (l.map fun x => hi x - lo x).sum = b - a := by
  induction l generalizing a with
  | nil =>
      obtain rfl : a = b := h
      simp
  | cons x l ih =>
      obtain ⟨hx, hrest⟩ := h
      rw [List.map_cons, List.sum_cons, ih hrest, hx]
      abel

section Order

variable [LinearOrder T]

/-- A point within a span. -/
def Within (lo hi : ι → T) (t : T) (x : ι) : Prop := lo x ≤ t ∧ t < hi x

instance (t : T) (x : ι) : Decidable (Within lo hi t x) := inferInstanceAs (Decidable (_ ∧ _))

theorem Leads.le (h : Leads lo hi a l b) (hspans : ∀ x ∈ l, lo x ≤ hi x) : a ≤ b := by
  induction l generalizing a with
  | nil => exact le_of_eq h
  | cons x l ih =>
      obtain ⟨rfl, hrest⟩ := h
      rw [List.forall_mem_cons] at hspans
      exact hspans.1.trans (ih hrest hspans.2)

/-- A span lies in the range. -/
theorem Leads.bounds (h : Leads lo hi a l b) (hspans : ∀ x ∈ l, lo x ≤ hi x) (hx : x ∈ l) :
    a ≤ lo x ∧ hi x ≤ b := by
  obtain ⟨pre, post, rfl⟩ := List.append_of_mem hx
  obtain ⟨m, hpre, rfl, hpost⟩ := leads_append.mp h
  simp only [List.forall_mem_append, List.forall_mem_cons] at hspans
  exact ⟨hpre.le hspans.1, hpost.le hspans.2.2⟩

/-- What is there at a point: the value of the span that it lies in. -/
def valueAt {γ : Type*} (lo hi : ι → T) (f : ι → γ) (l : List ι) (t : T) : Option γ :=
  (l.find? (Within lo hi t ·)).map f

section ValueAt

variable {γ : Type*} {f : ι → γ}

theorem valueAt_of_within (h : Within lo hi t x) : valueAt lo hi f (x :: l) t = some (f x) := by
  rw [valueAt, List.find?_cons_of_pos (by simpa using h)]
  rfl

theorem valueAt_of_not_within (h : ¬ Within lo hi t x) :
    valueAt lo hi f (x :: l) t = valueAt lo hi f l t := by
  rw [valueAt, List.find?_cons_of_neg (by simpa using h)]
  rfl

/-- Nothing changes when a span is cut in two. -/
theorem valueAt_split {p q : ι} (hlo : lo p = lo x) (hcut : hi p = lo q) (hhi : hi q = hi x)
    (hlow : lo x ≤ hi p) (hhigh : lo q ≤ hi x) (hp : f p = f x) (hq : f q = f x) :
    valueAt lo hi f (p :: q :: l) t = valueAt lo hi f (x :: l) t := by
  by_cases hx : Within lo hi t x
  · rw [valueAt_of_within hx]
    by_cases ht : t < hi p
    · rw [valueAt_of_within (x := p) ⟨hlo.trans_le hx.1, ht⟩, hp]
    · have hnot : ¬ Within lo hi t p := fun h => ht h.2
      have hin : Within lo hi t q := ⟨hcut ▸ not_lt.mp ht, hx.2.trans_eq hhi.symm⟩
      rw [valueAt_of_not_within hnot, valueAt_of_within hin, hq]
  · have hnotp : ¬ Within lo hi t p := fun h =>
      hx ⟨hlo.symm.trans_le h.1, h.2.trans_le (hcut.trans_le hhigh)⟩
    have hnotq : ¬ Within lo hi t q := fun h =>
      hx ⟨hlow.trans (hcut.trans_le h.1), h.2.trans_eq hhi⟩
    rw [valueAt_of_not_within hx, valueAt_of_not_within hnotp, valueAt_of_not_within hnotq]

end ValueAt

/-- Two spans have no point in common. -/
def Apart (lo hi : ι → T) (x y : ι) : Prop := ∀ t, ¬ (Within lo hi t x ∧ Within lo hi t y)

/-- When no point lies in two spans, any two of them are apart. -/
theorem pairwise_apart_iff :
    l.Pairwise (Apart lo hi) ↔ ∀ t, l.countP (Within lo hi t ·) ≤ 1 := by
  induction l with
  | nil => simp
  | cons x l ih =>
      rw [List.pairwise_cons, ih]
      simp only [List.countP_cons, decide_eq_true_eq]
      constructor
      · rintro ⟨hx, hl⟩ t
        by_cases hin : Within lo hi t x
        · have hnone : l.countP (Within lo hi t ·) = 0 := by
            rw [List.countP_eq_zero]
            intro y hy hyin
            exact hx y hy t ⟨hin, by simpa using hyin⟩
          rw [hnone, if_pos hin]
        · rw [if_neg hin]
          exact hl t
      · intro h
        refine ⟨fun y hy t hin => ?_, fun t => (Nat.le_add_right _ _).trans (h t)⟩
        have hpos : 0 < l.countP (Within lo hi t ·) :=
          List.countP_pos_iff.mpr ⟨y, hy, by simpa using hin.2⟩
        have hone := h t
        rw [if_pos hin.1] at hone
        omega

end Order

/-! ## Cuts -/

/-- The spans between neighbouring cuts. -/
def steps : T → List T → T → List (T × T)
  | a, [], b => [(a, b)]
  | a, c :: cuts, b => (a, c) :: steps c cuts b

/-- The first span begins at the start of the range. -/
theorem steps_head (a : T) (cuts : List T) (b : T) : ∃ m l, steps a cuts b = (a, m) :: l := by
  cases cuts with
  | nil => exact ⟨b, [], rfl⟩
  | cons c cuts => exact ⟨c, _, rfl⟩

/-- The spans begin at the start of the range and at the cuts. -/
theorem forall_steps_fst {P : T → Prop} {cuts : List T} :
    (∀ p ∈ steps a cuts b, P p.1) ↔ P a ∧ ∀ c ∈ cuts, P c := by
  induction cuts generalizing a with
  | nil => simp [steps]
  | cons c cuts ih => simp only [steps, List.forall_mem_cons, ih]

/-- They end at the cuts and at the end of the range. -/
theorem forall_steps_snd {P : T → Prop} {cuts : List T} :
    (∀ p ∈ steps a cuts b, P p.2) ↔ (∀ c ∈ cuts, P c) ∧ P b := by
  induction cuts generalizing a with
  | nil => simp [steps]
  | cons c cuts ih => simp only [steps, List.forall_mem_cons, ih, and_assoc]

theorem steps_map {U : Type*} (f : T → U) (a : T) (cuts : List T) (b : T) :
    steps (f a) (cuts.map f) (f b) = (steps a cuts b).map fun p => (f p.1, f p.2) := by
  induction cuts generalizing a with
  | nil => rfl
  | cons c cuts ih => simp only [List.map_cons, steps, ih]

/-- Nothing is left out when something is made of every span. -/
theorem map_filterMap_of_forall {γ : Type*} {l : List γ} {cut : γ → Option κ} {f : κ → γ}
    (hcut : ∀ p ∈ l, ∃ x, cut p = some x ∧ f x = p) : (l.filterMap cut).map f = l := by
  induction l with
  | nil => rfl
  | cons p l ih =>
      rw [List.forall_mem_cons] at hcut
      obtain ⟨⟨x, hx, hf⟩, hrest⟩ := hcut
      rw [List.filterMap_cons, hx, List.map_cons, hf, ih hrest]

/-- What is made of the spans leads from end to end when the ends that it gets are those of the
spans. -/
theorem leads_filterMap_steps {U : Type*} {lo hi : κ → U} {cut : T × T → Option κ} (g : T → U)
    {cuts : List T} {start finish : U} (hstart : g a = start) (hfinish : g b = finish)
    (hcut : ∀ p ∈ steps a cuts b, ∃ x, cut p = some x ∧ lo x = g p.1 ∧ hi x = g p.2) :
    Leads lo hi start ((steps a cuts b).filterMap cut) finish := by
  induction cuts generalizing a start with
  | nil =>
      obtain ⟨x, hx, hlo, hhi⟩ := hcut _ (List.mem_singleton_self _)
      simp only [steps, List.filterMap_cons, hx, List.filterMap_nil]
      exact ⟨hlo.trans hstart, hhi.trans hfinish⟩
  | cons c cuts ih =>
      simp only [steps, List.forall_mem_cons] at hcut
      obtain ⟨⟨x, hx, hlo, hhi⟩, hrest⟩ := hcut
      rw [steps, List.filterMap_cons, hx]
      exact ⟨hlo.trans hstart, ih hhi.symm hrest⟩

/-- The cuts increase from `a` to `b`. -/
def Increasing [LT T] : T → List T → T → Prop
  | a, [], b => a < b
  | a, c :: cuts, b => a < c ∧ Increasing c cuts b

instance decidableIncreasing [LT T] [DecidableLT T] : (a : T) → (cuts : List T) → (b : T) →
    Decidable (Increasing a cuts b)
  | _, [], _ => inferInstanceAs (Decidable (_ < _))
  | _, c :: cuts, b =>
      haveI : Decidable (Increasing c cuts b) := decidableIncreasing c cuts b
      inferInstanceAs (Decidable (_ ∧ _))

theorem Increasing.lt [Preorder T] {cuts : List T} (h : Increasing a cuts b) : a < b := by
  induction cuts generalizing a with
  | nil => exact h
  | cons c cuts ih => exact h.1.trans (ih h.2)

/-- The spans between increasing cuts are spans of the range. -/
theorem Increasing.steps [Preorder T] {cuts : List T} (h : Increasing a cuts b) :
    ∀ p ∈ steps a cuts b, a ≤ p.1 ∧ p.1 < p.2 ∧ p.2 ≤ b := by
  induction cuts generalizing a with
  | nil =>
      intro p hp
      obtain rfl := List.mem_singleton.mp hp
      exact ⟨le_rfl, h, le_rfl⟩
  | cons c cuts ih =>
      obtain ⟨hfirst, hrest⟩ := h
      intro p hp
      rcases List.mem_cons.mp hp with rfl | hp
      · exact ⟨le_rfl, hfirst, hrest.lt.le⟩
      · obtain ⟨hlow, hspan, hhigh⟩ := ih hrest p hp
        exact ⟨hfirst.le.trans hlow, hspan, hhigh⟩

end Spans
