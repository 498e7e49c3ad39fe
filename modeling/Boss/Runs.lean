import Mathlib.Tactic.Common

/-!
# Runs of a labelled step function

A system is a partial step function `step : σ → α → Option σ`: the label `a`
names who does what, `none` means that it cannot happen in that state.  A run
performs a list of labels in order.  Safety of a system is the statement that
some property holds at the end of every run; since every prefix of a run is a
run, this is a statement about every state passed through.

The rules below are the only inductions over runs in the development:
`run_invariant` for unrestricted runs, `run_invariant_of_meets` for runs each of
whose steps meets a side condition in the state before it,
`run_simulates_of_meets` for runs that another system follows, `run_image_of_meets`
for runs that are runs of another system, and `run_progress` for runs that cannot
get stuck.
-/

namespace Runs

variable {σ α : Type*} (step : σ → α → Option σ)

/-- Perform the labels in order; `none` as soon as one is not enabled. -/
def run : σ → List α → Option σ
  | s, [] => some s
  | s, a :: rest => (step s a).bind fun t => run t rest

/-- Every step of the run from `s` meets `ok` in the state before it. -/
def Meets (ok : σ → α → Prop) : σ → List α → Prop
  | _, [] => True
  | s, a :: rest => ok s a ∧ ∀ t, step s a = some t → Meets ok t rest

attribute [grind =] run Meets

variable {step}

theorem run_cons_some {s t : σ} {a : α} {rest : List α}
    (h : run step s (a :: rest) = some t) :
    ∃ m, step s a = some m ∧ run step m rest = some t := by
  simpa [run] using Option.bind_eq_some_iff.mp h

/-- **Invariant rule, conditional form.**  What every step meeting `C`
preserves holds at the end of every run whose steps all meet `C`. -/
theorem run_invariant_of_meets {I : σ → Prop} {C : σ → α → Prop}
    (hstep : ∀ s a t, I s → C s a → step s a = some t → I t) :
    ∀ {s t : σ} {labels : List α}, I s → Meets step C s labels →
      run step s labels = some t → I t := by
  intro s t labels
  induction labels generalizing s with
  | nil =>
      intro hinv _ hrun
      simp only [run, Option.some.injEq] at hrun
      exact hrun ▸ hinv
  | cons a rest ih =>
      intro hinv hmeets hrun
      obtain ⟨m, hm, hrest⟩ := run_cons_some hrun
      exact ih (hstep s a m hinv hmeets.1 hm) (hmeets.2 m hm) hrest

/-- **Simulation rule.**  If every step meeting `C` moves related states to related states,
then such a run ends in a state related to what the labels make of the other system. -/
theorem run_simulates_of_meets {τ : Type*} {R : σ → τ → Prop} {C : σ → α → Prop} {f : τ → α → τ}
    (hstep : ∀ s a t m, R s m → C s a → step s a = some t → R t (f m a)) :
    ∀ {s t : σ} {m : τ} {labels : List α}, R s m → Meets step C s labels →
      run step s labels = some t → R t (labels.foldl f m) := by
  intro s t m labels
  induction labels generalizing s m with
  | nil =>
      intro hrel _ hrun
      simp only [run, Option.some.injEq] at hrun
      exact hrun ▸ hrel
  | cons a rest ih =>
      intro hrel hmeets hrun
      obtain ⟨u, hu, hrest⟩ := run_cons_some hrun
      exact ih (hstep s a u m hrel hmeets.1 hu) (hmeets.2 u hu) hrest

/-- **Refinement rule.**  If every step meeting `C` is a step of another system between the images of
its states, then a run of such steps is a run of the other system, and the images meet what `C`
makes them meet. -/
theorem run_image_of_meets {τ β : Type*} (step' : τ → β → Option τ) (f : σ → τ) (g : α → β)
    (I : σ → Prop) {C : σ → α → Prop} (D : τ → β → Prop)
    (hmeet : ∀ s a, I s → C s a → D (f s) (g a))
    (hstep : ∀ s a t, I s → C s a → step s a = some t → step' (f s) (g a) = some (f t) ∧ I t) :
    ∀ {s t : σ} {labels : List α}, I s → Meets step C s labels → run step s labels = some t →
      (run step' (f s) (labels.map g) = some (f t) ∧ Meets step' D (f s) (labels.map g)) ∧ I t := by
  intro s t labels
  induction labels generalizing s with
  | nil =>
      intro hinv _ hrun
      obtain rfl := Option.some.inj hrun
      exact ⟨⟨rfl, trivial⟩, hinv⟩
  | cons a rest ih =>
      intro hinv hmeets hrun
      obtain ⟨m, hm, hrest⟩ := run_cons_some hrun
      obtain ⟨hstep', hinvm⟩ := hstep s a m hinv hmeets.1 hm
      obtain ⟨⟨hrun', hmeets'⟩, hinvt⟩ := ih hinvm (hmeets.2 m hm) hrest
      refine ⟨⟨?_, ?_⟩, hinvt⟩
      · rw [List.map_cons, run, hstep']
        exact hrun'
      · rw [List.map_cons]
        refine ⟨hmeet s a hinv hmeets.1, fun u hu => ?_⟩
        obtain rfl := Option.some.inj (hstep'.symm.trans hu)
        exact hmeets'

/-- A condition on labels alone is met along every run of such labels. -/
theorem meets_of_forall {ok : α → Prop} {labels : List α} (h : ∀ a ∈ labels, ok a) (s : σ) :
    Meets step (fun _ a => ok a) s labels := by
  induction labels generalizing s with
  | nil => trivial
  | cons a rest ih =>
      exact ⟨h a List.mem_cons_self,
        fun t _ => ih (fun b hb => h b (List.mem_cons_of_mem a hb)) t⟩

/-- What holds of every step is met along every run. -/
theorem meets_of_all {C : σ → α → Prop} (h : ∀ s a, C s a) (s : σ) (labels : List α) :
    Meets step C s labels := by
  induction labels generalizing s with
  | nil => trivial
  | cons a rest ih => exact ⟨h s a, fun t _ => ih t⟩

/-- Two conditions that a run meets, it meets together. -/
theorem Meets.and {C C' : σ → α → Prop} {s : σ} {labels : List α} (h : Meets step C s labels)
    (h' : Meets step C' s labels) : Meets step (fun s a => C s a ∧ C' s a) s labels := by
  induction labels generalizing s with
  | nil => trivial
  | cons a rest ih =>
      exact ⟨⟨h.1, h'.1⟩, fun t ht => ih (h.2 t ht) (h'.2 t ht)⟩

/-- Where a run meets a condition, two others that agree under it are met together. -/
theorem meets_congr {C A B : σ → α → Prop} (hiff : ∀ s a, C s a → (A s a ↔ B s a)) {s : σ}
    {labels : List α} (h : Meets step C s labels) :
    Meets step A s labels ↔ Meets step B s labels := by
  induction labels generalizing s with
  | nil => exact Iff.rfl
  | cons a rest ih =>
      exact and_congr (hiff s a h.1) (forall_congr' fun t => forall_congr' fun ht => ih (h.2 t ht))

/-- A run that starts with an enabled step meets the condition when that step and
the rest do. -/
theorem meets_cons {C : σ → α → Prop} {s m : σ} {a : α} {rest : List α} (h : step s a = some m)
    (hok : C s a) (hrest : Meets step C m rest) : Meets step C s (a :: rest) := by
  refine ⟨hok, fun t ht => ?_⟩
  obtain rfl : m = t := Option.some.inj (h.symm.trans ht)
  exact hrest

/-- What a run has to meet, as far as it goes. -/
theorem meets_cons_iff {C : σ → α → Prop} {s : σ} {a : α} {rest : List α} :
    Meets step C s (a :: rest) ↔
      C s a ∧ match step s a with
        | none => True
        | some m => Meets step C m rest := by
  cases h : step s a with
  | none => simp [Meets, h]
  | some m => simp [Meets, h]

/-- Whether a run meets a decidable condition can be computed. -/
instance decidableMeets {C : σ → α → Prop} [∀ s a, Decidable (C s a)] :
    (s : σ) → (labels : List α) → Decidable (Meets step C s labels)
  | _, [] => .isTrue trivial
  | s, a :: rest =>
    haveI : Decidable (match step s a with
        | none => True
        | some m => Meets step C m rest) :=
      match step s a with
      | none => .isTrue trivial
      | some m => decidableMeets m rest
    decidable_of_iff _ meets_cons_iff.symm

/-- **Invariant rule.**  What every step preserves holds at the end of every
run. -/
theorem run_invariant {I : σ → Prop}
    (hstep : ∀ s a t, I s → step s a = some t → I t)
    {s t : σ} {labels : List α} (hinv : I s) (hrun : run step s labels = some t) :
    I t :=
  run_invariant_of_meets (C := fun _ _ => True) (fun s a t hs _ h => hstep s a t hs h)
    hinv (meets_of_forall (fun _ _ => trivial) s) hrun

/-- Two conditions that agree wherever an invariant holds, which the steps that meet them preserve,
are met by the same runs. -/
theorem meets_iff_of_meets {I : σ → Prop} {C D : σ → α → Prop}
    (hstep : ∀ s a t, I s → D s a → step s a = some t → I t)
    (hiff : ∀ s a, I s → (C s a ↔ D s a)) {s : σ} {labels : List α} (hinv : I s) :
    Meets step C s labels ↔ Meets step D s labels := by
  induction labels generalizing s with
  | nil => exact Iff.rfl
  | cons a rest ih =>
      constructor
      · intro h
        have hD := (hiff s a hinv).mp h.1
        exact ⟨hD, fun t ht => (ih (hstep s a t hinv hD ht)).mp (h.2 t ht)⟩
      · intro h
        exact ⟨(hiff s a hinv).mpr h.1, fun t ht => (ih (hstep s a t hinv h.1 ht)).mpr (h.2 t ht)⟩

/-- Two conditions that agree wherever an invariant holds are met by the same runs. -/
theorem meets_iff_of_invariant {I : σ → Prop} {C D : σ → α → Prop}
    (hstep : ∀ s a t, I s → step s a = some t → I t) (hiff : ∀ s a, I s → (C s a ↔ D s a)) {s : σ}
    {labels : List α} (hinv : I s) : Meets step C s labels ↔ Meets step D s labels :=
  meets_iff_of_meets (fun s a t hs _ h => hstep s a t hs h) hiff hinv

/-- What holds wherever an invariant does is met by every run. -/
theorem meets_of_invariant {I : σ → Prop} {C : σ → α → Prop}
    (hstep : ∀ s a t, I s → step s a = some t → I t) (hmeets : ∀ s a, I s → C s a) {s : σ}
    {labels : List α} (hinv : I s) : Meets step C s labels :=
  (meets_iff_of_invariant hstep (fun s a hs => iff_of_true (hmeets s a hs) trivial) hinv).mpr
    (meets_of_all (fun _ _ => trivial) s labels)

/-- **Progress rule, conditional form.**  When every step that meets `C` can be taken and preserves
the invariant, so does every run of such steps. -/
theorem run_progress_of_meets {I : σ → Prop} {C : σ → α → Prop}
    (hstep : ∀ s a, I s → C s a → ∃ t, step s a = some t ∧ I t) :
    ∀ {s : σ} {labels : List α}, I s → Meets step C s labels →
      ∃ t, run step s labels = some t ∧ I t := by
  intro s labels
  induction labels generalizing s with
  | nil => exact fun hinv _ => ⟨s, rfl, hinv⟩
  | cons a rest ih =>
      intro hinv hmeets
      obtain ⟨m, hm, hinvm⟩ := hstep s a hinv hmeets.1
      obtain ⟨t, hrest, hinvt⟩ := ih hinvm (hmeets.2 m hm)
      refine ⟨t, ?_, hinvt⟩
      rw [run, hm]
      exact hrest

/-- **Progress rule.**  When every allowed step can be taken and preserves the invariant, so does
every run of allowed steps. -/
theorem run_progress {I : σ → Prop} {ok : α → Prop}
    (hstep : ∀ s a, I s → ok a → ∃ t, step s a = some t ∧ I t) {s : σ} {labels : List α}
    (hinv : I s) (hok : ∀ a ∈ labels, ok a) : ∃ t, run step s labels = some t ∧ I t :=
  run_progress_of_meets hstep hinv (meets_of_forall hok s)

end Runs
