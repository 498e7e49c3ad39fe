import Mathlib.Data.List.Nodup
import Mathlib.Data.List.Perm.Subperm
import Mathlib.Logic.Relation
import Mathlib.Tactic.Common

/-!
# Cycles of a wait-for relation

A deadlock is a cycle of the relation "waits for".  Three facts decide how a
system stays free of them.  Adding one edge `x → y` closes a cycle exactly when
`y` already reaches `x`.  Redirecting edges to vertices that wait for nobody
closes none.  And when every vertex waits for at most one other, reachability is
found by following the successors, which ends because an acyclic walk repeats no
vertex.

Main results: `cycle_addEdge_iff` and `chase_terminates`.
-/

namespace WaitGraph

open Relation

variable {V : Type*} {R S : V → V → Prop}

/-- No vertex reaches itself. -/
def Acyclic (R : V → V → Prop) : Prop := ∀ x, ¬ TransGen R x x

/-- The relation with one more edge. -/
def addEdge (R : V → V → Prop) (x y : V) : V → V → Prop := fun a b => R a b ∨ a = x ∧ b = y

/-- A path in the larger relation either avoids the new edge or splits at it. -/
theorem transGen_addEdge {x y a b : V} (h : TransGen (addEdge R x y) a b) :
    TransGen R a b ∨ ReflTransGen R a x ∧ ReflTransGen R y b := by
  induction h with
  | single hstep =>
      rcases hstep with hR | ⟨rfl, rfl⟩
      · exact .inl (.single hR)
      · exact .inr ⟨.refl, .refl⟩
  | tail _ hstep ih =>
      rcases hstep with hR | ⟨rfl, rfl⟩
      · rcases ih with hpath | ⟨hleft, hright⟩
        · exact .inl (hpath.tail hR)
        · exact .inr ⟨hleft, hright.tail hR⟩
      · rcases ih with hpath | ⟨hleft, -⟩
        · exact .inr ⟨hpath.to_reflTransGen, .refl⟩
        · exact .inr ⟨hleft, .refl⟩

/-- **Closing a cycle.**  A new edge closes a cycle exactly when its target
already reaches its source. -/
theorem cycle_addEdge_iff (h : Acyclic R) {x y : V} :
    (∃ z, TransGen (addEdge R x y) z z) ↔ ReflTransGen R y x := by
  constructor
  · rintro ⟨z, hz⟩
    rcases transGen_addEdge hz with hcycle | ⟨hleft, hright⟩
    · exact absurd hcycle (h z)
    · exact hright.trans hleft
  · intro hback
    have hnew : TransGen (addEdge R x y) x y := .single (.inr ⟨rfl, rfl⟩)
    have hlift : ReflTransGen (addEdge R x y) y x :=
      ReflTransGen.mono (fun _ _ hR => Or.inl hR) _ _ hback
    exact ⟨x, hnew.trans_left hlift⟩

/-- **Redirecting to sinks.**  If every new edge leads to a vertex without
successors, no cycle arises. -/
theorem acyclic_of_sinks (h : Acyclic R) (hedge : ∀ x y, S x y → R x y ∨ ∀ z, ¬ S y z) :
    Acyclic S := by
  have hpath : ∀ x y, TransGen S x y → (∃ z, S y z) → TransGen R x y := by
    intro x y hxy
    induction hxy with
    | single hstep =>
        rintro ⟨z, hz⟩
        exact .single ((hedge _ _ hstep).resolve_right fun hsink => hsink z hz)
    | tail _ hstep ih =>
        rintro ⟨z, hz⟩
        exact (ih ⟨_, hstep⟩).tail ((hedge _ _ hstep).resolve_right fun hsink => hsink z hz)
  intro x hx
  obtain ⟨y, hxy, -⟩ := TransGen.head'_iff.mp hx
  exact h x (hpath x x hx ⟨y, hxy⟩)

variable [DecidableEq V]

/-- Follow the successors until the target is met or there is none; `none` when
`n` rounds do not suffice. -/
def chase (next : V → Option V) (target : V) : Nat → V → Option Bool
  | 0, _ => none
  | n + 1, x =>
      if x = target then some true
      else
        match next x with
        | none => some false
        | some y => chase next target n y

/-- The edges of a successor function. -/
def Edge (next : V → Option V) : V → V → Prop := fun x y => next x = some y

/-- An answer of the walk is right. -/
theorem chase_sound {next : V → Option V} {target : V} {n : Nat} {x : V} {b : Bool}
    (h : chase next target n x = some b) :
    b = true ↔ ReflTransGen (Edge next) x target := by
  induction n generalizing x with
  | zero => cases h
  | succ n ih =>
      unfold chase at h
      split at h
      · rename_i hx
        obtain rfl := Option.some.inj h
        exact ⟨fun _ => hx ▸ .refl, fun _ => rfl⟩
      · rename_i hx
        split at h
        · rename_i hnone
          obtain rfl := Option.some.inj h
          refine ⟨fun hc => absurd hc Bool.false_ne_true, fun hpath => ?_⟩
          rcases ReflTransGen.cases_head hpath with rfl | ⟨y, hxy, -⟩
          · exact absurd rfl hx
          · rw [Edge, hnone] at hxy; cases hxy
        · rename_i y hsome
          rw [ih h]
          constructor
          · exact fun hpath => .head hsome hpath
          · intro hpath
            rcases ReflTransGen.cases_head hpath with rfl | ⟨z, hxz, hrest⟩
            · exact absurd rfl hx
            · rw [Edge, hsome] at hxz
              exact Option.some.inj hxz ▸ hrest

/-- **The walk ends.**  On an acyclic relation whose vertices with successors lie
in a finite list the walk ends after one round more than the list is long. -/
theorem chase_terminates {next : V → Option V} (h : Acyclic (Edge next)) (vertices : List V)
    (hfin : ∀ x y, next x = some y → x ∈ vertices) (target x : V) {n : Nat}
    (hn : vertices.length < n) : ∃ b, chase next target n x = some b := by
  -- `seen` are the vertices already passed: all of them reach `x`, so `x` is new
  have hwalk : ∀ (n : Nat) (x : V) (seen : List V), seen.Nodup → seen ⊆ vertices →
      (∀ v ∈ seen, TransGen (Edge next) v x) → vertices.length < n + seen.length →
      ∃ b, chase next target n x = some b := by
    intro n
    induction n with
    | zero =>
        intro x seen hnodup hsub _ hlen
        have hle := (hnodup.subperm hsub).length_le
        omega
    | succ n ih =>
        intro x seen hnodup hsub hreach hlen
        unfold chase
        split
        · exact ⟨true, rfl⟩
        · split
          · exact ⟨false, rfl⟩
          · rename_i y hsome
            have hnew : x ∉ seen := fun hx => h x (hreach x hx)
            refine ih y (x :: seen) (List.nodup_cons.mpr ⟨hnew, hnodup⟩) ?_ ?_ ?_
            · exact List.cons_subset.mpr ⟨hfin x y hsome, hsub⟩
            · intro v hv
              rcases List.mem_cons.mp hv with rfl | hv
              · exact .single hsome
              · exact (hreach v hv).tail hsome
            · rw [List.length_cons]; omega
  exact hwalk n x [] List.nodup_nil (List.nil_subset _) (by simp) (by simpa using hn)

end WaitGraph
