import Mathlib.Tactic.Common

/-!
# Results for enough fuel

A recursion whose end is not seen in its arguments is written with fuel, and gives nothing when that
runs out.  It settles on a result when it gives this result for every fuel from some amount on.  The
rules are those of the ways in which such functions are put together: one more call, a call and what
is done with its result.
-/

namespace Fuel

variable {α β : Type*} {f g : Nat → Option α} {a : α}

/-- From some fuel on there is this result. -/
def Settles (f : Nat → Option α) (a : α) : Prop := ∃ N, ∀ n, N ≤ n → f n = some a

theorem settles_some (a : α) : Settles (fun _ => some a) a := ⟨0, fun _ _ => rfl⟩

/-- One more unit is enough for a call. -/
theorem Settles.of_succ (h : Settles (fun n => f (n + 1)) a) : Settles f a := by
  obtain ⟨N, hN⟩ := h
  refine ⟨N + 1, fun n hn => ?_⟩
  obtain ⟨m, rfl⟩ := Nat.exists_eq_succ_of_ne_zero (by omega : n ≠ 0)
  exact hN m (by omega)

theorem Settles.succ (h : Settles g a) (hcall : ∀ n, f (n + 1) = g n) : Settles f a := by
  apply Settles.of_succ
  simpa only [hcall] using h

/-- There is one result. -/
theorem Settles.unique {b : α} (h : Settles f a) (h' : Settles f b) : a = b := by
  obtain ⟨N, hN⟩ := h
  obtain ⟨M, hM⟩ := h'
  have hboth := (hN (N + M) (by omega)).symm.trans (hM (N + M) (by omega))
  exact Option.some.inj hboth

theorem Settles.bind {g : Nat → α → Option β} {b : β} (h : Settles f a)
    (hnext : Settles (fun n => g n a) b) : Settles (fun n => (f n).bind (g n)) b := by
  obtain ⟨N, hN⟩ := h
  obtain ⟨M, hM⟩ := hnext
  refine ⟨N + M, fun n hn => ?_⟩
  dsimp only
  rw [hN n (by omega)]
  exact hM n (by omega)

theorem Settles.map (h : Settles f a) (g : α → β) : Settles (fun n => (f n).map g) (g a) := by
  obtain ⟨N, hN⟩ := h
  refine ⟨N, fun n hn => ?_⟩
  dsimp only
  rw [hN n hn]
  rfl

end Fuel
