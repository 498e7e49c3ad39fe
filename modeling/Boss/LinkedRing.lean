import Boss.DoublyLinked

/-!
# Rings

A doubly linked list whose two ends are kept in one more cell of the memory is a ring through this
cell, its centre: the centre is linked to the first position and back to the last one, and it stands
where a list has null.  A position then leaves and enters in the same way wherever it is, since the
centre is written like any other neighbour.

Main results: `Ring.unlink` and `Ring.link`.
-/

namespace LinkedChain

variable {P : Type*} {next prev other other' : P → P} {c i x : P} {l pre post : List P}

/-- The positions of `l` are linked in both directions from the centre `c` and back to it. -/
def Ring (next prev : P → P) (c : P) (l : List P) : Prop :=
  DList next prev c (next c) (prev c) l

theorem ring_nil (hnext : next c = c) (hprev : prev c = c) : Ring next prev c [] := by
  rw [Ring, hnext, hprev]
  exact DList.nil

theorem Ring.ne_centre (h : Ring next prev c l) (hx : x ∈ l) : x ≠ c := h.ne_null hx

theorem Ring.nodup (h : Ring next prev c l) : l.Nodup := DList.nodup h

/-- The centre is linked to the first position. -/
theorem Ring.first (h : Ring next prev c l) : next c = headOf c l := h.first_eq

theorem Ring.congr (h : Ring next prev c l) (hnext : ∀ y, y ∈ c :: l → other y = next y)
    (hprev : ∀ y, y ∈ c :: l → other' y = prev y) : Ring other other' c l := by
  rw [Ring, hnext c List.mem_cons_self, hprev c List.mem_cons_self]
  exact DList.congr h (fun y hy => hnext y (List.mem_cons_of_mem c hy))
    fun y hy => hprev y (List.mem_cons_of_mem c hy)

/-- What comes before the part behind a position. -/
theorem Ring.before (h : Ring next prev c (pre ++ post)) :
    prev (headOf c post) = lastOf c pre := by
  cases post with
  | nil =>
      rw [List.append_nil] at h
      exact h.last_eq
  | cons y post => exact h.links.2

variable [DecidableEq P]

/-- **A position leaves the ring.** -/
theorem Ring.unlink (h : Ring next prev c (pre ++ x :: post)) :
    Ring (Function.update next (prev x) (next x)) (Function.update prev (next x) (prev x)) c
      (pre ++ post) := by
  have hlist := DList.unlink h
  have hne : ∀ y ∈ pre ++ post, y ≠ c := by
    intro y hy
    refine h.ne_centre (List.mem_append.mpr ?_)
    exact (List.mem_append.mp hy).imp_right (List.mem_cons_of_mem x)
  have hfirst : Function.update next (prev x) (next x) c =
      if prev x = c then next x else next c := by
    rw [Function.update_apply]
    exact ite_congr (propext eq_comm) (fun _ => rfl) fun _ => rfl
  have hlast : Function.update prev (next x) (prev x) c =
      if next x = c then prev x else prev c := by
    rw [Function.update_apply]
    exact ite_congr (propext eq_comm) (fun _ => rfl) fun _ => rfl
  rw [Ring, hfirst, hlast]
  refine hlist.congr (fun y hy => ?_) fun y hy => ?_
  · by_cases hc : prev x = c
    · rw [if_pos hc, hc, Function.update_of_ne (hne y hy)]
    · rw [if_neg hc]
  · by_cases hc : next x = c
    · rw [if_pos hc, hc, Function.update_of_ne (hne y hy)]
    · rw [if_neg hc]

/-- **A position enters the ring** in front of `i`. -/
theorem Ring.link (h : Ring next prev c (pre ++ post)) (hx : x ≠ c) (hnew : x ∉ pre ++ post)
    (hi : i = headOf c post) :
    Ring (Function.update (Function.update next x i) (prev i) x)
      (Function.update (Function.update prev x (prev i)) i x) c (pre ++ x :: post) := by
  subst hi
  have hbefore := h.before
  have hne : ∀ y ∈ pre ++ x :: post, y ≠ c := by
    intro y hy
    rcases List.mem_append.mp hy with hy | hy
    · exact h.ne_centre (List.mem_append_left _ hy)
    · rcases List.mem_cons.mp hy with rfl | hy
      · exact hx
      · exact h.ne_centre (List.mem_append_right _ hy)
  have hold : ∀ y ∈ c :: (pre ++ post), y ≠ x := by
    intro y hy heq
    subst heq
    rcases List.mem_cons.mp hy with heq | hy
    · exact hx heq
    · exact hnew hy
  -- first the links of the new position, which nobody follows yet
  have hwritten : Ring (Function.update next x (headOf c post))
      (Function.update prev x (prev (headOf c post))) c (pre ++ post) :=
    h.congr (fun y hy => Function.update_of_ne (hold y hy) _ _)
      fun y hy => Function.update_of_ne (hold y hy) _ _
  have hlist := DList.link pre post hwritten hx hnew (by rw [Function.update_self])
    (by rw [Function.update_self, hbefore])
  rw [Function.update_self, Function.update_self] at hlist
  have hfirst : Function.update (Function.update next x (headOf c post)) (prev (headOf c post)) x c =
      if prev (headOf c post) = c then x else Function.update next x (headOf c post) c := by
    rw [Function.update_apply]
    exact ite_congr (propext eq_comm) (fun _ => rfl) fun _ => rfl
  have hlast : Function.update (Function.update prev x (prev (headOf c post))) (headOf c post) x c =
      if headOf c post = c then x else Function.update prev x (prev (headOf c post)) c := by
    rw [Function.update_apply]
    exact ite_congr (propext eq_comm) (fun _ => rfl) fun _ => rfl
  rw [Ring, hfirst, hlast]
  refine hlist.congr (fun y hy => ?_) fun y hy => ?_
  · by_cases hc : prev (headOf c post) = c
    · rw [if_pos hc, hc, Function.update_of_ne (hne y hy)]
    · rw [if_neg hc]
  · by_cases hc : headOf c post = c
    · rw [if_pos hc, hc, Function.update_of_ne (hne y hy)]
    · rw [if_neg hc]

end LinkedChain
