import Boss.ListManagerRuns
import Mathlib.Data.List.Nodup

/-!
# Distinct elements

The descriptors of tables and of indexes are only added when there is none of that name,
so a list of them is a finite map from keys to nodes.  `Kept` says that the list is in
order and its elements are distinct; then `getElement` finds the node of a key,
`deleteElement` takes just that node out, and an element that is written through its
address stays where it is as long as it keeps its key.
-/

namespace ListManager

open Runs

variable {T K : Type} [LinearOrder K] {key : T → K} {cfg : Config T} {s t : State T} {p q : Nat}

/-- The nodes that are used. -/
abbrev usedNodes (cfg : Config T) (s : State T) : List Nat := nodesOf cfg s .used

/-- **The list is in order and its elements are distinct.** -/
def Kept (key : T → K) (cfg : Config T) (s : State T) : Prop :=
  ∃ lists, Managed key cfg s lists ∧ Distinct key s lists

/-- After calls that add only what is new. -/
theorem kept_run {s₀ : State T} {calls : List (Call T)}
    (hmeets : Meets (step key cfg) (AddsNew key) (initElements cfg s₀) calls)
    (hrun : run (step key cfg) (initElements cfg s₀) calls = some s) : Kept key cfg s :=
  distinct_run hmeets hrun

theorem Kept.ne_noNode (h : Kept key cfg s) (hp : p ∈ usedNodes cfg s) : p ≠ noNode := by
  obtain ⟨lists, hmanaged, -⟩ := h
  rw [usedNodes, hmanaged.nodesOf] at hp
  exact hmanaged.inLists.ne_null hp

/-- Used nodes with the same key are the same node. -/
theorem Kept.unique (h : Kept key cfg s) (hp : p ∈ usedNodes cfg s) (hq : q ∈ usedNodes cfg s)
    (hkey : key (s.element p) = key (s.element q)) : p = q := by
  obtain ⟨lists, hmanaged, hdistinct⟩ := h
  rw [usedNodes, hmanaged.nodesOf] at hp hq
  have hnodup : ((lists .used).map fun x => key (s.element x)).Nodup := List.pairwise_map.mpr hdistinct
  exact List.inj_on_of_nodup_map hnodup hp hq hkey

/-- **`getElement` finds the node of a key.** -/
theorem Kept.getElement_eq_some (h : Kept key cfg s) {e : T} :
    getElement key s e = some p ↔ p ∈ usedNodes cfg s ∧ key (s.element p) = key e := by
  obtain ⟨lists, hmanaged, hdistinct⟩ := id h
  obtain ⟨hfound, hmissing⟩ := hmanaged.getNodeIndexPos_spec e
  unfold getElement
  cases hget : getNodeIndexPos key s e with
  | none =>
      refine iff_of_false (by simp) ?_
      rintro ⟨hp, hkey⟩
      rw [usedNodes, hmanaged.nodesOf] at hp
      exact hmissing hget p hp hkey
  | some x =>
      obtain ⟨i, q⟩ := x
      obtain ⟨-, -, hq, hkey⟩ := hfound i q hget
      rw [← hmanaged.nodesOf .used] at hq
      simp only [Option.map_some, Option.some.injEq]
      constructor
      · rintro rfl
        exact ⟨hq, hkey⟩
      · rintro ⟨hp, hkey'⟩
        exact h.unique hq hp (hkey.trans hkey'.symm)

/-- **`deleteElement` takes the node of the key out, and no other.** -/
theorem Kept.deleteElement (h : Kept key cfg s) {e : T} (hp : p ∈ usedNodes cfg s)
    (hkey : key (s.element p) = key e) (flag : Bool) :
    ∃ t, deleteElement key s e flag = (t, true) ∧ Kept key cfg t ∧ t.element = s.element ∧
      ∀ q, q ∈ usedNodes cfg t ↔ q ∈ usedNodes cfg s ∧ q ≠ p := by
  obtain ⟨lists, hmanaged, hdistinct⟩ := id h
  have hused := hmanaged.nodesOf .used
  rcases hmanaged.deleteElement e flag with ⟨hnone, -⟩ |
    ⟨t, lists', pre, q, post, ht, hmanaged', hl, hl', hq, helement⟩
  · exact absurd hkey (hnone p (hused ▸ hp))
  have hqp : q = p :=
    h.unique (by rw [usedNodes, hused, hl]; simp) hp (hq.trans hkey.symm)
  subst hqp
  have hnodup := (hmanaged.inLists.list .used).nodup
  rw [hl] at hnodup
  refine ⟨t, ht, ⟨lists', hmanaged', ?_⟩, helement, fun x => ?_⟩
  · unfold Distinct at hdistinct ⊢
    rw [hl] at hdistinct
    rw [hl', helement]
    exact hdistinct.sublist ((List.Sublist.refl pre).append (List.sublist_cons_self q post))
  · rw [usedNodes, usedNodes, hused, hmanaged'.nodesOf, hl, hl']
    have hnot : q ∉ pre ++ post := (List.nodup_cons.mp (List.nodup_middle.mp hnodup)).1
    simp only [List.mem_append, List.mem_cons] at hnot ⊢
    constructor
    · intro hx
      exact ⟨by tauto, fun heq => hnot (heq ▸ hx)⟩
    · rintro ⟨hx, hne⟩
      tauto

/-- **A write through the address of a node** that keeps the key keeps everything else. -/
theorem Kept.setVaue (h : Kept key cfg s) {e : T} (hkey : key e = key (s.element p)) :
    Kept key cfg (s.setVaue p e) ∧ usedNodes cfg (s.setVaue p e) = usedNodes cfg s := by
  obtain ⟨lists, hmanaged, hdistinct⟩ := h
  obtain ⟨hmanaged', hkeys⟩ := hmanaged.setVaue hkey
  refine ⟨⟨lists, hmanaged', ?_⟩, ?_⟩
  · refine List.Pairwise.imp ?_ hdistinct
    intro a b hne
    rwa [hkeys, hkeys]
  · rw [usedNodes, usedNodes, hmanaged.nodesOf, hmanaged'.nodesOf]

end ListManager
