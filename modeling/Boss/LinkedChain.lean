import Mathlib.Data.List.Nodup
import Mathlib.Logic.Function.Basic
import Mathlib.Tactic.Common

/-!
# Singly linked chains in a memory

A linked list in memory is a function `next` from positions to positions and a
null position that ends it.  `Path next null p l q` says that following `next`
from `p` visits exactly the positions of `l`, none of them null, and arrives at
`q`; a chain is a path that arrives at null.  The list `l` is the abstract
content, and every pointer manipulation of a program is one of the rules below:
paths compose, a write outside of a path does not change it, and a write to the
last position of a path redirects where it arrives.  A queue is a chain with a
pointer to its last position, to which positions are linked in constant time.

Main results: `path_relink` for paths, `Queues.push` and `Queues.pop` for queues.
-/

namespace LinkedChain

variable {P : Type*} {next other : P → P} {null p q v x : P} {l : List P}

/-- Following `next` from `p` visits the positions of `l` and arrives at `q`. -/
def Path (next : P → P) (null : P) : P → List P → P → Prop
  | p, [], q => p = q
  | p, x :: l, q => p = x ∧ x ≠ null ∧ Path next null (next x) l q

/-- A path that ends at null. -/
abbrev Chain (next : P → P) (null p : P) (l : List P) : Prop := Path next null p l null

attribute [grind =] Path

@[simp] theorem path_nil : Path next null p [] q ↔ p = q := Iff.rfl

@[simp] theorem path_cons {l : List P} :
    Path next null p (x :: l) q ↔ p = x ∧ x ≠ null ∧ Path next null (next x) l q := Iff.rfl

/-- **Paths compose.** -/
theorem path_append {l₁ l₂ : List P} :
    Path next null p (l₁ ++ l₂) q ↔
      ∃ m, Path next null p l₁ m ∧ Path next null m l₂ q := by
  induction l₁ generalizing p with
  | nil => simp
  | cons x l₁ ih =>
      simp only [List.cons_append, path_cons, ih]
      constructor
      · rintro ⟨hp, hx, m, h₁, h₂⟩
        exact ⟨m, ⟨hp, hx, h₁⟩, h₂⟩
      · rintro ⟨m, ⟨hp, hx, h₁⟩, h₂⟩
        exact ⟨hp, hx, m, h₁, h₂⟩

/-- Only the links of the visited positions matter. -/
theorem path_congr (hsame : ∀ y ∈ l, other y = next y) :
    Path other null p l q ↔ Path next null p l q := by
  induction l generalizing p with
  | nil => simp
  | cons x l ih =>
      have hx := hsame x List.mem_cons_self
      rw [path_cons, path_cons, hx, ih fun y hy => hsame y (List.mem_cons_of_mem x hy)]

/-- No visited position is null. -/
theorem ne_null_of_mem (h : Path next null p l q) (hx : x ∈ l) : x ≠ null := by
  induction l generalizing p with
  | nil => cases hx
  | cons y l ih =>
      rw [path_cons] at h
      rcases List.mem_cons.mp hx with rfl | hx
      · exact h.2.1
      · exact ih h.2.2 hx

/-- A chain that starts at null is empty. -/
theorem chain_null (h : Chain next null null l) : l = [] := by
  cases l with
  | nil => rfl
  | cons x l => exact absurd h.1.symm h.2.1

/-- The links determine the chain. -/
theorem chain_unique {l' : List P} (h : Chain next null p l) (h' : Chain next null p l') :
    l' = l := by
  induction l generalizing p l' with
  | nil =>
      have hnull : p = null := h
      exact chain_null (hnull ▸ h')
  | cons x l ih =>
      obtain ⟨rfl, hnull, hrest⟩ := h
      cases l' with
      | nil => exact absurd h' hnull
      | cons y l' =>
          obtain ⟨rfl, -, hrest'⟩ := h'
          rw [ih hrest hrest']

/-- A chain that does not start at null begins with its start. -/
theorem chain_ne_null (h : Chain next null p l) (hp : p ≠ null) :
    ∃ rest, l = p :: rest ∧ Chain next null (next p) rest := by
  cases l with
  | nil => exact absurd h hp
  | cons x rest =>
      obtain ⟨rfl, -, hrest⟩ := h
      exact ⟨rest, rfl, hrest⟩

/-- **A position enters a path behind another one.** -/
theorem path_insert {l₁ l₂ : List P} {y e : P} (h : Path next null p (l₁ ++ x :: l₂) e)
    (hy : y ≠ null) (hxy : other x = y) (hnext : other y = next x)
    (hsame : ∀ z, z ∈ l₁ ∨ z ∈ l₂ → other z = next z) :
    Path other null p (l₁ ++ x :: y :: l₂) e := by
  obtain ⟨m, hbefore, rfl, hx, hafter⟩ := path_append.mp h
  refine path_append.mpr ⟨m, (path_congr fun z hz => hsame z (Or.inl hz)).mpr hbefore, rfl, hx,
    hxy, hy, ?_⟩
  rw [hnext]
  exact (path_congr fun z hz => hsame z (Or.inr hz)).mpr hafter

variable [DecidableEq P]

/-- A write outside of a path does not change it. -/
theorem path_update (hx : x ∉ l) :
    Path (Function.update next x v) null p l q ↔ Path next null p l q := by
  refine path_congr fun y hy => ?_
  have hne : y ≠ x := fun h => hx (h ▸ hy)
  exact Function.update_of_ne hne v next

/-- Walk along the links, for at most the given number of positions. -/
def walk (next : P → P) (null : P) : Nat → P → List P
  | 0, _ => []
  | n + 1, p => if p = null then [] else p :: walk next null n (next p)

/-- A walk that is long enough visits the whole chain. -/
theorem walk_eq {n : Nat} (h : Chain next null p l) (hn : l.length ≤ n) :
    walk next null n p = l := by
  induction l generalizing p n with
  | nil =>
      have hnull : p = null := h
      subst hnull
      cases n with
      | zero => rfl
      | succ n => rw [walk, if_pos rfl]
  | cons x l ih =>
      obtain ⟨rfl, hx, hrest⟩ := h
      obtain ⟨n, rfl⟩ : ∃ m, n = m + 1 := ⟨n - 1, by simp at hn; omega⟩
      rw [walk, if_neg hx, ih hrest (by simpa using hn)]

/-- **Redirecting the end of a path.** -/
theorem path_relink {l : List P} (h : Path next null p (l ++ [x]) q) (hx : x ∉ l) :
    Path (Function.update next x v) null p (l ++ [x]) v := by
  obtain ⟨m, h₁, h₂⟩ := path_append.mp h
  obtain ⟨rfl, hnull, -⟩ := h₂
  exact path_append.mpr ⟨m, (path_update hx).mpr h₁, rfl, hnull, by simp⟩

/-! ## Queues -/

omit [DecidableEq P] in
/-- Positions that are linked one to the next in their order form a chain. -/
theorem chain_range {n : Nat} (pos : Nat → P) (hnull : ∀ k < n, pos k ≠ null)
    (hlink : ∀ k, k + 1 < n → next (pos k) = pos (k + 1))
    (hend : ∀ k, k + 1 = n → next (pos k) = null) :
    Chain next null (if n = 0 then null else pos 0) ((List.range n).map pos) := by
  -- from any start on: the links of the remaining positions, by induction on their number
  have hfrom : ∀ m i, i + m = n →
      Chain next null (if m = 0 then null else pos i) ((List.range' i m).map pos) := by
    intro m
    induction m with
    | zero => simp
    | succ m ih =>
        intro i hi
        have hrest := ih (i + 1) (by omega)
        refine ⟨rfl, hnull i (by omega), ?_⟩
        by_cases hm : m = 0
        · simpa [hm] using hend i (by omega)
        · rw [if_neg hm] at hrest
          rw [hlink i (by omega)]
          exact hrest
  simpa [List.range_eq_range'] using hfrom n 0 (by omega)

/-- A chain together with a pointer to its last position, null when it is empty. -/
def Queue (next : P → P) (null first last : P) (l : List P) : Prop :=
  Chain next null first l ∧ last = l.getLast?.getD null

section

omit [DecidableEq P]

@[simp] theorem queue_nil : Queue next null p q [] ↔ p = null ∧ q = null := by
  simp [Queue]

/-- Only the links of the queued positions matter. -/
theorem queue_congr (hsame : ∀ y ∈ l, other y = next y) :
    Queue other null p q l ↔ Queue next null p q l := by
  simp only [Queue, Chain, path_congr hsame]

/-- A queue with a last position ends with it. -/
theorem queue_last (h : Queue next null p q l) (hq : q ≠ null) : ∃ front, l = front ++ [q] := by
  obtain ⟨-, hlast⟩ := h
  cases hl : l.getLast? with
  | none => exact absurd (by simpa [hl] using hlast) hq
  | some y =>
      obtain rfl : q = y := by simpa [hl] using hlast
      obtain ⟨front, hfront⟩ := List.getLast?_eq_some_iff.mp hl
      exact ⟨front, hfront⟩

/-- A queue without a last position is empty. -/
theorem queue_empty (h : Queue next null p null l) : l = [] := by
  obtain ⟨hchain, hlast⟩ := h
  cases hl : l.getLast? with
  | none => exact List.getLast?_eq_none_iff.mp hl
  | some y =>
      obtain rfl : null = y := by simpa [hl] using hlast
      exact absurd rfl (ne_null_of_mem hchain (List.mem_of_getLast? hl))

end

/-- **Taking the first position off.** -/
theorem queue_pop (h : Queue next null p q (x :: l)) :
    p = x ∧ x ≠ null ∧ Queue next null (next x) (if next x = null then null else q) l := by
  obtain ⟨⟨hp, hx, hrest⟩, hlast⟩ := h
  refine ⟨hp, hx, hrest, ?_⟩
  cases l with
  | nil =>
      have hend : next x = null := hrest
      simp [hend]
  | cons y l =>
      have hy : next x = y ∧ y ≠ null := ⟨hrest.1, hrest.2.1⟩
      rw [if_neg (by simpa [hy.1] using hy.2), hlast, List.getLast?_cons_cons]

omit [DecidableEq P] in
theorem queue_push_first (hx : x ≠ null) (hnext : next x = null) :
    Queue next null x x [x] := by
  simp [Queue, hx, hnext]

/-- **Linking a position behind the last one.** -/
theorem queue_push (h : Queue next null p q l) (hq : q ≠ null) (hl : l.Nodup)
    (hx : x ≠ null) (hnew : x ∉ l) (hnext : next x = null) :
    Queue (Function.update next q x) null p x (l ++ [x]) := by
  obtain ⟨front, rfl⟩ := queue_last h hq
  have hfront : q ∉ front := by
    intro hmem
    have hdisj := List.nodup_append.mp hl
    exact hdisj.2.2 q hmem q (by simp) rfl
  have hne : x ≠ q := by
    intro heq
    exact hnew (by simp [heq])
  refine ⟨path_append.mpr ⟨x, path_relink h.1 hfront, rfl, hx, ?_⟩, by simp⟩
  simp [Function.update_of_ne hne, hnext]

/-! ## Families of queues

Several queues share one `next` field when no position is in two of them.
-/

variable {I : Type*} {first last : I → P} {lists : I → List P} {i : I}

/-- A family of queues without common positions. -/
structure Queues (next : P → P) (null : P) (first last : I → P) (lists : I → List P) :
    Prop where
  queue : ∀ i, Queue next null (first i) (last i) (lists i)
  nodup : ∀ i, (lists i).Nodup
  disjoint : ∀ i j x, x ∈ lists i → x ∈ lists j → i = j

omit [DecidableEq P] in
theorem Queues.congr (h : Queues next null first last lists)
    (hsame : ∀ i, ∀ y ∈ lists i, other y = next y) : Queues other null first last lists :=
  ⟨fun i => (queue_congr (hsame i)).mpr (h.queue i), h.nodup, h.disjoint⟩

/-- A position that is in no queue may be linked anywhere. -/
theorem Queues.write (h : Queues next null first last lists) (hx : ∀ i, x ∉ lists i) (v : P) :
    Queues (Function.update next x v) null first last lists := by
  apply h.congr
  intro i y hy
  have hne : y ≠ x := fun heq => hx i (heq ▸ hy)
  exact Function.update_of_ne hne v next

variable [DecidableEq I]

omit [DecidableEq P] in
/-- Exchanging one queue for another one, with the same or with new positions. -/
theorem Queues.replace (h : Queues next null first last lists)
    (hother : ∀ j, j ≠ i → ∀ y ∈ lists j, other y = next y)
    (hqueue : Queue other null p q l) (hl : l.Nodup)
    (hfrom : ∀ y ∈ l, ∀ j, j ≠ i → y ∉ lists j) :
    Queues other null (Function.update first i p) (Function.update last i q)
      (Function.update lists i l) := by
  constructor
  · intro j
    by_cases hj : j = i
    · subst hj
      simpa using hqueue
    · simpa [hj, queue_congr (hother j hj)] using h.queue j
  · intro j
    by_cases hj : j = i
    · subst hj
      simpa using hl
    · simpa [hj] using h.nodup j
  · intro j k y hj hk
    by_cases hji : j = i
    · by_cases hki : k = i
      · rw [hji, hki]
      · simp only [hji, Function.update_self, Function.update_of_ne hki] at hj hk
        exact absurd hk (hfrom y hj k hki)
    · by_cases hki : k = i
      · simp only [hki, Function.update_self, Function.update_of_ne hji] at hj hk
        exact absurd hj (hfrom y hk j hji)
      · simp only [Function.update_of_ne hji, Function.update_of_ne hki] at hj hk
        exact h.disjoint j k y hj hk

/-- **A new position at the end of one queue.** -/
theorem Queues.push (h : Queues next null first last lists) (i : I) (hx : x ≠ null)
    (hnew : ∀ j, x ∉ lists j) (hnext : next x = null) :
    Queues (if last i = null then next else Function.update next (last i) x) null
      (Function.update first i (if last i = null then x else first i))
      (Function.update last i x) (Function.update lists i (lists i ++ [x])) := by
  have hnodup : (lists i ++ [x]).Nodup := by
    simpa [List.nodup_append] using ⟨h.nodup i, fun a ha heq => hnew i (heq ▸ ha)⟩
  have hfrom : ∀ y ∈ lists i ++ [x], ∀ j, j ≠ i → y ∉ lists j := by
    intro y hy j hj hmem
    rcases List.mem_append.mp hy with hy | hy
    · exact hj (h.disjoint j i y hmem hy)
    · exact hnew j (List.mem_singleton.mp hy ▸ hmem)
  by_cases hlast : last i = null
  · have hempty : lists i = [] := queue_empty (hlast ▸ h.queue i)
    simp only [hlast, if_true]
    refine h.replace (fun j _ y _ => rfl) ?_ hnodup hfrom
    rw [hempty]
    exact queue_push_first hx hnext
  · simp only [hlast, if_false]
    refine h.replace ?_ (queue_push (h.queue i) hlast (h.nodup i) hx (hnew i) hnext) hnodup hfrom
    intro j hj y hy
    -- the old last position belongs to queue `i`
    have hne : y ≠ last i := by
      intro heq
      obtain ⟨front, hfront⟩ := queue_last (h.queue i) hlast
      exact hj (h.disjoint j i y hy (by simp [heq, hfront]))
    exact Function.update_of_ne hne x next

/-- **The first position of one queue leaves it.** -/
theorem Queues.pop (h : Queues next null first last lists) (hi : lists i = x :: l) :
    Queues next null (Function.update first i (next x))
      (Function.update last i (if next x = null then null else last i))
      (Function.update lists i l) := by
  have hpop := (queue_pop (hi ▸ h.queue i)).2.2
  have hnodup := hi ▸ h.nodup i
  refine h.replace (fun j _ y _ => rfl) hpop hnodup.of_cons ?_
  intro y hy j hj hmem
  exact hj (h.disjoint j i y hmem (by simp [hi, hy]))

end LinkedChain
