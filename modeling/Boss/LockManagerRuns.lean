import Boss.LockManager
import Mathlib.Data.List.Perm.Subperm

/-!
# Mutual exclusion of the row-lock manager

The proof has two layers.  `Indexed` and `Table` say that both indexes hold
exactly the rows of the table; each table operation has one specification in
terms of the records alone, and with it the indexes are out of the picture.  On
the records, `Locks` says what the lock table means: a session has one row per
resource, a resource with rows has exactly one owner.

A release is the only step that changes many rows.  It promotes, for every
resource that the session owned, one waiter if there is one (`Promoted`), and
then deletes the session's rows; since the session had one row per resource, the
resources are signalled independently of each other.

Main results: `releaseLock_spec`, `judgeAndAddLock_spec` and, for runs, `one_owner_of_run`.
-/

namespace LockManager

open IndexRows

variable {A S R : Type} [DecidableEq A] [DecidableEq S] [DecidableEq R]
  {sesSlot : S → Nat} {resSlot : R → Nat} {s s' : State A S R} {live : A → Prop}

/-- Both indexes hold exactly the rows at the live addresses. -/
structure Indexed (sesSlot : S → Nat) (resSlot : R → Nat) (live : A → Prop)
    (s : State A S R) : Prop where
  ses : WellIndexed s.sesKey sesSlot live s.sesIndex
  res : WellIndexed s.resKey resSlot live s.resIndex

/-- The records in use are indexed and counted. -/
structure Table (sesSlot : S → Nat) (resSlot : R → Nat) (s : State A S R) : Prop where
  indexed : Indexed sesSlot resSlot (fun a => s.used a = true) s
  counted : ∃ l : List A, l.Nodup ∧ (∀ a, a ∈ l ↔ s.used a = true) ∧ s.recordNum = l.length

omit [DecidableEq A] [DecidableEq S] [DecidableEq R] in
/-- Records may change as long as the keys of the live ones stay. -/
theorem Indexed.congr (h : Indexed sesSlot resSlot live s) (hses : s'.sesIndex = s.sesIndex)
    (hres : s'.resIndex = s.resIndex)
    (hkeys : ∀ a, live a → s'.sesKey a = s.sesKey a ∧ s'.resKey a = s.resKey a) :
    Indexed sesSlot resSlot live s' := by
  constructor
  · rw [hses]; exact h.ses.congr fun a ha => (hkeys a ha).1
  · rw [hres]; exact h.res.congr fun a ha => (hkeys a ha).2

omit [DecidableEq R] in
/-- A selection by session gives the used rows of that session. -/
theorem mem_selectSes (h : Table sesSlot resSlot s) {session : S} {p : A × LockRow S R} :
    p ∈ selectSes sesSlot s session ↔
      s.used p.1 = true ∧ p.2 = s.record p.1 ∧ p.2.sessionId = session := by
  unfold selectSes
  rw [List.mem_map]
  constructor
  · rintro ⟨a, ha, rfl⟩
    obtain ⟨hused, hkey⟩ := ((h.indexed.ses.select_spec session).2 a).mp ha
    exact ⟨hused, rfl, hkey⟩
  · rintro ⟨hused, hrow, hkey⟩
    refine ⟨p.1, ((h.indexed.ses.select_spec session).2 p.1).mpr ⟨hused, ?_⟩, by rw [← hrow]⟩
    rw [State.sesKey, ← hrow, hkey]

omit [DecidableEq S] in
/-- A selection by resource gives the used rows of that resource. -/
theorem mem_selectRes (h : Table sesSlot resSlot s) {r : R} {p : A × LockRow S R} :
    p ∈ selectRes resSlot s r ↔
      s.used p.1 = true ∧ p.2 = s.record p.1 ∧ p.2.resource = r := by
  unfold selectRes
  rw [List.mem_map]
  constructor
  · rintro ⟨a, ha, rfl⟩
    obtain ⟨hused, hkey⟩ := ((h.indexed.res.select_spec r).2 a).mp ha
    exact ⟨hused, rfl, hkey⟩
  · rintro ⟨hused, hrow, hkey⟩
    refine ⟨p.1, ((h.indexed.res.select_spec r).2 p.1).mpr ⟨hused, ?_⟩, by rw [← hrow]⟩
    rw [State.resKey, ← hrow, hkey]

/-- The rows of a resource in the order of its index. -/
def rowOf (resSlot : R → Nat) (s : State A S R) (r : R) : List A :=
  select s.resKey resSlot s.resIndex r

omit [DecidableEq S] in
/-- The row of a resource has the used rows of that resource. -/
theorem mem_rowOf (h : Table sesSlot resSlot s) {r : R} {a : A} :
    a ∈ rowOf resSlot s r ↔ s.used a = true ∧ s.resKey a = r :=
  (h.indexed.res.select_spec r).2 a

omit [DecidableEq S] in
theorem rowOf_nodup (h : Table sesSlot resSlot s) (r : R) : (rowOf resSlot s r).Nodup :=
  (h.indexed.res.select_spec r).1

omit [DecidableEq A] [DecidableEq S] in
theorem selectRes_eq (s : State A S R) (r : R) :
    selectRes resSlot s r = (rowOf resSlot s r).map fun a => (a, s.record a) := rfl

omit [DecidableEq S] [DecidableEq A] in
/-- The rows of an index stay where they are as long as the keys of the live ones stay. -/
theorem Indexed.rowOf_congr (h : Indexed sesSlot resSlot live s) (hres : s'.resIndex = s.resIndex)
    (hkeys : ∀ a, live a → s'.resKey a = s.resKey a) (r : R) :
    rowOf resSlot s' r = rowOf resSlot s r := by
  rw [rowOf, hres]
  exact h.res.select_congr hkeys r

/-! ## The table operations on the records -/

/-- A row is taken out of both indexes. -/
theorem deleteAllIndex_spec (h : Indexed sesSlot resSlot live s) (a : A) (row : LockRow S R)
    (hrow : live a → row.sessionId = s.sesKey a ∧ row.resource = s.resKey a) :
    Indexed sesSlot resSlot (fun b => live b ∧ b ≠ a) (deleteAllIndex sesSlot resSlot s a row) :=
  ⟨h.ses.delete fun ha => (hrow ha).1.symm, h.res.delete fun ha => (hrow ha).2.symm⟩

/-- `insertAllIndex` indexes the record everywhere or nowhere. -/
theorem insertAllIndex_spec (h : Indexed sesSlot resSlot live s) {env : Env A S R} {a : A}
    (hfresh : ¬ live a) {ok : Bool}
    (hins : insertAllIndex sesSlot resSlot s env a (s.record a) = (s', ok)) :
    (s'.record = s.record ∧ s'.used = s.used ∧ s'.recordNum = s.recordNum) ∧
      Indexed sesSlot resSlot (fun b => live b ∨ ok = true ∧ b = a) s' := by
  unfold insertAllIndex at hins
  split at hins
  · obtain ⟨rfl, rfl⟩ := Prod.mk.inj hins
    exact ⟨⟨rfl, rfl, rfl⟩, h.ses.of_iff (by simp), h.res.of_iff (by simp)⟩
  · rename_i ses hses
    have hses' : WellIndexed s.sesKey sesSlot (fun b => live b ∨ b = a) ses :=
      h.ses.insert_ok hfresh hses
    dsimp only at hins
    split at hins
    · obtain ⟨rfl, rfl⟩ := Prod.mk.inj hins
      refine ⟨⟨rfl, rfl, rfl⟩, ?_, h.res.of_iff (by simp)⟩
      refine (hses'.delete fun _ => rfl).of_iff fun b => ?_
      simp only [Bool.false_eq_true, false_and, or_false]
      constructor
      · exact fun hb => ⟨.inl hb, fun hba => hfresh (hba ▸ hb)⟩
      · exact fun hb => hb.1.resolve_right hb.2
    · rename_i res hres
      obtain ⟨rfl, rfl⟩ := Prod.mk.inj hins
      have hres' : WellIndexed s.resKey resSlot (fun b => live b ∨ b = a) res :=
        h.res.insert_ok hfresh hres
      exact ⟨⟨rfl, rfl, rfl⟩, hses'.of_iff (by simp), hres'.of_iff (by simp)⟩

/-- Taking a row out keeps the order of the others. -/
theorem deleteAllIndex_rowOf (h : Indexed sesSlot resSlot live s) (a : A) (row : LockRow S R)
    (hrow : live a → row.resource = s.resKey a) (r : R) :
    rowOf resSlot (deleteAllIndex sesSlot resSlot s a row) r =
      (rowOf resSlot s r).filter fun b => b ≠ a :=
  h.res.select_delete (fun ha => (hrow ha).symm) r

/-- A record that is indexed becomes the second one of its resource. -/
theorem insertAllIndex_rowOf {env : Env A S R} {a : A} {ok : Bool}
    (hins : insertAllIndex sesSlot resSlot s env a (s.record a) = (s', ok)) (r : R) :
    rowOf resSlot s' r = if ok = true ∧ r = s.resKey a then second a (rowOf resSlot s r)
      else rowOf resSlot s r := by
  unfold insertAllIndex at hins
  split at hins
  · obtain ⟨rfl, rfl⟩ := Prod.mk.inj hins
    simp
  · dsimp only at hins
    split at hins
    · obtain ⟨rfl, rfl⟩ := Prod.mk.inj hins
      rw [if_neg fun h => Bool.false_ne_true h.1]
      rfl
    · rename_i res hres
      obtain ⟨rfl, rfl⟩ := Prod.mk.inj hins
      simp only [true_and]
      exact select_insert hres r

/-- A slot that none of the live addresses is can be freed and taken out of the indexes, whatever row
it had: the indexes hold the same rows in the same order. -/
theorem Indexed.takeBack (h : Indexed sesSlot resSlot live s) {a : A} (hne : ∀ b, live b → b ≠ a)
    (junk : A → LockRow S R) (row : LockRow S R) :
    Indexed sesSlot resSlot live (deleteAllIndex sesSlot resSlot (s.free junk a) a row) ∧
      ∀ r, rowOf resSlot (deleteAllIndex sesSlot resSlot (s.free junk a) a row) r =
        rowOf resSlot s r := by
  have hnot : live a → False := fun ha => hne a ha rfl
  have hfreed : Indexed sesSlot resSlot live (s.free junk a) := by
    refine h.congr rfl rfl fun b hb => ?_
    simp [State.sesKey, State.resKey, State.free, hne b hb]
  have hdeleted := deleteAllIndex_spec hfreed a row fun ha => (hnot ha).elim
  refine ⟨⟨hdeleted.ses.of_iff fun b => ⟨fun hb => ⟨hb, hne b hb⟩, fun hb => hb.1⟩,
    hdeleted.res.of_iff fun b => ⟨fun hb => ⟨hb, hne b hb⟩, fun hb => hb.1⟩⟩, fun r => ?_⟩
  have hback : rowOf resSlot (s.free junk a) r = rowOf resSlot s r := by
    have hres : (s.free junk a).resIndex = s.resIndex := rfl
    refine h.rowOf_congr hres (fun b hb => ?_) r
    simp [State.resKey, State.free, hne b hb]
  rw [deleteAllIndex_rowOf hfreed a row fun ha => (hnot ha).elim, hback]
  refine List.filter_eq_self.mpr fun b hb => decide_eq_true ?_
  rw [← hback] at hb
  exact hne b (((hfreed.res.select_spec r).2 b).mp hb).1

/-- An insertion of a record and the order of the rows: the new row becomes the second one of its
resource, or everything in use stays as it was. -/
theorem insertRec_rows (h : Table sesSlot resSlot s) {env : Env A S R} {row : LockRow S R}
    (hslot : ∀ a ∈ env.slot, s.used a = false) {ok : Bool}
    (hins : insertRec sesSlot resSlot s env row = (s', ok)) :
    Table sesSlot resSlot s' ∧
      ((ok = true ∧ ∃ a, s.used a = false ∧ s'.record = Function.update s.record a row ∧
          s'.used = Function.update s.used a true ∧
          ∀ r, rowOf resSlot s' r = if r = row.resource then second a (rowOf resSlot s r)
            else rowOf resSlot s r) ∨
        (ok = false ∧ s'.used = s.used ∧ (∀ a, s.used a = true → s'.record a = s.record a) ∧
          ∀ r, rowOf resSlot s' r = rowOf resSlot s r)) := by
  unfold insertRec at hins
  cases hmem : env.slot with
  | none =>
      rw [hmem] at hins
      obtain ⟨rfl, rfl⟩ := Prod.mk.inj hins
      exact ⟨h, .inr ⟨rfl, rfl, fun _ _ => rfl, fun _ => rfl⟩⟩
  | some a =>
      rw [hmem] at hins
      have hfree : s.used a = false := hslot a (by simp [hmem])
      have hne : ∀ b, s.used b = true → b ≠ a := by
        rintro b hb rfl
        rw [hfree] at hb
        cases hb
      dsimp only at hins
      -- the slot with the record written and not yet indexed
      generalize hs₁ : ({ s.setRecord a row with used := Function.update s.used a true } :
        State A S R) = s₁ at hins
      have hrec : s₁.record = Function.update s.record a row := by rw [← hs₁]; rfl
      have hused : s₁.used = Function.update s.used a true := by rw [← hs₁]
      have hnum : s₁.recordNum = s.recordNum := by rw [← hs₁]; rfl
      have hrow : s₁.record a = row := by rw [hrec, Function.update_self]
      have hidx : Indexed sesSlot resSlot (fun b => s.used b = true) s₁ := by
        refine h.indexed.congr (by rw [← hs₁]; rfl) (by rw [← hs₁]; rfl) fun b hb => ?_
        simp only [State.sesKey, State.resKey, hrec, Function.update_of_ne (hne b hb), and_self]
      have hrows : ∀ r, rowOf resSlot s₁ r = rowOf resSlot s r :=
        h.indexed.rowOf_congr (by rw [← hs₁]; rfl) fun b hb => by
          simp only [State.resKey, hrec, Function.update_of_ne (hne b hb)]
      rcases hall : insertAllIndex sesSlot resSlot s₁ env a row with ⟨s₂, ok₂⟩
      rw [hall] at hins
      rw [← hrow] at hall
      obtain ⟨⟨hrec₂, hused₂, hnum₂⟩, hidx₂⟩ := insertAllIndex_spec hidx (by simp [hfree]) hall
      have hrows₂ := insertAllIndex_rowOf hall
      have hkey₁ : s₁.resKey a = row.resource := by rw [State.resKey, hrow]
      rw [hkey₁] at hrows₂
      cases ok₂ with
      | true =>
          obtain ⟨rfl, rfl⟩ := Prod.mk.inj hins
          have hlive : ∀ b, s₂.used b = true ↔ s.used b = true ∨ true = true ∧ b = a := by
            intro b
            rw [hused₂, hused]
            by_cases hb : b = a <;> simp [hb]
          refine ⟨⟨⟨hidx₂.ses.of_iff hlive, hidx₂.res.of_iff hlive⟩, ?_⟩,
            .inl ⟨rfl, a, hfree, hrec₂.trans hrec, hused₂.trans hused, fun r => ?_⟩⟩
          swap
          · rw [← hrows r]
            have hrow₂ := hrows₂ r
            simp only [true_and] at hrow₂
            exact hrow₂
          obtain ⟨l, hnodup, hmem, hlen⟩ := h.counted
          have ha : a ∉ l := fun hal => hne a ((hmem a).mp hal) rfl
          refine ⟨a :: l, List.nodup_cons.mpr ⟨ha, hnodup⟩, fun b => ?_, ?_⟩
          · rw [hlive b, List.mem_cons, hmem]
            simp only [true_and]
            exact or_comm
          · rw [hnum₂, hnum, hlen, List.length_cons]
      | false =>
          obtain ⟨rfl, rfl⟩ := Prod.mk.inj hins
          have hidx₂' : Indexed sesSlot resSlot (fun b => s.used b = true) s₂ :=
            ⟨hidx₂.ses.of_iff (by simp), hidx₂.res.of_iff (by simp)⟩
          obtain ⟨hidx₄, hrows₄⟩ := hidx₂'.takeBack hne env.junk row
          have hused₄ : (deleteAllIndex sesSlot resSlot (s₂.free env.junk a) a row).used = s.used := by
            have hback : (s₂.free env.junk a).used = s.used := by
              simp [State.free, hused₂, hused, ← hfree]
            exact hback
          refine ⟨⟨hused₄ ▸ hidx₄, ?_⟩, .inr ⟨rfl, hused₄, fun b hb => ?_, fun r => ?_⟩⟩
          · obtain ⟨l, hnodup, hmem, hlen⟩ := h.counted
            refine ⟨l, hnodup, by rw [hused₄]; exact hmem, ?_⟩
            exact (hnum₂.trans hnum).trans hlen
          · have hrecb : (s₂.free env.junk a).record b = s.record b := by
              simp [State.free, hrec₂, hrec, hne b hb]
            exact hrecb
          · have hrow₂ : rowOf resSlot s₂ r = rowOf resSlot s₁ r := by simpa using hrows₂ r
            rw [hrows₄ r, hrow₂, hrows r]

/-- **Inserting a record.**  It is in the table afterwards, or the records in use
are what they were. -/
theorem insertRec_spec (h : Table sesSlot resSlot s) {env : Env A S R} {row : LockRow S R}
    (hslot : ∀ a ∈ env.slot, s.used a = false) {ok : Bool}
    (hins : insertRec sesSlot resSlot s env row = (s', ok)) :
    Table sesSlot resSlot s' ∧
      ((ok = true ∧ ∃ a, s.used a = false ∧ s'.record = Function.update s.record a row ∧
          s'.used = Function.update s.used a true) ∨
        (ok = false ∧ s'.used = s.used ∧ ∀ a, s.used a = true → s'.record a = s.record a)) := by
  obtain ⟨htable, ⟨hok, a, hfree, hrec, hused, -⟩ | ⟨hno, hused, hrec, -⟩⟩ :=
    insertRec_rows h hslot hins
  · exact ⟨htable, .inl ⟨hok, a, hfree, hrec, hused⟩⟩
  · exact ⟨htable, .inr ⟨hno, hused, hrec⟩⟩

/-- Taking the members of a sublist out of a list without repetitions. -/
theorem length_filter_notMem {l m : List A} (hl : l.Nodup) (hm : m.Nodup) (hsub : m ⊆ l) :
    (l.filter fun b => b ∉ m).length + m.length = l.length := by
  have hperm : (l.filter fun b => b ∈ m).Perm m := by
    refine (List.perm_ext_iff_of_nodup (hl.filter _) hm).mpr fun b => ?_
    simp only [List.mem_filter, decide_eq_true_eq]
    exact ⟨fun hb => hb.2, fun hb => ⟨hsub hb, hb⟩⟩
  have hsplit := List.length_eq_length_filter_add (l := l) (fun b => decide (b ∈ m))
  rw [hperm.length_eq] at hsplit
  simp only [← decide_not] at hsplit
  omega

/-- The index part of `deleteRec`. -/
theorem deleteEntries_spec {rows : List (A × LockRow S R)} (h : Indexed sesSlot resSlot live s)
    (hrows : ∀ p ∈ rows, p.2.sessionId = s.sesKey p.1 ∧ p.2.resource = s.resKey p.1) :
    ∃ t, rows.foldl (fun s p => deleteAllIndex sesSlot resSlot s p.1 p.2) s = t ∧
      Indexed sesSlot resSlot (fun b => live b ∧ b ∉ rows.map Prod.fst) t ∧
      t.record = s.record ∧ t.used = s.used ∧ t.recordNum = s.recordNum := by
  induction rows generalizing s live with
  | nil => exact ⟨s, rfl, ⟨h.ses.of_iff (by simp), h.res.of_iff (by simp)⟩, rfl, rfl, rfl⟩
  | cons p rest ih =>
      have hone := deleteAllIndex_spec h p.1 p.2 fun _ => hrows p List.mem_cons_self
      obtain ⟨t, ht, hidx, hrec, hused, hnum⟩ :=
        ih hone fun q hq => hrows q (List.mem_cons_of_mem p hq)
      have hiff : ∀ b, (live b ∧ b ∉ (p :: rest).map Prod.fst) ↔
          (live b ∧ b ≠ p.1) ∧ b ∉ rest.map Prod.fst := by
        intro b
        rw [List.map_cons, List.mem_cons, not_or, and_assoc]
      exact ⟨t, ht, ⟨hidx.ses.of_iff hiff, hidx.res.of_iff hiff⟩, hrec, hused, hnum⟩

omit [DecidableEq S] [DecidableEq R] in
/-- The slot part of `deleteRec`. -/
theorem freeSlots_spec (s : State A S R) (junk : A → LockRow S R) (rows : List (A × LockRow S R)) :
    ∃ t, rows.foldl (fun s p => s.free junk p.1) s = t ∧
      t.sesIndex = s.sesIndex ∧ t.resIndex = s.resIndex ∧ t.recordNum = s.recordNum ∧
      (∀ b, t.used b = true ↔ s.used b = true ∧ b ∉ rows.map Prod.fst) ∧
      ∀ b, b ∉ rows.map Prod.fst → t.record b = s.record b := by
  induction rows generalizing s with
  | nil => exact ⟨s, rfl, rfl, rfl, rfl, by simp, by simp⟩
  | cons p rest ih =>
      obtain ⟨t, ht, hses, hres, hnum, hused, hrec⟩ := ih (s.free junk p.1)
      refine ⟨t, ht, hses, hres, hnum, fun b => ?_, fun b hb => ?_⟩
      · rw [hused, List.map_cons, List.mem_cons, not_or, ← and_assoc]
        by_cases hb : b = p.1 <;> simp [State.free, hb]
      · rw [List.map_cons, List.mem_cons, not_or] at hb
        rw [hrec b hb.2]
        simp [State.free, hb.1]

/-- **Deleting records** takes exactly them out of the table. -/
theorem deleteRec_spec (h : Table sesSlot resSlot s) (env : Env A S R)
    {rows : List (A × LockRow S R)} (hnodup : (rows.map Prod.fst).Nodup)
    (hrows : ∀ p ∈ rows, s.used p.1 = true ∧
      p.2.sessionId = s.sesKey p.1 ∧ p.2.resource = s.resKey p.1) :
    Table sesSlot resSlot (deleteRec sesSlot resSlot s env rows) ∧
      (∀ b, (deleteRec sesSlot resSlot s env rows).used b = true ↔
        s.used b = true ∧ b ∉ rows.map Prod.fst) ∧
      ∀ b, b ∉ rows.map Prod.fst →
        (deleteRec sesSlot resSlot s env rows).record b = s.record b := by
  obtain ⟨t, ht, hidx, hrec, hused, hnum⟩ :=
    deleteEntries_spec h.indexed fun p hp => (hrows p hp).2
  obtain ⟨u, hu, huses, hures, hunum, huused, hurec⟩ := freeSlots_spec t env.junk rows
  have hdel : deleteRec sesSlot resSlot s env rows =
      { u with recordNum := u.recordNum - rows.length } := by
    simp only [deleteRec, ht, hu]
  have hlive : ∀ b, u.used b = true ↔ s.used b = true ∧ b ∉ rows.map Prod.fst := by
    intro b
    rw [huused, hused]
  have hsame : ∀ b, b ∉ rows.map Prod.fst → u.record b = s.record b := fun b hb =>
    (hurec b hb).trans (by rw [hrec])
  rw [hdel]
  refine ⟨⟨?_, ?_⟩, hlive, hsame⟩
  · have hidxU : Indexed sesSlot resSlot (fun b => s.used b = true ∧ b ∉ rows.map Prod.fst) u := by
      refine hidx.congr huses hures fun b hb => ?_
      simp only [State.sesKey, State.resKey, hurec b hb.2, and_self]
    exact ⟨hidxU.ses.of_iff hlive, hidxU.res.of_iff hlive⟩
  · obtain ⟨l, hl, hmem, hlen⟩ := h.counted
    refine ⟨l.filter (fun b => b ∉ rows.map Prod.fst), hl.filter _, fun b => ?_, ?_⟩
    · rw [List.mem_filter, hmem, hlive]
      simp
    · have hsub : rows.map Prod.fst ⊆ l := by
        intro b hb
        obtain ⟨p, hp, rfl⟩ := List.mem_map.mp hb
        exact (hmem p.1).mpr (hrows p hp).1
      have hcount := length_filter_notMem hl hnodup hsub
      rw [List.length_map] at hcount
      show u.recordNum - rows.length = _
      rw [hunum, hnum, hlen]
      omega

/-! ## Release -/

/-- What signalling the resources `rs` does to the records: each of them that has
waiters gets one of them as owner, and nothing else changes. -/
structure Promoted (s t : State A S R) (rs : List R) : Prop where
  used : t.used = s.used
  table : t.sesIndex = s.sesIndex ∧ t.resIndex = s.resIndex ∧ t.recordNum = s.recordNum
  keys : ∀ a, t.sesKey a = s.sesKey a ∧ t.resKey a = s.resKey a
  change : ∀ a, t.record a = s.record a ∨
    (s.used a = true ∧ (s.record a).lockType = .wait ∧ (t.record a).lockType = .own ∧
      s.resKey a ∈ rs)
  one : ∀ a b, (s.record a).lockType = .wait → (t.record a).lockType = .own →
    (s.record b).lockType = .wait → (t.record b).lockType = .own →
    s.resKey a = s.resKey b → a = b
  some : ∀ r ∈ rs, (∃ a, s.used a = true ∧ s.resKey a = r ∧ (s.record a).lockType = .wait) →
    ∃ a, s.used a = true ∧ s.resKey a = r ∧ (s.record a).lockType = .wait ∧
      (t.record a).lockType = .own

omit [DecidableEq A] [DecidableEq S] [DecidableEq R] in
/-- Nobody is promoted when nobody is woken. -/
theorem Promoted.refl (s : State A S R) : Promoted s s [] where
  used := rfl
  table := ⟨rfl, rfl, rfl⟩
  keys := fun _ => ⟨rfl, rfl⟩
  change := fun _ => .inl rfl
  one := fun a b hw ho => by rw [hw] at ho; cases ho
  some := fun r hr => by cases hr

omit [DecidableEq A] [DecidableEq S] [DecidableEq R] in
/-- A promotion keeps the table in order. -/
theorem Promoted.tableOk {t : State A S R} {rs : List R} (hp : Promoted s t rs)
    (h : Table sesSlot resSlot s) : Table sesSlot resSlot t := by
  refine ⟨?_, ?_⟩
  · rw [hp.used]
    exact h.indexed.congr hp.table.1 hp.table.2.1 fun a _ => hp.keys a
  · rw [hp.used, hp.table.2.2]
    exact h.counted

omit [DecidableEq S] in
/-- A signal promotes at most one row, of its own resource. -/
theorem signal_promoted (h : Table sesSlot resSlot s) (r : R) :
    Promoted s (signalFirstWaitSessionByResource resSlot s r) [r] := by
  unfold signalFirstWaitSessionByResource
  cases hfind : (selectRes resSlot s r).find? fun p => p.2.lockType = .wait with
  | none =>
      have hnone : ∀ a, s.used a = true → s.resKey a = r → (s.record a).lockType ≠ .wait := by
        intro a hused hkey hwait
        have hmem : (a, s.record a) ∈ selectRes resSlot s r :=
          (mem_selectRes h).mpr ⟨hused, rfl, hkey⟩
        simpa [hwait] using List.find?_eq_none.mp hfind _ hmem
      refine ⟨rfl, ⟨rfl, rfl, rfl⟩, fun _ => ⟨rfl, rfl⟩, fun _ => .inl rfl, ?_, ?_⟩
      · intro a b hw ho
        rw [hw] at ho
        cases ho
      · rintro r' hr' ⟨a, hused, hkey, hwait⟩
        rw [List.mem_singleton.mp hr'] at hkey
        exact absurd hwait (hnone a hused hkey)
  | some p =>
      obtain ⟨a, row⟩ := p
      obtain ⟨hused, hrow, hkey⟩ := (mem_selectRes h).mp (List.mem_of_find?_eq_some hfind)
      have hwait : row.lockType = .wait := by simpa using List.find?_some hfind
      obtain rfl : row = s.record a := hrow
      -- only the record at `a` changes, and only in its type
      have hother : ∀ b, b ≠ a →
          (s.setRecord a { s.record a with lockType := .own }).record b = s.record b :=
        fun b hb => Function.update_of_ne hb _ _
      have hself : (s.setRecord a { s.record a with lockType := .own }).record a =
          { s.record a with lockType := .own } := Function.update_self _ _ _
      have hprom : ∀ b, (s.record b).lockType = .wait →
          ((s.setRecord a { s.record a with lockType := .own }).record b).lockType = .own →
          b = a := by
        intro b hw ho
        by_contra hne
        rw [hother b hne, hw] at ho
        cases ho
      refine ⟨rfl, ⟨rfl, rfl, rfl⟩, ?_, ?_, ?_, ?_⟩
      · intro b
        by_cases hb : b = a
        · subst hb; simp only [State.sesKey, State.resKey, hself, and_self]
        · simp only [State.sesKey, State.resKey, hother b hb, and_self]
      · intro b
        by_cases hb : b = a
        · subst hb
          exact .inr ⟨hused, hwait, by rw [hself], List.mem_singleton.mpr hkey⟩
        · exact .inl (hother b hb)
      · intro b c hwb hob hwc hoc _
        rw [hprom b hwb hob, hprom c hwc hoc]
      · intro r' hr' _
        rw [List.mem_singleton.mp hr']
        exact ⟨a, hused, hkey, hwait, by rw [hself]⟩

omit [DecidableEq A] [DecidableEq S] in
/-- Signals on different resources do not meet. -/
theorem Promoted.cons {t u : State A S R} {r : R} {rest : List R} (hr : r ∉ rest)
    (h₁ : Promoted s t [r]) (h₂ : Promoted t u rest) : Promoted s u (r :: rest) := by
  have hfirst : ∀ a, s.resKey a ≠ r → t.record a = s.record a := fun a ha =>
    (h₁.change a).resolve_right fun hc => ha (List.mem_singleton.mp hc.2.2.2)
  have hsecond : ∀ a, s.resKey a = r → u.record a = t.record a := fun a ha =>
    (h₂.change a).resolve_right fun hc => hr (by
      rw [← ha, ← (h₁.keys a).2]; exact hc.2.2.2)
  refine ⟨h₂.used.trans h₁.used, ⟨h₂.table.1.trans h₁.table.1, h₂.table.2.1.trans h₁.table.2.1,
    h₂.table.2.2.trans h₁.table.2.2⟩, fun a => ⟨(h₂.keys a).1.trans (h₁.keys a).1,
    (h₂.keys a).2.trans (h₁.keys a).2⟩, ?_, ?_, ?_⟩
  · intro a
    by_cases ha : s.resKey a = r
    · rw [hsecond a ha]
      rcases h₁.change a with hsame | ⟨hused, hw, ho, -⟩
      · exact .inl hsame
      · exact .inr ⟨hused, hw, ho, by rw [ha]; exact List.mem_cons_self⟩
    · rw [← hfirst a ha]
      rcases h₂.change a with hsame | ⟨hused, hw, ho, hmem⟩
      · exact .inl hsame
      · rw [h₁.used] at hused
        rw [(h₁.keys a).2] at hmem
        exact .inr ⟨hused, hw, ho, List.mem_cons_of_mem r hmem⟩
  · intro a b hwa hoa hwb hob hab
    by_cases ha : s.resKey a = r
    · rw [hsecond a ha] at hoa
      rw [hsecond b (hab ▸ ha)] at hob
      exact h₁.one a b hwa hoa hwb hob hab
    · rw [← hfirst a ha] at hwa
      rw [← hfirst b (fun hb => ha (hab.trans hb))] at hwb
      refine h₂.one a b hwa hoa hwb hob ?_
      rw [(h₁.keys a).2, (h₁.keys b).2, hab]
  · rintro r' hr' ⟨a, hused, hkey, hwait⟩
    by_cases heq : r' = r
    · subst heq
      obtain ⟨b, hb, hkb, hwb, hob⟩ := h₁.some r' (List.mem_singleton_self r') ⟨a, hused, hkey, hwait⟩
      exact ⟨b, hb, hkb, hwb, by rw [hsecond b hkb]; exact hob⟩
    · have hmem := (List.mem_cons.mp hr').resolve_left heq
      obtain ⟨b, hb, hkb, hwb, hob⟩ := h₂.some r' hmem
        ⟨a, by rw [h₁.used]; exact hused, by rw [(h₁.keys a).2]; exact hkey,
          by rw [hfirst a (fun hc => heq (hkey.symm.trans hc))]; exact hwait⟩
      rw [(h₁.keys b).2] at hkb
      rw [hfirst b (fun hc => heq (hkb.symm.trans hc))] at hwb
      rw [h₁.used] at hb
      exact ⟨b, hb, hkb, hwb, hob⟩

omit [DecidableEq S] in
/-- Signalling a list of different resources. -/
theorem signals_promoted {rs : List R} (h : Table sesSlot resSlot s) (hnodup : rs.Nodup) :
    Promoted s (rs.foldl (signalFirstWaitSessionByResource resSlot) s) rs := by
  induction rs generalizing s with
  | nil => exact Promoted.refl s
  | cons r rest ih =>
      obtain ⟨hr, hrest⟩ := List.nodup_cons.mp hnodup
      have hfirst := signal_promoted h r
      exact hfirst.cons hr (ih (hfirst.tableOk h) hrest)

/-- What the rows of the lock table mean: a session has one row per resource, and
a resource that has rows has exactly one owner among them. -/
structure Locks (s : State A S R) : Prop where
  pair : ∀ a b, s.used a = true → s.used b = true → s.sesKey a = s.sesKey b →
    s.resKey a = s.resKey b → a = b
  one_owner : ∀ a b, s.used a = true → s.used b = true → (s.record a).lockType = .own →
    (s.record b).lockType = .own → s.resKey a = s.resKey b → a = b
  owned : ∀ a, s.used a = true →
    ∃ b, s.used b = true ∧ (s.record b).lockType = .own ∧ s.resKey b = s.resKey a

/-- What a release of `session` does to the records. -/
structure Released (s u : State A S R) (session : S) : Prop where
  used : ∀ b, u.used b = true ↔ s.used b = true ∧ s.sesKey b ≠ session
  keys : ∀ b, u.used b = true → u.sesKey b = s.sesKey b ∧ u.resKey b = s.resKey b
  change : ∀ b, u.used b = true → u.record b = s.record b ∨
    ((s.record b).lockType = .wait ∧ (u.record b).lockType = .own ∧
      ∃ c, s.used c = true ∧ (s.record c).lockType = .own ∧ s.sesKey c = session ∧
        s.resKey c = s.resKey b)
  one : ∀ a b, u.used a = true → u.used b = true → (s.record a).lockType = .wait →
    (u.record a).lockType = .own → (s.record b).lockType = .wait →
    (u.record b).lockType = .own → s.resKey a = s.resKey b → a = b
  handed : ∀ c, s.used c = true → (s.record c).lockType = .own → s.sesKey c = session →
    (∃ b, u.used b = true ∧ s.resKey b = s.resKey c) →
    ∃ b, u.used b = true ∧ s.resKey b = s.resKey c ∧ (u.record b).lockType = .own

omit [DecidableEq R] in
/-- The rows of a session are selected once each. -/
theorem selectSes_addresses (h : Table sesSlot resSlot s) (session : S) :
    ((selectSes sesSlot s session).map Prod.fst).Nodup ∧
      ∀ a, a ∈ (selectSes sesSlot s session).map Prod.fst ↔
        s.used a = true ∧ s.sesKey a = session := by
  have haddr : (selectSes sesSlot s session).map Prod.fst =
      select s.sesKey sesSlot s.sesIndex session := by
    simp [selectSes, Function.comp_def]
  rw [haddr]
  exact h.indexed.ses.select_spec session

omit [DecidableEq R] in
/-- When the session's rows are as many as the table has, they are all rows. -/
theorem all_rows_of_recordNum (h : Table sesSlot resSlot s) {session : S}
    (hnum : s.recordNum = (selectSes sesSlot s session).length) {a : A} (ha : s.used a = true) :
    s.sesKey a = session := by
  obtain ⟨hnodup, hmem⟩ := selectSes_addresses h session
  obtain ⟨l, hl, hlmem, hlen⟩ := h.counted
  have hsub : (selectSes sesSlot s session).map Prod.fst ⊆ l := fun b hb =>
    (hlmem b).mpr ((hmem b).mp hb).1
  have hperm := (hnodup.subperm hsub).perm_of_length_le (by rw [List.length_map]; omega)
  exact ((hmem a).mp (hperm.mem_iff.mpr ((hlmem a).mpr ha))).2

/-- The rows of a session are deleted after different resources have been signalled: the ones it
owns, or none when all rows are its own. -/
theorem releaseLock_signals (h : Table sesSlot resSlot s) (hl : Locks s) (env : Env A S R)
    (session : S) :
    ∃ rs : List R, rs.Nodup ∧
      releaseLock sesSlot resSlot s env session = deleteRec sesSlot resSlot
        (rs.foldl (signalFirstWaitSessionByResource resSlot) s) env (selectSes sesSlot s session) ∧
      (∀ r ∈ rs, ∃ c, s.used c = true ∧ (s.record c).lockType = .own ∧ s.sesKey c = session ∧
        s.resKey c = r) ∧
      ((∀ c, s.used c = true → (s.record c).lockType = .own → s.sesKey c = session →
        s.resKey c ∈ rs) ∨ ∀ a, s.used a = true → s.sesKey a = session) := by
  obtain ⟨hnodup, -⟩ := selectSes_addresses h session
  have hrowMem : ∀ p, p ∈ selectSes sesSlot s session ↔
      s.used p.1 = true ∧ p.2 = s.record p.1 ∧ p.2.sessionId = session := fun p => mem_selectSes h
  generalize hrows : selectSes sesSlot s session = rows at hnodup hrowMem
  by_cases hnum : s.recordNum = rows.length
  · refine ⟨[], List.nodup_nil, ?_, by simp, .inr fun a ha => ?_⟩
    · simp [releaseLock, hrows, hnum]
    · exact all_rows_of_recordNum h (by rw [hrows]; exact hnum) ha
  refine ⟨(rows.filter fun p => p.2.lockType = .own).map fun p => p.2.resource, ?_, ?_, ?_,
    .inl ?_⟩
  · -- the resources that are signalled are different, one row each
    refine List.Nodup.map_on ?_ ((List.Nodup.of_map _ hnodup).filter _)
    intro p hp q hq hpq
    obtain ⟨hpu, hpr, hps⟩ := (hrowMem p).mp (List.mem_filter.mp hp).1
    obtain ⟨hqu, hqr, hqs⟩ := (hrowMem q).mp (List.mem_filter.mp hq).1
    have haddr : p.1 = q.1 := by
      refine hl.pair p.1 q.1 hpu hqu ?_ ?_
      · rw [State.sesKey, State.sesKey, ← hpr, ← hqr, hps, hqs]
      · rw [State.resKey, State.resKey, ← hpr, ← hqr, hpq]
    exact Prod.ext haddr (by rw [hpr, hqr, haddr])
  · unfold releaseLock
    rw [hrows]
    dsimp only
    rw [if_pos hnum, List.foldl_map, List.foldl_filter]
    simp only [decide_eq_true_eq]
  · intro r hr
    simp only [List.mem_map, List.mem_filter, decide_eq_true_eq] at hr
    obtain ⟨p, ⟨hp, ho⟩, rfl⟩ := hr
    obtain ⟨hpu, hpr, hps⟩ := (hrowMem p).mp hp
    rw [hpr] at ho hps
    exact ⟨p.1, hpu, ho, hps, by rw [State.resKey, ← hpr]⟩
  · intro c hcu hco hcs
    simp only [List.mem_map, List.mem_filter, decide_eq_true_eq]
    exact ⟨(c, s.record c), ⟨(hrowMem _).mpr ⟨hcu, rfl, hcs⟩, hco⟩, rfl⟩

/-- **Release.**  The session's rows are gone, and each resource it owned has gone
to one of its waiters, if it had any. -/
theorem releaseLock_spec (h : Table sesSlot resSlot s) (hl : Locks s) (env : Env A S R)
    (session : S) :
    Table sesSlot resSlot (releaseLock sesSlot resSlot s env session) ∧
      Released s (releaseLock sesSlot resSlot s env session) session := by
  obtain ⟨hnodup, hmem⟩ := selectSes_addresses h session
  have hrowMem : ∀ p, p ∈ selectSes sesSlot s session ↔
      s.used p.1 = true ∧ p.2 = s.record p.1 ∧ p.2.sessionId = session := fun p => mem_selectSes h
  obtain ⟨rs, hrsNodup, hrel, hown, hall⟩ := releaseLock_signals h hl env session
  rw [hrel]
  have hpt := signals_promoted h hrsNodup
  generalize selectSes sesSlot s session = rows at hnodup hmem hrowMem ⊢
  generalize rs.foldl (signalFirstWaitSessionByResource resSlot) s = t at hpt ⊢
  obtain ⟨htable, hused, hrec⟩ := deleteRec_spec (hpt.tableOk h) env hnodup fun p hp => by
    obtain ⟨hpu, hpr, -⟩ := (hrowMem p).mp hp
    rw [hpt.used, (hpt.keys p.1).1, (hpt.keys p.1).2, hpr]
    exact ⟨hpu, rfl, rfl⟩
  refine ⟨htable, ?_⟩
  have husedIff : ∀ b, (deleteRec sesSlot resSlot t env rows).used b = true ↔
      s.used b = true ∧ s.sesKey b ≠ session := by
    intro b
    rw [hused, hmem, hpt.used]
    constructor
    · rintro ⟨hb, hnot⟩
      exact ⟨hb, fun hs => hnot ⟨hb, hs⟩⟩
    · rintro ⟨hb, hne⟩
      exact ⟨hb, fun hc => hne hc.2⟩
  have hrecEq : ∀ b, (deleteRec sesSlot resSlot t env rows).used b = true →
      (deleteRec sesSlot resSlot t env rows).record b = t.record b := fun b hb =>
    hrec b ((hused b).mp hb).2
  refine ⟨husedIff, ?_, ?_, ?_, ?_⟩
  · intro b hb
    rw [State.sesKey, State.resKey, hrecEq b hb]
    exact hpt.keys b
  · intro b hb
    rw [hrecEq b hb]
    rcases hpt.change b with hsame | ⟨-, hw, ho, hr⟩
    · exact .inl hsame
    · exact .inr ⟨hw, ho, hown _ hr⟩
  · intro a b ha hb hwa hoa hwb hob hab
    rw [hrecEq a ha] at hoa
    rw [hrecEq b hb] at hob
    exact hpt.one a b hwa hoa hwb hob hab
  · rintro c hcu hco hcs ⟨b, hb, hbc⟩
    obtain ⟨hbu, hbs⟩ := (husedIff b).mp hb
    have hsignalled := hall.resolve_right fun hevery => hbs (hevery b hbu)
    have hwait : ∀ a, s.used a = true → s.sesKey a ≠ session → s.resKey a = s.resKey c →
        (s.record a).lockType = .wait := by
      intro a hau has hac
      cases htype : (s.record a).lockType with
      | wait => rfl
      | own =>
          obtain rfl := hl.one_owner a c hau hcu htype hco hac
          exact absurd hcs has
    obtain ⟨a, hau, hac, hwa, hoa⟩ := hpt.some (s.resKey c) (hsignalled c hcu hco hcs)
      ⟨b, hbu, hbc, hwait b hbu hbs hbc⟩
    have has : s.sesKey a ≠ session := by
      intro has
      obtain rfl := hl.pair a c hau hcu (has.trans hcs.symm) hac
      rw [hwa] at hco
      cases hco
    have ha := (husedIff a).mpr ⟨hau, has⟩
    exact ⟨a, ha, hac, by rw [hrecEq a ha]; exact hoa⟩

omit [DecidableEq A] [DecidableEq R] in
/-- A release keeps the locks exclusive. -/
theorem Released.locks {u : State A S R} {session : S} (hr : Released s u session)
    (hl : Locks s) : Locks u := by
  have husedS : ∀ b, u.used b = true → s.used b = true := fun b hb => ((hr.used b).mp hb).1
  refine ⟨?_, ?_, ?_⟩
  · intro a b ha hb hses hres
    rw [(hr.keys a ha).1, (hr.keys b hb).1] at hses
    rw [(hr.keys a ha).2, (hr.keys b hb).2] at hres
    exact hl.pair a b (husedS a ha) (husedS b hb) hses hres
  · intro a b ha hb hoa hob hres
    rw [(hr.keys a ha).2, (hr.keys b hb).2] at hres
    -- a row that stayed an owner cannot meet one that was promoted
    have hclash : ∀ x y, u.used x = true → (s.record x).lockType = .own →
        (∃ c, s.used c = true ∧ (s.record c).lockType = .own ∧ s.sesKey c = session ∧
          s.resKey c = s.resKey y) → s.resKey x = s.resKey y → False := by
      rintro x y hx hox ⟨c, hcu, hco, hcs, hcy⟩ hxy
      obtain ⟨hxu, hxs⟩ := (hr.used x).mp hx
      obtain rfl := hl.one_owner x c hxu hcu hox hco (hxy.trans hcy.symm)
      exact hxs hcs
    rcases hr.change a ha with hsa | ⟨hwa, -, hca⟩
    · rw [hsa] at hoa
      rcases hr.change b hb with hsb | ⟨-, -, hcb⟩
      · rw [hsb] at hob
        exact hl.one_owner a b (husedS a ha) (husedS b hb) hoa hob hres
      · exact (hclash a b ha hoa hcb hres).elim
    · rcases hr.change b hb with hsb | ⟨hwb, -, -⟩
      · rw [hsb] at hob
        exact (hclash b a hb hob hca hres.symm).elim
      · exact hr.one a b ha hb hwa hoa hwb hob hres
  · intro a ha
    obtain ⟨b, hbu, hbo, hba⟩ := hl.owned a (husedS a ha)
    by_cases hbs : s.sesKey b = session
    · obtain ⟨c, hc, hcb, hco⟩ := hr.handed b hbu hbo hbs ⟨a, ha, hba.symm⟩
      exact ⟨c, hc, hco, by rw [(hr.keys c hc).2, (hr.keys a ha).2, hcb, hba]⟩
    · have hb := (hr.used b).mpr ⟨hbu, hbs⟩
      refine ⟨b, hb, ?_, by rw [(hr.keys b hb).2, (hr.keys a ha).2, hba]⟩
      rcases hr.change b hb with hsame | ⟨-, ho, -⟩
      · rw [hsame]; exact hbo
      · exact ho

/-! ## Requests -/

/-- The records in use are what they were. -/
def Kept (s s' : State A S R) : Prop :=
  s'.used = s.used ∧ ∀ a, s.used a = true → s'.record a = s.record a

/-- One record has come in. -/
def Inserted (s s' : State A S R) (row : LockRow S R) : Prop :=
  ∃ a, s.used a = false ∧ s'.record = Function.update s.record a row ∧
    s'.used = Function.update s.used a true

/-- What one call can do to the records.  A row comes in only for a resource on
which the session has none: as owner of a resource without rows, or as waiter
when the walk has found no deadlock. -/
inductive Effect (sesSlot : S → Nat) (resSlot : R → Nat) (s s' : State A S R) (session : S) :
    Option R → Prop
  | kept {resource : Option R} (h : Kept s s') : Effect sesSlot resSlot s s' session resource
  | granted {r : R} (h : Inserted s s' ⟨session, .own, r⟩)
      (hfree : ∀ a, s.used a = true → s.resKey a ≠ r) :
      Effect sesSlot resSlot s s' session (some r)
  | queued {r : R} {n : Nat} (h : Inserted s s' ⟨session, .wait, r⟩)
      (hlocked : ∃ a, s.used a = true ∧ s.resKey a = r)
      (hnew : ∀ a, s.used a = true → s.resKey a = r → s.sesKey a ≠ session)
      (hsafe : detectDeadLock sesSlot resSlot s session n r = some false) :
      Effect sesSlot resSlot s s' session (some r)
  | released {resource : Option R} (h : Released s s' session) :
      Effect sesSlot resSlot s s' session resource

/-- **What a request can do.** -/
theorem judgeAndAddLock_spec (h : Table sesSlot resSlot s) (hl : Locks s) {env : Env A S R}
    (hslot : ∀ a ∈ env.slot, s.used a = false) {n : Nat} {resource : Option R} {session : S}
    {answer : Answer}
    (hj : judgeAndAddLock sesSlot resSlot s env n resource session = some (s', answer)) :
    Table sesSlot resSlot s' ∧ Effect sesSlot resSlot s s' session resource := by
  have hsame : Kept s s := ⟨rfl, fun _ _ => rfl⟩
  unfold judgeAndAddLock at hj
  cases resource with
  | none =>
      obtain ⟨rfl, -⟩ := Prod.mk.inj (Option.some.inj hj)
      exact ⟨h, .kept hsame⟩
  | some r =>
      dsimp only at hj
      split at hj
      · rename_i hnone
        have hfree : ∀ a, s.used a = true → s.resKey a ≠ r := by
          intro a ha hkey
          have hmem : (a, s.record a) ∈ selectRes resSlot s r :=
            (mem_selectRes h).mpr ⟨ha, rfl, hkey⟩
          rw [hnone] at hmem
          cases hmem
        split at hj
        · rename_i t hins
          obtain ⟨rfl, -⟩ := Prod.mk.inj (Option.some.inj hj)
          obtain ⟨htable, ⟨-, hin⟩ | ⟨hno, -⟩⟩ := insertRec_spec h hslot hins
          · exact ⟨htable, .granted hin hfree⟩
          · cases hno
        · rename_i t hins
          obtain ⟨rfl, -⟩ := Prod.mk.inj (Option.some.inj hj)
          obtain ⟨htable, ⟨hno, -⟩ | ⟨-, hkept⟩⟩ := insertRec_spec h hslot hins
          · cases hno
          · exact ⟨htable, .kept hkept⟩
      · rename_i hsome
        split at hj
        · obtain ⟨rfl, -⟩ := Prod.mk.inj (Option.some.inj hj)
          exact ⟨h, .kept hsame⟩
        · rename_i hfind
          obtain ⟨dead, hdead, hres⟩ := Option.map_eq_some_iff.mp hj
          cases dead with
          | true =>
              obtain ⟨rfl, -⟩ := Prod.mk.inj hres
              obtain ⟨htable, hrel⟩ := releaseLock_spec h hl env session
              exact ⟨htable, .released hrel⟩
          | false =>
              have hlocked : ∃ a, s.used a = true ∧ s.resKey a = r := by
                obtain ⟨p, hp⟩ := List.exists_mem_of_ne_nil _ hsome
                obtain ⟨hpu, hpr, hpk⟩ := (mem_selectRes h).mp hp
                exact ⟨p.1, hpu, by rw [State.resKey, ← hpr, hpk]⟩
              have hnew : ∀ a, s.used a = true → s.resKey a = r → s.sesKey a ≠ session := by
                intro a ha hkey hses
                have hmem : (a, s.record a) ∈ selectRes resSlot s r :=
                  (mem_selectRes h).mpr ⟨ha, rfl, hkey⟩
                have hmiss := List.find?_eq_none.mp hfind _ hmem
                exact hmiss (decide_eq_true hses)
              rcases hins : insertRec sesSlot resSlot s env ⟨session, .wait, r⟩ with ⟨t, ok⟩
              simp only [hins] at hres
              cases ok with
              | true =>
                  obtain ⟨rfl, -⟩ := Prod.mk.inj hres
                  obtain ⟨htable, ⟨-, hin⟩ | ⟨hno, -⟩⟩ := insertRec_spec h hslot hins
                  · exact ⟨htable, .queued hin hlocked hnew hdead⟩
                  · cases hno
              | false =>
                  obtain ⟨rfl, -⟩ := Prod.mk.inj hres
                  obtain ⟨htable, ⟨hno, -⟩ | ⟨-, hkept⟩⟩ := insertRec_spec h hslot hins
                  · cases hno
                  · exact ⟨htable, .kept hkept⟩

omit [DecidableEq A] [DecidableEq S] [DecidableEq R] in
/-- What keeps all rows keeps the locks exclusive. -/
theorem Kept.locks (h : Kept s s') (hl : Locks s) : Locks s' := by
  obtain ⟨hused, hrec⟩ := h
  have hkeys : ∀ a, s.used a = true → s'.sesKey a = s.sesKey a ∧ s'.resKey a = s.resKey a := by
    intro a ha
    simp only [State.sesKey, State.resKey, hrec a ha, and_self]
  refine ⟨?_, ?_, ?_⟩ <;> rw [hused]
  · intro a b ha hb hses hres
    rw [(hkeys a ha).1, (hkeys b hb).1] at hses
    rw [(hkeys a ha).2, (hkeys b hb).2] at hres
    exact hl.pair a b ha hb hses hres
  · intro a b ha hb hoa hob hres
    rw [hrec a ha] at hoa
    rw [hrec b hb] at hob
    rw [(hkeys a ha).2, (hkeys b hb).2] at hres
    exact hl.one_owner a b ha hb hoa hob hres
  · intro a ha
    obtain ⟨b, hb, hbo, hba⟩ := hl.owned a ha
    exact ⟨b, hb, by rw [hrec b hb]; exact hbo, by rw [(hkeys b hb).2, (hkeys a ha).2, hba]⟩

omit [DecidableEq S] [DecidableEq R] in
/-- The rows after an insertion: the new one, and the old ones unchanged. -/
theorem Inserted.rows {row : LockRow S R} (h : Inserted s s' row) :
    ∃ a, s'.used a = true ∧ s'.record a = row ∧
      (∀ b, s.used b = true → s'.used b = true ∧ s'.record b = s.record b) ∧
      ∀ b, s'.used b = true → b = a ∨ s.used b = true := by
  obtain ⟨a, hfree, hrec, hused⟩ := h
  refine ⟨a, by rw [hused, Function.update_self], by rw [hrec, Function.update_self], ?_, ?_⟩
  · intro b hb
    have hne : b ≠ a := by
      rintro rfl
      rw [hfree] at hb
      cases hb
    rw [hused, hrec, Function.update_of_ne hne, Function.update_of_ne hne]
    exact ⟨hb, rfl⟩
  · intro b hb
    by_cases hba : b = a
    · exact .inl hba
    · rw [hused, Function.update_of_ne hba] at hb
      exact .inr hb

omit [DecidableEq S] [DecidableEq R] in
/-- A new row keeps the meaning of the table when its session has no row on the
resource, and when it is an owner exactly if the resource has no rows. -/
theorem Inserted.locks {row : LockRow S R} (h : Inserted s s' row) (hl : Locks s)
    (hnew : ∀ a, s.used a = true → s.resKey a = row.resource → s.sesKey a ≠ row.sessionId)
    (hown : row.lockType = .own → ∀ a, s.used a = true → s.resKey a ≠ row.resource)
    (hwait : row.lockType = .wait → ∃ a, s.used a = true ∧ s.resKey a = row.resource) :
    Locks s' := by
  obtain ⟨a₀, hu₀, hrec₀, hold, hcases⟩ := h.rows
  have hkeys : ∀ a, s.used a = true → s'.sesKey a = s.sesKey a ∧ s'.resKey a = s.resKey a := by
    intro a ha
    simp only [State.sesKey, State.resKey, (hold a ha).2, and_self]
  have hses₀ : s'.sesKey a₀ = row.sessionId := by rw [State.sesKey, hrec₀]
  have hres₀ : s'.resKey a₀ = row.resource := by rw [State.resKey, hrec₀]
  refine ⟨?_, ?_, ?_⟩
  · intro a b ha hb hses hres
    rcases hcases a ha with rfl | ha' <;> rcases hcases b hb with rfl | hb'
    · rfl
    · rw [hses₀, (hkeys b hb').1] at hses
      rw [hres₀, (hkeys b hb').2] at hres
      exact absurd hses.symm (hnew b hb' hres.symm)
    · rw [hses₀, (hkeys a ha').1] at hses
      rw [hres₀, (hkeys a ha').2] at hres
      exact absurd hses (hnew a ha' hres)
    · rw [(hkeys a ha').1, (hkeys b hb').1] at hses
      rw [(hkeys a ha').2, (hkeys b hb').2] at hres
      exact hl.pair a b ha' hb' hses hres
  · intro a b ha hb hoa hob hres
    rcases hcases a ha with rfl | ha' <;> rcases hcases b hb with rfl | hb'
    · rfl
    · rw [hrec₀] at hoa
      rw [hres₀, (hkeys b hb').2] at hres
      exact absurd hres.symm (hown hoa b hb')
    · rw [hrec₀] at hob
      rw [hres₀, (hkeys a ha').2] at hres
      exact absurd hres (hown hob a ha')
    · rw [(hold a ha').2] at hoa
      rw [(hold b hb').2] at hob
      rw [(hkeys a ha').2, (hkeys b hb').2] at hres
      exact hl.one_owner a b ha' hb' hoa hob hres
  · -- the owner of a locked resource is still there
    have hstill : ∀ a, s.used a = true → ∃ b, s'.used b = true ∧
        (s'.record b).lockType = .own ∧ s'.resKey b = s.resKey a := by
      intro a ha
      obtain ⟨b, hb, hbo, hba⟩ := hl.owned a ha
      exact ⟨b, (hold b hb).1, by rw [(hold b hb).2]; exact hbo, by rw [(hkeys b hb).2, hba]⟩
    intro a ha
    rcases hcases a ha with rfl | ha'
    · cases htype : row.lockType with
      | own => exact ⟨a, ha, by rw [hrec₀, htype], rfl⟩
      | wait =>
          obtain ⟨b, hb, hbr⟩ := hwait htype
          obtain ⟨c, hc, hco, hcb⟩ := hstill b hb
          exact ⟨c, hc, hco, by rw [hcb, hbr, hres₀]⟩
    · rw [(hkeys a ha').2]
      exact hstill a ha'

/-- Every call keeps the locks exclusive. -/
theorem Effect.locks {session : S} {resource : Option R}
    (h : Effect sesSlot resSlot s s' session resource) (hl : Locks s) : Locks s' := by
  cases h with
  | kept h => exact h.locks hl
  | granted h hfree =>
      exact h.locks hl (fun a ha hr => absurd hr (hfree a ha)) (fun _ => hfree) (fun hc => by cases hc)
  | queued h hlocked hnew _ => exact h.locks hl hnew (fun hc => by cases hc) fun _ => hlocked
  | released h => exact h.locks hl

/-- The session that calls and the resource it asks for. -/
def Call.session : Call A S R → S
  | .judgeAndAddLock _ _ _ session => session
  | .releaseLock _ session => session

def Call.resource : Call A S R → Option R
  | .judgeAndAddLock _ _ resource _ => resource
  | .releaseLock _ _ => none

/-- **What one step can do.** -/
theorem step_effect (h : Table sesSlot resSlot s) (hl : Locks s) {c : Call A S R}
    (hstep : step sesSlot resSlot s c = some s') :
    Table sesSlot resSlot s' ∧ Effect sesSlot resSlot s s' c.session c.resource := by
  cases c with
  | judgeAndAddLock env n resource session =>
      simp only [step] at hstep
      split at hstep
      · rename_i hslot
        obtain ⟨⟨t, answer⟩, hj, rfl⟩ := Option.map_eq_some_iff.mp hstep
        exact judgeAndAddLock_spec h hl hslot hj
      · cases hstep
  | releaseLock env session =>
      obtain rfl := Option.some.inj hstep
      obtain ⟨htable, hrel⟩ := releaseLock_spec h hl env session
      exact ⟨htable, .released hrel⟩

omit [DecidableEq A] [DecidableEq S] [DecidableEq R] in
/-- An empty table is in order and has no locks. -/
theorem table_create (sesSlot : S → Nat) (resSlot : R → Nat) (record : A → LockRow S R) :
    Table sesSlot resSlot (create record) ∧ Locks (create record) := by
  refine ⟨⟨⟨⟨fun _ => ⟨?_, ?_, ?_, ?_⟩, ?_⟩, ⟨fun _ => ⟨?_, ?_, ?_, ?_⟩, ?_⟩⟩, [], ?_⟩, ?_, ?_, ?_⟩
  all_goals simp [create]

/-- In every run the table stays in order and its locks exclusive. -/
theorem locks_of_run {record : A → LockRow S R} {calls : List (Call A S R)}
    (hrun : Runs.run (step sesSlot resSlot) (create record) calls = some s) :
    Table sesSlot resSlot s ∧ Locks s := by
  refine Runs.run_invariant (I := fun s => Table sesSlot resSlot s ∧ Locks s) ?_
    (table_create sesSlot resSlot record) hrun
  intro s c t hinv hstep
  obtain ⟨htable, heffect⟩ := step_effect hinv.1 hinv.2 hstep
  exact ⟨htable, heffect.locks hinv.2⟩

/-- After any interleaving of requests and releases of any sessions, every resource that has a row
has exactly one owner row. -/
theorem one_owner_of_run {record : A → LockRow S R} {calls : List (Call A S R)}
    (hrun : Runs.run (step sesSlot resSlot) (create record) calls = some s) {a : A}
    (ha : s.used a = true) :
    ∃! b, (s.used b = true ∧ (s.record b).lockType = .own) ∧
      (s.record b).resource = (s.record a).resource := by
  obtain ⟨-, hl⟩ := locks_of_run hrun
  obtain ⟨b, hb, hbo, hba⟩ := hl.owned a ha
  refine ⟨b, ⟨⟨hb, hbo⟩, hba⟩, ?_⟩
  rintro c ⟨⟨hc, hco⟩, hca⟩
  exact hl.one_owner c b hc hb hco hbo (hca.trans hba.symm)

/-- A release leaves no row of the session. -/
theorem releaseLock_other_of_run {record : A → LockRow S R} {calls : List (Call A S R)}
    (hrun : Runs.run (step sesSlot resSlot) (create record) calls = some s) {env : Env A S R}
    {session : S} {a : A} (ha : (releaseLock sesSlot resSlot s env session).used a = true) :
    ((releaseLock sesSlot resSlot s env session).record a).sessionId ≠ session := by
  obtain ⟨htable, hl⟩ := locks_of_run hrun
  obtain ⟨-, hrel⟩ := releaseLock_spec htable hl env session
  intro hses
  exact ((hrel.used a).mp ha).2 ((hrel.keys a ha).1.symm.trans hses)

end LockManager
