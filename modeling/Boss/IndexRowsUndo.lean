import Boss.IndexRowsChange

/-!
# Taking back a changed key while the record still has the old one

An address is moved from the row of its key to the row of another key, and back again, while its
record reads as the old key throughout.  If some record has the other key, the address stands
behind the head of a row and is found there again.  If none has, it heads a row of its own that
reads as the old key: the deletion does not find it, and the insertion that follows may find it
in place of the row of the old key.

`mem_select_moved` and `mem_select_back` say what the index answers then, before the old key is
inserted again and after it.

Main results: `insert_deleted` and `insert_moved_free`.
-/

namespace IndexRows

variable {A K : Type*} [DecidableEq A] [DecidableEq K] {keyOf : A → K} {slotOf : K → Nat}
  {live : A → Prop} {rows rows' : Rows A} {k k' : K} {a x : A} {isUnique space : Bool}

section

omit [DecidableEq A]

/-- An insertion is refused for the key or for the space, in this order. -/
theorem insert_eq : insert keyOf slotOf isUnique space rows k a =
    if isUnique = true ∧ addToRow keyOf k a (rows (slotOf k)) ≠ none then .error .uniqueConflict
    else if space = true then .ok (put keyOf slotOf rows k a) else .error .noSpace := by
  unfold insert put
  cases addToRow keyOf k a (rows (slotOf k)) with
  | none => simp
  | some l => cases isUnique <;> simp

theorem mem_second {l : List A} : x ∈ second a l ↔ x = a ∨ x ∈ l := by
  cases l with
  | nil => simp [second]
  | cons b rest =>
      simp only [second, List.mem_cons]
      tauto

/-- An address that is put under its key is found there, and the others are as before. -/
theorem mem_select_put : x ∈ select keyOf slotOf (put keyOf slotOf rows (keyOf a) a) k ↔
    (k = keyOf a ∧ x = a) ∨ x ∈ select keyOf slotOf rows k := by
  have hins : insert keyOf slotOf false true rows (keyOf a) a =
      .ok (put keyOf slotOf rows (keyOf a) a) := by
    rw [insert_eq, if_neg (by simp), if_pos rfl]
  rw [select_insert hins]
  by_cases hk : k = keyOf a
  · rw [if_pos hk, mem_second]
    simp [hk]
  · simp [hk]

/-- An address that is added to a row is found there, whatever its record reads as. -/
theorem mem_select_put_row (hrow : addToRow keyOf k a (rows (slotOf k)) ≠ none) :
    a ∈ select keyOf slotOf (put keyOf slotOf rows k a) k := by
  obtain ⟨l, hadd⟩ := Option.ne_none_iff_exists'.mp hrow
  obtain ⟨pre, r, post, -, hkey, hl, hfirst⟩ := addToRow_some hadd
  have hfind : findRow keyOf k l = some (r.insertSecond a) := by
    have hpre : pre.find? (fun r => decide (keyOf r.head = k)) = none := by simpa using hfirst
    rw [hl, findRow, List.find?_append, hpre, List.find?_cons]
    simp [hkey]
  rw [select, put, Function.update_self, hadd, Option.getD_some, hfind]
  exact Row.mem_insertSecond.mpr (.inl rfl)

end

/-- What has been added to a row is taken out of it. -/
theorem removeFrom_addToRow {l l' : List (Row A)} (hadd : addToRow keyOf k a l = some l')
    (hfresh : a ∉ flat l) : removeFrom keyOf k a l' = some l := by
  induction l generalizing l' with
  | nil => cases hadd
  | cons r rest ih =>
      rw [flat_cons, List.mem_append, not_or] at hfresh
      rw [addToRow] at hadd
      by_cases hkey : keyOf r.head = k
      · rw [if_pos hkey, Option.some.injEq] at hadd
        subst hadd
        have hne : r.head ≠ a := fun heq => hfresh.1 (heq ▸ r.head_mem_all)
        have hback : Row.ofList ((r.insertSecond a).all.erase a) = some r := by
          rw [Row.insertSecond, Row.all, List.erase_cons_tail (by simpa using hne),
            List.erase_cons_head]
          rfl
        rw [removeFrom, if_pos ⟨hkey, Row.mem_insertSecond.mpr (.inl rfl)⟩, hback]
        rfl
      · rw [if_neg hkey] at hadd
        obtain ⟨l, hl, rfl⟩ := Option.map_eq_some_iff.mp hadd
        rw [removeFrom, if_neg (fun hc => hkey hc.1), ih hl hfresh.2]
        rfl

/-- The index answers what the live addresses and their keys are. -/
def Answers (keyOf : A → K) (slotOf : K → Nat) (live : A → Prop) (rows : Rows A) : Prop :=
  ∀ k x, x ∈ select keyOf slotOf rows k ↔ live x ∧ keyOf x = k

/-- The rows with the address moved to another key. -/
def moved (keyOf : A → K) (slotOf : K → Nat) (rows : Rows A) (k' : K) (a : A) : Rows A :=
  put keyOf slotOf (deleteIdx keyOf slotOf rows (keyOf a) a).2 k' a

namespace WellIndexed

variable (h : WellIndexed keyOf slotOf live rows)

include h

theorem mem_select_deleted : x ∈ select keyOf slotOf (deleteIdx keyOf slotOf rows (keyOf a) a).2 k ↔
    (live x ∧ x ≠ a) ∧ keyOf x = k :=
  ((h.delete fun _ => rfl).select_spec k).2 x

/-- The address is in no row once it is deleted. -/
theorem deleted_fresh (i : Nat) : a ∉ flat ((deleteIdx keyOf slotOf rows (keyOf a) a).2 i) :=
  fun hmem => (((h.delete fun _ => rfl).indexed a).mpr ⟨i, hmem⟩).2 rfl

/-- The first step back: with the other key in the index, the address is found there again. -/
theorem deleteIdx_moved (hkey : keyOf a ≠ k') (hused : ∃ b, live b ∧ keyOf b = k') :
    deleteIdx keyOf slotOf (moved keyOf slotOf rows k' a) k' a =
      (true, (deleteIdx keyOf slotOf rows (keyOf a) a).2) := by
  have hfresh := h.deleted_fresh (a := a) (slotOf k')
  have hout := h.delete (k := keyOf a) (a := a) fun _ => rfl
  generalize hrows : (deleteIdx keyOf slotOf rows (keyOf a) a).2 = out at hfresh hout
  obtain ⟨b, hb, rfl⟩ := hused
  obtain ⟨r, hr, hrkey, -⟩ := hout.live_iff.mp ⟨hb, fun heq => hkey (by rw [heq])⟩
  cases hadd : addToRow keyOf (keyOf b) a (out (slotOf (keyOf b))) with
  | none => exact absurd hrkey (addToRow_none.mp hadd r hr)
  | some l =>
      have hback := removeFrom_addToRow hadd hfresh
      rw [moved, put, hrows, hadd, Option.getD_some, deleteIdx, Function.update_self, hback]
      simp

/-- With no record of the other key, the address heads a row of its own. -/
theorem moved_free (hfree : ∀ b, live b → keyOf b ≠ k') :
    moved keyOf slotOf rows k' a = Function.update (deleteIdx keyOf slotOf rows (keyOf a) a).2
      (slotOf k') (⟨a, []⟩ :: (deleteIdx keyOf slotOf rows (keyOf a) a).2 (slotOf k')) := by
  have hout := h.delete (k := keyOf a) (a := a) fun _ => rfl
  have hnone : addToRow keyOf k' a ((deleteIdx keyOf slotOf rows (keyOf a) a).2 (slotOf k')) =
      none := by
    refine addToRow_none.mpr fun r hr hrkey => ?_
    have hlive := (hout.indexed r.head).mpr ⟨_, mem_flat.mpr ⟨r, hr, r.head_mem_all⟩⟩
    exact hfree r.head hlive.1 hrkey
  rw [moved, put, hnone, Option.getD_none]

/-- That row reads as the old key, so the first step back does not find the address. -/
theorem deleteIdx_moved_free (hkey : keyOf a ≠ k') (hfree : ∀ b, live b → keyOf b ≠ k') :
    deleteIdx keyOf slotOf (moved keyOf slotOf rows k' a) k' a =
      (false, moved keyOf slotOf rows k' a) := by
  have hnone : removeFrom keyOf k' a (moved keyOf slotOf rows k' a (slotOf k')) = none := by
    rw [h.moved_free hfree, Function.update_self]
    refine removeFrom_none.mpr fun r hr hrkey hmem => ?_
    rcases List.mem_cons.mp hr with rfl | hr
    · exact hkey hrkey
    · exact h.deleted_fresh _ (mem_flat.mpr ⟨r, hr, hmem⟩)
  rw [deleteIdx, hnone]

/-- The row is found in place of the one of the old key when both keys share a slot. -/
theorem select_moved_free (hfree : ∀ b, live b → keyOf b ≠ k') (k : K) :
    select keyOf slotOf (moved keyOf slotOf rows k' a) k =
      if slotOf k = slotOf k' ∧ k = keyOf a then [a]
      else select keyOf slotOf (deleteIdx keyOf slotOf rows (keyOf a) a).2 k := by
  rw [h.moved_free hfree, select]
  by_cases hslot : slotOf k = slotOf k'
  · rw [hslot, Function.update_self, findRow, List.find?_cons]
    by_cases hk : keyOf a = k
    · simp [hk, Row.all]
    · simp only [hk, decide_false, Ne.symm hk, and_false, if_false]
      rw [select, hslot, findRow]
  · rw [Function.update_of_ne hslot, if_neg fun hc => hslot hc.1, select]

/-- The second step back, when the first one has found the address. -/
theorem answers_put_deleted (ha : live a) : Answers keyOf slotOf live
    (put keyOf slotOf (deleteIdx keyOf slotOf rows (keyOf a) a).2 (keyOf a) a) := by
  intro k x
  rw [mem_select_put, h.mem_select_deleted]
  by_cases hx : x = a
  · subst hx
    simp only [ha, true_and, and_true, ne_eq, not_true, false_and, or_false]
    exact eq_comm
  · simp [hx]

/-- Without the steps back, the answers are the same when the address is the only one of its key
and stands at the head of a row in its old slot. -/
theorem answers_moved_iff (ha : live a) (hkey : keyOf a ≠ k') :
    Answers keyOf slotOf live (moved keyOf slotOf rows k' a) ↔
      (∀ b, live b → keyOf b ≠ k') ∧ slotOf (keyOf a) = slotOf k' ∧
        ∀ b, live b → keyOf b = keyOf a → b = a := by
  constructor
  · intro hsame
    have hfree : ∀ b, live b → keyOf b ≠ k' := by
      intro b hb hbkey
      -- otherwise the address stands in the row of the other key
      obtain ⟨r, hr, hrkey, -⟩ := (h.delete (k := keyOf a) (a := a) fun _ => rfl).live_iff.mp
        ⟨hb, fun heq => hkey (by rw [← heq, hbkey])⟩
      rw [hbkey] at hr hrkey
      have hfound := mem_select_put_row (a := a) fun hnone => addToRow_none.mp hnone r hr hrkey
      exact hkey ((hsame k' a).mp hfound).2
    have hslot : slotOf (keyOf a) = slotOf k' := by
      by_contra hne
      have hfound := (hsame (keyOf a) a).mpr ⟨ha, rfl⟩
      rw [h.select_moved_free hfree, if_neg fun hc => hne hc.1, h.mem_select_deleted] at hfound
      exact hfound.1.2 rfl
    refine ⟨hfree, hslot, fun b hb hbkey => ?_⟩
    have hfound := (hsame (keyOf a) b).mpr ⟨hb, hbkey⟩
    rw [h.select_moved_free hfree, if_pos ⟨hslot, rfl⟩] at hfound
    exact List.mem_singleton.mp hfound
  · intro hstill k x
    obtain ⟨hfree, hslot, halone⟩ := hstill
    rw [h.select_moved_free hfree]
    by_cases hk : slotOf k = slotOf k' ∧ k = keyOf a
    · rw [if_pos hk, List.mem_singleton, hk.2]
      refine ⟨fun hx => ?_, fun hx => halone x hx.1 hx.2⟩
      rw [hx]
      exact ⟨ha, rfl⟩
    · have hne : x = a → keyOf x ≠ k := by
        intro hx hxk
        rw [hx] at hxk
        exact hk ⟨hxk ▸ hslot, hxk.symm⟩
      rw [if_neg hk, h.mem_select_deleted]
      tauto

/-- The second step back, when the first one has not found the address. -/
theorem answers_put_moved_iff (ha : live a) (hfree : ∀ b, live b → keyOf b ≠ k') :
    Answers keyOf slotOf live
        (put keyOf slotOf (moved keyOf slotOf rows k' a) (keyOf a) a) ↔
      (slotOf (keyOf a) = slotOf k' → ∀ b, live b → keyOf b = keyOf a → b = a) := by
  constructor
  · intro hsame hslot b hb hbkey
    have hfound := (hsame (keyOf a) b).mpr ⟨hb, hbkey⟩
    rw [mem_select_put, h.select_moved_free hfree, if_pos ⟨hslot, rfl⟩, List.mem_singleton] at hfound
    exact hfound.elim And.right id
  · intro halone k x
    rw [mem_select_put, h.select_moved_free hfree]
    by_cases hk : slotOf k = slotOf k' ∧ k = keyOf a
    · obtain ⟨hslot, rfl⟩ := hk
      rw [if_pos ⟨hslot, rfl⟩, List.mem_singleton]
      refine ⟨fun hx => ?_, fun hx => .inr (halone hslot x hx.1 hx.2)⟩
      have hxa := hx.elim And.right id
      rw [hxa]
      exact ⟨ha, rfl⟩
    · rw [if_neg hk, h.mem_select_deleted]
      by_cases hx : x = a
      · subst hx
        simp only [ha, true_and, and_true, ne_eq, not_true, false_and, or_false]
        exact eq_comm
      · simp [hx]

/-! ### Which of these insertions are refused -/

omit [DecidableEq A] in
/-- An insertion finds a row when a record has the key. -/
theorem addToRow_ne_none : addToRow keyOf k a (rows (slotOf k)) ≠ none ↔
    ∃ b, live b ∧ keyOf b = k := by
  rw [Ne, addToRow_none]
  push Not
  constructor
  · intro hrow
    obtain ⟨r, hr, hkey⟩ := hrow
    exact ⟨r.head, (h.indexed _).mpr ⟨_, mem_flat.mpr ⟨r, hr, r.head_mem_all⟩⟩, hkey⟩
  · intro hlive
    obtain ⟨b, hb, rfl⟩ := hlive
    obtain ⟨r, hr, hkey, -⟩ := h.live_iff.mp hb
    exact ⟨r, hr, hkey⟩

theorem addToRow_deleted (hkey : keyOf a ≠ k') :
    addToRow keyOf k' a ((deleteIdx keyOf slotOf rows (keyOf a) a).2 (slotOf k')) ≠ none ↔
      ∃ b, live b ∧ keyOf b = k' := by
  have hout := h.delete (k := keyOf a) (a := a) fun _ => rfl
  rw [hout.addToRow_ne_none]
  refine exists_congr fun b => and_congr_left fun hb => and_iff_left ?_
  exact fun heq => hkey (heq ▸ hb)

/-- The address is refused when the index is unique and has the other key. -/
theorem insert_deleted_conflict (space : Bool) (hkey : keyOf a ≠ k') (hu : isUnique = true)
    (hused : ∃ b, live b ∧ keyOf b = k') :
    insert keyOf slotOf isUnique space (deleteIdx keyOf slotOf rows (keyOf a) a).2 k' a =
      .error .uniqueConflict := by
  rw [insert_eq, if_pos ⟨hu, (h.addToRow_deleted hkey).mpr hused⟩]

/-- Otherwise it is moved. -/
theorem insert_deleted_moved (isUnique : Bool) (hkey : keyOf a ≠ k')
    (hno : ¬ (isUnique = true ∧ ∃ b, live b ∧ keyOf b = k')) :
    insert keyOf slotOf isUnique true (deleteIdx keyOf slotOf rows (keyOf a) a).2 k' a =
      .ok (moved keyOf slotOf rows k' a) := by
  rw [insert_eq, if_neg (fun hc => hno ⟨hc.1, (h.addToRow_deleted hkey).mp hc.2⟩), if_pos rfl,
    moved]

/-- It is always taken back when the first step has found it. -/
theorem insert_deleted (isUnique : Bool)
    (hunique : isUnique = true → ∀ b, live b → keyOf b = keyOf a → b = a) :
    insert keyOf slotOf isUnique true (deleteIdx keyOf slotOf rows (keyOf a) a).2 (keyOf a) a =
      .ok (put keyOf slotOf (deleteIdx keyOf slotOf rows (keyOf a) a).2 (keyOf a) a) := by
  have hout := h.delete (k := keyOf a) (a := a) fun _ => rfl
  rw [insert_eq, if_neg, if_pos rfl]
  intro hconflict
  obtain ⟨b, ⟨hb, hne⟩, hbkey⟩ := hout.addToRow_ne_none.mp hconflict.2
  exact hne (hunique hconflict.1 b hb hbkey)

/-- When it has not, the row that reads as the old key is in the way of a unique index. -/
theorem insert_moved_free (isUnique space : Bool)
    (hunique : isUnique = true → ∀ b, live b → keyOf b = keyOf a → b = a)
    (hfree : ∀ b, live b → keyOf b ≠ k') :
    insert keyOf slotOf isUnique space (moved keyOf slotOf rows k' a) (keyOf a) a =
      if isUnique = true ∧ slotOf (keyOf a) = slotOf k' then .error .uniqueConflict
      else if space = true then .ok (put keyOf slotOf (moved keyOf slotOf rows k' a) (keyOf a) a)
      else .error .noSpace := by
  have hout := h.delete (k := keyOf a) (a := a) fun _ => rfl
  have hrow : (isUnique = true ∧
      addToRow keyOf (keyOf a) a (moved keyOf slotOf rows k' a (slotOf (keyOf a))) ≠ none) ↔
      isUnique = true ∧ slotOf (keyOf a) = slotOf k' := by
    refine and_congr_right fun hu => ?_
    rw [h.moved_free hfree]
    by_cases hslot : slotOf (keyOf a) = slotOf k'
    · rw [hslot, Function.update_self, addToRow, if_pos rfl]
      simp
    · rw [Function.update_of_ne hslot, hout.addToRow_ne_none]
      refine iff_of_false (fun hused => ?_) hslot
      obtain ⟨b, ⟨hb, hne⟩, hbkey⟩ := hused
      exact hne (hunique hu b hb hbkey)
  rw [insert_eq]
  simp only [hrow]

end WellIndexed

end IndexRows
