import Boss.IndexRows

/-!
# Changing keys before the records are rewritten

The entries of a batch of records go from their old keys to their new ones, one record
after the other, and only then are the records written.  Meanwhile the rows are found
through the old keys: a row whose head has been moved there reads as the head's old key.

`Finds` says of one change that the old keys still lead to the right rows.  If they do at
every change, the rows are in order for the new keys; a change at which they do not leaves
two addresses with different keys in one row, or two rows of one key, and no later change
repairs that.

Main results: `Finds.change` for one change, `changed_iff` for a batch.
-/

namespace IndexRows

variable {A K : Type*} [DecidableEq A] [DecidableEq K] {slotOf : K → Nat}
  {live : A → Prop} {rows rows' : Rows A} {k : K} {a b : A} {i j : Nat} {isUnique space : Bool}

/-! ## Searches that find the same row -/

section Search

variable {keyOf keyOf' : A → K} {l : List (Row A)}

/-- A removal depends on the keys of the rows that have the record. -/
theorem removeFrom_congr
    (hsame : ∀ r ∈ l, a ∈ r.all → (keyOf' r.head = k ↔ keyOf r.head = k)) :
    removeFrom keyOf' k a l = removeFrom keyOf k a l := by
  induction l with
  | nil => rfl
  | cons r rest ih =>
      have hrow : (keyOf' r.head = k ∧ a ∈ r.all) ↔ (keyOf r.head = k ∧ a ∈ r.all) :=
        and_congr_left fun ha => hsame r List.mem_cons_self ha
      rw [removeFrom, removeFrom, ih fun r' hr' => hsame r' (List.mem_cons_of_mem r hr')]
      simp only [hrow]

section

omit [DecidableEq A]

/-- An addition depends on which row is found for the key. -/
theorem addToRow_congr (hnodup : l.Nodup) (hsame : findRow keyOf' k l = findRow keyOf k l) :
    addToRow keyOf' k a l = addToRow keyOf k a l := by
  induction l with
  | nil => rfl
  | cons r rest ih =>
      obtain ⟨hr, hrest⟩ := List.nodup_cons.mp hnodup
      rw [findRow, findRow, List.find?_cons, List.find?_cons] at hsame
      rw [addToRow, addToRow]
      by_cases h' : keyOf' r.head = k
      · by_cases h : keyOf r.head = k
        · rw [if_pos h', if_pos h]
        · simp only [h', h, decide_true, decide_false] at hsame
          exact absurd (List.mem_of_find?_eq_some hsame.symm) hr
      · by_cases h : keyOf r.head = k
        · simp only [h', h, decide_true, decide_false] at hsame
          exact absurd (List.mem_of_find?_eq_some hsame) hr
        · simp only [h', h, decide_false] at hsame
          rw [if_neg h', if_neg h, ih hrest hsame]

theorem findRow_some {r : Row A} (h : findRow keyOf k l = some r) : r ∈ l ∧ keyOf r.head = k :=
  ⟨List.mem_of_find?_eq_some h, by simpa using List.find?_some h⟩

/-- The record is added to the row that is found. -/
theorem addToRow_of_findRow {r : Row A} (h : findRow keyOf k l = some r) :
    ∃ pre post, l = pre ++ r :: post ∧
      addToRow keyOf k a l = some (pre ++ r.insertSecond a :: post) := by
  induction l with
  | nil => cases h
  | cons r' rest ih =>
      rw [findRow, List.find?_cons] at h
      rw [addToRow]
      by_cases hkey : keyOf r'.head = k
      · simp only [hkey, decide_true, Option.some.injEq] at h
        subst h
        exact ⟨[], rest, rfl, by rw [if_pos hkey]; rfl⟩
      · simp only [hkey, decide_false] at h
        obtain ⟨pre, post, rfl, hadd⟩ := ih h
        exact ⟨r' :: pre, post, rfl, by rw [if_neg hkey, hadd]; rfl⟩

end

/-- In order, the row of a key is found. -/
theorem SlotOk.findRow (h : SlotOk keyOf slotOf i l) {r : Row A} (hr : r ∈ l)
    (hkey : keyOf r.head = k) : IndexRows.findRow keyOf k l = some r := by
  cases hfind : IndexRows.findRow keyOf k l with
  | none => exact absurd hkey (by simpa [IndexRows.findRow] using List.find?_eq_none.mp hfind r hr)
  | some r' =>
      obtain ⟨hr', hkey'⟩ := findRow_some hfind
      rw [h.row_unique hr' hr (hkey'.trans hkey.symm)]

omit [DecidableEq A] [DecidableEq K] in
/-- No row is in a slot twice. -/
theorem SlotOk.nodup (h : SlotOk keyOf slotOf i l) : l.Nodup := by
  refine h.one_row.imp fun hne heq => hne ?_
  rw [heq]

end Search

/-! ## One change -/

variable (old new : A → K)

/-- The key of an address once the addresses `moved` have their new keys. -/
def keyNow (moved : List A) (a : A) : K := if a ∈ moved then new a else old a

/-- An address under a key. -/
def put (keyOf : A → K) (slotOf : K → Nat) (rows : Rows A) (k : K) (a : A) : Rows A :=
  Function.update rows (slotOf k)
    ((addToRow keyOf k a (rows (slotOf k))).getD (⟨a, []⟩ :: rows (slotOf k)))

/-- The rows without an address, read by the keys of now. -/
def takenOut (slotOf : K → Nat) (moved : List A) (rows : Rows A) (a : A) : Rows A :=
  (deleteIdx (keyNow old new moved) slotOf rows (old a) a).2

/-- A changed key on rows that are read by the keys of now. -/
def exactChange (slotOf : K → Nat) (moved : List A) (rows : Rows A) (a : A) : Rows A :=
  put (keyNow old new (a :: moved)) slotOf (takenOut old new slotOf moved rows a) (new a) a

/-- The old keys lead to the right rows: the row of `a` is not headed by an address that
was moved, and the first row that reads as the new key of `a` is the row of that key. -/
structure Finds (slotOf : K → Nat) (moved : List A) (rows : Rows A) (a : A) : Prop where
  old_row : ∀ r ∈ rows (slotOf (old a)), a ∈ r.all → r.head ∉ moved
  new_row : findRow old (new a) (takenOut old new slotOf moved rows a (slotOf (new a))) =
    findRow (keyNow old new moved) (new a) (takenOut old new slotOf moved rows a (slotOf (new a)))

/-- At every change of the batch the old keys lead to the right rows.  The changes before
are made on rows that are read by the keys of now. -/
def AllFind (slotOf : K → Nat) : List A → Rows A → List A → Prop
  | _, _, [] => True
  | moved, rows, a :: rest =>
    Finds old new slotOf moved rows a ∧
      AllFind slotOf (a :: moved) (exactChange old new slotOf moved rows a) rest

/-- The changes as they are made: the rows are read by the old keys throughout. -/
inductive Changed (slotOf : K → Nat) (isUnique : Bool) : Rows A → List A → Rows A → Prop
  | nil {rows : Rows A} : Changed slotOf isUnique rows [] rows
  | cons {space : Bool} {rows rows₁ rows' : Rows A} {a : A} {rest : List A} :
      insert old slotOf isUnique space (deleteIdx old slotOf rows (old a) a).2 (new a) a =
        .ok rows₁ →
      Changed slotOf isUnique rows₁ rest rows' → Changed slotOf isUnique rows (a :: rest) rows'

variable {old new} {moved rest : List A}

section

omit [DecidableEq K]

theorem keyNow_of_mem (h : a ∈ moved) : keyNow old new moved a = new a := if_pos h

theorem keyNow_of_notMem (h : a ∉ moved) : keyNow old new moved a = old a := if_neg h

theorem keyNow_nil : keyNow old new [] = old := funext fun _ => keyNow_of_notMem List.not_mem_nil

end

/-- Once every address whose key changes is moved, the keys are the new ones. -/
theorem keyNow_all (h : ∀ a, old a ≠ new a → a ∈ moved) : keyNow old new moved = new := by
  funext a
  by_cases ha : a ∈ moved
  · exact keyNow_of_mem ha
  · rw [keyNow_of_notMem ha]
    by_contra hne
    exact ha (h a hne)

omit [DecidableEq K] in
/-- A move leaves the keys of the other records. -/
theorem keyNow_cons_of_ne (h : b ≠ a) : keyNow old new (a :: moved) b = keyNow old new moved b := by
  simp [keyNow, h]

omit [DecidableEq A] in
/-- An accepted insertion puts the address under its key. -/
theorem insert_eq_put {keyOf : A → K}
    (h : insert keyOf slotOf isUnique space rows k a = .ok rows') :
    rows' = put keyOf slotOf rows k a := by
  unfold insert at h
  unfold put
  split at h <;> rename_i hadd
  · rw [hadd]
    cases isUnique <;> cases space <;> cases h
    rfl
  · rw [hadd]
    cases space <;> cases h
    rfl

/-- Taking a record out, when its row is not headed by a moved record. -/
theorem deleteIdx_eq_takenOut
    (hrow : ∀ r ∈ rows (slotOf (old a)), a ∈ r.all → r.head ∉ moved) :
    (deleteIdx old slotOf rows (old a) a).2 = takenOut old new slotOf moved rows a := by
  have hsame : removeFrom old (old a) a (rows (slotOf (old a))) =
      removeFrom (keyNow old new moved) (old a) a (rows (slotOf (old a))) := by
    refine removeFrom_congr fun r hr har => ?_
    rw [keyNow_of_notMem (hrow r hr har)]
  rw [takenOut, deleteIdx, deleteIdx, hsame]

/-- The rows without the record, read by the keys of now or with its new key. -/
theorem WellIndexed.takenOut (h : WellIndexed (keyNow old new moved) slotOf live rows)
    (ha : a ∉ moved) :
    WellIndexed (keyNow old new (a :: moved)) slotOf (fun b => live b ∧ b ≠ a)
      (takenOut old new slotOf moved rows a) :=
  (h.delete fun _ => keyNow_of_notMem ha).congr fun _ hb => keyNow_cons_of_ne hb.2

/-- Once a record is taken out, its own key does not matter for finding a row. -/
theorem findRow_cons_moved (h : WellIndexed (keyNow old new moved) slotOf live rows)
    (ha : a ∉ moved) (k : K) :
    findRow (keyNow old new (a :: moved)) k (takenOut old new slotOf moved rows a i) =
      findRow (keyNow old new moved) k (takenOut old new slotOf moved rows a i) := by
  refine List.find?_congr fun r hr => ?_
  have hne := ((h.takenOut ha).indexed r.head).mpr ⟨i, mem_flat.mpr ⟨r, hr, r.head_mem_all⟩⟩
  rw [keyNow_cons_of_ne hne.2]

/-- **A change that finds its rows** is the exact one. -/
theorem Finds.change (hfinds : Finds old new slotOf moved rows a)
    (h : WellIndexed (keyNow old new moved) slotOf live rows) (hlive : live a) (ha : a ∉ moved)
    (hins : insert old slotOf isUnique space (deleteIdx old slotOf rows (old a) a).2 (new a) a =
      .ok rows') :
    rows' = exactChange old new slotOf moved rows a ∧
    WellIndexed (keyNow old new (a :: moved)) slotOf live rows' ∧
    (isUnique = true → ∀ b, live b → b ≠ a → keyNow old new moved b ≠ new a) := by
  have hout := h.takenOut ha
  have hfind := hfinds.new_row.trans (findRow_cons_moved h ha (new a)).symm
  have hinsert : insert (keyNow old new (a :: moved)) slotOf isUnique space
      (IndexRows.takenOut old new slotOf moved rows a) (new a) a = .ok rows' := by
    rw [deleteIdx_eq_takenOut hfinds.old_row] at hins
    rw [← hins, insert, insert, addToRow_congr (hout.slot _).nodup hfind]
  have hkey : keyNow old new (a :: moved) a = new a := keyNow_of_mem List.mem_cons_self
  refine ⟨insert_eq_put hinsert, ?_, fun hunique b hb hne hconflict => ?_⟩
  · have hindexed := hout.insert_ok (by simp) (hkey.symm ▸ hinsert)
    refine hindexed.of_iff fun b => ?_
    by_cases hba : b = a
    · simp [hba, hlive]
    · simp [hba]
  · have hlive' : ∃ c, (live c ∧ c ≠ a) ∧ keyNow old new (a :: moved) c = new a :=
      ⟨b, ⟨hb, hne⟩, (keyNow_cons_of_ne hne).trans hconflict⟩
    have hrefused := hinsert.symm.trans (hout.insert_conflict.mpr ⟨hunique, hlive'⟩)
    cases hrefused

/-! ## A change that goes wrong -/

/-- A row with the head `h` has the address `b`. -/
def HasRow (rows : Rows A) (i : Nat) (h b : A) : Prop := ∃ r ∈ rows i, r.head = h ∧ b ∈ r.all

/-- Two addresses that were moved stand together with different keys, or at the heads of
two rows with one key. -/
def Broken (new : A → K) (moved : List A) (rows : Rows A) : Prop :=
  ∃ i, ∃ h ∈ moved, ∃ b ∈ moved, HasRow rows i h h ∧
    ((HasRow rows i h b ∧ new b ≠ new h) ∨ (HasRow rows i b b ∧ b ≠ h ∧ new b = new h))

omit [DecidableEq A] in
/-- The head of a row is in it. -/
theorem HasRow.head {h : A} (hrow : HasRow rows i h b) : HasRow rows i h h := by
  obtain ⟨r, hr, rfl, -⟩ := hrow
  exact ⟨r, hr, rfl, r.head_mem_all⟩

/-- Taking another address out leaves the row. -/
theorem HasRow.delete {keyOf : A → K} {h : A} (hrow : HasRow rows i h b) (hh : a ≠ h) (hb : a ≠ b) :
    HasRow (deleteIdx keyOf slotOf rows k a).2 i h b := by
  obtain ⟨r, hr, rfl, hbr⟩ := hrow
  unfold deleteIdx
  cases hrem : removeFrom keyOf k a (rows (slotOf k)) with
  | none => exact ⟨r, hr, rfl, hbr⟩
  | some l =>
      obtain ⟨pre, r₀, post, hrows, -, -, rfl, -⟩ := removeFrom_some hrem
      dsimp only
      by_cases hi : i = slotOf k
      · subst hi
        rw [HasRow, Function.update_self]
        rw [hrows, List.mem_append, List.mem_cons] at hr
        rcases hr with hr | rfl | hr
        · exact ⟨r, by simp [hr], rfl, hbr⟩
        · -- the head stays, so the row does
          refine ⟨⟨r.head, r.tail.erase a⟩, ?_, rfl, ?_⟩
          · rw [Row.all, List.erase_cons_tail (by simpa using hh.symm)]
            simp [Row.ofList]
          · rw [Row.all, List.mem_cons] at hbr ⊢
            exact hbr.imp_right (List.mem_erase_of_ne hb.symm).mpr
        · exact ⟨r, by simp [hr], rfl, hbr⟩
      · rw [HasRow, Function.update_of_ne hi]
        exact ⟨r, hr, rfl, hbr⟩

omit [DecidableEq A] in
/-- An insertion leaves every row, and what is in it. -/
theorem HasRow.put {keyOf : A → K} {h : A} (hrow : HasRow rows i h b) :
    HasRow (put keyOf slotOf rows k a) i h b := by
  obtain ⟨r, hr, rfl, hbr⟩ := hrow
  unfold IndexRows.put
  by_cases hi : i = slotOf k
  · subst hi
    rw [HasRow, Function.update_self]
    cases hadd : addToRow keyOf k a (rows (slotOf k)) with
    | none => exact ⟨r, List.mem_cons_of_mem _ hr, rfl, hbr⟩
    | some l =>
        obtain ⟨pre, r₀, post, hrows, -, rfl, -⟩ := addToRow_some hadd
        rw [hrows, List.mem_append, List.mem_cons] at hr
        rw [Option.getD_some]
        rcases hr with hr | rfl | hr
        · exact ⟨r, by simp [hr], rfl, hbr⟩
        · exact ⟨r.insertSecond a, by simp, rfl, Row.mem_insertSecond.mpr (.inr hbr)⟩
        · exact ⟨r, by simp [hr], rfl, hbr⟩
  · rw [HasRow, Function.update_of_ne hi]
    exact ⟨r, hr, rfl, hbr⟩

/-- **No later change repairs it.** -/
theorem Broken.run (hbroken : Broken new moved rows)
    (hrun : Changed old new slotOf isUnique rows rest rows') (hlater : ∀ a ∈ rest, a ∉ moved) :
    Broken new moved rows' := by
  induction hrun with
  | nil => exact hbroken
  | @cons space rows rows₁ rows' a rest hins _ ih =>
      refine ih ?_ fun b hb => hlater b (List.mem_cons_of_mem a hb)
      have ha := hlater a List.mem_cons_self
      have hstay : ∀ i, ∀ h ∈ moved, ∀ b ∈ moved, HasRow rows i h b → HasRow rows₁ i h b := by
        intro i h hh b hb hrow
        rw [insert_eq_put hins]
        refine (hrow.delete ?_ ?_).put
        · rintro rfl
          exact ha hh
        · rintro rfl
          exact ha hb
      obtain ⟨i, h, hh, b, hb, hhead, hcase⟩ := hbroken
      refine ⟨i, h, hh, b, hb, hstay i h hh h hh hhead, hcase.imp ?_ ?_⟩
      · exact fun hrow => ⟨hstay i h hh b hb hrow.1, hrow.2⟩
      · exact fun hrow => ⟨hstay i b hb b hb hrow.1, hrow.2⟩

omit [DecidableEq K] in
/-- A slot with a broken row is not in order. -/
theorem Broken.not_ok (hbroken : Broken new moved rows) :
    ¬ ∀ i, SlotOk new slotOf i (rows i) := by
  intro hok
  obtain ⟨i, h, -, b, -, ⟨r, hr, hhead, -⟩, ⟨⟨r', hr', hhead', hb⟩, hne⟩ |
    ⟨⟨r', hr', hhead', -⟩, hne, hkey⟩⟩ := hbroken
  · apply hne
    rw [← hhead']
    exact (hok i).same_key r' hr' b hb
  · apply hne
    rw [← hhead, ← hhead'] at hkey ⊢
    rw [(hok i).row_unique hr' hr hkey]

/-- **A change that does not find its rows breaks them.** -/
theorem broken_of_not_finds (hlost : ¬ Finds old new slotOf moved rows a)
    (h : WellIndexed (keyNow old new moved) slotOf live rows) (ha : a ∉ moved)
    (hchanged : ∀ b ∈ a :: moved, old b ≠ new b)
    (hins : insert old slotOf isUnique space (deleteIdx old slotOf rows (old a) a).2 (new a) a =
      .ok rows') :
    Broken new (a :: moved) rows' := by
  have hrows' := insert_eq_put hins
  by_cases hold : ∀ r ∈ rows (slotOf (old a)), a ∈ r.all → r.head ∉ moved
  · -- the record leaves its row, but the row of the new key is missed
    rw [deleteIdx_eq_takenOut hold] at hins hrows'
    have hout := h.takenOut ha
    have hnot : findRow old (new a)
          (IndexRows.takenOut old new slotOf moved rows a (slotOf (new a))) ≠
        findRow (keyNow old new (a :: moved)) (new a)
          (IndexRows.takenOut old new slotOf moved rows a (slotOf (new a))) := by
      rw [findRow_cons_moved h ha]
      exact fun hnew => hlost ⟨hold, hnew⟩
    generalize IndexRows.takenOut old new slotOf moved rows a = out at hins hrows' hout hnot
    have hslot := hout.slot (slotOf (new a))
    have hput : rows' (slotOf (new a)) =
        (addToRow old (new a) a (out (slotOf (new a)))).getD (⟨a, []⟩ :: out (slotOf (new a))) := by
      rw [hrows', put, Function.update_self]
    have hheadne : ∀ r ∈ out (slotOf (new a)), r.head ≠ a := fun r hr =>
      ((hout.indexed r.head).mpr ⟨_, mem_flat.mpr ⟨r, hr, r.head_mem_all⟩⟩).2
    -- a row that is read differently is headed by a moved record
    have hmoved : ∀ r ∈ out (slotOf (new a)),
        old r.head ≠ keyNow old new (a :: moved) r.head → r.head ∈ moved := by
      intro r hr hne
      by_contra hnot
      apply hne
      rw [keyNow_of_notMem]
      rw [List.mem_cons, not_or]
      exact ⟨hheadne r hr, hnot⟩
    cases hfind : findRow old (new a) (out (slotOf (new a))) with
    | some r =>
        obtain ⟨hr, hkey⟩ := findRow_some hfind
        have hother : keyNow old new (a :: moved) r.head ≠ new a := by
          intro hnow
          apply hnot
          rw [hfind, hslot.findRow hr hnow]
        have hhead := hmoved r hr fun heq => hother (heq.symm.trans hkey)
        obtain ⟨pre, post, -, hadd⟩ := addToRow_of_findRow (a := a) hfind
        rw [hadd, Option.getD_some] at hput
        have hrow : HasRow rows' (slotOf (new a)) r.head a :=
          ⟨r.insertSecond a, by rw [hput]; simp, rfl, Row.mem_insertSecond.mpr (.inl rfl)⟩
        refine ⟨_, r.head, List.mem_cons_of_mem a hhead, a, List.mem_cons_self, hrow.head,
          .inl ⟨hrow, ?_⟩⟩
        rw [keyNow_of_mem (List.mem_cons_of_mem a hhead)] at hother
        exact hother.symm
    | none =>
        have hnone := addToRow_none (a := a).mpr
          (by simpa [findRow] using hfind : ∀ r ∈ out (slotOf (new a)), old r.head ≠ new a)
        rw [hnone, Option.getD_none] at hput
        cases hnow : findRow (keyNow old new (a :: moved)) (new a) (out (slotOf (new a))) with
        | none => exact absurd (hfind.trans hnow.symm) hnot
        | some r =>
            obtain ⟨hr, hkey⟩ := findRow_some hnow
            have hread : old r.head ≠ new a := by
              simpa using List.find?_eq_none.mp hfind r hr
            have hhead := hmoved r hr fun heq => hread (heq.trans hkey)
            rw [keyNow_of_mem (List.mem_cons_of_mem a hhead)] at hkey
            refine ⟨slotOf (new a), r.head, List.mem_cons_of_mem a hhead, a, List.mem_cons_self,
              ⟨r, by rw [hput]; exact List.mem_cons_of_mem _ hr, rfl, r.head_mem_all⟩,
              .inr ⟨⟨⟨a, []⟩, by rw [hput]; exact List.mem_cons_self, rfl, List.mem_cons_self⟩,
                (hheadne r hr).symm, hkey.symm⟩⟩
  · -- the record stays in the row of its old key
    push Not at hold
    obtain ⟨r, hr, har, hhead⟩ := hold
    have hslot := h.slot (slotOf (old a))
    have hkey : new r.head = old a := by
      have hsame := hslot.same_key r hr a har
      rw [keyNow_of_notMem ha, keyNow_of_mem hhead] at hsame
      exact hsame.symm
    have hstays : (deleteIdx old slotOf rows (old a) a).2 = rows := by
      have hnone : removeFrom old (old a) a (rows (slotOf (old a))) = none := by
        refine removeFrom_none.mpr fun r' hr' hread har' => ?_
        have hr'r : r' = r := hslot.row_unique hr' hr
          ((hslot.same_key r' hr' a har').symm.trans (hslot.same_key r hr a har))
        rw [hr'r, ← hkey] at hread
        exact hchanged _ (List.mem_cons_of_mem a hhead) hread
      rw [deleteIdx, hnone]
    rw [hstays] at hrows'
    have hrow : HasRow rows' (slotOf (old a)) r.head a := by
      rw [hrows']
      exact HasRow.put ⟨r, hr, rfl, har⟩
    refine ⟨_, r.head, List.mem_cons_of_mem a hhead, a, List.mem_cons_self, hrow.head,
      .inl ⟨hrow, ?_⟩⟩
    rw [hkey]
    exact (hchanged a List.mem_cons_self).symm

/-! ## The batch -/

/-- What a batch leaves if every change finds its rows. -/
theorem AllFind.run (hfind : AllFind old new slotOf moved rows rest)
    (hrun : Changed old new slotOf isUnique rows rest rows')
    (h : WellIndexed (keyNow old new moved) slotOf live rows)
    (hunique : isUnique = true → ∀ a b, live a → live b →
      keyNow old new moved a = keyNow old new moved b → a = b)
    (hlive : ∀ a ∈ rest, live a) (hlater : ∀ a ∈ rest, a ∉ moved) (hnodup : rest.Nodup) :
    WellIndexed (keyNow old new (rest.reverse ++ moved)) slotOf live rows' ∧
    (isUnique = true → ∀ a b, live a → live b →
      keyNow old new (rest.reverse ++ moved) a = keyNow old new (rest.reverse ++ moved) b →
        a = b) := by
  induction hrun generalizing moved with
  | nil => exact ⟨h, hunique⟩
  | @cons space rows rows₁ rows' a rest hins _ ih =>
      obtain ⟨hfinds, hfind⟩ := hfind
      obtain ⟨ha, hnodup⟩ := List.nodup_cons.mp hnodup
      have hamoved := hlater a List.mem_cons_self
      obtain ⟨rfl, hindexed, hfree⟩ :=
        hfinds.change h (hlive a List.mem_cons_self) hamoved hins
      have hunique₁ : isUnique = true → ∀ b c, live b → live c →
          keyNow old new (a :: moved) b = keyNow old new (a :: moved) c → b = c := by
        intro hu b c hb hc hkey
        by_cases hba : b = a
        · by_cases hca : c = a
          · rw [hba, hca]
          · rw [hba, keyNow_of_mem List.mem_cons_self, keyNow_cons_of_ne hca] at hkey
            exact absurd hkey.symm (hfree hu c hc hca)
        · by_cases hca : c = a
          · rw [hca, keyNow_of_mem List.mem_cons_self, keyNow_cons_of_ne hba] at hkey
            exact absurd hkey (hfree hu b hb hba)
          · rw [keyNow_cons_of_ne hba, keyNow_cons_of_ne hca] at hkey
            exact hunique hu b c hb hc hkey
      have hlater₁ : ∀ b ∈ rest, b ∉ a :: moved := by
        intro b hb hmem
        rcases List.mem_cons.mp hmem with rfl | hmem
        · exact ha hb
        · exact hlater b (List.mem_cons_of_mem a hb) hmem
      have hlast := ih hfind hindexed hunique₁ (fun b hb => hlive b (List.mem_cons_of_mem a hb))
        hlater₁ hnodup
      rwa [List.reverse_cons, List.append_assoc]

/-- **The rows are in order for the new keys** exactly when every change finds its rows. -/
theorem changed_iff (hrun : Changed old new slotOf isUnique rows rest rows')
    (h : WellIndexed (keyNow old new moved) slotOf live rows)
    (hunique : isUnique = true → ∀ a b, live a → live b →
      keyNow old new moved a = keyNow old new moved b → a = b)
    (hlive : ∀ a ∈ rest, live a) (hlater : ∀ a ∈ rest, a ∉ moved) (hnodup : rest.Nodup)
    (hchanged : ∀ a, a ∈ rest ∨ a ∈ moved ↔ old a ≠ new a) :
    (∀ i, SlotOk new slotOf i (rows' i)) ↔ AllFind old new slotOf moved rows rest := by
  constructor
  · intro hok
    clear hunique
    induction hrun generalizing moved with
    | nil => trivial
    | @cons space rows rows₁ rows' a rest hins hrun ih =>
        obtain ⟨ha, hnodup⟩ := List.nodup_cons.mp hnodup
        have hamoved := hlater a List.mem_cons_self
        have halive := hlive a List.mem_cons_self
        have hlater₁ : ∀ b ∈ rest, b ∉ a :: moved := by
          intro b hb hmem
          rcases List.mem_cons.mp hmem with rfl | hmem
          · exact ha hb
          · exact hlater b (List.mem_cons_of_mem a hb) hmem
        have hfinds : Finds old new slotOf moved rows a := by
          by_contra hlost
          refine (Broken.run (broken_of_not_finds hlost h hamoved ?_ hins) hrun
            hlater₁).not_ok hok
          intro b hb
          refine (hchanged b).mp ?_
          rcases List.mem_cons.mp hb with rfl | hb
          · exact .inl List.mem_cons_self
          · exact .inr hb
        obtain ⟨rfl, hindexed, -⟩ := hfinds.change h halive hamoved hins
        refine ⟨hfinds, ih hindexed (fun b hb => hlive b (List.mem_cons_of_mem a hb)) hlater₁ hnodup
          (fun b => ?_) hok⟩
        rw [← hchanged, List.mem_cons, List.mem_cons]
        tauto
  · intro hfind i
    have hlast := (hfind.run hrun h hunique hlive hlater hnodup).1
    refine (hlast.congr fun b _ => ?_).slot i
    by_cases hb : b ∈ rest.reverse ++ moved
    · rw [keyNow_of_mem hb]
    · rw [keyNow_of_notMem hb]
      by_contra hne
      rw [List.mem_append, List.mem_reverse] at hb
      exact hb ((hchanged b).mpr fun heq => hne heq.symm)

end IndexRows
