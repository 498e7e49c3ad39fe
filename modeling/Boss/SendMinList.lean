import Mathlib.Data.List.Nodup
import Mathlib.Order.Bounds.Basic
import Boss.SegFeeInfo

/-!
# The free minutes of a call

`setDetailBill` collects the free minutes of each fee field in `m_fldSendMinList`, an entry for each
total they belong to, and `commitFldSendMin` merges the field's list into `m_tpSendMinList`, where
the greatest value of a total is to be left.

The flag that says whether an entry was found is set before the loop over the field's list and not
again in it: from the first entry that is found on, the ones that are not found are passed over.
What is merged is therefore a summary of the entries that are `kept`, and it is one of all entries
just when nothing is lost with those that are `passedOver`.

Main result: `merge_summary_iff`.
-/

namespace SendMinList

open Rate

/-- Change the first entry of a total. -/
def updateFirst (id : RateBillId) (f : RateBillInfo → RateBillInfo) :
    List RateBillInfo → Option (List RateBillInfo)
  | [] => none
  | t_itr :: rest =>
      if t_itr.m_billId = id then some (f t_itr :: rest)
      else (updateFirst id f rest).map (t_itr :: ·)

/-- One entry of the field's list, with `t_flag`. -/
def commitEntry (state : List RateBillInfo × Bool) (t_itr1 : RateBillInfo) :
    List RateBillInfo × Bool :=
  let raised := updateFirst t_itr1.m_billId (fun t_itr =>
    if t_itr.m_billValue < t_itr1.m_billValue then
      { t_itr with m_billValue := t_itr1.m_billValue }
    else t_itr) state.1
  match raised with
  | some m_tpSendMinList => (m_tpSendMinList, true)
  | none => if state.2 = false then (state.1 ++ [t_itr1], state.2) else state

def commitFldSendMin (m_tpSendMinList m_fldSendMinList : List RateBillInfo) : List RateBillInfo :=
  (m_fldSendMinList.foldl commitEntry (m_tpSendMinList, false)).1

/-- Within a field the values of a total are added. -/
def addEntry (m_fldSendMinList : List RateBillInfo) (t_curItr : RateBillInfo) :
    List RateBillInfo :=
  if t_curItr.m_objType = .DURATION then
    (updateFirst t_curItr.m_billId (fun t_itr =>
      { t_itr with m_billValue := t_itr.m_billValue + t_curItr.m_billValue })
      m_fldSendMinList).getD (m_fldSendMinList ++ [t_curItr])
  else m_fldSendMinList

/-- A fee field of a call, with its segments. -/
structure FeeField where
  m_hasFeeFlag : Bool
  m_segInfoList : List SegFeeInfo

/-- `m_fldSendMinList` of a field. -/
def FeeField.sendMin (field : FeeField) : List RateBillInfo :=
  (field.m_segInfoList.flatMap (·.m_billInfoList)).foldl addEntry []

/-- The lists that are merged in `setDetailBill`. -/
def fldSendMinLists (fields : List FeeField) : List (List RateBillInfo) :=
  (fields.filter (·.m_hasFeeFlag)).map FeeField.sendMin

/-- `m_tpSendMinList` after the lists of all fields. -/
def merge (lists : List (List RateBillInfo)) : List RateBillInfo := lists.foldl commitFldSendMin []

def ids (entries : List RateBillInfo) : List RateBillId := entries.map (·.m_billId)

/-- The list has one entry for each total, with the greatest of its values. -/
structure Summary (entries tp : List RateBillInfo) : Prop where
  nodup : (ids tp).Nodup
  listed : ∀ id, id ∈ ids tp ↔ id ∈ ids entries
  greatest : ∀ t ∈ tp, IsGreatest
    {v | ∃ e ∈ entries, e.m_billId = t.m_billId ∧ e.m_billValue = v} t.m_billValue

/-! ## Entries of one total -/

theorem mem_ids {id : RateBillId} {entries : List RateBillInfo} :
    id ∈ ids entries ↔ ∃ e ∈ entries, e.m_billId = id := List.mem_map

theorem ids_append (a b : List RateBillInfo) : ids (a ++ b) = ids a ++ ids b := List.map_append

section UpdateFirst

variable {id : RateBillId} {f : RateBillInfo → RateBillInfo} {tp : List RateBillInfo}

/-- Without an entry of the id nothing is updated. -/
theorem updateFirst_none (h : id ∉ ids tp) : updateFirst id f tp = none := by
  induction tp with
  | nil => rfl
  | cons t rest ih =>
      rw [ids, List.map_cons, List.mem_cons, not_or] at h
      rw [updateFirst, if_neg (Ne.symm h.1), ih h.2]
      rfl

/-- Where a total has one entry, the first is the one. -/
theorem updateFirst_some (hnodup : (ids tp).Nodup) (h : id ∈ ids tp) :
    updateFirst id f tp = some (tp.map fun t => if t.m_billId = id then f t else t) := by
  induction tp with
  | nil => exact absurd h List.not_mem_nil
  | cons t rest ih =>
      obtain ⟨hnew, hrest⟩ := List.nodup_cons.mp hnodup
      by_cases ht : t.m_billId = id
      · have hother : rest.map (fun t => if t.m_billId = id then f t else t) = rest := by
          refine List.map_congr_left (g := fun t => t) (fun u hu => if_neg ?_) |>.trans
            (List.map_id' rest)
          intro hu'
          exact hnew (mem_ids.mpr ⟨u, hu, hu'.trans ht.symm⟩)
        rw [updateFirst, if_pos ht, List.map_cons, if_pos ht, hother]
      · have hlater : id ∈ ids rest := (List.mem_cons.mp h).resolve_left (Ne.symm ht)
        rw [updateFirst, if_neg ht, ih hrest hlater, List.map_cons, if_neg ht]
        rfl

/-- Changing the entries of one id, but not the id, leaves the ids. -/
theorem ids_map (hf : ∀ t, (f t).m_billId = t.m_billId) :
    ids (tp.map fun t => if t.m_billId = id then f t else t) = ids tp := by
  rw [ids, ids, List.map_map]
  refine List.map_congr_left fun t _ => ?_
  simp only [Function.comp]
  split_ifs
  · exact hf t
  · rfl

end UpdateFirst

section Summary

variable {entries tp : List RateBillInfo} {t : RateBillInfo}

/-- The values of a total in a list with one entry more. -/
theorem values_append (id : RateBillId) :
    {v | ∃ e ∈ entries ++ [t], e.m_billId = id ∧ e.m_billValue = v} =
      {v | ∃ e ∈ entries, e.m_billId = id ∧ e.m_billValue = v} ∪
        {v | t.m_billId = id ∧ t.m_billValue = v} := by
  ext v
  simp only [List.mem_append, List.mem_singleton, Set.mem_ofPred_eq, Set.mem_union]
  constructor
  · rintro ⟨e, he | rfl, h⟩
    · exact .inl ⟨e, he, h⟩
    · exact .inr h
  · rintro (⟨e, he, h⟩ | h)
    · exact ⟨e, .inl he, h⟩
    · exact ⟨t, .inr rfl, h⟩

/-- Another total leaves the values as they are. -/
theorem values_append_of_ne {id : RateBillId} (h : t.m_billId ≠ id) :
    {v | ∃ e ∈ entries ++ [t], e.m_billId = id ∧ e.m_billValue = v} =
      {v | ∃ e ∈ entries, e.m_billId = id ∧ e.m_billValue = v} := by
  rw [values_append]
  simp [h]

/-- An entry of a new id is put behind the others. -/
theorem Summary.push (h : Summary entries tp) (hnew : t.m_billId ∉ ids tp) :
    Summary (entries ++ [t]) (tp ++ [t]) where
  nodup := by
    rw [ids_append, List.nodup_append]
    refine ⟨h.nodup, List.nodup_singleton _, ?_⟩
    intro id hid other hother heq
    obtain rfl := List.mem_singleton.mp hother
    subst heq
    exact hnew hid
  listed id := by
    rw [ids_append, ids_append, List.mem_append, List.mem_append, h.listed]
  greatest u hu := by
    rcases List.mem_append.mp hu with hu | hu
    · have hother : t.m_billId ≠ u.m_billId := by
        intro heq
        exact hnew (heq ▸ List.mem_map_of_mem hu)
      rw [values_append_of_ne hother]
      exact h.greatest u hu
    · obtain rfl := List.mem_singleton.mp hu
      refine ⟨⟨u, by simp, rfl, rfl⟩, ?_⟩
      rintro v ⟨e, he, hid, rfl⟩
      rcases List.mem_append.mp he with he | he
      · exact absurd ((h.listed _).mpr (mem_ids.mpr ⟨e, he, hid⟩)) hnew
      · rw [List.mem_singleton.mp he]

/-- What an entry that is found becomes. -/
def raised (t u : RateBillInfo) : RateBillInfo :=
  if u.m_billValue < t.m_billValue then { u with m_billValue := t.m_billValue } else u

/-- Raising an entry leaves its id. -/
theorem raised_id (t u : RateBillInfo) : (raised t u).m_billId = u.m_billId := by
  unfold raised
  split_ifs <;> rfl

/-- A raised entry has the larger of the two values. -/
theorem raised_value (t u : RateBillInfo) :
    (raised t u).m_billValue = max u.m_billValue t.m_billValue := by
  unfold raised
  split_ifs with hlt
  · exact (max_eq_right hlt.le).symm
  · exact (max_eq_left (not_lt.mp hlt)).symm

/-- An entry of a known id raises the one that is there. -/
theorem Summary.raise (h : Summary entries tp) (hold : t.m_billId ∈ ids tp) :
    Summary (entries ++ [t])
      (tp.map fun u => if u.m_billId = t.m_billId then raised t u else u) where
  nodup := by
    rw [ids_map (raised_id t)]
    exact h.nodup
  listed id := by
    rw [ids_map (raised_id t), ids_append, List.mem_append, h.listed]
    constructor
    · exact .inl
    · rintro (hid | hid)
      · exact hid
      · obtain rfl := List.mem_singleton.mp hid
        exact (h.listed _).mp hold
  greatest w hw := by
    obtain ⟨u, hu, rfl⟩ := List.mem_map.mp hw
    have hgreatest := h.greatest u hu
    by_cases hid : u.m_billId = t.m_billId
    · rw [if_pos hid, raised_id, raised_value, values_append]
      have hsingle : {v | t.m_billId = u.m_billId ∧ t.m_billValue = v} = {t.m_billValue} := by
        ext v
        simp [hid, eq_comm]
      rw [hsingle]
      exact hgreatest.union isGreatest_singleton
    · rw [if_neg hid, values_append_of_ne (Ne.symm hid)]
      exact hgreatest

end Summary

/-! ## What is passed over -/

/-- The entries of a list that count: those of a total that is already there, and those before the
first of them. -/
def kept (known : List RateBillId) : List RateBillInfo → List RateBillInfo
  | [] => []
  | t :: rest =>
      if t.m_billId ∈ known then t :: rest.filter (·.m_billId ∈ known) else t :: kept known rest

/-- The other ones. -/
def passedOver (known : List RateBillId) : List RateBillInfo → List RateBillInfo
  | [] => []
  | t :: rest =>
      if t.m_billId ∈ known then rest.filter (·.m_billId ∉ known) else passedOver known rest

/-- The entries of all lists that count, where a total is there once an entry of it has counted. -/
def keptAll (known : List RateBillId) : List (List RateBillInfo) → List RateBillInfo
  | [] => []
  | fld :: lists => kept known fld ++ keptAll (known ++ ids (kept known fld)) lists

def passedOverAll (known : List RateBillId) : List (List RateBillInfo) → List RateBillInfo
  | [] => []
  | fld :: lists => passedOver known fld ++ passedOverAll (known ++ ids (kept known fld)) lists

/-- An entry is kept or passed over. -/
theorem mem_kept_or_passedOver (known : List RateBillId) {fld : List RateBillInfo}
    {e : RateBillInfo} : e ∈ fld ↔ e ∈ kept known fld ∨ e ∈ passedOver known fld := by
  induction fld with
  | nil => simp [kept, passedOver]
  | cons t rest ih =>
      by_cases ht : t.m_billId ∈ known
      · by_cases he : e.m_billId ∈ known <;> simp [kept, passedOver, ht, he]
      · simp [kept, passedOver, ht, ih, or_assoc]

/-- An entry of some list is kept or passed over there. -/
theorem mem_keptAll_or_passedOverAll (known : List RateBillId)
    {lists : List (List RateBillInfo)} {e : RateBillInfo} :
    e ∈ lists.flatten ↔ e ∈ keptAll known lists ∨ e ∈ passedOverAll known lists := by
  induction lists generalizing known with
  | nil => simp [keptAll, passedOverAll]
  | cons fld lists ih =>
      rw [List.flatten_cons, List.mem_append, mem_kept_or_passedOver known,
        ih (known ++ ids (kept known fld))]
      simp only [keptAll, passedOverAll, List.mem_append]
      tauto

section Commit

variable {entries tp fld : List RateBillInfo} {known : List RateBillId} {t : RateBillInfo}
  {flag : Bool}

/-- An entry of a known id raises the one that is there and sets the flag. -/
theorem commitEntry_found (h : Summary entries tp) (hold : t.m_billId ∈ ids tp) :
    commitEntry (tp, flag) t =
      (tp.map fun u => if u.m_billId = t.m_billId then raised t u else u, true) := by
  simp only [commitEntry, updateFirst_some h.nodup hold]
  rfl

/-- An entry of a new id is only taken while the flag is not set. -/
theorem commitEntry_new (hnew : t.m_billId ∉ ids tp) :
    commitEntry (tp, flag) t = if flag = false then (tp ++ [t], flag) else (tp, flag) := by
  simp only [commitEntry, updateFirst_none hnew]

/-- Once the flag is set, the entries of the totals that are there count and no other. -/
theorem commit_flagged (h : Summary entries tp) (hknown : ∀ id, id ∈ ids tp ↔ id ∈ known) :
    Summary (entries ++ fld.filter (·.m_billId ∈ known)) (fld.foldl commitEntry (tp, true)).1 := by
  induction fld generalizing entries tp with
  | nil => simpa using h
  | cons t rest ih =>
      by_cases ht : t.m_billId ∈ known
      · have hold := (hknown _).mpr ht
        have hnext := ih (h.raise hold) fun id => by rw [ids_map (raised_id t), hknown]
        rw [List.foldl_cons, commitEntry_found h hold, List.filter_cons_of_pos (by simpa using ht)]
        simpa using hnext
      · have hnew : t.m_billId ∉ ids tp := fun hid => ht ((hknown _).mp hid)
        rw [List.foldl_cons, commitEntry_new hnew, List.filter_cons_of_neg (by simpa using ht)]
        exact ih h hknown

/-- Until then the ones that are not there are added.  `added` are the totals of the list that have
been added, none of which comes again. -/
theorem commit_unflagged (added : List RateBillId) (h : Summary entries tp)
    (hknown : ∀ id, id ∈ ids tp ↔ id ∈ known ∨ id ∈ added)
    (hapart : ∀ t ∈ fld, t.m_billId ∉ added) (hnodup : (ids fld).Nodup) :
    Summary (entries ++ kept known fld) (fld.foldl commitEntry (tp, false)).1 := by
  induction fld generalizing entries tp added with
  | nil => simpa [kept] using h
  | cons t rest ih =>
      obtain ⟨hother, hrest⟩ := List.nodup_cons.mp hnodup
      have ht := hapart t List.mem_cons_self
      by_cases hin : t.m_billId ∈ known
      · have hold := (hknown _).mpr (.inl hin)
        have hsame : rest.filter (·.m_billId ∈ ids tp) = rest.filter (·.m_billId ∈ known) := by
          refine List.filter_congr fun u hu => ?_
          simp [hknown, hapart u (List.mem_cons_of_mem _ hu)]
        have hnext : Summary (entries ++ [t] ++ rest.filter (·.m_billId ∈ ids tp)) _ :=
          commit_flagged (h.raise hold) fun id => by rw [ids_map (raised_id t)]
        rw [List.foldl_cons, commitEntry_found h hold, kept, if_pos hin, ← hsame]
        simpa using hnext
      · have hnew : t.m_billId ∉ ids tp := by simp [hknown, hin, ht]
        have hknown' (id : RateBillId) :
            id ∈ ids (tp ++ [t]) ↔ id ∈ known ∨ id ∈ added ++ [t.m_billId] := by
          rw [ids_append, List.mem_append, hknown, List.mem_append, or_assoc]
          rfl
        have hapart' : ∀ u ∈ rest, u.m_billId ∉ added ++ [t.m_billId] := by
          intro u hu
          simp only [List.mem_append, List.mem_singleton, not_or]
          exact ⟨hapart u (List.mem_cons_of_mem _ hu), fun heq =>
            hother (mem_ids.mpr ⟨u, hu, heq⟩)⟩
        have hnext := ih (added ++ [t.m_billId]) (h.push hnew) hknown' hapart' hrest
        rw [List.foldl_cons, commitEntry_new hnew, if_pos rfl, kept, if_neg hin]
        simpa using hnext

/-- A list adds to the summary the entries that are kept of it. -/
theorem commitFldSendMin_summary (h : Summary entries tp) (hknown : ∀ id, id ∈ ids tp ↔ id ∈ known)
    (hnodup : (ids fld).Nodup) :
    Summary (entries ++ kept known fld) (commitFldSendMin tp fld) :=
  commit_unflagged [] h (by simpa using hknown) (by simp) hnodup

/-- What is merged is a summary of what counts. -/
theorem merge_summary_kept {lists : List (List RateBillInfo)} (h : Summary entries tp)
    (hknown : ∀ id, id ∈ ids tp ↔ id ∈ known) (hnodup : ∀ fld ∈ lists, (ids fld).Nodup) :
    Summary (entries ++ keptAll known lists) (lists.foldl commitFldSendMin tp) := by
  induction lists generalizing entries tp known with
  | nil => simpa [keptAll] using h
  | cons fld lists ih =>
      have hfld := commitFldSendMin_summary h hknown (hnodup fld List.mem_cons_self)
      have hknown' (id : RateBillId) : id ∈ ids (commitFldSendMin tp fld) ↔
          id ∈ known ++ ids (kept known fld) := by
        rw [hfld.listed, ids_append, List.mem_append, List.mem_append, ← hknown, h.listed]
      have hnext := ih hfld hknown' fun fld' h' => hnodup fld' (List.mem_cons_of_mem _ h')
      simpa [keptAll] using hnext

/-- A summary of some entries is one of more of them when no value is lost with the others. -/
theorem Summary.more_iff {all others : List RateBillInfo} (h : Summary entries tp)
    (hall : ∀ e, e ∈ all ↔ e ∈ entries ∨ e ∈ others) :
    Summary all tp ↔
      ∀ e ∈ others, ∃ k ∈ entries, k.m_billId = e.m_billId ∧ e.m_billValue ≤ k.m_billValue := by
  constructor
  · intro hsummary e he
    have hin := (hsummary.listed e.m_billId).mpr (mem_ids.mpr ⟨e, (hall e).mpr (.inr he), rfl⟩)
    obtain ⟨t, ht, hid⟩ := mem_ids.mp hin
    obtain ⟨k, hk, hkid, hvalue⟩ := (h.greatest t ht).1
    refine ⟨k, hk, hkid.trans hid, ?_⟩
    rw [hvalue]
    exact (hsummary.greatest t ht).2 ⟨e, (hall e).mpr (.inr he), hid.symm, rfl⟩
  · intro hothers
    refine ⟨h.nodup, fun id => ?_, fun t ht => ⟨?_, ?_⟩⟩
    · rw [h.listed]
      constructor
      · intro hid
        obtain ⟨e, he, rfl⟩ := mem_ids.mp hid
        exact mem_ids.mpr ⟨e, (hall e).mpr (.inl he), rfl⟩
      · intro hid
        obtain ⟨e, he, rfl⟩ := mem_ids.mp hid
        rcases (hall e).mp he with he | he
        · exact mem_ids.mpr ⟨e, he, rfl⟩
        · obtain ⟨k, hk, hkid, -⟩ := hothers e he
          exact mem_ids.mpr ⟨k, hk, hkid⟩
    · obtain ⟨e, he, h'⟩ := (h.greatest t ht).1
      exact ⟨e, (hall e).mpr (.inl he), h'⟩
    · rintro v ⟨e, he, hid, rfl⟩
      rcases (hall e).mp he with he | he
      · exact (h.greatest t ht).2 ⟨e, he, hid, rfl⟩
      · obtain ⟨k, hk, hkid, hle⟩ := hothers e he
        exact hle.trans ((h.greatest t ht).2 ⟨k, hk, hkid.trans hid, rfl⟩)

end Commit

/-- Nothing is the summary of nothing. -/
theorem summary_nil : Summary [] [] := by
  constructor <;> simp [ids]

/-- The merged list is a summary of all lists if and only if each entry that is passed over has a
total of which another entry, with at least its value, counts. -/
theorem merge_summary_iff (lists : List (List RateBillInfo))
    (hnodup : ∀ fld ∈ lists, (ids fld).Nodup) :
    Summary lists.flatten (merge lists) ↔
      ∀ e ∈ passedOverAll [] lists, ∃ k ∈ keptAll [] lists,
        k.m_billId = e.m_billId ∧ e.m_billValue ≤ k.m_billValue := by
  have hkept : Summary (keptAll [] lists) (merge lists) :=
    merge_summary_kept summary_nil (by simp [ids]) hnodup
  exact hkept.more_iff fun e => mem_keptAll_or_passedOverAll []

/-- Free minutes of a total. -/
def minutes (m_billId m_billValue : Int) : RateBillInfo where
  m_billId := ⟨1, 1, m_billId, 20260101000000⟩
  m_objType := .DURATION
  m_unitValue := 60
  m_unitFee := 0
  m_billValue := m_billValue

/-- A new total before one that is there is not passed over. -/
theorem merge_summary_iff_new_first :
    Summary [[minutes 1 10], [minutes 2 20, minutes 1 30]].flatten
      (merge [[minutes 1 10], [minutes 2 20, minutes 1 30]]) := by
  refine (merge_summary_iff [[minutes 1 10], [minutes 2 20, minutes 1 30]] ?_).mpr ?_
  · simp [ids, minutes]
  · simp [passedOverAll, passedOver, kept, ids, minutes]

/-! ## The lists of `setDetailBill` -/

/-- Adding an entry keeps the totals of a list distinct. -/
theorem addEntry_nodup {fld : List RateBillInfo} (h : (ids fld).Nodup) (t : RateBillInfo) :
    (ids (addEntry fld t)).Nodup := by
  unfold addEntry
  split_ifs
  · by_cases ht : t.m_billId ∈ ids fld
    · rw [updateFirst_some h ht, Option.getD_some, ids_map (by simp)]
      exact h
    · rw [updateFirst_none ht, Option.getD_none, ids_append]
      exact List.Nodup.append h (List.nodup_singleton _) (by simpa [ids] using ht)
  · exact h

/-- The list of a field has an entry for each total. -/
theorem sendMin_nodup (field : FeeField) : (ids field.sendMin).Nodup := by
  have hrun (bills fld : List RateBillInfo) (h : (ids fld).Nodup) :
      (ids (bills.foldl addEntry fld)).Nodup := by
    induction bills generalizing fld with
    | nil => exact h
    | cons t bills ih => exact ih _ (addEntry_nodup h t)
  exact hrun _ _ List.nodup_nil

/-- The lists that `setDetailBill` makes have distinct totals. -/
theorem fldSendMinLists_nodup (fields : List FeeField) :
    ∀ fld ∈ fldSendMinLists fields, (ids fld).Nodup := by
  intro fld hfld
  obtain ⟨field, -, rfl⟩ := List.mem_map.mp hfld
  exact sendMin_nodup field

/-- A segment that gives free minutes of some totals. -/
def giving (m_billInfoList : List RateBillInfo) : FeeField where
  m_hasFeeFlag := true
  m_segInfoList := [{ SegFeeInfo.ofTime 1 60 0 ⟨20260105, 80000⟩ ⟨20260105, 80100⟩ 0 60 with
    m_billInfoList := m_billInfoList }]

/-- Two fields give minutes of the first total, the second one then of another, which is lost. -/
theorem merge_known_first :
    fldSendMinLists [giving [minutes 1 10], giving [minutes 1 10, minutes 2 20]] =
        [[minutes 1 10], [minutes 1 10, minutes 2 20]] ∧
      merge [[minutes 1 10], [minutes 1 10, minutes 2 20]] = [minutes 1 10] ∧
      ¬ Summary [[minutes 1 10], [minutes 1 10, minutes 2 20]].flatten
        (merge [[minutes 1 10], [minutes 1 10, minutes 2 20]]) := by
  refine ⟨by decide, by decide, fun h => ?_⟩
  have hlisted := (h.listed (minutes 2 20).m_billId).mpr (by decide)
  exact absurd hlisted (by decide)

end SendMinList
