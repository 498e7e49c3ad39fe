import Boss.TransDataMgrRuns

/-!
# A commit that passes

When no phase of `commit` raises an exception, the deleted slots are given back, the inserted
records are in new slots and the updated ones have their new bytes (`commit_spec`).  For the
pool of a transaction that is the view which the pool gave of the table
(`commit_contents`).  With the calls doing to the view what they mean, a transaction whose
calls do not meet its own earlier changes leaves the table as if they had been applied one
after the other (`transaction_composes`).
-/

namespace BaseTable

variable {tbl : Table} {env : Env} {s : State tbl} {a : ShmPosition}

/-! ## Index changes leave the records alone -/

/-- Inserting into an index leaves the records. -/
theorem insertIdx_same (env : Env) (s : State tbl) (i : Fin tbl.m_indexNum) (k : Key)
    (a : ShmPosition) : SameRecords s (insertIdx env s i k a).1 := by
  unfold insertIdx
  split <;> exact ⟨rfl, rfl⟩

/-- Deleting from the indexes leaves the records. -/
theorem deleteFrom_same (value : Record) (a : ShmPosition) (is : List (Fin tbl.m_indexNum))
    (s : State tbl) : SameRecords s (deleteFrom value a is s) := by
  unfold deleteFrom
  induction is generalizing s with
  | nil => exact ⟨rfl, rfl⟩
  | cons i rest ih => exact (deleteIdx_same s i _ a).trans (ih _)

/-- Inserting into all indexes leaves the records, if nothing is refused. -/
theorem insertFrom_same {value : Record} {is : List (Fin tbl.m_indexNum)}
    {logs : List (IndexChangeLog tbl.m_indexNum)}
    (h : (insertFrom env value a is logs s).2 = none) :
    SameRecords s (insertFrom env value a is logs s).1 := by
  induction is generalizing s logs with
  | nil => exact ⟨rfl, rfl⟩
  | cons i rest ih =>
      have hsame := insertIdx_same env s i (tbl.getIndexKey i value) a
      simp only [insertFrom] at h ⊢
      rcases hr : insertIdx env s i (tbl.getIndexKey i value) a with ⟨s₁, _ | e⟩
      · rw [hr] at hsame
        simp only [hr] at h ⊢
        exact hsame.trans (ih h)
      · simp only [hr, catchIndexError] at h
        split at h <;> cases h

/-- Inserting a batch leaves the records, if nothing is refused. -/
theorem insertLoop_same {addrs : List ShmPosition} {done tds : List TransData}
    (h : (insertLoop env addrs done tds s).2 = none) :
    SameRecords s (insertLoop env addrs done tds s).1 := by
  induction tds generalizing s done with
  | nil => exact ⟨rfl, rfl⟩
  | cons td rest ih =>
      simp only [insertLoop] at h ⊢
      rcases hr : insertAllIndex env s td false with ⟨s₁, _ | e⟩
      · have hone : SameRecords s (insertAllIndex env s td false).1 :=
          insertFrom_same (by rw [← insertAllIndex, hr])
        rw [hr] at hone
        simp only [hr] at h ⊢
        exact hone.trans (ih h)
      · simp [hr] at h

/-- Changing keys in the indexes leaves the records, if nothing is refused. -/
theorem updateFrom_same {value value' : Record} {is : List (Fin tbl.m_indexNum)}
    {logs : List (IndexChangeLog tbl.m_indexNum)}
    (h : (updateFrom env value value' a is logs s).2 = none) :
    SameRecords s (updateFrom env value value' a is logs s).1 := by
  induction is generalizing s logs with
  | nil => exact ⟨rfl, rfl⟩
  | cons i rest ih =>
      by_cases hkeys : tbl.getIndexKey i value = tbl.getIndexKey i value'
      · simp only [updateFrom, hkeys, if_true] at h ⊢
        exact ih h
      · have hsame := (deleteIdx_same s i (tbl.getIndexKey i value) a).trans
          (insertIdx_same env _ i (tbl.getIndexKey i value') a)
        simp only [updateFrom, hkeys, if_false, changeIdx] at h ⊢
        rcases hr : insertIdx env (deleteIdx s i (tbl.getIndexKey i value) a) i
          (tbl.getIndexKey i value') a with ⟨s₁, _ | e⟩
        · rw [hr] at hsame
          simp only [hr] at h ⊢
          exact hsame.trans (ih h)
        · simp only [hr, catchIndexError] at h
          split at h <;> cases h

/-- Changing the keys of a batch leaves the records, if nothing is refused. -/
theorem updateLoop_same {done tds : List TransData} (h : (updateLoop env done tds s).2 = none) :
    SameRecords s (updateLoop env done tds s).1 := by
  induction tds generalizing s done with
  | nil => exact ⟨rfl, rfl⟩
  | cons td rest ih =>
      simp only [updateLoop] at h ⊢
      rcases hr : updateAllIndex env s td false with ⟨s₁, _ | e⟩
      · have hone : SameRecords s (updateAllIndex env s td false).1 :=
          updateFrom_same (by rw [← updateAllIndex, hr])
        rw [hr] at hone
        simp only [hr] at h ⊢
        exact hone.trans (ih h)
      · simp only [hr] at h
        split at h <;> cases h

/-! ## The phases -/

/-- The deletions. -/
theorem afterDelete_spec (env : Env) (s : State tbl) (dels : List TransData) :
    (∀ b, (afterDelete env s dels).live b = true ↔
      s.live b = true ∧ b ∉ dels.map TransData.m_addr) ∧
    ∀ b, (afterDelete env s dels).live b = true → (afterDelete env s dels).record b = s.record b := by
  have hindexes : ∀ (tds : List TransData) (s : State tbl),
      SameRecords s (tds.foldl (fun s td => deleteAllIndex s td false) s) := by
    intro tds
    induction tds with
    | nil => exact fun s => ⟨rfl, rfl⟩
    | cons td rest ih => exact fun s => (deleteFrom_same _ _ _ s).trans (ih _)
  unfold afterDelete
  by_cases hempty : dels = []
  · simp [hempty]
  · have hsame := hindexes dels s
    obtain ⟨hlive, hrecord, -⟩ := freeAll_spec env (dels.map TransData.m_addr)
      (dels.foldl (fun s td => deleteAllIndex s td false) s)
    rw [List.foldl_map] at hlive hrecord
    rw [if_neg hempty]
    refine ⟨fun b => ?_, fun b hb => ?_⟩
    · rw [← hsame.1]
      exact hlive b
    · rw [← hsame.2]
      exact hrecord b hb

/-- The records that get slots keep their new values. -/
theorem placed_new (tds : List TransData) (addrs : List ShmPosition)
    (hlength : addrs.length = tds.length) :
    (placed tds addrs).map TransData.m_newRecordValue = tds.map TransData.m_newRecordValue := by
  induction tds generalizing addrs with
  | nil => rfl
  | cons td rest ih =>
      cases addrs with
      | nil => simp at hlength
      | cons a addrs =>
          have hrest := ih addrs (by simpa using hlength)
          simpa [placed] using hrest

/-- The insertions, when none raises. -/
theorem insertPhase_spec {ins : List TransData} (h : (insertPhase env s ins).2.2 = none) :
    ∃ addrs : List ShmPosition, addrs.Nodup ∧ (∀ a ∈ addrs, s.live a = false) ∧
      (∀ b, (insertPhase env s ins).1.live b = true ↔ s.live b = true ∨ b ∈ addrs) ∧
      addrs.map (insertPhase env s ins).1.record = ins.map TransData.m_newRecordValue ∧
      ∀ b, b ∉ addrs → (insertPhase env s ins).1.record b = s.record b := by
  unfold insertPhase at h ⊢
  by_cases hempty : ins = []
  · rw [if_pos hempty]
    exact ⟨[], List.nodup_nil, by simp, by simp, by simp [hempty], fun _ _ => rfl⟩
  · rw [if_neg hempty] at h ⊢
    rcases halloc : allocateTableMem env s ins.length with ⟨s', _ | addrs⟩
    · simp [insert, halloc] at h
    · have hprep := prepared halloc
      have hlength := (allocateTableMem_spec halloc).1
      rcases hloop : insertLoop env addrs [] (placed ins addrs)
        (copyRecords s' (placed ins addrs)) with ⟨t, _ | e⟩
      · have hsame := insertLoop_same (h := by rw [hloop])
        rw [hloop] at hsame
        have hinsert : insert env s ins =
            ({ t with m_recordNum := t.m_recordNum + (placed ins addrs).length },
              placed ins addrs, none) := by
          simp only [insert, halloc, hloop]
        rw [hinsert]
        refine ⟨addrs, hprep.nodup, hprep.fresh, fun b => ?_, ?_, fun b hb => ?_⟩
        · show t.live b = true ↔ _
          rw [hsame.1]
          exact hprep.live b
        · show addrs.map t.record = _
          have hrecord := hprep.record
          rw [hsame.2]
          generalize (copyRecords s' (placed ins addrs)).record = record at hrecord ⊢
          calc addrs.map record
              = ((placed ins addrs).map TransData.m_addr).map record := by rw [hprep.length]
            _ = (placed ins addrs).map TransData.m_newRecordValue := by
                rw [List.map_map]
                exact List.map_congr_left hrecord
            _ = ins.map TransData.m_newRecordValue := placed_new ins addrs hlength
        · show t.record b = _
          rw [hsame.2]
          exact hprep.other b hb
      · simp [insert, halloc, hloop] at h

/-- The updates, when none raises. -/
theorem updatePhase_spec {upds : List TransData} (h : (updatePhase env s upds).2 = none)
    (hnodup : (upds.map TransData.m_addr).Nodup) :
    (updatePhase env s upds).1.live = s.live ∧
    (∀ td ∈ upds, (updatePhase env s upds).1.record td.m_addr = td.m_newRecordValue) ∧
    ∀ b, b ∉ upds.map TransData.m_addr → (updatePhase env s upds).1.record b = s.record b := by
  unfold updatePhase at h ⊢
  by_cases hempty : upds = []
  · rw [if_pos hempty]
    exact ⟨rfl, by simp [hempty], fun _ _ => rfl⟩
  · rw [if_neg hempty] at h ⊢
    rcases hloop : updateLoop env [] upds s with ⟨t, _ | e⟩
    · have hsame := updateLoop_same (h := by rw [hloop])
      rw [hloop] at hsame
      have hupdate : update env s upds = (copyRecords t upds, none) := by
        simp only [update, hloop]
      obtain ⟨hlive, -, hrecord, hother⟩ := copyRecords_spec upds t hnodup
      rw [hupdate]
      refine ⟨hlive.trans hsame.1, hrecord, fun b hb => ?_⟩
      show (copyRecords t upds).record b = _
      rw [hother b hb, hsame.2]
    · simp [update, hloop] at h

/-- **A commit that passes.**  The slots `addrs` are those of the inserted records. -/
theorem commit_spec {transDatas : List TransData} (h : (commit env s transDatas).2 = none)
    (hnodup : ((withType transDatas .update).map TransData.m_addr).Nodup)
    (hlive : ∀ td ∈ withType transDatas .update, s.live td.m_addr = true ∧
      td.m_addr ∉ (withType transDatas .delete).map TransData.m_addr) :
    ∃ addrs : List ShmPosition, addrs.Nodup ∧
      (∀ a ∈ addrs, ¬ (s.live a = true ∧ a ∉ (withType transDatas .delete).map TransData.m_addr)) ∧
      (∀ b, (commit env s transDatas).1.live b = true ↔
        (s.live b = true ∧ b ∉ (withType transDatas .delete).map TransData.m_addr) ∨ b ∈ addrs) ∧
      addrs.map (commit env s transDatas).1.record
        = (withType transDatas .insert).map TransData.m_newRecordValue ∧
      (∀ td ∈ withType transDatas .update,
        (commit env s transDatas).1.record td.m_addr = td.m_newRecordValue) ∧
      ∀ b, s.live b = true → b ∉ (withType transDatas .delete).map TransData.m_addr →
        b ∉ (withType transDatas .update).map TransData.m_addr →
        (commit env s transDatas).1.record b = s.record b := by
  obtain ⟨hlive₁, hrecord₁⟩ := afterDelete_spec env s (withType transDatas .delete)
  unfold commit at h ⊢
  dsimp only at h ⊢
  generalize afterDelete env s (withType transDatas .delete) = s₁ at *
  generalize withType transDatas .insert = ins at *
  generalize withType transDatas .update = upds at *
  rcases hr : insertPhase env s₁ ins with ⟨s₂, placedIns, _ | e⟩
  · simp only [hr] at h ⊢
    obtain ⟨addrs, hnodup₂, hfresh, hlive₂, hins, hother₂⟩ := insertPhase_spec (h := by rw [hr])
    rw [hr] at hlive₂ hins hother₂
    dsimp only at hlive₂ hins hother₂
    rcases hu : updatePhase env s₂ upds with ⟨s₃, _ | e⟩
    · obtain ⟨hlive₃, hupds, hother₃⟩ := updatePhase_spec (h := by rw [hu]) hnodup
      rw [hu] at hlive₃ hupds hother₃
      dsimp only at hlive₃ hupds hother₃ ⊢
      have hapart : ∀ a ∈ addrs,
          ¬ (s.live a = true ∧ a ∉ (withType transDatas .delete).map TransData.m_addr) := by
        intro a ha hboth
        have hdead := hfresh a ha
        rw [(hlive₁ a).mpr hboth] at hdead
        cases hdead
      have hout : ∀ a ∈ addrs, a ∉ upds.map TransData.m_addr := by
        intro a ha hmem
        obtain ⟨td, htd, rfl⟩ := List.mem_map.mp hmem
        exact hapart _ ha (hlive td htd)
      refine ⟨addrs, hnodup₂, hapart, fun b => ?_, ?_, hupds, fun b hb hdel hupd => ?_⟩
      · rw [hlive₃, hlive₂, hlive₁]
      · rw [← hins]
        exact List.map_congr_left fun a ha => hother₃ a (hout a ha)
      · have hstay := (hlive₁ b).mpr ⟨hb, hdel⟩
        rw [hother₃ b hupd, hother₂ b fun hmem => hapart b hmem ⟨hb, hdel⟩, hrecord₁ b hstay]
    · -- an exception of the updates is passed on, or another one is raised
      simp only [hu, undoCommit] at h
      split at h
      · cases h
      · split at h <;> cases h
  · simp only [hr, undoCommit] at h
    split at h
    · cases h
    · split at h <;> cases h

end BaseTable

namespace TransDataMgr

open BaseTable

variable {tbl : Table} {columns : List ColumnDef} {sc : Scanner tbl} {s : State tbl}
  {pool : List TransData} {a : ShmPosition} {c : Call tbl}

/-! ## The view becomes the table -/

/-- What the pool makes of the records at the given addresses, with the inserted records. -/
def view (s : State tbl) (pool : List TransData) (addrs : List ShmPosition) : Multiset Record :=
  Multiset.ofList (addrs.filterMap (image s pool)) +
    Multiset.ofList ((withType pool .insert).map TransData.m_newRecordValue)

/-- Leaving some out and mapping the rest can be done in two steps. -/
theorem filterMap_eq_map_filter {f : ShmPosition → Option Record} {keep : ShmPosition → Bool}
    {g : ShmPosition → Record} {l : List ShmPosition}
    (h : ∀ a ∈ l, f a = if keep a then some (g a) else none) :
    l.filterMap f = (l.filter keep).map g := by
  induction l with
  | nil => rfl
  | cons a rest ih =>
      have hrest := ih fun b hb => h b (List.mem_cons_of_mem a hb)
      have ha := h a List.mem_cons_self
      by_cases hkeep : keep a = true
      · rw [if_pos hkeep] at ha
        rw [List.filterMap_cons_some ha, List.filter_cons_of_pos hkeep, List.map_cons, hrest]
      · rw [if_neg hkeep] at ha
        rw [List.filterMap_cons_none ha, List.filter_cons_of_neg hkeep, hrest]

/-- The `TransData` of an address is the one that a phase of `commit` has for it. -/
theorem Buffered.match_of_mem (hb : Buffered s pool) (hnull : s.live nullShmPos = false)
    {td : TransData} (htd : td ∈ pool) (hop : td.m_operType ≠ .insert) :
    matchTransData pool td.m_addr = some td := by
  cases hmatch : matchTransData pool td.m_addr with
  | none =>
      have hfind := List.find?_eq_none.mp hmatch td htd
      simp at hfind
  | some td' =>
      obtain ⟨hmem', haddr⟩ := matchTransData_some hmatch
      obtain ⟨hop', -⟩ := hb.owned_of_match hnull (hb.owned td htd hop).1 hmatch
      have hsame := List.inj_on_of_nodup_map hb.once
        (List.mem_filter.mpr ⟨hmem', by simpa using hop'⟩)
        (List.mem_filter.mpr ⟨htd, by simpa using hop⟩) haddr
      rw [hsame]

/-- The addresses of a phase. -/
theorem Buffered.mem_phase (hb : Buffered s pool) (hnull : s.live nullShmPos = false)
    {op : OperType} (hop : op ≠ .insert) :
    a ∈ (withType pool op).map TransData.m_addr ↔
      ∃ td, matchTransData pool a = some td ∧ td.m_operType = op := by
  constructor
  · intro ha
    obtain ⟨td, htd, rfl⟩ := List.mem_map.mp ha
    obtain ⟨hmem, htype⟩ := List.mem_filter.mp htd
    have htype : td.m_operType = op := by simpa using htype
    exact ⟨td, hb.match_of_mem hnull hmem (by rw [htype]; exact hop), htype⟩
  · rintro ⟨td, hmatch, htype⟩
    obtain ⟨hmem, rfl⟩ := matchTransData_some hmatch
    exact List.mem_map_of_mem (List.mem_filter.mpr ⟨hmem, by simpa using htype⟩)

/-- **A commit that passes makes the view the contents of the table.** -/
theorem commit_contents {env : Env} (hb : Buffered s pool) (hnull : s.live nullShmPos = false)
    {addrs : List ShmPosition} (hnodup : addrs.Nodup) (haddrs : ∀ a, a ∈ addrs ↔ s.live a = true)
    (h : (commit env s pool).2 = none) : Contents (commit env s pool).1 (view s pool addrs) := by
  have hupds : ((withType pool .update).map TransData.m_addr).Nodup := by
    refine hb.once.sublist (List.Sublist.map _ ?_)
    refine List.monotone_filter_right pool fun td htd => ?_
    have htype : td.m_operType = .update := by simpa using htd
    simp [htype]
  have hlive : ∀ td ∈ withType pool .update, s.live td.m_addr = true ∧
      td.m_addr ∉ (withType pool .delete).map TransData.m_addr := by
    intro td htd
    obtain ⟨hmem, htype⟩ := List.mem_filter.mp htd
    have htype : td.m_operType = .update := by simpa using htype
    have hne : td.m_operType ≠ .insert := by simp [htype]
    refine ⟨(hb.owned td hmem hne).1, fun hdel => ?_⟩
    obtain ⟨td', hmatch, hdelete⟩ := (hb.mem_phase hnull (by decide)).mp hdel
    rw [hb.match_of_mem hnull hmem hne, Option.some.injEq] at hmatch
    rw [← hmatch, htype] at hdelete
    cases hdelete
  obtain ⟨news, hnews, hapart, hlive', hins, hupd, hkeep⟩ := commit_spec h hupds hlive
  generalize hdels : (withType pool .delete).map TransData.m_addr = dels at *
  have himage : ∀ a ∈ addrs, image s pool a
      = if decide (a ∉ dels) then some ((commit env s pool).1.record a) else none := by
    intro a ha
    have halive := (haddrs a).mp ha
    have hdelete : a ∈ dels ↔ ∃ td, matchTransData pool a = some td ∧ td.m_operType = .delete := by
      rw [← hdels]
      exact hb.mem_phase hnull (by decide)
    have hupdate : a ∈ (withType pool .update).map TransData.m_addr ↔
        ∃ td, matchTransData pool a = some td ∧ td.m_operType = .update :=
      hb.mem_phase hnull (by decide)
    -- a record that no phase touches
    have hstay : (∀ td, matchTransData pool a = some td → td.m_operType ≠ .delete ∧
        td.m_operType ≠ .update) → a ∉ dels ∧ (commit env s pool).1.record a = s.record a := by
      intro hother
      have hdel : a ∉ dels := fun hmem => by
        obtain ⟨td, hmatch, htype⟩ := hdelete.mp hmem
        exact (hother td hmatch).1 htype
      refine ⟨hdel, hkeep a halive hdel fun hmem => ?_⟩
      obtain ⟨td, hmatch, htype⟩ := hupdate.mp hmem
      exact (hother td hmatch).2 htype
    unfold image
    cases hmatch : matchTransData pool a with
    | none =>
        obtain ⟨hdel, hrecord⟩ := hstay (by simp [hmatch])
        simp [hdel, hrecord]
    | some td =>
        obtain ⟨hmem, haddr⟩ := matchTransData_some hmatch
        obtain ⟨hne, hold⟩ := hb.owned_of_match hnull halive hmatch
        dsimp only [outcome]
        cases hop : td.m_operType with
        | insert => exact absurd hop hne
        | delete =>
            have hdel : a ∈ dels := hdelete.mpr ⟨td, hmatch, hop⟩
            simp [hdel]
        | update =>
            have hdel : a ∉ dels := fun hdel => by
              obtain ⟨td', hmatch', htype⟩ := hdelete.mp hdel
              rw [hmatch, Option.some.injEq] at hmatch'
              rw [← hmatch', hop] at htype
              cases htype
            have hrecord := hupd td (List.mem_filter.mpr ⟨hmem, by simpa using hop⟩)
            rw [haddr] at hrecord
            simp [hdel, hrecord]
        | unchanged =>
            obtain ⟨hdel, hrecord⟩ := hstay (by simp [hmatch, hop])
            simp [hdel, hrecord, hold]
  refine ⟨addrs.filter (fun a => decide (a ∉ dels)) ++ news, ?_, fun a => ?_, ?_⟩
  · refine List.nodup_append.mpr ⟨hnodup.filter _, hnews, ?_⟩
    intro x hx y hy hxy
    obtain ⟨hmem, hdel⟩ := List.mem_filter.mp hx
    subst hxy
    exact hapart x hy ⟨(haddrs x).mp hmem, by simpa using hdel⟩
  · rw [List.mem_append, List.mem_filter, hlive', haddrs]
    simp
  · rw [List.map_append, hins, view, filterMap_eq_map_filter himage]
    rfl

/-! ## Transactions -/

/-- **A call does to the view what it means.** -/
theorem step_spec (hcons : Consistent s) (hnull : s.live nullShmPos = false)
    (hb : Buffered s pool) (hsep : Separate columns s pool c) {pool' : List TransData}
    (h : step columns sc s pool c = some pool') : Applied columns s pool c pool' := by
  cases hq : c.query with
  | some q => exact step_query_spec hcons hnull hb hsep hq h
  | none =>
      obtain ⟨r, rfl⟩ : ∃ r, c = .insert r := by
        cases c with
        | insert r => exact ⟨r, rfl⟩
        | _ => cases hq
      obtain rfl : pool ++ [inserted r] = pool' := Option.some.inj h
      refine ⟨⟨?_, ?_, ?_⟩, ?_, ?_⟩
      · intro td htd hop
        rcases List.mem_append.mp htd with htd | htd
        · exact hb.owned td htd hop
        · obtain rfl := List.mem_singleton.mp htd
          exact absurd rfl hop
      · intro td htd hop
        rcases List.mem_append.mp htd with htd | htd
        · exact hb.added td htd hop
        · obtain rfl := List.mem_singleton.mp htd
          rfl
      · have hfilter : ((pool ++ [inserted r]).filter fun td => td.m_operType ≠ .insert)
            = pool.filter fun td => td.m_operType ≠ .insert := by
          simp [inserted]
        rw [hfilter]
        exact hb.once
      · intro a ha
        have hne : (inserted r).m_addr ≠ a := by
          rintro rfl
          rw [show (inserted r).m_addr = nullShmPos from rfl, hnull] at ha
          cases ha
        have himage : image s (pool ++ [inserted r]) a = image s pool a := by
          unfold image
          rw [matchTransData_append, if_neg hne, Option.or_none]
        rw [himage]
        cases image s pool a <;> rfl
      · have hinserts : withType (pool ++ [inserted r]) .insert =
            withType pool .insert ++ [inserted r] := by
          simp [withType, inserted]
        rw [hinserts, List.map_append, ← Multiset.coe_add]
        rfl

/-- The images of the listed addresses after a call. -/
theorem Applied.view_eq {pool' : List TransData} (h : Applied columns s pool c pool')
    (hsep : Separate columns s pool c) {addrs : List ShmPosition}
    (haddrs : ∀ a, a ∈ addrs ↔ s.live a = true) :
    view s pool' addrs = c.run columns (view s pool addrs) := by
  have himages : addrs.filterMap (image s pool')
      = (addrs.filterMap (image s pool)).filterMap (c.apply columns) := by
    rw [List.filterMap_filterMap]
    exact List.filterMap_congr fun a ha => h.image_eq a ((haddrs a).mp ha)
  have hinserted : ((withType pool .insert).map TransData.m_newRecordValue).filterMap (c.apply columns)
      = (withType pool .insert).map TransData.m_newRecordValue := by
    rw [List.filterMap_map]
    rw [← List.filterMap_eq_map]
    refine List.filterMap_congr fun td htd => ?_
    obtain ⟨hmem, htype⟩ := List.mem_filter.mp htd
    exact apply_of_not_concerns (hsep.inserted td hmem (by simpa using htype))
  unfold view Call.run
  rw [himages, h.inserts, Multiset.filterMap_add, Multiset.filterMap_coe, Multiset.filterMap_coe,
    hinserted, add_assoc]

/-- **A transaction composes.**  If every call of the transaction leaves the earlier changes
alone, then after a successful commit the table is what the calls, applied one after the
other, make of its contents at the beginning. -/
theorem transaction_composes {env : Env} (hcons : Consistent s) (hnull : s.live nullShmPos = false)
    {m : Multiset Record} (hcontents : Contents s m) {calls : List (Call tbl)}
    (hmeets : Runs.Meets (step columns sc s) (Separate columns s) [] calls)
    (hrun : Runs.run (step columns sc s) [] calls = some pool)
    (hcommit : (commit env s pool).2 = none) :
    Contents (commit env s pool).1 (calls.foldl (Call.run columns) m) := by
  obtain ⟨addrs, hnodup, haddrs, rfl⟩ := hcontents
  have hempty : image s [] = some ∘ s.record := rfl
  have hstart : Buffered s ([] : List TransData) ∧
      view s [] addrs = Multiset.ofList (addrs.map s.record) := by
    refine ⟨⟨by simp, by simp, List.nodup_nil⟩, ?_⟩
    unfold view
    rw [hempty, List.filterMap_eq_map]
    exact add_zero _
  obtain ⟨hb, hview⟩ := Runs.run_simulates_of_meets
    (R := fun pool m => Buffered s pool ∧ view s pool addrs = m) (f := Call.run columns)
    (fun pool c pool' m hrel hsep h => by
      obtain ⟨hb, rfl⟩ := hrel
      have happlied := step_spec hcons hnull hb hsep h
      exact ⟨happlied.buffered, happlied.view_eq hsep haddrs⟩) hstart hmeets hrun
  rw [← hview]
  exact commit_contents hb hnull hnodup haddrs hcommit

/-! ## Two transactions on a table with one record -/

/-- Records of a key and two more bytes, with a unique hash index of one slot. -/
def pairTable : Table where
  m_indexNum := 1
  index _ := hashIndex 1 8 true
  getIndexKey _ r := r.take 1

def pairScanner : Scanner pairTable where
  scan _ := hashScan 1
  scan_spec := fun h a => hashScan_spec Nat.one_pos h a

/-- The columns `a` and `b`. -/
def pairColumns : List ColumnDef := [⟨[97], 1, 1, false⟩, ⟨[98], 2, 1, false⟩]

/-- Slot 0 holds the record of key 1. -/
def oneRecord : State pairTable where
  live a := decide (a = slot 0)
  record _ := [1, 0, 0]
  content _ := ⟨fun i => if i = 0 then [⟨slot 0, []⟩] else [], 7⟩
  m_recordNum := 1
  tick := 0

/-- The index of the table holds its one record. -/
theorem oneRecord_consistent : Consistent oneRecord := by
  intro i
  refine ⟨⟨fun j => ?_, fun a => ?_⟩, fun _ a b ha hb _ => ?_⟩
  · by_cases hj : j = 0
    · subst hj
      refine ⟨?_, ?_, ?_, ?_⟩
      · simp [oneRecord, IndexRows.Row.all]
      · simp [oneRecord, hashSlot, Nat.mod_one]
      · simp [oneRecord]
      · simp [oneRecord, IndexRows.Row.all]
    · have hempty : (oneRecord.content i).rows j = [] := if_neg hj
      rw [hempty]
      exact ⟨by simp, by simp, List.Pairwise.nil, List.nodup_nil⟩
  · constructor
    · intro ha
      have hslot : a = slot 0 := by simpa [oneRecord] using ha
      exact ⟨0, by simp [oneRecord, IndexRows.Row.all, hslot]⟩
    · rintro ⟨j, hj⟩
      by_cases hzero : j = 0
      · subst hzero
        have hslot : a = slot 0 := by simpa [oneRecord, IndexRows.Row.all] using hj
        simp [oneRecord, hslot]
      · simp [oneRecord, hzero] at hj
  · have ha' : a = slot 0 := by simpa [oneRecord] using ha
    have hb' : b = slot 0 := by simpa [oneRecord] using hb
    rw [ha', hb']

theorem oneRecord_contents : Contents oneRecord {[1, 0, 0]} :=
  ⟨[slot 0], by simp, by simp [oneRecord], rfl⟩

/-- The record of key 1. -/
def keyOne : Query pairTable := ⟨⟨0, Nat.one_pos⟩, some [1], none⟩

/-- Set column `a`, and insert a record of key 2. -/
def updateInsert : List (Call pairTable) := [.update keyOne [[97]] [[5]], .insert [2, 0, 0]]

def updateInsertPool : List TransData :=
  [⟨slot 0, [1, 0, 0], [1, 5, 0], .update⟩, inserted [2, 0, 0]]

/-- The calls do not meet what the transaction itself has changed. -/
theorem updateInsert_separate :
    Runs.Meets (step pairColumns pairScanner oneRecord) (Separate pairColumns oneRecord) []
      updateInsert := by
  refine ⟨⟨by simp, by simp, rfl, fun _ _ => List.pairwise_singleton _ _⟩,
    fun pool _ => ⟨?_, fun _ _ => trivial⟩⟩
  exact ⟨fun _ _ _ => rfl, fun _ _ _ => ⟨rfl, fun h => by cases h⟩, rfl, fun _ _ => List.Pairwise.nil⟩

/-- An update and an insertion, committed together. -/
theorem transaction_composes_updateInsert :
    (commit twoIdle oneRecord updateInsertPool).2 = none ∧
      Contents (commit twoIdle oneRecord updateInsertPool).1 {[1, 5, 0], [2, 0, 0]} := by
  have hcommit : (commit twoIdle oneRecord updateInsertPool).2 = none := by decide
  have hmeaning : updateInsert.foldl (Call.run pairColumns) {[1, 0, 0]} = {[1, 5, 0], [2, 0, 0]} := by
    decide
  refine ⟨hcommit, ?_⟩
  rw [← hmeaning]
  exact transaction_composes oneRecord_consistent (by decide) oneRecord_contents
    updateInsert_separate (by decide) hcommit

/-- Set column `a` and then column `b` of the same record. -/
def updateTwice : List (Call pairTable) :=
  [.update keyOne [[97]] [[5]], .update keyOne [[98]] [[7]]]

def updateTwicePool : List TransData := [⟨slot 0, [1, 0, 0], [1, 0, 7], .update⟩]

/-- The second update starts from the old image again, and the first one is lost. -/
theorem updateTwice_loses :
    ∃ (s : State pairTable) (m : Multiset Record) (calls : List (Call pairTable))
      (pool : List TransData) (env : Env),
      Consistent s ∧ s.live nullShmPos = false ∧ Contents s m ∧
      Runs.run (step pairColumns pairScanner s) [] calls = some pool ∧
      (commit env s pool).2 = none ∧
      ¬ Contents (commit env s pool).1 (calls.foldl (Call.run pairColumns) m) := by
  refine ⟨oneRecord, {[1, 0, 0]}, updateTwice, updateTwicePool, twoIdle, oneRecord_consistent,
    by decide, oneRecord_contents, by decide, by decide, ?_⟩
  rintro ⟨addrs, -, hlive, hrecords⟩
  have hmeaning : updateTwice.foldl (Call.run pairColumns) {[1, 0, 0]} = {[1, 5, 7]} := by decide
  have hmem : slot 0 ∈ addrs := (hlive (slot 0)).mpr (by decide)
  have hrecord : (commit twoIdle oneRecord updateTwicePool).1.record (slot 0) = [1, 0, 7] := by decide
  have hin : [1, 0, 7] ∈ ({[1, 5, 7]} : Multiset Record) := by
    rw [← hmeaning, hrecords, Multiset.mem_coe, ← hrecord]
    exact List.mem_map_of_mem hmem
  exact absurd hin (by decide)

end TransDataMgr
