import Boss.TransDataMgrCommit

/-!
# What a transaction reads

A selection of a transaction searches the table and its indexes, and only then takes the
`TransData` of the pool in place of the records that it found.  `getNextRec` hands out the
new images.  So a record that the transaction updated is found by its old image and handed
out as the new one, and a record that it inserted is not found at all.

`Own` says what the calls of a transaction mean while other sessions commit to the same
table: for every record that the calls changed what they made of it, and the inserted
records.  `select_reads_own_iff` says when a selection returns what this comes to.
-/

namespace TransDataMgr

open BaseTable
open MdbSession (passes)

variable {tbl : Table} {columns : List ColumnDef} {s : State tbl} {pool pool' : List TransData}
  {a : ShmPosition} {c : Call tbl} {q : Query tbl}

/-! ## The records of a selection -/

/-- `getNextRec` in a transaction: the new image, unless it is NULL, as long as no call
changed the record. -/
def nextRec (td : TransData) : Record :=
  if td.m_operType = .unchanged then td.m_oldRecordValue else td.m_newRecordValue

/-- The records that `getNextRec` hands out after `select`. -/
def returned (sc : Scanner tbl) (s : State tbl) (q : Query tbl) (pool : List TransData) :
    List Record :=
  let r := select sc s q pool
  r.1.filterMap fun a => (matchTransData r.2 a).map nextRec

/-- Indexes that list no address twice. -/
structure Lister (tbl : Table) extends Scanner tbl where
  select_once : ∀ {i keyOf live c}, (tbl.index i).Indexes keyOf live c →
    ∀ k, ((tbl.index i).select keyOf c k).Nodup
  scan_once : ∀ {i keyOf live c}, (tbl.index i).Indexes keyOf live c → (scan i c).Nodup

theorem hashScan_once {m_hashSize perPage : Nat} {m_isUnique : Bool}
    {keyOf : ShmPosition → Key} {live : ShmPosition → Prop} {c : HashContent}
    (h : (hashIndex m_hashSize perPage m_isUnique).Indexes keyOf live c) :
    (hashScan m_hashSize c).Nodup := by
  refine List.nodup_flatMap.mpr ⟨fun i _ => (h.1.slot i).once, ?_⟩
  have hrange : (List.range' 0 m_hashSize).Nodup := List.nodup_range'
  refine hrange.imp fun hne b hb hb' => hne ?_
  rw [h.1.slot_of_mem hb, h.1.slot_of_mem hb']

/-! ## What the calls mean -/

/-- What a transaction has made of records, `none` for a deletion, and what it inserted. -/
structure Own where
  changed : ShmPosition → Option (Option Record)
  added : Multiset Record

namespace Own

def nothing : Own := ⟨fun _ => none, 0⟩

/-- A record of the table as the transaction has it. -/
def current (o : Own) (s : State tbl) (a : ShmPosition) : Option Record :=
  (o.changed a).getD (some (s.record a))

/-- A call applied to the table as the transaction has it. -/
def call (columns : List ColumnDef) (s : State tbl) (o : Own) (c : Call tbl) : Own where
  changed a :=
    let r := (o.current s a).bind (c.apply columns)
    if s.live a = true ∧ r ≠ o.current s a then some r else o.changed a
  added := o.added.filterMap (c.apply columns) + c.added

/-- The contents of the table with the changes of the transaction, `addrs` being the live
addresses. -/
def contents (o : Own) (s : State tbl) (addrs : List ShmPosition) : Multiset Record :=
  Multiset.ofList (addrs.filterMap (o.current s)) + o.added

end Own

/-- The table and the pool of a transaction. -/
structure World (tbl : Table) where
  table : State tbl
  pool : List TransData

inductive Event (tbl : Table)
  | own (c : Call tbl)
  /-- Other sessions commit. -/
  | others (table : State tbl)

def happen (columns : List ColumnDef) (sc : Scanner tbl) (w : World tbl) :
    Event tbl → Option (World tbl)
  | .own c => (step columns sc w.table w.pool c).map fun pool => { w with pool := pool }
  | .others table => some { w with table := table }

def meant (columns : List ColumnDef) (x : State tbl × Own) : Event tbl → State tbl × Own
  | .own c => (x.1, x.2.call columns x.1 c)
  | .others table => (table, x.2)

/-- Other sessions leave an intact table, and the records that the transaction has locked
as they are. -/
structure KeepsLocked (w : World tbl) (table : State tbl) : Prop where
  consistent : Consistent table
  null : table.live nullShmPos = false
  locked : ∀ td ∈ w.pool, td.m_operType ≠ .insert →
    table.live td.m_addr = true ∧ table.record td.m_addr = w.table.record td.m_addr

/-- The calls of the transaction do not meet its earlier changes. -/
def Clear (columns : List ColumnDef) (w : World tbl) : Event tbl → Prop
  | .own c => Separate columns w.table w.pool c
  | .others table => KeepsLocked w table

/-- **The selection does not meet changes of its transaction**: no inserted record meets the
query, and an updated record meets it by both of its images or by none. -/
structure ReadsSame (pool : List TransData) (q : Query tbl) : Prop where
  inserted : ∀ td ∈ pool, td.m_operType = .insert → q.meets td.m_newRecordValue = false
  updated : ∀ td ∈ pool, td.m_operType = .update →
    q.meets td.m_oldRecordValue = q.meets td.m_newRecordValue

/-! ## The pool during a transaction -/

theorem matchTransData_ne_none : matchTransData pool a ≠ none ↔ ∃ td ∈ pool, td.m_addr = a := by
  rw [Option.ne_none_iff_isSome, matchTransData, List.find?_isSome]
  simp

/-- A selection puts results and `TransData` behind those that there are. -/
theorem selectRound_append (cExpr : Option (Record → Bool)) (l : List ShmPosition)
    (acc : List ShmPosition × List TransData) :
    ∃ l' new, l'.Sublist l ∧
      l.foldl (selectRound s cExpr) acc = (acc.1 ++ l', acc.2 ++ new) := by
  induction l generalizing acc with
  | nil => exact ⟨[], [], List.Sublist.slnil, by simp⟩
  | cons a rest ih =>
      obtain ⟨l₁, new₁, hsub₁, hround⟩ : ∃ l₁ new₁, l₁.Sublist [a] ∧
          selectRound s cExpr acc a = (acc.1 ++ l₁, acc.2 ++ new₁) := by
        unfold selectRound
        split
        · split
          · exact ⟨[], [], by simp, by simp⟩
          · split
            · exact ⟨[a], [], List.Sublist.refl _, by simp⟩
            · exact ⟨[], [], by simp, by simp⟩
        · split
          · exact ⟨[a], [selected s a], List.Sublist.refl _, rfl⟩
          · exact ⟨[], [], by simp, by simp⟩
      obtain ⟨l₂, new₂, hsub₂, hrest⟩ := ih (acc.1 ++ l₁, acc.2 ++ new₁)
      refine ⟨l₁ ++ l₂, new₁ ++ new₂, hsub₁.append hsub₂, ?_⟩
      rw [List.foldl_cons, hround, hrest, List.append_assoc, List.append_assoc]

/-- A call keeps the `TransData` of every address. -/
theorem step_entries {sc : Scanner tbl} (h : step columns sc s pool c = some pool')
    (hentry : matchTransData pool a ≠ none) : matchTransData pool' a ≠ none := by
  obtain ⟨td, htd, rfl⟩ := matchTransData_ne_none.mp hentry
  cases hq : c.query with
  | none =>
      cases c with
      | insert r =>
          obtain rfl : pool ++ [inserted r] = pool' := Option.some.inj h
          exact matchTransData_ne_none.mpr ⟨td, List.mem_append_left _ htd, rfl⟩
      | _ => cases hq
  | some q =>
      rw [step_query hq h]
      obtain ⟨l', new, -, hselect⟩ := selectRound_append (s := s) q.cExpr (q.found sc s) ([], pool)
      have hmem : td ∈ (select sc s q pool).2 := by
        rw [select, hselect]
        exact List.mem_append_left _ htd
      refine matchTransData_ne_none.mpr ⟨_, List.mem_map_of_mem hmem, ?_⟩
      split
      · exact change_addr c td
      · rfl

/-- The pool says of the table what the calls of the transaction mean. -/
structure Tracks (w : World tbl) (x : State tbl × Own) : Prop where
  table : w.table = x.1
  consistent : Consistent w.table
  null : w.table.live nullShmPos = false
  buffered : Buffered w.table w.pool
  image_eq : ∀ a, w.table.live a = true → image w.table w.pool a = x.2.current w.table a
  added : ((withType w.pool .insert).map TransData.m_newRecordValue : Multiset Record) = x.2.added
  entries : ∀ a, x.2.changed a ≠ none → matchTransData w.pool a ≠ none

theorem Own.current_call (o : Own) (c : Call tbl) (ha : s.live a = true) :
    (o.call columns s c).current s a = (o.current s a).bind (c.apply columns) := by
  unfold Own.call
  by_cases hsame : (o.current s a).bind (c.apply columns) = o.current s a
  · simp only [Own.current, ha, true_and] at hsame ⊢
    rw [if_neg (by simpa using hsame), hsame]
  · simp only [Own.current, ha, true_and] at hsame ⊢
    rw [if_pos hsame]
    rfl

/-- **A call.** -/
theorem Tracks.own {w : World tbl} {x : State tbl × Own} {sc : Scanner tbl} (h : Tracks w x)
    (hsep : Separate columns w.table w.pool c)
    (hstep : step columns sc w.table w.pool c = some pool') :
    Tracks { w with pool := pool' } (meant columns x (.own c)) := by
  have happlied := step_spec h.consistent h.null h.buffered hsep hstep
  have htable := h.table
  refine ⟨htable, h.consistent, h.null, happlied.buffered, fun a ha => ?_, ?_, fun a ha => ?_⟩
  · rw [happlied.image_eq a ha, h.image_eq a ha]
    show _ = (x.2.call columns x.1 c).current w.table a
    rw [← htable, Own.current_call x.2 c ha]
  · -- no inserted record is met by the call
    have hinserted : x.2.added.filterMap (c.apply columns) = x.2.added := by
      rw [← h.added, Multiset.filterMap_coe, List.filterMap_map, ← List.filterMap_eq_map]
      refine congrArg Multiset.ofList (List.filterMap_congr fun td htd => ?_)
      obtain ⟨hmem, htype⟩ := List.mem_filter.mp htd
      exact apply_of_not_concerns (hsep.inserted td hmem (by simpa using htype))
    show _ = x.2.added.filterMap (c.apply columns) + c.added
    rw [happlied.inserts, h.added, hinserted]
  · intro hnone
    have hbefore : matchTransData w.pool a = none := by
      by_contra hentry
      exact step_entries hstep hentry hnone
    have hchanged : x.2.changed a = none := by
      by_contra hsome
      exact h.entries a hsome hbefore
    apply ha
    show (x.2.call columns x.1 c).changed a = none
    unfold Own.call
    dsimp only
    rw [← htable]
    refine (if_neg fun hboth => hboth.2 ?_).trans hchanged
    rw [← h.image_eq a hboth.1, ← happlied.image_eq a hboth.1]
    simp only [image, hnone, hbefore]

/-- **Other sessions commit.** -/
theorem Tracks.others {w : World tbl} {x : State tbl × Own} (h : Tracks w x) {table : State tbl}
    (hkeeps : KeepsLocked w table) :
    Tracks { w with table := table } (meant columns x (.others table)) := by
  refine ⟨rfl, hkeeps.consistent, hkeeps.null, ⟨fun td htd hop => ?_, h.buffered.added,
    h.buffered.once⟩, fun a ha => ?_, h.added, h.entries⟩
  · obtain ⟨hlive, hrecord⟩ := hkeeps.locked td htd hop
    exact ⟨hlive, by rw [(h.buffered.owned td htd hop).2, hrecord]⟩
  · show image table w.pool a = x.2.current table a
    cases hmatch : matchTransData w.pool a with
    | none =>
        have hchanged : x.2.changed a = none := by
          by_contra hsome
          exact h.entries a hsome hmatch
        simp [image, hmatch, Own.current, hchanged]
    | some td =>
        obtain ⟨hmem, rfl⟩ := matchTransData_some hmatch
        have hop : td.m_operType ≠ .insert := by
          intro hinsert
          rw [h.buffered.added td hmem hinsert, hkeeps.null] at ha
          cases ha
        have himage := h.image_eq _ (h.buffered.owned td hmem hop).1
        simp only [image, hmatch, Own.current] at himage ⊢
        rw [himage, (hkeeps.locked td hmem hop).2]

theorem Tracks.run {sc : Scanner tbl} {s₀ : State tbl} (hcons : Consistent s₀)
    (hnull : s₀.live nullShmPos = false) {events : List (Event tbl)} {w : World tbl}
    (hclear : Runs.Meets (happen columns sc) (Clear columns) ⟨s₀, []⟩ events)
    (hrun : Runs.run (happen columns sc) ⟨s₀, []⟩ events = some w) :
    Tracks w (events.foldl (meant columns) (s₀, Own.nothing)) := by
  have hstart : Tracks (⟨s₀, []⟩ : World tbl) (s₀, Own.nothing) :=
    ⟨rfl, hcons, hnull, ⟨by simp, by simp, by simp⟩, fun _ _ => rfl, rfl,
      fun a ha => absurd rfl ha⟩
  refine Runs.run_simulates_of_meets ?_ hstart hclear hrun
  intro w e w' x h hclear hstep
  cases e with
  | own c =>
      obtain ⟨pool', hpool, rfl⟩ := Option.map_eq_some_iff.mp hstep
      exact h.own hclear hpool
  | others table =>
      obtain rfl := Option.some.inj hstep
      exact h.others hclear

/-! ## Selections -/

/-- The results of a selection, as records of the transaction. -/
theorem returned_eq (l : Lister tbl) (hcons : Consistent s) (hnull : s.live nullShmPos = false)
    (hb : Buffered s pool) (q : Query tbl) {addrs : List ShmPosition} (hnodup : addrs.Nodup)
    (haddrs : ∀ a, a ∈ addrs ↔ s.live a = true) :
    (returned l.toScanner s q pool : Multiset Record) =
      addrs.filterMap fun a => if q.meets (s.record a) then image s pool a else none := by
  have hsel : Selecting s pool q.cExpr (q.found l.toScanner s) (select l.toScanner s q pool) :=
    select_selecting hb hnull q fun a ha => ((found_iff hcons q).mp ha).1
  have honce : (select l.toScanner s q pool).1.Nodup := by
    obtain ⟨l', new, hsub, hselect⟩ :=
      selectRound_append (s := s) q.cExpr (q.found l.toScanner s) ([], pool)
    rw [select, hselect, List.nil_append]
    refine List.Nodup.sublist hsub ?_
    unfold Query.found
    cases q.key with
    | none => exact l.scan_once (hcons q.index)
    | some k => exact l.select_once (hcons q.index) k
  have hlive : ∀ a ∈ (select l.toScanner s q pool).1, s.live a = true := fun a ha =>
    ((found_iff hcons q).mp ((hsel.results a).mp ha).1).1
  -- the record that is handed out is what the transaction has made of it
  have hrecords : returned l.toScanner s q pool =
      (select l.toScanner s q pool).1.filterMap (image s pool) := by
    refine List.filterMap_congr fun a ha => ?_
    obtain ⟨td, htd⟩ := Option.ne_none_iff_exists'.mp (hsel.entries a ha)
    obtain ⟨hop, -⟩ := hsel.buffered.owned_of_match hnull (hlive a ha) htd
    have hsome := ((hsel.results a).mp ha).2.1
    have himage := hsel.image_eq a
    rw [← himage] at hsome ⊢
    simp only [image, htd, outcome, nextRec, Option.map_some] at hsome ⊢
    cases htype : td.m_operType with
    | delete => simp [htype] at hsome
    | insert => exact absurd htype hop
    | update => simp
    | unchanged => simp
  have hperm : (select l.toScanner s q pool).1.Perm
      (addrs.filter fun a => q.meets (s.record a) && (image s pool a).isSome) := by
    refine (List.perm_ext_iff_of_nodup honce (hnodup.filter _)).mpr fun a => ?_
    rw [List.mem_filter, haddrs, Bool.and_eq_true, Option.isSome_iff_ne_none]
    constructor
    · intro ha
      exact ⟨hlive a ha, (hsel.result_iff hcons (hlive a ha)).mp ha⟩
    · rintro ⟨ha, hboth⟩
      exact (hsel.result_iff hcons ha).mpr hboth
  rw [hrecords, Multiset.coe_eq_coe]
  refine (hperm.filterMap _).trans (List.Perm.of_eq ?_)
  rw [List.filterMap_filter]
  refine List.filterMap_congr fun a _ => ?_
  by_cases hmeets : q.meets (s.record a) = true
  · cases himage : image s pool a <;> simp [hmeets]
  · simp [hmeets]

/-- Two ways to pick records of the same list, the second one with more records `m`: they
give the same if and only if they pick the same and there are no more. -/
theorem picks_iff {α β : Type*} {l : List α} {f g : α → Option β} {m : Multiset β}
    (hle : ∀ a ∈ l, f a ≠ none → g a = f a) :
    ((l.filterMap f : List β) : Multiset β) = (l.filterMap g : List β) + m ↔
      (∀ a ∈ l, f a = g a) ∧ m = 0 := by
  constructor
  · intro heq
    have hlength : ∀ l : List α, (∀ a ∈ l, f a ≠ none → g a = f a) →
        (l.filterMap f).length ≤ (l.filterMap g).length ∧
        ((l.filterMap g).length ≤ (l.filterMap f).length → ∀ a ∈ l, f a = g a) := by
      intro l
      induction l with
      | nil => simp
      | cons a rest ih =>
          intro hle
          obtain ⟨hless, hsame⟩ := ih fun b hb => hle b (List.mem_cons_of_mem a hb)
          have ha := hle a List.mem_cons_self
          cases hf : f a with
          | none =>
              cases hg : g a with
              | none =>
                  rw [List.filterMap_cons_none hf, List.filterMap_cons_none hg]
                  refine ⟨hless, fun hge b hb => ?_⟩
                  rcases List.mem_cons.mp hb with rfl | hb
                  · rw [hf, hg]
                  · exact hsame hge b hb
              | some y =>
                  rw [List.filterMap_cons_none hf, List.filterMap_cons_some hg, List.length_cons]
                  exact ⟨by omega, fun hge => by omega⟩
          | some x =>
              have hg := ha (by simp [hf])
              rw [hf] at hg
              rw [List.filterMap_cons_some hf, List.filterMap_cons_some hg, List.length_cons,
                List.length_cons]
              refine ⟨by omega, fun hge b hb => ?_⟩
              rcases List.mem_cons.mp hb with rfl | hb
              · rw [hf, hg]
              · exact hsame (by omega) b hb
    have hcard := congrArg Multiset.card heq
    rw [Multiset.card_add, Multiset.coe_card, Multiset.coe_card] at hcard
    obtain ⟨hless, hsame⟩ := hlength l hle
    exact ⟨hsame (by omega), Multiset.card_eq_zero.mp (by omega)⟩
  · rintro ⟨hsame, rfl⟩
    rw [add_zero, List.filterMap_congr hsame]

/-- The condition, address by address. -/
theorem readsSame_iff (hb : Buffered s pool) (hnull : s.live nullShmPos = false) (q : Query tbl) :
    ReadsSame pool q ↔
      (∀ a, s.live a = true → (if q.meets (s.record a) then image s pool a else none) =
        (image s pool a).filter q.meets) ∧
      ((withType pool .insert).map TransData.m_newRecordValue : Multiset Record).filter
        (fun r => q.meets r = true) = 0 := by
  have hadded : ((withType pool .insert).map TransData.m_newRecordValue : Multiset Record).filter
        (fun r => q.meets r = true) = 0 ↔
      ∀ td ∈ pool, td.m_operType = .insert → q.meets td.m_newRecordValue = false := by
    rw [Multiset.filter_eq_nil]
    constructor
    · intro hnone td htd htype
      have hmem : td ∈ withType pool .insert := List.mem_filter.mpr ⟨htd, by simpa using htype⟩
      simpa using hnone td.m_newRecordValue (List.mem_map_of_mem hmem)
    · intro hnone r hr
      obtain ⟨td, htd, rfl⟩ := List.mem_map.mp hr
      obtain ⟨hmem, htype⟩ := List.mem_filter.mp htd
      simpa using hnone td hmem (by simpa using htype)
  rw [hadded]
  constructor
  · rintro ⟨hinserted, hupdated⟩
    refine ⟨fun a ha => ?_, hinserted⟩
    have hsame : ∀ r, image s pool a = some r → q.meets (s.record a) = q.meets r := by
      intro r hr
      unfold image at hr
      cases hmatch : matchTransData pool a with
      | none =>
          rw [hmatch] at hr
          rw [Option.some.inj hr]
      | some td =>
          obtain ⟨hne, hold⟩ := hb.owned_of_match hnull ha hmatch
          rw [hmatch] at hr
          dsimp only [outcome] at hr
          cases htype : td.m_operType with
          | delete => simp [htype] at hr
          | insert => exact absurd htype hne
          | update =>
              simp only [htype, Option.some.injEq] at hr
              rw [← hold, ← hr]
              exact hupdated td (matchTransData_some hmatch).1 htype
          | unchanged =>
              simp only [htype, Option.some.injEq] at hr
              rw [← hold, hr]
    cases himage : image s pool a with
    | none => simp
    | some r =>
        rw [hsame r himage]
        rfl
  · rintro ⟨hsame, hinserted⟩
    refine ⟨hinserted, fun td htd htype => ?_⟩
    have hne : td.m_operType ≠ .insert := by simp [htype]
    obtain ⟨hlive, hold⟩ := hb.owned td htd hne
    have himage : image s pool td.m_addr = some td.m_newRecordValue := by
      unfold image outcome
      rw [hb.match_of_mem hnull htd hne]
      simp [htype]
    have hpick := hsame td.m_addr hlive
    rw [himage, ← hold, Option.filter_some] at hpick
    cases hnew : q.meets td.m_newRecordValue <;> cases hmeets : q.meets td.m_oldRecordValue <;>
      simp_all

/-- **A selection in a transaction.**  After any calls of the transaction that leave its
earlier changes alone, with commits of other sessions between them, a selection returns
exactly the records of the table with the changes of the transaction that meet the query,
if and only if it does not meet one of these changes. -/
theorem select_reads_own_iff (l : Lister tbl) {s₀ : State tbl} (hcons : Consistent s₀)
    (hnull : s₀.live nullShmPos = false) {events : List (Event tbl)} {w : World tbl}
    (hclear : Runs.Meets (happen columns l.toScanner) (Clear columns) ⟨s₀, []⟩ events)
    (hrun : Runs.run (happen columns l.toScanner) ⟨s₀, []⟩ events = some w) (q : Query tbl)
    {addrs : List ShmPosition} (hnodup : addrs.Nodup)
    (haddrs : ∀ a, a ∈ addrs ↔ w.table.live a = true) :
    (returned l.toScanner w.table q w.pool : Multiset Record) =
        ((events.foldl (meant columns) (s₀, Own.nothing)).2.contents w.table addrs).filter
          (fun r => q.meets r = true) ↔
      ReadsSame w.pool q := by
  have htracks := Tracks.run hcons hnull hclear hrun
  generalize events.foldl (meant columns) (s₀, Own.nothing) = x at htracks
  have hcontents : (x.2.contents w.table addrs).filter (fun r => q.meets r = true) =
      ((addrs.filterMap fun a => (image w.table w.pool a).filter q.meets : List Record) :
        Multiset Record) + x.2.added.filter fun r => q.meets r = true := by
    rw [Own.contents, Multiset.filter_add]
    congr 1
    rw [Multiset.filter_coe, List.filter_filterMap]
    refine congrArg Multiset.ofList (List.filterMap_congr fun a ha => ?_)
    rw [htracks.image_eq a ((haddrs a).mp ha)]
    cases x.2.current w.table a <;> simp [Option.filter]
  rw [← htracks.added] at hcontents
  rw [hcontents, returned_eq l htracks.consistent htracks.null htracks.buffered q hnodup haddrs,
    readsSame_iff htracks.buffered htracks.null]
  constructor
  · intro heq
    -- whatever is returned meets the query
    have hall : ∀ a ∈ addrs, (if q.meets (w.table.record a) then image w.table w.pool a else none) ≠
        none → (image w.table w.pool a).filter q.meets =
          if q.meets (w.table.record a) then image w.table w.pool a else none := by
      intro a ha hne
      obtain ⟨r, hr⟩ := Option.ne_none_iff_exists'.mp hne
      have hmem : r ∈ ((addrs.filterMap fun a =>
          if q.meets (w.table.record a) then image w.table w.pool a else none : List Record) :
            Multiset Record) := List.mem_filterMap.mpr ⟨a, ha, hr⟩
      rw [heq, ← hcontents, Multiset.mem_filter] at hmem
      rw [hr]
      split at hr
      · rw [hr, Option.filter_some, if_pos hmem.2]
      · cases hr
    obtain ⟨hsame, hnone⟩ := (picks_iff hall).mp heq
    exact ⟨fun a ha => hsame a ((haddrs a).mpr ha), hnone⟩
  · rintro ⟨hsame, hnone⟩
    rw [hnone, add_zero, List.filterMap_congr fun a ha => hsame a ((haddrs a).mp ha)]

/-! ## Two selections on a table with one record -/

def pairLister : Lister pairTable where
  toScanner := pairScanner
  select_once := fun h k => (h.1.select_spec k).1
  scan_once := fun h => hashScan_once h

/-- Set column `a` of the record 1 and insert a record of key 2. -/
def updateInsertEvents : List (Event pairTable) := updateInsert.map .own

theorem updateInsertEvents_clear :
    Runs.Meets (happen pairColumns pairScanner) (Clear pairColumns) ⟨oneRecord, []⟩
      updateInsertEvents := by
  refine ⟨⟨by simp, by simp, rfl, fun _ _ => List.pairwise_singleton _ _⟩,
    fun w hw => ⟨?_, fun _ _ => trivial⟩⟩
  exact ⟨fun _ _ _ => rfl, fun _ _ _ => ⟨rfl, fun h => by cases h⟩, rfl, fun _ _ => List.Pairwise.nil⟩

/-- The record 1 is found and handed out as it is after the update. -/
theorem select_reads_own_iff_keyOne :
    (returned pairScanner oneRecord keyOne updateInsertPool : Multiset Record) = {[1, 5, 0]} := by
  have hmeaning : ((updateInsertEvents.foldl (meant pairColumns) (oneRecord, Own.nothing)).2.contents
      oneRecord [slot 0]).filter (fun r => keyOne.meets r = true) = {[1, 5, 0]} := by decide
  have hrun : Runs.run (happen pairColumns pairScanner) ⟨oneRecord, []⟩ updateInsertEvents =
      some ⟨oneRecord, updateInsertPool⟩ := rfl
  refine ((select_reads_own_iff pairLister oneRecord_consistent (by decide)
    updateInsertEvents_clear hrun keyOne (List.nodup_singleton (slot 0)) ?_).mpr
    ⟨by decide, by decide⟩).trans hmeaning
  intro a
  simp [oneRecord]

/-- The record of key 2. -/
def keyTwo : Query pairTable := ⟨⟨0, Nat.one_pos⟩, some [2], none⟩

/-- The inserted record is not found. -/
theorem select_misses_own :
    ∃ (s : State pairTable) (events : List (Event pairTable)) (w : World pairTable)
      (q : Query pairTable) (addrs : List ShmPosition),
      Consistent s ∧ s.live nullShmPos = false ∧
      Runs.run (happen pairColumns pairScanner) ⟨s, []⟩ events = some w ∧
      addrs.Nodup ∧ (∀ a, a ∈ addrs ↔ w.table.live a = true) ∧
      (returned pairScanner w.table q w.pool : Multiset Record) ≠
        ((events.foldl (meant pairColumns) (s, Own.nothing)).2.contents w.table addrs).filter
          (fun r => q.meets r = true) := by
  refine ⟨oneRecord, updateInsertEvents, ⟨oneRecord, updateInsertPool⟩, keyTwo, [slot 0],
    oneRecord_consistent, by decide, rfl, List.nodup_singleton _, ?_, by decide⟩
  intro a
  simp [oneRecord]

end TransDataMgr
