import Boss.IndexRows

/-!
# Insertions into the rows that are taken back

A batch of addresses goes into the rows of a hash index one after the other and is taken
out again in the reverse order.  In between the records may have lost their bytes, so a
row may have another key than the one that it was found by.  An address of the batch is
the head of a row only if it opened that row: further addresses go behind the head, and
what went in behind it is taken out before it.  So the deletions find their entries
exactly when the addresses that opened a row still read as their keys.

Main result: `Stacked.takeBack_iff`.
-/

namespace IndexRows

variable {A K : Type*} [DecidableEq A] [DecidableEq K] {keyOf keyOf' : A → K} {slotOf : K → Nat}
  {live : A → Prop} {rows rows' : Rows A} {done earlier later : List A} {a : A} {k : K}
  {isUnique space : Bool}

/-- Nothing that is live and nothing of the batch before `a` has its key. -/
def Opens (keyOf : A → K) (live : A → Prop) (earlier : List A) (a : A) : Prop :=
  (∀ b, live b → keyOf b ≠ keyOf a) ∧ ∀ b ∈ earlier, keyOf b ≠ keyOf a

/-- The addresses that opened a row read the same through `keyOf'`.  The batch `done` has
its latest address first. -/
def OpenersRead (keyOf keyOf' : A → K) (live : A → Prop) (done : List A) : Prop :=
  ∀ later a earlier, done = later ++ a :: earlier → Opens keyOf live earlier a →
    keyOf' a = keyOf a

/-- The live addresses and a batch behind them. -/
structure Stacked (keyOf : A → K) (slotOf : K → Nat) (live : A → Prop) (done : List A)
    (rows : Rows A) : Prop where
  indexed : WellIndexed keyOf slotOf (fun b => live b ∨ b ∈ done) rows
  heads : ∀ i, ∀ r ∈ rows i, live r.head ∨
    ∃ later earlier, done = later ++ r.head :: earlier ∧ Opens keyOf live earlier r.head
  fresh : ∀ a ∈ done, ¬ live a
  nodup : done.Nodup

omit [DecidableEq A] [DecidableEq K] in
theorem Stacked.nil (h : WellIndexed keyOf slotOf live rows) :
    Stacked keyOf slotOf live [] rows where
  indexed := h.of_iff (by simp)
  heads := fun i r hr => .inl ((h.indexed _).mpr ⟨i, mem_flat.mpr ⟨r, hr, r.head_mem_all⟩⟩)
  fresh := by simp
  nodup := List.nodup_nil

omit [DecidableEq A] in
/-- **One more address.**  It opens a row or goes behind the head of one. -/
theorem Stacked.insert (h : Stacked keyOf slotOf live done rows) (hnew : ¬ live a)
    (hdone : a ∉ done)
    (hins : IndexRows.insert keyOf slotOf isUnique space rows (keyOf a) a = .ok rows') :
    Stacked keyOf slotOf live (a :: done) rows' := by
  have hindexed := h.indexed.insert_ok (by simp [hnew, hdone]) hins
  refine ⟨hindexed.of_iff fun b => ?_, fun i r hr => ?_, ?_, List.nodup_cons.mpr ⟨hdone, h.nodup⟩⟩
  · rw [List.mem_cons]
    tauto
  · -- the heads are the old ones and, where a row was opened, the address
    have hold : ∀ r : Row A, (∃ i, ∃ r' ∈ rows i, r'.head = r.head) → live r.head ∨
        ∃ later earlier, a :: done = later ++ r.head :: earlier ∧
          Opens keyOf live earlier r.head := by
      rintro r ⟨i, r', hr', hhead⟩
      rw [← hhead]
      refine (h.heads i r' hr').imp_right ?_
      rintro ⟨later, earlier, hsplit, hopens⟩
      exact ⟨a :: later, earlier, by rw [hsplit, List.cons_append], hopens⟩
    unfold IndexRows.insert at hins
    by_cases hi : i = slotOf (keyOf a)
    · subst hi
      cases hadd : addToRow keyOf (keyOf a) a (rows (slotOf (keyOf a))) with
      | none =>
          rw [hadd] at hins
          cases space <;> cases hins
          rw [Function.update_self] at hr
          rcases List.mem_cons.mp hr with rfl | hr
          · have hno : ∀ b, live b ∨ b ∈ done → keyOf b ≠ keyOf a := by
              intro b hb hkey
              obtain ⟨r, hr, hrkey, -⟩ := h.indexed.live_iff.mp hb
              rw [hkey] at hr hrkey
              exact addToRow_none.mp hadd r hr hrkey
            exact .inr ⟨[], done, rfl, fun b hb => hno b (.inl hb), fun b hb => hno b (.inr hb)⟩
          · exact hold r ⟨_, r, hr, rfl⟩
      | some l =>
          rw [hadd] at hins
          obtain ⟨pre, r₀, post, hrows, -, rfl, -⟩ := addToRow_some hadd
          cases isUnique <;> cases space <;> cases hins
          rw [Function.update_self] at hr
          rcases List.mem_append.mp hr with hr | hr
          · exact hold r ⟨slotOf (keyOf a), r, by simp [hrows, hr], rfl⟩
          · rcases List.mem_cons.mp hr with rfl | hr
            · exact hold _ ⟨slotOf (keyOf a), r₀, by simp [hrows], rfl⟩
            · exact hold r ⟨slotOf (keyOf a), r, by simp [hrows, hr], rfl⟩
    · refine hold r ⟨i, r, ?_, rfl⟩
      split at hins
      · cases isUnique <;> cases space <;> cases hins
        rwa [Function.update_of_ne hi] at hr
      · cases space <;> cases hins
        rwa [Function.update_of_ne hi] at hr
  · intro b hb
    rcases List.mem_cons.mp hb with rfl | hb
    · exact hnew
    · exact h.fresh b hb

omit [DecidableEq A] [DecidableEq K] in
/-- The row of the latest address, when it is the head: it has nothing behind it. -/
theorem Stacked.alone (h : Stacked keyOf slotOf live (a :: done) rows) {i : Nat} {r : Row A}
    (hr : r ∈ rows i) (hhead : r.head = a) : r.all = [a] := by
  have hslot := h.indexed.slot i
  have hopens : Opens keyOf live done a := by
    rcases h.heads i r hr with hlive | ⟨later, earlier, hsplit, hopens⟩
    · exact absurd (hhead ▸ hlive) (h.fresh a List.mem_cons_self)
    · rw [hhead] at hsplit hopens
      cases later with
      | nil => rwa [(List.cons.inj hsplit).2]
      | cons b later =>
          have hmem : a ∈ done := by simp [(List.cons.inj hsplit).2]
          exact absurd hmem (List.nodup_cons.mp h.nodup).1
  have htail : r.tail = [] := by
    refine List.eq_nil_iff_forall_not_mem.mpr fun b hb => ?_
    have hball : b ∈ r.all := List.mem_cons_of_mem _ hb
    have hkey : keyOf b = keyOf a := hhead ▸ hslot.same_key r hr b hball
    have hne : b ≠ a := by
      rintro rfl
      have honce := hslot.once
      rw [flat, List.nodup_flatMap] at honce
      exact (List.nodup_cons.mp (honce.1 r hr)).1 (hhead ▸ hb)
    rcases (h.indexed.indexed b).mpr ⟨i, mem_flat.mpr ⟨r, hr, hball⟩⟩ with hlive | hmem
    · exact hopens.1 b hlive hkey
    · exact hopens.2 b ((List.mem_cons.mp hmem).resolve_left hne) hkey
  rw [Row.all, htail, hhead]

/-- **The latest address is taken out**, if the heads of the rows read as their keys. -/
theorem Stacked.delete (h : Stacked keyOf slotOf live (a :: done) rows)
    (hlive : ∀ b, live b → keyOf' b = keyOf b)
    (hopeners : OpenersRead keyOf keyOf' live (a :: done)) :
    Stacked keyOf slotOf live done (deleteIdx keyOf' slotOf rows (keyOf a) a).2 := by
  have hread : ∀ i, ∀ r ∈ rows i, keyOf' r.head = keyOf r.head := by
    intro i r hr
    rcases h.heads i r hr with hhead | ⟨later, earlier, hsplit, hopens⟩
    · exact hlive _ hhead
    · exact hopeners later _ earlier hsplit hopens
  have hsame : deleteIdx keyOf' slotOf rows (keyOf a) a = deleteIdx keyOf slotOf rows (keyOf a) a := by
    have hslot := hread (slotOf (keyOf a))
    have hremove : ∀ l : List (Row A), (∀ r ∈ l, keyOf' r.head = keyOf r.head) →
        removeFrom keyOf' (keyOf a) a l = removeFrom keyOf (keyOf a) a l := by
      intro l hl
      induction l with
      | nil => rfl
      | cons r rest ih =>
          rw [removeFrom, removeFrom, hl r List.mem_cons_self,
            ih fun r' hr' => hl r' (List.mem_cons_of_mem r hr')]
    rw [deleteIdx, deleteIdx, hremove _ hslot]
  obtain ⟨hna, hnodup⟩ := List.nodup_cons.mp h.nodup
  have hindexed := h.indexed.delete (a := a) (fun _ => rfl)
  rw [hsame]
  refine ⟨hindexed.of_iff fun b => ?_, fun i r hr => ?_,
    fun b hb => h.fresh b (List.mem_cons_of_mem a hb), hnodup⟩
  · rw [List.mem_cons]
    have hnotlive := h.fresh a List.mem_cons_self
    constructor
    · rintro (hb | hb)
      · exact ⟨.inl hb, fun hba => hnotlive (hba ▸ hb)⟩
      · exact ⟨.inr (.inr hb), fun hba => hna (hba ▸ hb)⟩
    · tauto
  · have hne : r.head ≠ a := by
      have hmem := (hindexed.indexed r.head).mpr ⟨i, mem_flat.mpr ⟨r, hr, r.head_mem_all⟩⟩
      exact hmem.2
    -- a row that loses another element than its head keeps the head
    have hhead : ∃ j, ∃ r' ∈ rows j, r'.head = r.head := by
      unfold deleteIdx at hr
      cases hrem : removeFrom keyOf (keyOf a) a (rows (slotOf (keyOf a))) with
      | none =>
          rw [hrem] at hr
          exact ⟨i, r, hr, rfl⟩
      | some l =>
          rw [hrem] at hr
          obtain ⟨pre, r₀, post, hrows, -, ha, rfl, -⟩ := removeFrom_some hrem
          by_cases hi : i = slotOf (keyOf a)
          · subst hi
            dsimp only at hr
            rw [Function.update_self, List.mem_append, List.mem_append] at hr
            rcases hr with (hr | hr) | hr
            · exact ⟨_, r, by rw [hrows]; simp [hr], rfl⟩
            · have hr₀ : r₀ ∈ rows (slotOf (keyOf a)) := by rw [hrows]; simp
              refine ⟨_, r₀, hr₀, ?_⟩
              rw [Option.mem_toList] at hr
              have hall := Row.ofList_all hr
              by_cases h₀ : r₀.head = a
              · rw [h.alone hr₀ h₀] at hall
                simp [Row.all] at hall
              · rw [Row.all, Row.all, List.erase_cons_tail (by simpa using h₀)] at hall
                exact (List.cons.inj hall).1.symm
            · exact ⟨_, r, by rw [hrows]; simp [hr], rfl⟩
          · dsimp only at hr
            rw [Function.update_of_ne hi] at hr
            exact ⟨i, r, hr, rfl⟩
    obtain ⟨j, r', hr', hrhead⟩ := hhead
    rw [← hrhead] at hne ⊢
    refine (h.heads j r' hr').imp_right ?_
    rintro ⟨later, earlier, hsplit, hopens⟩
    cases later with
    | nil => exact absurd (List.cons.inj hsplit).1.symm hne
    | cons b later => exact ⟨later, earlier, (List.cons.inj hsplit).2, hopens⟩

/-! ## A whole batch -/

/-- The deletions of a batch, its latest address first. -/
def takeBack (keyOf keyOf' : A → K) (slotOf : K → Nat) (done : List A) (rows : Rows A) : Rows A :=
  done.foldl (fun rows a => (deleteIdx keyOf' slotOf rows (keyOf a) a).2) rows

omit [DecidableEq A] [DecidableEq K] in
theorem OpenersRead.tail (h : OpenersRead keyOf keyOf' live (a :: done)) :
    OpenersRead keyOf keyOf' live done := fun later b earlier hsplit hopens =>
  h (a :: later) b earlier (by rw [hsplit, List.cons_append]) hopens

/-- **The batch is taken back.** -/
theorem Stacked.takeBack (h : Stacked keyOf slotOf live done rows)
    (hlive : ∀ b, live b → keyOf' b = keyOf b) (hopeners : OpenersRead keyOf keyOf' live done) :
    WellIndexed keyOf slotOf live (takeBack keyOf keyOf' slotOf done rows) := by
  induction done generalizing rows with
  | nil => exact h.indexed.of_iff (by simp)
  | cons a rest ih => exact ih (h.delete hlive hopeners) hopeners.tail

/-- An address that is nowhere but at the head of rows. -/
def Heads (a : A) (rows : Rows A) : Prop :=
  (∃ i, a ∈ flat (rows i)) ∧ ∀ i, ∀ r ∈ rows i, a ∈ r.all → r.head = a

omit [DecidableEq A] [DecidableEq K] in
/-- The opener of a row is its head. -/
theorem Stacked.heads_opener (h : Stacked keyOf slotOf live done rows)
    (hsplit : done = later ++ a :: earlier) (hopens : Opens keyOf live earlier a) :
    Heads a rows := by
  have hmem : a ∈ done := by simp [hsplit]
  refine ⟨(h.indexed.indexed a).mp (.inr hmem), fun i r hr har => ?_⟩
  have hkey := (h.indexed.slot i).same_key r hr a har
  rcases h.heads i r hr with hlive | ⟨later', earlier', hsplit', hopens'⟩
  · exact absurd hkey.symm (hopens.1 _ hlive)
  · -- two openers with one key are one
    have hfirst : ∀ {l e l' e' : List A} {x y : A}, l ++ x :: e = l' ++ y :: e' →
        x = y ∨ x ∈ e' ∨ y ∈ e := by
      intro l e l' e' x y heq
      rcases List.append_eq_append_iff.mp heq with ⟨as, -, hx⟩ | ⟨as, -, hy⟩
      · cases as with
        | nil => exact .inl (List.cons.inj hx).1
        | cons z as => exact .inr (.inr (by simp [(List.cons.inj hx).2]))
      · cases as with
        | nil => exact .inl (List.cons.inj hy).1.symm
        | cons z as => exact .inr (.inl (by simp [(List.cons.inj hy).2]))
    rcases hfirst (hsplit'.symm.trans hsplit) with heq | hbefore | hbehind
    · exact heq
    · exact absurd hkey.symm (hopens.2 _ hbefore)
    · exact absurd hkey (hopens'.2 _ hbehind)

/-- **A head that lost its key is not found.**  No deletion takes it out. -/
theorem Heads.delete {b : A} (h : Heads a rows) (hlost : b = a → keyOf' a ≠ k) :
    Heads a (deleteIdx keyOf' slotOf rows k b).2 := by
  unfold deleteIdx
  cases hrem : removeFrom keyOf' k b (rows (slotOf k)) with
  | none => exact h
  | some l =>
      obtain ⟨pre, r₀, post, hrows, hkey, hb, rfl, -⟩ := removeFrom_some hrem
      have hr₀ : r₀ ∈ rows (slotOf k) := by rw [hrows]; simp
      have hne : b ≠ a := by
        rintro rfl
        exact hlost rfl (h.2 _ r₀ hr₀ hb ▸ hkey)
      have hrow : ∀ r, Row.ofList (r₀.all.erase b) = some r → a ∈ r.all → r.head = a := by
        intro r hr har
        have hall := Row.ofList_all hr
        have ha₀ : a ∈ r₀.all := List.mem_of_mem_erase (hall ▸ har)
        have hhead := h.2 _ r₀ hr₀ ha₀
        rw [Row.all, Row.all, hhead, List.erase_cons_tail (by simpa using hne.symm)] at hall
        exact (List.cons.inj hall).1
      have hrest : ∀ r, r ∈ pre ∨ r ∈ post → a ∈ r.all → r.head = a := by
        intro r hr har
        refine h.2 (slotOf k) r ?_ har
        rw [hrows]
        rcases hr with hr | hr <;> simp [hr]
      constructor
      · obtain ⟨i, hi⟩ := h.1
        refine ⟨i, ?_⟩
        dsimp only
        by_cases hik : i = slotOf k
        · subst hik
          rw [Function.update_self, flat_append, flat_append, flat_ofList]
          rw [hrows, flat_middle] at hi
          simp only [List.mem_append] at hi ⊢
          rcases hi with hi | hi | hi
          · exact .inl (.inl hi)
          · exact .inl (.inr ((List.mem_erase_of_ne hne.symm).mpr hi))
          · exact .inr hi
        · rwa [Function.update_of_ne hik]
      · intro i r hr har
        dsimp only at hr
        by_cases hik : i = slotOf k
        · subst hik
          rw [Function.update_self, List.mem_append, List.mem_append, Option.mem_toList] at hr
          rcases hr with (hr | hr) | hr
          · exact hrest r (.inl hr) har
          · exact hrow r hr har
          · exact hrest r (.inr hr) har
        · rw [Function.update_of_ne hik] at hr
          exact h.2 i r hr har

/-- **Taking back leaves only live addresses** exactly when the openers still read as their
keys. -/
theorem Stacked.takeBack_iff (h : Stacked keyOf slotOf live done rows)
    (hlive : ∀ b, live b → keyOf' b = keyOf b) :
    (∀ i, ∀ a ∈ flat (IndexRows.takeBack keyOf keyOf' slotOf done rows i), live a) ↔
      OpenersRead keyOf keyOf' live done := by
  constructor
  · intro hleft later a earlier hsplit hopens
    by_contra hlost
    have hstays : ∀ (done : List A) (rows : Rows A), Heads a rows →
        Heads a (IndexRows.takeBack keyOf keyOf' slotOf done rows) := by
      intro done
      induction done with
      | nil => exact fun rows hrows => hrows
      | cons b rest ih =>
          intro rows hrows
          exact ih _ (hrows.delete (by rintro rfl; exact hlost))
    obtain ⟨⟨i, hi⟩, -⟩ := hstays done rows (h.heads_opener hsplit hopens)
    exact h.fresh a (by simp [hsplit]) (hleft i a hi)
  · intro hopeners i a ha
    exact ((h.takeBack hlive hopeners).indexed a).mpr ⟨i, ha⟩

end IndexRows
