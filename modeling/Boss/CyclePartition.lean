import Boss.Cycle

/-!
# Cycles partition time

The instances of a cycle are the intervals of a grid.  For a unit of fixed length this is so as long
as the length is an `int`.  For months, quarters and years the count of the unit is right, but the day
and the time of day of the base are attached to it: unless the base is the first instant of its unit,
the first instant of the unit in which an instance ends is in this instance and is computed to be in
the next one.

Main results: `partitions_counted` for one unit, `instances_partition_time` for all of them.
-/

namespace Flowline

open Calendar

/-- An `int` is what fits into one. -/
theorem toInt_ok_iff {x y : Int} : toInt x = .ok y ↔ Fits x ∧ y = x := by
  unfold toInt
  split_ifs with h
  · simp [h, eq_comm]
  · simp [h]

theorem toInt_of_fits {x : Int} (h : Fits x) : toInt x = .ok x := toInt_ok_iff.mpr ⟨h, rfl⟩

/-- What lies between numbers that fit, fits. -/
theorem Fits.between {x y z : Int} (hx : Fits x) (hz : Fits z) (hxy : x ≤ y) (hyz : y ≤ z) :
    Fits y := ⟨hx.1.trans hxy, hyz.trans hz.2⟩

/-- With the correction for times before the base the quotient is rounded down. -/
theorem truncOffset_eq {d w : Int} {before : Bool} (hw : 0 < w) (hneg : before = true → d ≤ 0)
    (hpos : before = false → 0 ≤ d) : truncOffset d w before = d / w := by
  unfold truncOffset
  rw [Int.tdiv_eq_ediv]
  cases before with
  | false => simp [hpos rfl]
  | true =>
      have hle := hneg rfl
      by_cases hdvd : w ∣ d
      · have hzero : d.tmod w = 0 := Int.tmod_eq_zero_of_dvd hdvd
        simp [hdvd, hzero]
      · have hrest : d.tmod w ≠ 0 := fun h => hdvd (Int.dvd_of_tmod_eq_zero h)
        have hlt : ¬ 0 ≤ d := by
          intro hge
          have hzero : d = 0 := by omega
          exact hdvd (hzero ▸ dvd_zero w)
        simp [hdvd, hrest, hlt, Int.sign_eq_one_of_pos hw]

namespace Cycle

variable {zone : Int} {c : Cycle} {t : Int}

/-! ## What is to be shown -/

/-- The time is in the instance that is computed for it, every time of the instance has the same
one, and the next one begins where it ends. -/
def Partitions (zone : Int) (c : Cycle) (t : Int) : Prop :=
  ∃ i, c.compute zone t = .ok i ∧ i.getBegin ≤ t ∧ t < i.getEnd ∧
    (∀ u, i.getBegin ≤ u → u < i.getEnd →
      ∃ j, c.compute zone u = .ok j ∧ j.getBegin = i.getBegin ∧ j.getEnd = i.getEnd) ∧
    ∃ next, c.compute zone i.getEnd = .ok next ∧ next.getBegin = i.getEnd

/-- The counts that are made for a cycle of `w` units from `b` on fit an `int`: those of the base,
and those of the instance that holds `a` and of the end of the next one. -/
structure InRange (b a w : Int) : Prop where
  width : Fits w
  base : Fits b
  first : Fits (b + (a - b) / w * w)
  last : Fits (b + ((a - b) / w + 1) * w)
  next : Fits (b + ((a - b) / w + 2) * w)
  back : Fits ((a - b) / w * w)
  forth : Fits (((a - b) / w + 1) * w)
  ahead : Fits (((a - b) / w + 2) * w)

/-! ## Bounds -/

/-- A computation that gives the bounds of an instance. -/
abbrev Bounds := Int → Except Fault (Int × Int)

/-- The assertion on the bounds. -/
def asserted (g : Bounds) : Bounds := fun t => do
  let (b, e) ← g t
  if b ≤ t ∧ t < e then return (b, e) else throw .assertion

/-- A pair of bounds passes the assertion when the time lies between them. -/
theorem asserted_ok_iff {g : Bounds} {b e : Int} :
    asserted g t = .ok (b, e) ↔ g t = .ok (b, e) ∧ b ≤ t ∧ t < e := by
  unfold asserted
  cases hg : g t with
  | error fault => simp [bind, Except.bind]
  | ok p =>
      obtain ⟨b', e'⟩ := p
      simp only [bind, Except.bind, pure, Except.pure, throw, throwThe, MonadExceptOf.throw]
      split_ifs with h
      · simp only [Except.ok.injEq, Prod.mk.injEq]
        constructor
        · rintro ⟨rfl, rfl⟩
          exact ⟨⟨rfl, rfl⟩, h⟩
        · exact fun h => h.1
      · simp only [Except.ok.injEq, Prod.mk.injEq, false_iff]
        rintro ⟨⟨rfl, rfl⟩, h'⟩
        exact h h'

/-- `Partitions` for the bounds alone. -/
def PartitionsBy (g : Bounds) (t : Int) : Prop :=
  ∃ b e, g t = .ok (b, e) ∧ (∀ u, b ≤ u → u < e → g u = .ok (b, e)) ∧ ∃ e', g e = .ok (e, e')

/-- The bounds of an instance. -/
def bounds (i : Instance) : Int × Int := (i.getBegin, i.getEnd)

/-- The bounds of an instance are those of its unit, with the assertion. -/
theorem compute_bounds (zone : Int) (c : Cycle) (t : Int) :
    (c.compute zone t).map bounds = asserted (fun t => (c.computeUnit zone t).map bounds) t := by
  unfold compute asserted
  dsimp only
  cases c.computeUnit zone t with
  | error fault => rfl
  | ok i =>
      simp only [bind, Except.bind, Except.map, bounds]
      split_ifs <;> rfl

/-- Bounds come from an instance. -/
theorem map_ok_iff {r : Except Fault Instance} {b e : Int} :
    r.map bounds = .ok (b, e) ↔ ∃ i, r = .ok i ∧ i.getBegin = b ∧ i.getEnd = e := by
  cases r with
  | error fault => simp [Except.map]
  | ok i => simp [Except.map, bounds]

/-- A cycle partitions at a time when the bounds of its unit do. -/
theorem partitions_iff : c.Partitions zone t ↔
    PartitionsBy (asserted fun t => (c.computeUnit zone t).map bounds) t := by
  unfold PartitionsBy
  simp only [← compute_bounds, map_ok_iff]
  constructor
  · rintro ⟨i, hi, -, -, hsame, next, hnext, hbegin⟩
    exact ⟨i.getBegin, i.getEnd, ⟨i, hi, rfl, rfl⟩, hsame, next.getEnd, next, hnext, hbegin, rfl⟩
  · rintro ⟨b, e, ⟨i, hi, rfl, rfl⟩, hsame, e', next, hnext, hbegin, -⟩
    have hin : asserted (fun t => (c.computeUnit zone t).map bounds) t =
        .ok (i.getBegin, i.getEnd) := by
      rw [← compute_bounds, map_ok_iff]
      exact ⟨i, hi, rfl, rfl⟩
    obtain ⟨-, hle, hlt⟩ := asserted_ok_iff.mp hin
    exact ⟨i, hi, hle, hlt, hsame, next, hnext, hbegin⟩

/-- What is computed are the intervals of a grid. -/
theorem partitionsBy_of_grid {g : Bounds} (G : Grid)
    (hg : ∀ u, G.index u = G.index t ∨ u = G.point (G.index t + 1) →
      g u = .ok (G.point (G.index u), G.point (G.index u + 1))) :
    PartitionsBy (asserted g) t := by
  have hassert : ∀ u, G.index u = G.index t ∨ u = G.point (G.index t + 1) →
      asserted g u = .ok (G.point (G.index u), G.point (G.index u + 1)) :=
    fun u hu => asserted_ok_iff.mpr ⟨hg u hu, G.point_le_index u⟩
  refine ⟨_, _, hassert t (Or.inl rfl), fun u hle hlt => ?_, G.point (G.index t + 1 + 1), ?_⟩
  · have hsame : G.index u = G.index t := G.index_eq_iff.mpr ⟨hle, hlt⟩
    rw [hassert u (Or.inl hsame), hsame]
  · have hnext := hassert (G.point (G.index t + 1)) (Or.inr rfl)
    rwa [G.index_point] at hnext

/-! ## Units of fixed length -/

/-- Seconds from the base on, `w` at a time. -/
def fixedGrid (base w : Int) (hw : 0 < w) : Grid := Grid.seconds.coarsen base w hw

/-- A span of fixed length is one of the grid from the base time on. -/
theorem computeFixed_bounds {seconds : Int} {id : Tm → String} (hw : 0 < c.cycle * seconds)
    (hfits : Fits (c.cycle * seconds)) (u : Int) :
    (c.computeFixed zone seconds id u).map bounds =
      .ok ((fixedGrid c.baseTime _ hw).point ((fixedGrid c.baseTime _ hw).index u),
        (fixedGrid c.baseTime _ hw).point ((fixedGrid c.baseTime _ hw).index u + 1)) := by
  have hoffset : truncOffset (u - c.baseTime) (c.cycle * seconds) (c.baseTime > u) =
      (u - c.baseTime) / (c.cycle * seconds) :=
    truncOffset_eq hw (fun h => by simp at h; omega) fun h => by simp at h; omega
  unfold computeFixed
  simp only [toInt_of_fits hfits, bind, Except.bind, hw.ne', if_false, hoffset, pure, Except.pure]
  rfl

/-- A unit of fixed length is right exactly when the length of the cycle is an `int`. -/
theorem partitions_fixed {seconds : Int} {id : Tm → String} (hw : 0 < c.cycle * seconds) :
    PartitionsBy (asserted fun u => (c.computeFixed zone seconds id u).map bounds) t ↔
      Fits (c.cycle * seconds) := by
  constructor
  · rintro ⟨b, e, hbounds, -⟩
    obtain ⟨i, hi, -⟩ := map_ok_iff.mp (asserted_ok_iff.mp hbounds).1
    by_contra hover
    have htoInt : toInt (c.cycle * seconds) = .error .overflow := by rw [toInt, if_neg hover]
    rw [computeFixed, htoInt] at hi
    cases hi
  · intro hfits
    exact partitionsBy_of_grid (fixedGrid c.baseTime _ hw)
      fun u _ => computeFixed_bounds hw hfits u

/-! ## Counted units -/

/-- Two steps succeed when both do. -/
theorem bind_ok_iff {α β : Type} {r : Except Fault α} {f : α → Except Fault β} {b : β} :
    (r >>= f) = .ok b ↔ ∃ a, r = .ok a ∧ f a = .ok b := by
  cases r with
  | error fault => simp [bind, Except.bind]
  | ok a => simp [bind, Except.bind]

/-- A mapped step succeeds when the step does. -/
theorem except_map_ok_iff {α β : Type} {r : Except Fault α} {f : α → β} {b : β} :
    r.map f = .ok b ↔ ∃ a, r = .ok a ∧ f a = b := by
  cases r with
  | error fault => simp [Except.map]
  | ok a => simp [Except.map]

/-- All counts that lead from `b` to the steps of `a` fit. -/
def Counted (back : Bool) (b a w : Int) : Prop :=
  Fits b ∧ Fits a ∧ Fits w ∧ Fits (a - b) ∧ Fits ((a - b) / w) ∧ Fits (((a - b) / w + 1) * w) ∧
    Fits (b + ((a - b) / w + 1) * w) ∧ (back = false → Fits ((a - b) / w * w)) ∧
      Fits (b + (a - b) / w * w)

/-- The steps at which a cycle begins and ends. -/
theorem cycleBounds_ok_iff {b a w : Int} {before back : Bool} (hw : 0 < w)
    (hneg : before = true → a ≤ b) (hpos : before = false → b ≤ a) {p : Int × Int} :
    cycleBounds b a w before back = .ok p ↔ Counted back b a w ∧
      p = (b + (a - b) / w * w, b + ((a - b) / w + 1) * w) := by
  have hoffset : truncOffset (a - b) w before = (a - b) / w :=
    truncOffset_eq hw (fun h => by have hle := hneg h; omega) fun h => by have hle := hpos h; omega
  have hstep (k : Int) : b + (k + 1) * w - w = b + k * w := by
    rw [Int.add_mul]
    omega
  unfold cycleBounds
  simp only [bind_ok_iff, toInt_ok_iff]
  constructor
  · rintro ⟨_, ⟨hb, rfl⟩, _, ⟨ha, rfl⟩, _, ⟨hw', rfl⟩, _, ⟨hd, rfl⟩, hrest⟩
    simp only [hw.ne', if_false, bind_ok_iff, toInt_ok_iff, hoffset] at hrest
    obtain ⟨_, ⟨ho, rfl⟩, _, ⟨hahead, rfl⟩, _, ⟨hl, rfl⟩, hrest⟩ := hrest
    cases back with
    | true =>
        simp only [if_true, bind_ok_iff, toInt_ok_iff, hstep] at hrest
        obtain ⟨_, ⟨hf, rfl⟩, hok⟩ := hrest
        exact ⟨⟨hb, ha, hw', hd, ho, hahead, hl, nofun, hf⟩, (Except.ok.inj hok).symm⟩
    | false =>
        simp only [Bool.false_eq_true, if_false, bind_ok_iff, toInt_ok_iff] at hrest
        obtain ⟨_, ⟨hbehind, rfl⟩, _, ⟨hf, rfl⟩, hok⟩ := hrest
        exact ⟨⟨hb, ha, hw', hd, ho, hahead, hl, fun _ => hbehind, hf⟩, (Except.ok.inj hok).symm⟩
  · rintro ⟨⟨hb, ha, hw', hd, ho, hahead, hl, hbehind, hf⟩, rfl⟩
    refine ⟨b, ⟨hb, rfl⟩, a, ⟨ha, rfl⟩, w, ⟨hw', rfl⟩, a - b, ⟨hd, rfl⟩, ?_⟩
    simp only [hw.ne', if_false, bind_ok_iff, toInt_ok_iff, hoffset]
    refine ⟨_, ⟨ho, rfl⟩, _, ⟨hahead, rfl⟩, _, ⟨hl, rfl⟩, ?_⟩
    cases back with
    | true =>
        simp only [if_true, bind_ok_iff, toInt_ok_iff, hstep]
        exact ⟨_, ⟨hf, rfl⟩, rfl⟩
    | false =>
        simp only [Bool.false_eq_true, if_false, bind_ok_iff, toInt_ok_iff]
        exact ⟨_, ⟨hbehind rfl, rfl⟩, _, ⟨hf, rfl⟩, rfl⟩

/-- A factor of what fits fits. -/
theorem Fits.of_mul {n w : Int} (hw : 0 < w) (h : Fits (n * w)) : Fits n := by
  have hone : 1 ≤ w := hw
  rcases le_or_gt 0 n with hn | hn
  · have hle : n * 1 ≤ n * w := Int.mul_le_mul_of_nonneg_left hone hn
    exact ⟨by omega, by have hhigh := h.2; omega⟩
  · have hle : n * w ≤ n * 1 := Int.mul_le_mul_of_nonpos_left hn.le hone
    exact ⟨by have hlow := h.1; omega, by omega⟩

/-- The counts for every step of the instance fit. -/
theorem InRange.counted {b a a' w : Int} (h : InRange b a w) (hw : 0 < w)
    (hsame : (a' - b) / w = (a - b) / w) (back : Bool) : Counted back b a' w := by
  have hfloor := (Int.ediv_eq_iff_of_pos hw).mp hsame
  obtain ⟨hlow, hhigh⟩ := hfloor
  have hadd : ((a - b) / w + 1) * w = (a - b) / w * w + w := by
    rw [Int.add_mul, Int.one_mul]
  unfold Counted
  rw [hsame]
  refine ⟨h.base, ?_, h.width, ?_, Fits.of_mul hw h.back, h.forth, h.last, fun _ => h.back, h.first⟩
  · exact h.first.between h.last (by omega) (by omega)
  · exact h.back.between h.forth (by omega) (by omega)

/-- And those for the step at which it ends. -/
theorem InRange.counted_next {b a w : Int} (h : InRange b a w) (hw : 0 < w) (back : Bool) :
    Counted back b (b + ((a - b) / w + 1) * w) w := by
  have hindex : (b + ((a - b) / w + 1) * w - b) / w = (a - b) / w + 1 := by
    rw [add_sub_cancel_left, Int.mul_ediv_cancel _ hw.ne']
  unfold Counted
  rw [hindex, add_sub_cancel_left, add_assoc ((a - b) / w)]
  exact ⟨h.base, h.last, h.width, h.forth, Fits.of_mul hw h.forth, h.ahead, h.next, fun _ => h.forth,
    h.last⟩

/-- How the base is attached to the units in which an instance begins and ends: it stays in the unit,
and it is the beginning of the unit when the base is the beginning of its own. -/
structure Attaches (G : Grid) (base : Int) (attach : Int × Int → Int × Int) : Prop where
  first : ∀ p, G.point p.1 ≤ (attach p).1 ∧ (attach p).1 < G.point (p.1 + 1)
  last : ∀ p, G.point p.2 ≤ (attach p).2 ∧ (attach p).2 < G.point (p.2 + 1)
  start : base = G.point (G.index base) → ∀ p, attach p = (G.point p.1, G.point p.2)
  later : base ≠ G.point (G.index base) → ∀ p, G.point p.2 < (attach p).2

/-- The bounds that are computed by counting units. -/
def countedBounds (G : Grid) (base w : Int) (back : Bool) (attach : Int × Int → Int × Int) :
    Bounds := fun t =>
  (cycleBounds (G.index base) (G.index t) w (base > t) back).map attach

variable {G : Grid} {base w : Int} {back : Bool} {attach : Int × Int → Int × Int}

/-- Counted bounds exist when what is counted is in range. -/
theorem countedBounds_ok_iff (hw : 0 < w) {q : Int × Int} :
    countedBounds G base w back attach t = .ok q ↔ Counted back (G.index base) (G.index t) w ∧
      attach (G.index base + (G.index t - G.index base) / w * w,
        G.index base + ((G.index t - G.index base) / w + 1) * w) = q := by
  have hneg : decide (base > t) = true → G.index t ≤ G.index base :=
    fun h => G.index_mono (of_decide_eq_true h).le
  have hpos : decide (base > t) = false → G.index base ≤ G.index t :=
    fun h => G.index_mono (not_lt.mp (of_decide_eq_false h))
  unfold countedBounds
  simp only [except_map_ok_iff, cycleBounds_ok_iff hw hneg hpos]
  constructor
  · rintro ⟨_, ⟨hcounted, rfl⟩, heq⟩
    exact ⟨hcounted, heq⟩
  · rintro ⟨hcounted, heq⟩
    exact ⟨_, ⟨hcounted, rfl⟩, heq⟩

/-- **Counting units is right exactly when the base begins its unit** and the counts fit. -/
theorem partitions_counted (hw : 0 < w) (hattach : Attaches G base attach) :
    PartitionsBy (asserted (countedBounds G base w back attach)) t ↔
      base = G.point (G.index base) ∧ InRange (G.index base) (G.index t) w := by
  have hindex : ∀ {n : Int}, (G.index base + n * w - G.index base) / w = n := by
    intro n
    rw [add_sub_cancel_left, Int.mul_ediv_cancel _ hw.ne']
  constructor
  · rintro ⟨b, e, hbounds, hsame, e', hnext⟩
    obtain ⟨hbounds, hle, hlt⟩ := asserted_ok_iff.mp hbounds
    obtain ⟨⟨hb, ha, hw', hd, ho, -, hl, -, hf⟩, heq⟩ := (countedBounds_ok_iff hw).mp hbounds
    generalize hk : (G.index t - G.index base) / w = k at *
    have hbase : base = G.point (G.index base) := by
      by_contra hlater
      -- the unit in which the instance ends begins inside of it
      have hend : G.point (G.index base + (k + 1) * w) < e := by
        have hafter := hattach.later hlater (G.index base + k * w, G.index base + (k + 1) * w)
        rwa [heq] at hafter
      have hbegin : b ≤ G.point (G.index base + (k + 1) * w) := by
        have hfirst := (hattach.first (G.index base + k * w, G.index base + (k + 1) * w)).2
        rw [heq] at hfirst
        have hmono : G.point (G.index base + k * w + 1) ≤ G.point (G.index base + (k + 1) * w) := by
          rw [Grid.point_le_point, Int.add_mul]
          omega
        exact hfirst.le.trans hmono
      obtain ⟨hu, -⟩ := asserted_ok_iff.mp (hsame _ hbegin hend)
      obtain ⟨-, hu⟩ := (countedBounds_ok_iff hw).mp hu
      rw [G.index_point, hindex] at hu
      have hlast := (hattach.last (G.index base + (k + 1) * w, G.index base + (k + 1 + 1) * w)).1
      have hlast' := (hattach.last (G.index base + k * w, G.index base + (k + 1) * w)).2
      rw [hu] at hlast
      rw [heq] at hlast'
      dsimp only at hlast hlast'
      have hmono : G.point (G.index base + (k + 1) * w + 1) ≤
          G.point (G.index base + (k + 1 + 1) * w) := by
        rw [Grid.point_le_point, Int.add_mul (k + 1)]
        omega
      omega
    rw [hattach.start hbase] at heq
    obtain ⟨rfl, rfl⟩ := Prod.mk.inj heq
    have hlength : G.point (G.index base + k * w) < G.point (G.index base + (k + 1) * w) := by
      rw [Grid.point_lt_point, Int.add_mul]
      omega
    obtain ⟨hfirst, -⟩ := asserted_ok_iff.mp (hsame _ le_rfl hlength)
    obtain ⟨⟨-, -, -, hback, -⟩, -⟩ := (countedBounds_ok_iff hw).mp hfirst
    obtain ⟨hlast, -⟩ := asserted_ok_iff.mp hnext
    obtain ⟨⟨-, -, -, hforth, -, hahead, hnext', -⟩, -⟩ := (countedBounds_ok_iff hw).mp hlast
    rw [G.index_point, add_sub_cancel_left] at hback hforth
    rw [G.index_point, hindex, add_assoc] at hahead hnext'
    exact ⟨hbase, hw', hb, hk ▸ hf, hk ▸ hl, hk ▸ hnext', hk ▸ hback, hk ▸ hforth, hk ▸ hahead⟩
  · rintro ⟨hbase, hrange⟩
    refine partitionsBy_of_grid (G.coarsen (G.index base) w hw) fun u hu => ?_
    refine (countedBounds_ok_iff hw).mpr ⟨?_, hattach.start hbase _⟩
    rcases hu with hu | hu
    · exact hrange.counted hw hu back
    · have hu' : G.index u = G.index base + ((G.index t - G.index base) / w + 1) * w := by
        rw [hu]
        exact G.index_point _
      rw [hu']
      exact hrange.counted_next hw back

/-! ## Months, quarters and years -/

/-- The last day of the month. -/
theorem getMaxDayOfMonth_eq {tm : Tm} (hclock : 0 ≤ tm.clock ∧ tm.clock < 86400) :
    getMaxDayOfMonth zone tm = lengthOf tm.month := by
  have hlength := lengthOf_pos tm.month
  have hnext : Tm.month { tm with tm_mon := tm.tm_mon + 1, tm_mday := 1 } = tm.month + 1 := by
    simp only [Tm.month]
    omega
  have hinstant : mktime zone { tm with tm_mon := tm.tm_mon + 1, tm_mday := 1 } - 3600 * 24 =
      monthStart zone tm.month + (lengthOf tm.month - 1) * 86400 + tm.clock := by
    rw [mktime_eq, hnext, monthStart_succ]
    have hsame : Tm.clock { tm with tm_mon := tm.tm_mon + 1, tm_mday := 1 } = tm.clock := rfl
    rw [hsame]
    ring
  have hday : epoch + (monthStart zone tm.month + (lengthOf tm.month - 1) * 86400 + tm.clock +
      zone) / 86400 = firstDay tm.month + lengthOf tm.month - 1 := by
    unfold monthStart
    omega
  have hmonth : monthAt (firstDay tm.month + lengthOf tm.month - 1) = tm.month :=
    monthAt_eq (by omega) (by rw [firstDay_succ]; omega)
  unfold getMaxDayOfMonth
  dsimp only
  rw [hinstant]
  simp only [localtime, hday, hmonth]
  omega

/-- Setting the day of the base keeps the month, and its first where it is one. -/
theorem clampDay_spec (zone : Int) (tm : Tm) (hday : 1 ≤ tm.tm_mday)
    (hclock : 0 ≤ tm.clock ∧ tm.clock < 86400) :
    (clampDay zone tm).month = tm.month ∧ (clampDay zone tm).Valid ∧
      ((clampDay zone tm).StartsMonth ↔ tm.StartsMonth) := by
  have hlength := lengthOf_pos tm.month
  unfold clampDay
  simp only [getMaxDayOfMonth_eq hclock]
  split_ifs with hover
  · refine ⟨rfl, ⟨⟨?_, le_rfl⟩, hclock⟩, ?_⟩
    · dsimp only
      omega
    · simp only [Tm.StartsMonth]
      constructor
      · rintro ⟨hone, -⟩
        omega
      · rintro ⟨hone, -⟩
        omega
  · exact ⟨rfl, ⟨⟨hday, not_lt.mp hover⟩, hclock⟩, Iff.rfl⟩

/-- The base in another month. -/
theorem inMonth_spec (zone : Int) {tm : Tm} (hday : 1 ≤ tm.tm_mday)
    (hclock : 0 ≤ tm.clock ∧ tm.clock < 86400) (idx : Int) :
    (inMonth zone tm idx).month = january1900 + idx ∧ (inMonth zone tm idx).Valid ∧
      ((inMonth zone tm idx).StartsMonth ↔ tm.StartsMonth) := by
  obtain ⟨hmonth, hvalid, hstarts⟩ := clampDay_spec zone
    { tm with tm_year := idx.tdiv 12, tm_mon := idx.tmod 12 } hday hclock
  refine ⟨?_, hvalid, hstarts⟩
  rw [inMonth, hmonth]
  have hsplit := Int.tmod_add_mul_tdiv idx 12
  simp only [Tm.month]
  omega

/-- The base in another year. -/
theorem inYear_spec (zone : Int) {tm : Tm} (hday : 1 ≤ tm.tm_mday)
    (hclock : 0 ≤ tm.clock ∧ tm.clock < 86400) (idx : Int) :
    (inYear zone tm idx).month = january1900 + idx * 12 + tm.tm_mon ∧ (inYear zone tm idx).Valid ∧
      ((inYear zone tm idx).StartsMonth ↔ tm.StartsMonth) :=
  clampDay_spec zone { tm with tm_year := idx } hday hclock

/-- What is attached to the months of the bounds. -/
def attachMonths (zone : Int) (btm : Tm) (reset : Bool) (p : Int × Int) : Int × Int :=
  let last := inMonth zone btm p.2
  let first := inMonth zone
    (if reset then { last with tm_hour := 0, tm_min := 0, tm_sec := 0 } else last) p.1
  (mktime zone first, mktime zone last)

/-- What is attached to the years of the bounds. -/
def attachYears (zone : Int) (btm : Tm) (p : Int × Int) : Int × Int :=
  let last := inYear zone btm p.2
  let first := inYear zone last p.1
  (mktime zone first, mktime zone last)

/-- A month is counted from the month of the base time. -/
theorem computeMonth_bounds (zone : Int) (c : Cycle) (t : Int) :
    (c.computeMonth zone t).map bounds = countedBounds (monthGrid zone) c.baseTime c.cycle false
      (attachMonths zone (localtime zone c.baseTime) true) t := by
  unfold computeMonth countedBounds
  simp only [monthNumber, localtime_monthNumber]
  cases cycleBounds ((monthGrid zone).index c.baseTime) ((monthGrid zone).index t) c.cycle
    (c.baseTime > t) false <;> rfl

/-- A quarter is counted in threes of months. -/
theorem computeQuarter_bounds (zone : Int) (c : Cycle) (t : Int) :
    (c.computeQuarter zone t).map bounds = countedBounds (monthGrid zone) c.baseTime (3 * c.cycle)
      false (attachMonths zone (localtime zone c.baseTime) false) t := by
  unfold computeQuarter countedBounds
  simp only [monthNumber, localtime_monthNumber]
  cases cycleBounds ((monthGrid zone).index c.baseTime) ((monthGrid zone).index t) (3 * c.cycle)
    (c.baseTime > t) false <;> rfl

/-- A year is counted from the year of the base time, also backwards. -/
theorem computeYear_bounds (zone : Int) (c : Cycle) (t : Int) :
    (c.computeYear zone t).map bounds = countedBounds (yearGrid zone) c.baseTime c.cycle true
      (attachYears zone (localtime zone c.baseTime)) t := by
  unfold computeYear countedBounds
  simp only [localtime_year]
  cases cycleBounds ((yearGrid zone).index c.baseTime) ((yearGrid zone).index t) c.cycle
    (c.baseTime > t) true <;> rfl

/-- The base begins its month. -/
theorem startsMonth_iff (zone base : Int) :
    (localtime zone base).StartsMonth ↔
      base = (monthGrid zone).point ((monthGrid zone).index base) := by
  rw [(localtime_valid zone base).startsMonth_iff zone, mktime_localtime, localtime_month]
  simp only [monthGrid, add_sub_cancel]

/-- The base begins its year. -/
theorem startsYear_iff (zone base : Int) :
    (localtime zone base).StartsYear ↔
      base = (yearGrid zone).point ((yearGrid zone).index base) := by
  have hmonth := localtime_monthNumber zone base
  have hyear := localtime_year zone base
  have hmon : 0 ≤ (localtime zone base).tm_mon ∧ (localtime zone base).tm_mon < 12 := by
    simp only [localtime]
    omega
  have hpoint : (yearGrid zone).point ((yearGrid zone).index base) =
      (monthGrid zone).point ((yearGrid zone).index base * 12) := by
    simp only [yearGrid, Grid.coarsen, zero_add]
  rw [Tm.StartsYear, startsMonth_iff, hpoint]
  constructor
  · rintro ⟨hzero, hbase⟩
    have hindex : (yearGrid zone).index base * 12 = (monthGrid zone).index base := by omega
    rwa [hindex]
  · intro hbase
    have hindex : (monthGrid zone).index base = (yearGrid zone).index base * 12 := by
      conv_lhs => rw [hbase]
      exact Grid.index_point _ _
    exact ⟨by omega, hindex ▸ hbase⟩

/-- A broken-down time in the month it is put into. -/
theorem inMonth_mem (zone : Int) {tm : Tm} (hday : 1 ≤ tm.tm_mday)
    (hclock : 0 ≤ tm.clock ∧ tm.clock < 86400) (idx : Int) :
    ((monthGrid zone).point idx ≤ mktime zone (inMonth zone tm idx) ∧
      mktime zone (inMonth zone tm idx) < (monthGrid zone).point (idx + 1)) ∧
    (mktime zone (inMonth zone tm idx) = (monthGrid zone).point idx ↔ tm.StartsMonth) := by
  obtain ⟨hmonth, hvalid, hstarts⟩ := inMonth_spec zone hday hclock idx
  have hmem := hvalid.mktime_mem zone
  have hfirst := hvalid.startsMonth_iff zone
  rw [hmonth] at hmem hfirst
  simp only [monthGrid]
  rw [← add_assoc]
  exact ⟨hmem, hfirst.symm.trans hstarts⟩

/-- Day and clock of the base are attached to the begin of a month. -/
theorem attaches_months (zone base : Int) (reset : Bool) :
    Attaches (monthGrid zone) base (attachMonths zone (localtime zone base) reset) := by
  obtain ⟨⟨hday, -⟩, hclock⟩ := localtime_valid zone base
  have hlast := fun idx => inMonth_spec zone hday hclock idx
  -- the day and the time of day that are put into the month of the begin
  have hfirst : ∀ idx,
      let tm := if reset then
          { inMonth zone (localtime zone base) idx with tm_hour := 0, tm_min := 0, tm_sec := 0 }
        else inMonth zone (localtime zone base) idx
      1 ≤ tm.tm_mday ∧ (0 ≤ tm.clock ∧ tm.clock < 86400) ∧
        ((localtime zone base).StartsMonth → tm.StartsMonth) := by
    intro idx
    obtain ⟨-, ⟨⟨hday', -⟩, hclock'⟩, hstarts⟩ := hlast idx
    cases reset with
    | true =>
        refine ⟨hday', ?_, fun h => ⟨(hstarts.mpr h).1, ?_⟩⟩
        · simp [Tm.clock]
        · simp [Tm.clock]
    | false => exact ⟨hday', hclock', hstarts.mpr⟩
  refine ⟨fun p => ?_, fun p => (inMonth_mem zone hday hclock p.2).1, fun hbase p => ?_,
    fun hbase p => ?_⟩
  · obtain ⟨hday', hclock', -⟩ := hfirst p.2
    exact (inMonth_mem zone hday' hclock' p.1).1
  · obtain ⟨hday', hclock', hstarts⟩ := hfirst p.2
    have hstart := (startsMonth_iff zone base).mpr hbase
    exact Prod.ext ((inMonth_mem zone hday' hclock' p.1).2.mpr (hstarts hstart))
      ((inMonth_mem zone hday hclock p.2).2.mpr hstart)
  · obtain ⟨⟨hle, -⟩, hiff⟩ := inMonth_mem zone hday hclock p.2
    refine lt_of_le_of_ne hle fun heq => hbase ?_
    exact (startsMonth_iff zone base).mp (hiff.mp heq.symm)

/-- A broken-down time in the year it is put into. -/
theorem inYear_mem (zone : Int) {tm : Tm} (hday : 1 ≤ tm.tm_mday)
    (hclock : 0 ≤ tm.clock ∧ tm.clock < 86400) (hmon : 0 ≤ tm.tm_mon ∧ tm.tm_mon < 12) (idx : Int) :
    ((yearGrid zone).point idx ≤ mktime zone (inYear zone tm idx) ∧
      mktime zone (inYear zone tm idx) < (yearGrid zone).point (idx + 1)) ∧
    (mktime zone (inYear zone tm idx) = (yearGrid zone).point idx ↔ tm.StartsYear) := by
  obtain ⟨hmonth, hvalid, hstarts⟩ := inYear_spec zone hday hclock idx
  have hmem := hvalid.mktime_mem zone
  have hfirst := hvalid.startsMonth_iff zone
  rw [hmonth] at hmem hfirst
  have hpoint : ∀ n, (yearGrid zone).point n = (monthGrid zone).point (n * 12) := by
    intro n
    simp only [yearGrid, Grid.coarsen, zero_add]
  have hsame : ∀ n, (monthGrid zone).point n = monthStart zone (january1900 + n) := fun _ => rfl
  rw [add_assoc] at hmem hfirst
  rw [add_assoc] at hmem
  rw [← hsame] at hmem hfirst
  rw [← hsame] at hmem
  rw [hpoint, hpoint]
  have hlow : (monthGrid zone).point (idx * 12) ≤
      (monthGrid zone).point (idx * 12 + tm.tm_mon) := by
    rw [Grid.point_le_point]
    omega
  have hhigh : (monthGrid zone).point (idx * 12 + tm.tm_mon + 1) ≤
      (monthGrid zone).point ((idx + 1) * 12) := by
    rw [Grid.point_le_point]
    omega
  refine ⟨⟨hlow.trans hmem.1, hmem.2.trans_le hhigh⟩, ?_⟩
  constructor
  · intro heq
    have hzero : (monthGrid zone).point (idx * 12 + tm.tm_mon) =
        (monthGrid zone).point (idx * 12) := by
      omega
    have hmon' : idx * 12 + tm.tm_mon = idx * 12 := by
      have hindex := congrArg (monthGrid zone).index hzero
      rwa [Grid.index_point, Grid.index_point] at hindex
    exact ⟨by omega, hstarts.mp (hfirst.mpr (heq.trans hzero.symm))⟩
  · rintro ⟨hzero, hstart⟩
    rw [hfirst.mp (hstarts.mpr hstart), hzero, add_zero]

/-- Month, day and clock of the base are attached to the begin of a year. -/
theorem attaches_years (zone base : Int) :
    Attaches (yearGrid zone) base (attachYears zone (localtime zone base)) := by
  obtain ⟨⟨hday, -⟩, hclock⟩ := localtime_valid zone base
  have hmon : 0 ≤ (localtime zone base).tm_mon ∧ (localtime zone base).tm_mon < 12 := by
    simp only [localtime]
    omega
  have hlast : ∀ idx, 1 ≤ (inYear zone (localtime zone base) idx).tm_mday ∧
      (0 ≤ (inYear zone (localtime zone base) idx).clock ∧
        (inYear zone (localtime zone base) idx).clock < 86400) ∧
      (inYear zone (localtime zone base) idx).tm_mon = (localtime zone base).tm_mon ∧
      ((inYear zone (localtime zone base) idx).StartsMonth ↔
        (localtime zone base).StartsMonth) := by
    intro idx
    obtain ⟨-, ⟨⟨hday', -⟩, hclock'⟩, hstarts⟩ := inYear_spec zone hday hclock idx
    refine ⟨hday', hclock', ?_, hstarts⟩
    simp only [inYear, clampDay]
    split_ifs <;> rfl
  refine ⟨fun p => ?_, fun p => (inYear_mem zone hday hclock hmon p.2).1, fun hbase p => ?_,
    fun hbase p => ?_⟩
  · obtain ⟨hday', hclock', hmon', -⟩ := hlast p.2
    exact (inYear_mem zone hday' hclock' (hmon'.symm ▸ hmon) p.1).1
  · obtain ⟨hday', hclock', hmon', hstarts⟩ := hlast p.2
    have hstart := (startsYear_iff zone base).mpr hbase
    exact Prod.ext ((inYear_mem zone hday' hclock' (hmon'.symm ▸ hmon) p.1).2.mpr
        ⟨hmon'.trans hstart.1, hstarts.mpr hstart.2⟩)
      ((inYear_mem zone hday hclock hmon p.2).2.mpr hstart)
  · obtain ⟨⟨hle, -⟩, hiff⟩ := inYear_mem zone hday hclock hmon p.2
    refine lt_of_le_of_ne hle fun heq => hbase ?_
    exact (startsYear_iff zone base).mp (hiff.mp heq.symm)

/-! ## All units -/

/-- The length of the cycle is an `int`; or the base begins its month or year, and the counts fit. -/
def Regular (zone : Int) (c : Cycle) (t : Int) : Prop :=
  let btm := localtime zone c.baseTime
  let atm := localtime zone t
  match c.cycleUnit with
  | .U_SECOND => Fits (c.cycle * 1)
  | .U_MINUTE => Fits (c.cycle * 60)
  | .U_HOUR => Fits (c.cycle * (60 * 60))
  | .U_DAY => Fits (c.cycle * (60 * 60 * 24))
  | .U_WEEK => Fits (c.cycle * (60 * 60 * 24 * 7))
  | .U_MONTH => btm.StartsMonth ∧ InRange (monthNumber btm) (monthNumber atm) c.cycle
  | .U_QUARTER => btm.StartsMonth ∧ InRange (monthNumber btm) (monthNumber atm) (3 * c.cycle)
  | .U_YEAR => btm.StartsYear ∧ InRange btm.tm_year atm.tm_year c.cycle

/-- Exactly the regular cycles partition time. -/
theorem partitions_iff_regular (hcycle : 1 ≤ c.cycle) : c.Partitions zone t ↔ c.Regular zone t := by
  rw [partitions_iff]
  unfold computeUnit Regular
  cases c.cycleUnit with
  | U_SECOND => exact partitions_fixed (by omega)
  | U_MINUTE => exact partitions_fixed (by omega)
  | U_HOUR => exact partitions_fixed (by omega)
  | U_DAY => exact partitions_fixed (by omega)
  | U_WEEK => exact partitions_fixed (by omega)
  | U_MONTH =>
      simp only [computeMonth_bounds, monthNumber, localtime_monthNumber, startsMonth_iff]
      exact partitions_counted (by omega) (attaches_months zone c.baseTime true)
  | U_QUARTER =>
      simp only [computeQuarter_bounds, monthNumber, localtime_monthNumber, startsMonth_iff]
      exact partitions_counted (by omega) (attaches_months zone c.baseTime false)
  | U_YEAR =>
      simp only [computeYear_bounds, localtime_year, startsYear_iff]
      exact partitions_counted (by omega) (attaches_years zone c.baseTime)

/-- What lies between two numbers in range is in range. -/
theorem InRange.between {b a a' a'' w : Int} (hw : 0 < w) (h : InRange b a w)
    (h'' : InRange b a'' w) (hle : a ≤ a') (hle' : a' ≤ a'') : InRange b a' w := by
  have hlow : (a - b) / w ≤ (a' - b) / w := Int.ediv_le_ediv hw (by omega)
  have hhigh : (a' - b) / w ≤ (a'' - b) / w := Int.ediv_le_ediv hw (by omega)
  have hmul : ∀ {m n : Int}, m ≤ n → m * w ≤ n * w :=
    fun hmn => Int.mul_le_mul_of_nonneg_right hmn hw.le
  exact ⟨h.width, h.base,
    h.first.between h''.first (by have := hmul hlow; omega) (by have := hmul hhigh; omega),
    h.last.between h''.last (by have := hmul (by omega : (a - b) / w + 1 ≤ (a' - b) / w + 1); omega)
      (by have := hmul (by omega : (a' - b) / w + 1 ≤ (a'' - b) / w + 1); omega),
    h.next.between h''.next (by have := hmul (by omega : (a - b) / w + 2 ≤ (a' - b) / w + 2); omega)
      (by have := hmul (by omega : (a' - b) / w + 2 ≤ (a'' - b) / w + 2); omega),
    h.back.between h''.back (hmul hlow) (hmul hhigh),
    h.forth.between h''.forth (hmul (by omega)) (hmul (by omega)),
    h.ahead.between h''.ahead (hmul (by omega)) (hmul (by omega))⟩

/-- Between regular times all times are regular. -/
theorem Regular.between {u v : Int} (hcycle : 1 ≤ c.cycle) (h : c.Regular zone t)
    (hv : c.Regular zone v) (hle : t ≤ u) (hle' : u ≤ v) : c.Regular zone u := by
  unfold Regular at h hv ⊢
  cases hunit : c.cycleUnit <;> simp only [hunit] at h hv ⊢
  case U_MONTH =>
    simp only [monthNumber, localtime_monthNumber] at h hv ⊢
    exact ⟨h.1, h.2.between (by omega) hv.2 (Grid.index_mono _ hle) (Grid.index_mono _ hle')⟩
  case U_QUARTER =>
    simp only [monthNumber, localtime_monthNumber] at h hv ⊢
    exact ⟨h.1, h.2.between (by omega) hv.2 (Grid.index_mono _ hle) (Grid.index_mono _ hle')⟩
  case U_YEAR =>
    simp only [localtime_year] at h hv ⊢
    exact ⟨h.1, h.2.between (by omega) hv.2 (Grid.index_mono _ hle) (Grid.index_mono _ hle')⟩
  all_goals exact h

end Cycle

/-! ## The engine -/

namespace Engine

open Flowline.Cycle

variable {zone : Int} {cycle : Cycle}

/-- One instance follows another without a gap and without an overlap. -/
def Follows (i j : Instance) : Prop := j.getBegin = i.getEnd

/-- The loop opens one instance after the other. -/
theorem loop_follows (hcycle : 1 ≤ cycle.cycle) {rounds : List (Int × Bool)}
    (hrounds : ∀ r ∈ rounds, cycle.Regular zone r.1) :
    ∀ {t : Int} {ci : Instance}, cycle.Regular zone t → cycle.compute zone t = .ok ci →
      ∃ opened, loop zone cycle rounds ci = .ok opened ∧ (ci :: opened).IsChain Follows := by
  induction rounds with
  | nil => exact fun _ _ => ⟨[], rfl, List.IsChain.singleton _⟩
  | cons r rounds ih =>
      intro t ci hregular hci
      obtain ⟨time, proceeds⟩ := r
      unfold loop
      by_cases hover : time > ci.getEnd
      · rw [if_pos hover]
        obtain ⟨i, hi, -, hlt, -, next, hnext, hbegin⟩ := (partitions_iff_regular hcycle).mpr hregular
        obtain rfl : i = ci := Except.ok.inj (hi.symm.trans hci)
        have htime := hrounds (time, proceeds) List.mem_cons_self
        have hend : cycle.Regular zone i.getEnd := hregular.between hcycle htime hlt.le hover.lt.le
        obtain ⟨opened, hopened, hchain⟩ :=
          ih (fun r hr => hrounds r (List.mem_cons_of_mem _ hr)) hend hnext
        cases proceeds with
        | true =>
            refine ⟨next :: opened, ?_, List.IsChain.cons_cons hbegin hchain⟩
            simp only [hnext, hopened, bind, Except.bind, if_true, pure, Except.pure]
        | false =>
            refine ⟨[next], ?_, List.IsChain.cons_cons hbegin (List.IsChain.singleton _)⟩
            simp only [hnext, bind, Except.bind, Bool.false_eq_true, if_false, pure, Except.pure]
      · rw [if_neg hover]
        exact ⟨[], rfl, List.IsChain.singleton _⟩

/-- **Exactly the regular cycles partition time**, and the engine opens one instance of such a cycle
after the other, from the last unfinished one or from the one before the current time on. -/
theorem instances_partition_time (zone : Int) (cycle : Cycle) (hcycle : 1 ≤ cycle.cycle) :
    (∀ t, cycle.Partitions zone t ↔ cycle.Regular zone t) ∧
      ∀ unfinished time rounds,
        (∀ r ∈ unfinished, ∃ t, cycle.Regular zone t ∧ cycle.compute zone t = .ok r.1) →
        cycle.Regular zone time →
        (∀ i, cycle.compute zone time = .ok i → cycle.Regular zone (i.getBegin - 1)) →
        (∀ r ∈ rounds, cycle.Regular zone r.1) →
        ∃ ci opened, run zone cycle unfinished time rounds = .ok opened ∧
          (ci :: opened).IsChain Follows := by
  refine ⟨fun t => partitions_iff_regular hcycle, fun unfinished time rounds hunfinished htime
    hbefore hrounds => ?_⟩
  unfold run
  by_cases hall : cycle.cycle ≠ 0 ∧ unfinished.all (·.2)
  · rw [if_pos hall]
    cases hlast : unfinished.getLast? with
    | some r =>
        obtain ⟨t, hregular, hcompute⟩ := hunfinished r (List.mem_of_getLast? hlast)
        exact ⟨r.1, loop_follows hcycle hrounds hregular hcompute⟩
    | none =>
        obtain ⟨i, hi, -⟩ := (partitions_iff_regular hcycle).mpr htime
        obtain ⟨ci, hci, -⟩ := (partitions_iff_regular hcycle).mpr (hbefore i hi)
        refine ⟨ci, ?_⟩
        simp only [hi, hci, bind, Except.bind]
        exact loop_follows hcycle hrounds (hbefore i hi) hci
  · rw [if_neg hall]
    exact ⟨⟨0, 0, ""⟩, [], rfl, List.IsChain.singleton _⟩

/-- Months from the first instant of 2004 on, eight hours ahead of universal time. -/
def monthly : Cycle := ⟨1072886400, 1, .U_MONTH⟩

instance (b a w : Int) : Decidable (InRange b a w) :=
  decidable_of_iff (Fits w ∧ Fits b ∧ Fits (b + (a - b) / w * w) ∧ Fits (b + ((a - b) / w + 1) * w) ∧
      Fits (b + ((a - b) / w + 2) * w) ∧ Fits ((a - b) / w * w) ∧ Fits (((a - b) / w + 1) * w) ∧
      Fits (((a - b) / w + 2) * w))
    ⟨fun ⟨hw, hb, hf, hl, hn, hk, hk', hk''⟩ => ⟨hw, hb, hf, hl, hn, hk, hk', hk''⟩,
      fun ⟨hw, hb, hf, hl, hn, hk, hk', hk''⟩ => ⟨hw, hb, hf, hl, hn, hk, hk', hk''⟩⟩

/-- Such a cycle is regular, and the engine catches up with it from February on. -/
theorem instances_partition_time_monthly :
    monthly.Partitions 28800 1072886400 ∧
      ∃ ci opened, run 28800 monthly [] 1078070400 [(1083340800, true), (1083340800, true)] =
        .ok opened ∧ (ci :: opened).IsChain Follows := by
  obtain ⟨hiff, hengine⟩ := instances_partition_time 28800 monthly (by decide)
  refine ⟨(hiff 1072886400).mpr ⟨by decide, by decide⟩,
    hengine [] 1078070400 _ (by simp) ⟨by decide, by decide⟩ (fun i hi => ?_) (fun r hr => ?_)⟩
  · have hbegin : (monthly.compute 28800 1078070400).map Instance.getBegin = .ok 1078070400 := rfl
    rw [hi] at hbegin
    rw [Except.ok.inj hbegin]
    exact ⟨by decide, by decide⟩
  · simp only [List.mem_cons, List.not_mem_nil, or_false] at hr
    rcases hr with rfl | rfl <;> exact ⟨by decide, by decide⟩

/-- A base in the middle of a month: the assertion fails for the days of the month before it. -/
theorem instances_do_not_partition_time :
    ¬ ∀ zone (cycle : Cycle) t, 1 ≤ cycle.cycle → cycle.Partitions zone t := by
  intro h
  obtain ⟨i, hi, -⟩ := h 0 ⟨1074124800, 1, .U_MONTH⟩ 1073692800 (by decide)
  have hfail : Cycle.compute 0 ⟨1074124800, 1, .U_MONTH⟩ 1073692800 = .error .assertion := rfl
  cases hi.symm.trans hfail

end Engine

end Flowline
