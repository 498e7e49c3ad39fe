import Boss.RecordConvert

/-!
# Parameters of a call

`InputParams` keeps a copy of each value that a caller sets.  The length of a copy is that of
its type, or that of the string with its zero.  After `reset` the values are set again, and
the memory of the copies is used again: it only grows, and a string that is shorter than one
before is copied with what lies behind it in the caller's memory.

`none` stands for what the source answers with an exception or what is undefined: a string
without its zero, a copy from behind the caller's memory.

Main results: `Clean.setAll` and `Ready.clean`.
-/

namespace Params

open RecordConvert

def isString (type : COLUMN_VAR_TYPE) : Bool := type = .NUMSTR ∨ type = .VSTR

/-- The sizes of the types that are no strings. -/
def typeSize : COLUMN_VAR_TYPE → Option Nat
  | .INT2 => some 2
  | .INT => some 4
  | .DATE => some (2 * 4)
  | .LONG => some 8
  | .REAL => some 4
  | .NUMSTR | .VSTR | .UNKNOW => none

/-- `strlen`. -/
def strlen (memory : List UInt8) : Option Nat := memory.findIdx? fun c => decide (c = 0)

/-- `m_iValueLenths[i]` and the bytes of `m_pValues[i]`. -/
structure Slot where
  m_iValueLenth : Nat
  m_pValue : List UInt8
  deriving DecidableEq

/-- A value that a caller sets: its type and the memory that the pointer leads to. -/
structure Arg where
  type : COLUMN_VAR_TYPE
  memory : List UInt8

/-- `memcpy` of that many bytes. -/
def copied (lenth : Nat) (memory : List UInt8) : Option Slot :=
  if lenth ≤ memory.length then some ⟨lenth, memory.take lenth⟩ else none

/-- `setValue` where nothing has been set before. -/
def firstSlot (a : Arg) : Option Slot :=
  if isString a.type then (strlen a.memory).bind fun n => copied (n + 1) a.memory
  else (typeSize a.type).bind fun n => copied n a.memory

/-- `setValue` after `reset`: a copy is only made longer. -/
def nextSlot (old : Slot) (a : Arg) : Option Slot :=
  if isString a.type then
    (strlen a.memory).bind fun n =>
      copied (if old.m_iValueLenth < n + 1 then n + 1 else old.m_iValueLenth) a.memory
  else copied old.m_iValueLenth a.memory

structure InputParams where
  m_iNum : Nat
  slots : List Slot
  m_iSequnce : Nat
  m_isReseted : Bool
  deriving DecidableEq

namespace InputParams

/-- The constructor. -/
def create (iNum : Nat) : InputParams := ⟨iNum, [], 0, false⟩

def setValue (p : InputParams) (a : Arg) : Option InputParams :=
  if p.m_iNum ≤ p.m_iSequnce then none
  else if p.m_isReseted then
    (p.slots[p.m_iSequnce]?).bind fun old => (nextSlot old a).map fun s =>
      { p with slots := p.slots.set p.m_iSequnce s, m_iSequnce := p.m_iSequnce + 1 }
  else
    (firstSlot a).map fun s =>
      { p with slots := p.slots ++ [s], m_iSequnce := p.m_iSequnce + 1 }

/-- Only memory that has been set is cleared; otherwise there is no length to clear it by. -/
def reset (p : InputParams) : Option InputParams :=
  if p.slots.length = p.m_iNum then
    some { p with
      slots := p.slots.map fun s => ⟨s.m_iValueLenth, List.replicate s.m_iValueLenth 0⟩
      m_iSequnce := 0
      m_isReseted := true }
  else none

/-- One value after the other. -/
def setAll : InputParams → List Arg → Option InputParams
  | p, [] => some p
  | p, a :: args => (p.setValue a).bind fun q => setAll q args

end InputParams

/-! ## Values of columns -/

/-- The memory behind a pointer has a value of the column: a string with its zero, or the bytes
of a number, and whatever lies behind. -/
structure Gives (c : ColumnDef) (value : List UInt8) (a : Arg) : Prop where
  type : a.type = c.m_type
  fits : c.Fits value
  known : c.m_type ≠ .UNKNOW
  size : c.isString = false → c.slotLen = some c.m_len
  memory : if c.isString then ∃ behind, a.memory = value ++ 0 :: behind
    else ∃ behind, a.memory = value ++ behind

/-- How long the copy of a value is, in a slot that had one of the length `old` before. -/
def lenthAfter (old : Nat) (c : ColumnDef) (value : List UInt8) : Nat :=
  if c.isString then max old (value.length + 1) else c.m_len

/-- The lengths that slots of columns have. -/
def Bounded (c : ColumnDef) (lenth : Nat) : Prop :=
  if c.isString then 0 < lenth ∧ lenth ≤ c.m_len + 1 else lenth = c.m_len

attribute [grind =] isString typeSize strlen copied firstSlot nextSlot lenthAfter

theorem isString_eq (c : ColumnDef) : c.isString = isString c.m_type := rfl

theorem typeSize_eq {c : ColumnDef} (h : c.isString = false) : typeSize c.m_type = c.slotLen := by
  rw [isString_eq] at h
  unfold typeSize ColumnDef.slotLen
  cases hc : c.m_type <;> rw [hc] at h <;> first | rfl | simp [isString] at h

theorem strlen_value {value behind : List UInt8} (h : (0 : UInt8) ∉ value) :
    strlen (value ++ 0 :: behind) = some value.length := by
  unfold strlen
  rw [List.findIdx?_eq_some_iff_getElem]
  refine ⟨by simp, by simp, fun j hj => ?_⟩
  rw [List.getElem_append_left hj]
  simp only [decide_eq_true_eq]
  exact fun hzero => h (hzero ▸ List.getElem_mem hj)

theorem Gives.bounded {c : ColumnDef} {value : List UInt8} {a : Arg} (h : Gives c value a)
    {old : Nat} (hold : old ≤ c.m_len + 1) : Bounded c (lenthAfter old c value) := by
  have hlen := h.fits.length_le
  unfold Bounded lenthAfter
  by_cases hstring : c.isString = true
  · rw [if_pos hstring, if_pos hstring]
    omega
  · rw [if_neg hstring, if_neg hstring]

/-- **`setValue` in a slot that was set before.** -/
theorem nextSlot_eq {c : ColumnDef} {value : List UInt8} {a : Arg} (h : Gives c value a)
    {old : Slot} (hold : Bounded c old.m_iValueLenth) :
    nextSlot old a = copied (lenthAfter old.m_iValueLenth c value) a.memory := by
  have hmemory := h.memory
  have hfits := h.fits
  unfold nextSlot lenthAfter
  unfold Bounded at hold
  unfold ColumnDef.Fits at hfits
  rw [h.type, ← isString_eq]
  by_cases hstring : c.isString = true
  · rw [if_pos hstring] at hmemory hfits ⊢
    rw [if_pos hstring]
    obtain ⟨behind, hbehind⟩ := hmemory
    rw [hbehind, strlen_value hfits.1, Option.bind_some, ← hbehind]
    congr 1
    split <;> omega
  · rw [if_neg hstring] at hold ⊢
    rw [if_neg hstring, hold]

/-- **`setValue` in a new slot.**  The caller's memory is long enough. -/
theorem firstSlot_eq {c : ColumnDef} {value : List UInt8} {a : Arg} (h : Gives c value a) :
    firstSlot a = copied (lenthAfter 0 c value) a.memory ∧
      lenthAfter 0 c value ≤ a.memory.length := by
  have hmemory := h.memory
  have hfits := h.fits
  unfold firstSlot lenthAfter
  unfold ColumnDef.Fits at hfits
  rw [h.type, ← isString_eq]
  by_cases hstring : c.isString = true
  · rw [if_pos hstring] at hmemory hfits ⊢
    rw [if_pos hstring]
    obtain ⟨behind, hbehind⟩ := hmemory
    rw [hbehind, strlen_value hfits.1, Option.bind_some, Nat.zero_max]
    exact ⟨rfl, by simp⟩
  · rw [if_neg hstring] at hmemory hfits ⊢
    have hnumber : c.isString = false := by simpa using hstring
    rw [if_neg hstring, typeSize_eq hnumber, h.size hnumber, Option.bind_some]
    obtain ⟨behind, hbehind⟩ := hmemory
    refine ⟨rfl, ?_⟩
    rw [hbehind]
    simp
    omega

/-! ## All values of a call -/

/-- A column, a value of it, and what the caller gives for it. -/
structure Given where
  c : ColumnDef
  value : List UInt8
  arg : Arg
  gives : Gives c value arg

/-- The copies that are made in slots of these lengths. -/
def copiedAll : List Nat → List Given → Option (List Slot)
  | old :: olds, g :: gs =>
      (copied (lenthAfter old g.c g.value) g.arg.memory).bind fun s =>
        (copiedAll olds gs).map fun slots => s :: slots
  | _, _ => some []

/-- A parameter object for the columns of an index, between two calls: new, or reset after
values of these columns were set. -/
inductive Ready (cs : List ColumnDef) : InputParams → Prop
  | created : Ready cs (.create cs.length)
  | again {p q r : InputParams} {gs : List Given} (h : Ready cs p) (hcs : gs.map (·.c) = cs)
      (hset : p.setAll (gs.map (·.arg)) = some q) (hreset : q.reset = some r) : Ready cs r

/-- The lengths that the slots had before, none where nothing was set. -/
def InputParams.oldLenths (p : InputParams) : List Nat :=
  if p.m_isReseted then p.slots.map (·.m_iValueLenth) else List.replicate p.m_iNum 0

/-- The first round of values. -/
theorem setAll_first {n : Nat} (gs : List Given) :
    ∀ done : List Slot, done.length + gs.length ≤ n →
      InputParams.setAll ⟨n, done, done.length, false⟩ (gs.map (·.arg)) =
        (copiedAll (List.replicate gs.length 0) gs).map fun slots =>
          ⟨n, done ++ slots, done.length + gs.length, false⟩ := by
  induction gs with
  | nil => simp [InputParams.setAll, copiedAll]
  | cons g gs ih =>
      intro done hroom
      rw [List.length_cons] at hroom
      obtain ⟨hslot, hlen⟩ := firstSlot_eq g.gives
      rw [List.map_cons, InputParams.setAll, InputParams.setValue, if_neg (by simp only; omega),
        hslot, List.length_cons, List.replicate_succ, copiedAll, copied, if_pos hlen]
      simp only [Bool.false_eq_true, if_false, Option.map_some, Option.bind_some]
      have hnext := ih (done ++ [⟨lenthAfter 0 g.c g.value,
        g.arg.memory.take (lenthAfter 0 g.c g.value)⟩]) (by simp; omega)
      rw [List.length_append, List.length_singleton] at hnext
      rw [hnext, Option.map_map]
      congr 1
      funext slots
      simp only [Function.comp, List.append_assoc, List.singleton_append]
      congr 1
      omega

/-- A round of values after `reset`. -/
theorem setAll_again {n : Nat} {gs : List Given} {olds : List Slot}
    (hold : List.Forall₂ (fun (g : Given) s => Bounded g.c s.m_iValueLenth) gs olds) :
    ∀ done : List Slot, done.length + gs.length ≤ n →
      InputParams.setAll ⟨n, done ++ olds, done.length, true⟩ (gs.map (·.arg)) =
        (copiedAll (olds.map (·.m_iValueLenth)) gs).map fun slots =>
          ⟨n, done ++ slots, done.length + gs.length, true⟩ := by
  induction hold with
  | nil => simp [InputParams.setAll, copiedAll]
  | @cons g old gs olds hg hgs ih =>
      intro done hroom
      rw [List.length_cons] at hroom
      rw [List.map_cons, InputParams.setAll, InputParams.setValue, if_neg (by simp only; omega)]
      simp only [if_true, List.getElem?_append_right (Nat.le_refl _), Nat.sub_self,
        List.getElem?_cons_zero, Option.bind_some]
      rw [nextSlot_eq g.gives hg, List.map_cons, copiedAll]
      cases hcopy : copied (lenthAfter old.m_iValueLenth g.c g.value) g.arg.memory with
      | none => rfl
      | some s =>
          have hnext := ih (done ++ [s]) (by simp; omega)
          rw [List.length_append, List.length_singleton] at hnext
          have hset : (done ++ old :: olds).set done.length s = done ++ [s] ++ olds := by
            rw [List.set_append_right _ _ (Nat.le_refl _), Nat.sub_self, List.set_cons_zero,
              List.append_assoc, List.singleton_append]
          simp only [Option.map_some, Option.bind_some, hset]
          rw [hnext, Option.map_map]
          congr 1
          funext slots
          simp only [Function.comp, List.append_assoc, List.singleton_append, List.length_cons]
          congr 1
          omega

/-- The length of a copy in a slot of this length. -/
def Given.lenth (g : Given) (old : Nat) : Nat := lenthAfter old g.c g.value

/-- The copy itself. -/
def Given.slot (g : Given) (old : Nat) : Slot := ⟨g.lenth old, g.arg.memory.take (g.lenth old)⟩

/-- The copies are made, unless one goes beyond the caller's memory. -/
theorem copiedAll_eq (olds : List Nat) (gs : List Given) :
    copiedAll olds gs =
      if ∀ x ∈ olds.zip gs, x.2.lenth x.1 ≤ x.2.arg.memory.length then
        some ((olds.zip gs).map fun x => x.2.slot x.1)
      else none := by
  induction olds generalizing gs with
  | nil => simp [copiedAll]
  | cons old olds ih =>
      cases gs with
      | nil => simp [copiedAll]
      | cons g gs =>
          rw [copiedAll, ih gs, List.zip_cons_cons]
          simp only [List.forall_mem_cons, List.map_cons]
          unfold copied
          by_cases hone : lenthAfter old g.c g.value ≤ g.arg.memory.length
          · rw [if_pos hone, Option.bind_some]
            by_cases hall : ∀ x ∈ olds.zip gs, x.2.lenth x.1 ≤ x.2.arg.memory.length
            · rw [if_pos hall, if_pos ⟨hone, hall⟩]
              rfl
            · rw [if_neg hall, if_neg fun h => hall h.2]
              rfl
          · rw [if_neg hone, Option.bind_none, if_neg fun h => hone h.1]

/-- What a parameter object is like between two calls. -/
structure Clean (cs : List ColumnDef) (p : InputParams) : Prop where
  num : p.m_iNum = cs.length
  sequnce : p.m_iSequnce = 0
  slots : (p.m_isReseted = false ∧ p.slots = []) ∨ (p.m_isReseted = true ∧
    List.Forall₂ (fun c (s : Slot) => Bounded c s.m_iValueLenth) cs p.slots)

variable {cs : List ColumnDef} {p : InputParams}

theorem Bounded.le {c : ColumnDef} {lenth : Nat} (h : Bounded c lenth) : lenth ≤ c.m_len + 1 := by
  unfold Bounded at h
  split at h <;> omega

/-- A slot is at most one byte longer than its column. -/
theorem Clean.oldLenths_le (h : Clean cs p) :
    List.Forall₂ (fun (c : ColumnDef) old => old ≤ c.m_len + 1) cs p.oldLenths := by
  unfold InputParams.oldLenths
  rcases h.slots with ⟨hfirst, -⟩ | ⟨hagain, hslots⟩
  · rw [hfirst, h.num]
    simp only [Bool.false_eq_true, if_false]
    rw [List.forall₂_iff_zip]
    refine ⟨by simp, fun {c old} hin => ?_⟩
    have hzero := List.eq_of_mem_replicate (List.of_mem_zip hin).2
    omega
  · rw [if_pos hagain, List.forall₂_map_right_iff]
    exact hslots.imp fun _ _ hbounded => hbounded.le

theorem Clean.length_oldLenths (h : Clean cs p) : p.oldLenths.length = cs.length :=
  h.oldLenths_le.length_eq.symm

/-- **All values of a call.** -/
theorem Clean.setAll (h : Clean cs p) {gs : List Given} (hcs : gs.map (·.c) = cs) :
    p.setAll (gs.map (·.arg)) =
      (copiedAll p.oldLenths gs).map fun slots => ⟨cs.length, slots, cs.length, p.m_isReseted⟩ := by
  obtain ⟨iNum, slots, iSequnce, isReseted⟩ := p
  obtain ⟨hnum, hseq, hslots⟩ := h
  dsimp only at hnum hseq hslots
  have hlen : gs.length = cs.length := by rw [← hcs, List.length_map]
  subst hnum hseq
  rcases hslots with ⟨rfl, rfl⟩ | ⟨rfl, hslots⟩
  · have hset := setAll_first (n := cs.length) gs [] (by simp; omega)
    simpa [InputParams.oldLenths, hlen] using hset
  · have hold : List.Forall₂ (fun (g : Given) (s : Slot) => Bounded g.c s.m_iValueLenth) gs slots := by
      rw [← hcs] at hslots
      exact List.forall₂_map_left_iff.mp hslots
    have hset := setAll_again (n := cs.length) hold [] (by simp; omega)
    simpa [InputParams.oldLenths, hlen] using hset

/-- What the copies are like afterwards. -/
theorem slots_bounded {olds : List Nat} {gs : List Given}
    (hold : List.Forall₂ (fun (g : Given) old => old ≤ g.c.m_len + 1) gs olds) :
    List.Forall₂ (fun c (s : Slot) => Bounded c s.m_iValueLenth) (gs.map (·.c))
      ((olds.zip gs).map fun x => x.2.slot x.1) := by
  induction hold with
  | nil => exact .nil
  | @cons g old gs olds hg _ ih => exact .cons (g.gives.bounded hg) ih

/-- **Every parameter object is clean between two calls.** -/
theorem Ready.clean (h : Ready cs p) : Clean cs p := by
  induction h with
  | created => exact ⟨rfl, rfl, Or.inl ⟨rfl, rfl⟩⟩
  | @again p q r gs _ hcs hset hreset ih =>
      rw [ih.setAll hcs, copiedAll_eq] at hset
      split at hset
      case isFalse => cases hset
      case isTrue =>
        rw [Option.map_some, Option.some.injEq] at hset
        subst hset
        have hold : List.Forall₂ (fun (g : Given) old => old ≤ g.c.m_len + 1) gs p.oldLenths := by
          have hle := ih.oldLenths_le
          rw [← hcs] at hle
          exact List.forall₂_map_left_iff.mp hle
        have hbounded := slots_bounded hold
        rw [hcs] at hbounded
        unfold InputParams.reset at hreset
        rw [if_pos hbounded.length_eq.symm, Option.some.injEq] at hreset
        subst hreset
        refine ⟨rfl, rfl, Or.inr ⟨rfl, ?_⟩⟩
        rw [List.forall₂_map_right_iff]
        exact hbounded

end Params
