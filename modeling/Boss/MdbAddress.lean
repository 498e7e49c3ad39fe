import Boss.MdbConstDef
import Boss.SortedMap
import Mathlib.Algebra.Group.Int.Defs
import Mathlib.Algebra.Group.Nat.Defs
import Mathlib.Data.List.Induction

/-!
# Positions and addresses

A `ShmPosition` is six bytes: a space code in one `char` and an offset in five.  The space
code is read back through the `char`, which is signed, so that from 128 on the number that
is read is not the one that was written (`read_setValue_iff`).

`MdbAddressMgr` knows where every space is mapped.  It finds the space of a position by its
code and the space of an address by its bounds.
-/

namespace Address

open SortedMap

/-- `CHAR_INT_MAX`. -/
def charIntMax : Nat := 256

/-- `OFFSET_LEN`. -/
def offsetLen : Nat := 5

/-- The bytes of a `ShmPosition`. -/
structure PackedPosition where
  m_spaceCode : Int8
  m_offSet : List UInt8
  length : m_offSet.length = offsetLen
  deriving DecidableEq

/-- The loop of `setOffSet` over `n` bytes, from the last one to the first. -/
def offSetBytes : Nat → Nat → List UInt8
  | 0, _ => []
  | n + 1, t_offSet =>
      offSetBytes n (t_offSet / charIntMax) ++ [UInt8.ofNat (t_offSet % charIntMax)]

/-- The loop of `getOffSet`. -/
def bytesOffSet (bytes : List UInt8) : Nat :=
  bytes.foldl (fun t_offSet c => t_offSet * charIntMax + c.toNat) 0

@[simp] theorem length_offSetBytes (n v : Nat) : (offSetBytes n v).length = n := by
  induction n generalizing v with
  | zero => rfl
  | succ n ih => simp [offSetBytes, ih]

/-- The bytes of a number, read back. -/
theorem bytesOffSet_offSetBytes (n v : Nat) : bytesOffSet (offSetBytes n v) = v % 256 ^ n := by
  induction n generalizing v with
  | zero => simp [offSetBytes, bytesOffSet, Nat.mod_one]
  | succ n ih =>
      have hlast : (UInt8.ofNat (v % charIntMax)).toNat = v % 256 :=
        UInt8.toNat_ofNat_of_lt' (Nat.mod_lt v (by decide))
      have hfront : bytesOffSet (offSetBytes n (v / charIntMax)) = v / 256 % 256 ^ n := ih _
      rw [bytesOffSet] at hfront ⊢
      rw [offSetBytes, List.foldl_append, hfront, List.foldl_cons, List.foldl_nil, hlast,
        charIntMax, Nat.pow_succ', Nat.mod_mul]
      omega

/-- Two rows of bytes of one length stand for different numbers. -/
theorem bytesOffSet_injective {xs ys : List UInt8} (hlen : xs.length = ys.length)
    (h : bytesOffSet xs = bytesOffSet ys) : xs = ys := by
  induction xs using List.reverseRecOn generalizing ys with
  | nil => exact (List.length_eq_zero_iff.mp hlen.symm).symm
  | append_singleton xs x ih =>
      obtain ⟨ys, y, rfl⟩ : ∃ zs z, ys = zs ++ [z] := by
        have hne : ys ≠ [] := by
          intro hnil
          simp [hnil] at hlen
        exact ⟨ys.dropLast, ys.getLast hne, (List.dropLast_append_getLast hne).symm⟩
      simp only [bytesOffSet, List.foldl_append, List.foldl_cons, List.foldl_nil] at h
      have hx : x.toNat < 256 := x.toNat_lt
      have hy : y.toNat < 256 := y.toNat_lt
      have hfront : bytesOffSet xs = bytesOffSet ys := by
        simp only [bytesOffSet, charIntMax] at h ⊢
        omega
      have hlast : x = y := by
        apply UInt8.toNat_inj.mp
        simp only [bytesOffSet, charIntMax] at h hfront
        omega
      rw [ih (by simpa using hlen) hfront, hlast]

theorem bytesOffSet_lt (bytes : List UInt8) : bytesOffSet bytes < 256 ^ bytes.length := by
  induction bytes using List.reverseRecOn with
  | nil => decide
  | append_singleton xs x ih =>
      have hx : x.toNat < 256 := x.toNat_lt
      rw [bytesOffSet] at ih ⊢
      rw [List.foldl_append, List.length_append, List.length_singleton, Nat.pow_succ]
      simp only [List.foldl_cons, List.foldl_nil, charIntMax] at ih ⊢
      omega

namespace PackedPosition

variable (p : PackedPosition)

/-- The `char` becomes an `unsigned int`, with its sign. -/
def getSpaceCode : Nat := (p.m_spaceCode.toInt % 2 ^ 32).toNat

def getOffSet : Nat := bytesOffSet p.m_offSet

def setSpaceCode (r_spaceCode : Nat) : PackedPosition × Bool :=
  if r_spaceCode > charIntMax then (p, false)
  else ({ p with m_spaceCode := Int8.ofNat r_spaceCode }, true)

/-- The bytes are written also when the offset is refused. -/
def setOffSet (r_offSet : Nat) : PackedPosition × Bool :=
  (⟨p.m_spaceCode, offSetBytes offsetLen r_offSet, length_offSetBytes _ _⟩,
    !decide (r_offSet / charIntMax ^ offsetLen > 0))

def setValue (r_spaceCode r_offSet : Nat) : PackedPosition × Bool :=
  let q := p.setSpaceCode r_spaceCode
  if q.2 then q.1.setOffSet r_offSet else q

/-- The numbers that are read from the bytes. -/
def read : ShmPosition := ⟨p.getSpaceCode, p.getOffSet⟩

theorem getSpaceCode_eq : p.getSpaceCode =
    if 0 ≤ p.m_spaceCode.toInt then p.m_spaceCode.toInt.toNat
    else (2 ^ 32 + p.m_spaceCode.toInt).toNat := by
  have hlow := p.m_spaceCode.le_toInt
  have hhigh := p.m_spaceCode.toInt_lt
  unfold getSpaceCode
  split <;> omega

theorem getOffSet_lt : p.getOffSet < charIntMax ^ offsetLen := by
  have h := bytesOffSet_lt p.m_offSet
  rwa [p.length] at h

/-- Equal numbers, equal bytes: `memcmp` on two positions compares the numbers. -/
theorem read_injective {p q : PackedPosition} (h : p.read = q.read) : p = q := by
  obtain ⟨c, xs, hxs⟩ := p
  obtain ⟨d, ys, hys⟩ := q
  simp only [read, ShmPosition.mk.injEq] at h
  obtain ⟨hcode, hoff⟩ := h
  have hcode' : c = d := by
    apply Int8.toInt_inj.mp
    rw [getSpaceCode_eq, getSpaceCode_eq] at hcode
    have := c.le_toInt
    have := d.le_toInt
    have := c.toInt_lt
    have := d.toInt_lt
    simp only at hcode
    split at hcode <;> split at hcode <;> omega
  have hoff' : xs = ys := bytesOffSet_injective (hxs.trans hys.symm) hoff
  subst hcode' hoff'
  rfl

/-- What `setValue` accepts. -/
theorem setValue_accepts_iff (code off : Nat) :
    (p.setValue code off).2 = true ↔ code ≤ charIntMax ∧ off < charIntMax ^ offsetLen := by
  have hoff : off / charIntMax ^ offsetLen = 0 ↔ off < charIntMax ^ offsetLen :=
    Nat.div_eq_zero_iff_lt (by decide)
  by_cases hcode : code > charIntMax
  · simp [setValue, setSpaceCode, hcode]
  · have hle : code ≤ charIntMax := Nat.not_lt.mp hcode
    rw [← hoff]
    simp only [setValue, setSpaceCode, if_neg hcode, if_true, setOffSet, Bool.not_eq_true',
      decide_eq_false_iff_not, hle, true_and, Nat.not_lt, Nat.le_zero]

/-- The bytes behind an accepted `setValue`. -/
theorem setValue_fst {code : Nat} (hcode : code ≤ charIntMax) (off : Nat) :
    (p.setValue code off).1 =
      ⟨Int8.ofNat code, offSetBytes offsetLen off, length_offSetBytes _ _⟩ := by
  simp [setValue, setSpaceCode, setOffSet, Nat.not_lt.mpr hcode]

theorem getOffSet_setValue {code off : Nat} (h : (p.setValue code off).2 = true) :
    (p.setValue code off).1.getOffSet = off := by
  obtain ⟨hcode, hoff⟩ := (p.setValue_accepts_iff code off).mp h
  rw [setValue_fst p hcode off, getOffSet, bytesOffSet_offSetBytes]
  exact Nat.mod_eq_of_lt hoff

/-- A space code up to 127 is read as it was written, one from 128 to 255 as a number near
to the largest, and 256 as zero. -/
theorem getSpaceCode_setValue {code off : Nat} (h : (p.setValue code off).2 = true) :
    (p.setValue code off).1.getSpaceCode =
      if code < 128 then code else if code = 256 then 0 else 2 ^ 32 - 256 + code := by
  obtain ⟨hcode, -⟩ := (p.setValue_accepts_iff code off).mp h
  have hle : code ≤ 256 := hcode
  rw [setValue_fst p hcode off, getSpaceCode_eq]
  simp only [Int8.toInt_ofNat', Int8.size]
  have hbmod : (code : Int).bmod 256 =
      if code < 128 then (code : Int) else if code = 256 then 0 else (code : Int) - 256 := by
    rw [Int.bmod_def]
    split_ifs <;> omega
  rw [hbmod]
  split_ifs <;> omega

/-- The numbers that are read are those that were set just for the codes below 128. -/
theorem read_setValue_iff {code off : Nat} (h : (p.setValue code off).2 = true) :
    (p.setValue code off).1.read = ⟨code, off⟩ ↔ code < 128 := by
  have hle : code ≤ 256 := ((p.setValue_accepts_iff code off).mp h).1
  rw [read, ShmPosition.mk.injEq, p.getOffSet_setValue h, p.getSpaceCode_setValue h]
  split_ifs with hlow h256 <;> omega

end PackedPosition

/-- `NULL_SHMPOS`. -/
def packedNull : PackedPosition := ⟨0, offSetBytes offsetLen 0, length_offSetBytes _ _⟩

theorem read_packedNull : packedNull.read = nullShmPos := by decide

/-- `MdbAddress`; the address 0 is `NULL`. -/
structure MdbAddress where
  m_pos : PackedPosition
  m_addr : Nat

/-- `SpaceAddress`, as `getSpAddrList` fills it in for a space that is mapped. -/
structure SpaceAddress where
  m_spaceCode : Nat
  m_size : Nat
  m_sAddr : Nat
  code_le : m_spaceCode ≤ charIntMax
  size_pos : 0 < m_size
  addr_pos : 0 < m_sAddr
  fits : m_sAddr + m_size ≤ 2 ^ 64

/-- `m_eAddr`, the last byte. -/
def SpaceAddress.m_eAddr (s : SpaceAddress) : Nat := s.m_sAddr + (s.m_size - 1)

/-- The ranges of two spaces have no address in common. -/
def SpaceAddress.Apart (s t : SpaceAddress) : Prop :=
  s.m_sAddr + s.m_size ≤ t.m_sAddr ∨ t.m_sAddr + t.m_size ≤ s.m_sAddr

namespace MdbAddress

variable (a : MdbAddress)

def setAddr (r_spAddr : Nat) : MdbAddress := { a with m_addr := r_spAddr + a.m_pos.getOffSet }

def setShmPos (r_spCode r_spAddr : Nat) : MdbAddress × Bool :=
  let t_offSet := a.m_addr - r_spAddr
  let q := a.m_pos.setSpaceCode r_spCode
  if q.2 then ({ a with m_pos := (q.1.setOffSet t_offSet).1 }, (q.1.setOffSet t_offSet).2)
  else (a, false)

end MdbAddress

/-- What the mapped spaces are like: each has a code and a range of its own. -/
structure Disjoint (spaces : List SpaceAddress) : Prop where
  codes : spaces.Pairwise fun s t => s.m_spaceCode ≠ t.m_spaceCode
  apart : spaces.Pairwise SpaceAddress.Apart

/-- `MdbAddressMgr`: the mapped spaces in the order of their codes. -/
structure MdbAddressMgr where
  m_spAddrList : List SpaceAddress
  ascending : Ascending SpaceAddress.m_spaceCode m_spAddrList
  apart : m_spAddrList.Pairwise SpaceAddress.Apart

theorem SpaceAddress.Apart.symm {s t : SpaceAddress} (h : s.Apart t) : t.Apart s := Or.symm h

/-- `sort` by the space code. -/
def sortedByCode (spaces : List SpaceAddress) : List SpaceAddress :=
  spaces.mergeSort fun s t => decide (s.m_spaceCode ≤ t.m_spaceCode)

/-- A relation that goes both ways does not depend on the order of the list. -/
theorem pairwise_sortedByCode {spaces : List SpaceAddress} {r : SpaceAddress → SpaceAddress → Prop}
    (hsymm : ∀ {s t}, r s t → r t s) (h : spaces.Pairwise r) : (sortedByCode spaces).Pairwise r :=
  (List.Perm.pairwise_iff hsymm (List.mergeSort_perm spaces _)).mpr h

theorem Disjoint.ascending {spaces : List SpaceAddress} (h : Disjoint spaces) :
    Ascending SpaceAddress.m_spaceCode (sortedByCode spaces) := by
  have hsorted : (sortedByCode spaces).Pairwise fun s t =>
      decide (s.m_spaceCode ≤ t.m_spaceCode) = true :=
    List.pairwise_mergeSort (fun a b c hab hbc => by simp at hab hbc ⊢; omega)
      (fun a b => by simp; omega) spaces
  have hcodes : (sortedByCode spaces).Pairwise fun s t => s.m_spaceCode ≠ t.m_spaceCode :=
    pairwise_sortedByCode Ne.symm h.codes
  refine hsorted.imp₂ (fun s t hle hne => ?_) hcodes
  exact lt_of_le_of_ne (of_decide_eq_true hle) hne

namespace MdbAddressMgr

/-- `initialize`. -/
def initializeAddr (r_spAddrList : List SpaceAddress) (h : Disjoint r_spAddrList) : MdbAddressMgr where
  m_spAddrList := sortedByCode r_spAddrList
  ascending := h.ascending
  apart := pairwise_sortedByCode SpaceAddress.Apart.symm h.apart

theorem mem_initializeAddr {spaces : List SpaceAddress} (h : Disjoint spaces) {s : SpaceAddress} :
    s ∈ (initializeAddr spaces h).m_spAddrList ↔ s ∈ spaces :=
  List.mem_mergeSort

variable (mgr : MdbAddressMgr)

/-- `lower_bound` by the code and the comparison behind it. -/
def findSpace (code : Nat) : Option SpaceAddress :=
  let t_itr := lowerBound (fun s => decide (s.m_spaceCode < code)) mgr.m_spAddrList
  match mgr.m_spAddrList[t_itr]? with
  | none => none
  | some s => if s.m_spaceCode = code then some s else none

/-- `getPhAddr`. -/
def getPhAddr (r_mdbAddr : MdbAddress) : MdbAddress × Bool :=
  if packedNull = r_mdbAddr.m_pos then ({ r_mdbAddr with m_addr := 0 }, true)
  else
    match mgr.findSpace r_mdbAddr.m_pos.getSpaceCode with
    | none => ({ r_mdbAddr with m_addr := 0 }, false)
    | some s => (r_mdbAddr.setAddr s.m_sAddr, true)

/-- `getShmPos`. -/
def getShmPos (r_mdbAddr : MdbAddress) : MdbAddress × Bool :=
  match mgr.m_spAddrList.find? fun s =>
      decide (s.m_sAddr ≤ r_mdbAddr.m_addr) && decide (s.m_eAddr ≥ r_mdbAddr.m_addr) with
  | none => (r_mdbAddr, false)
  | some s => r_mdbAddr.setShmPos s.m_spaceCode s.m_sAddr

/-- A position becomes an address, and the address a position, in an object that held the
position `q` before. -/
def roundTrip (pos q : PackedPosition) : Option PackedPosition :=
  let there := mgr.getPhAddr ⟨pos, 0⟩
  let back := mgr.getShmPos ⟨q, there.1.m_addr⟩
  if there.2 && back.2 then some back.1.m_pos else none

/-- The search by code finds the space of the code. -/
theorem findSpace_of_mem {s : SpaceAddress} (hs : s ∈ mgr.m_spAddrList) :
    mgr.findSpace s.m_spaceCode = some s := by
  have hlookup := mgr.ascending.mem_iff.mp hs
  unfold findSpace
  rcases lowerBound_cases mgr.ascending s.m_spaceCode with
    ⟨pre, b, post, hlist, hkey, hplace⟩ | ⟨pre, post, hlist, hpre, hpost, -⟩
  · have hb : b = s := by
      have hmem : b ∈ mgr.m_spAddrList := by rw [hlist]; simp
      have hb := mgr.ascending.mem_iff.mp hmem
      rw [hkey, hlookup] at hb
      exact (Option.some.inj hb).symm
    subst hb
    simp only [hplace]
    rw [hlist, List.getElem?_append_right (Nat.le_refl _), Nat.sub_self, List.getElem?_cons_zero]
    simp
  · exfalso
    rw [hlist, List.mem_append] at hs
    rcases hs with hs | hs
    · exact absurd (hpre s hs) (lt_irrefl _)
    · exact absurd (hpost s hs) (lt_irrefl _)

/-- The search by address finds the space that holds it: no other one does. -/
theorem find_of_inside {s : SpaceAddress} (hs : s ∈ mgr.m_spAddrList) {off : Nat}
    (hoff : off < s.m_size) :
    (mgr.m_spAddrList.find? fun t =>
      decide (t.m_sAddr ≤ s.m_sAddr + off) && decide (t.m_eAddr ≥ s.m_sAddr + off)) = some s := by
  have hinside : s.m_sAddr + off ≤ s.m_eAddr := by
    rw [SpaceAddress.m_eAddr]
    omega
  obtain ⟨pre, post, hlist⟩ := List.append_of_mem hs
  have hapart := mgr.apart
  rw [hlist, List.pairwise_append] at hapart
  have hpre : pre.find? (fun t =>
      decide (t.m_sAddr ≤ s.m_sAddr + off) && decide (t.m_eAddr ≥ s.m_sAddr + off)) = none := by
    rw [List.find?_eq_none]
    intro t ht
    have htpos := t.size_pos
    have hts : t.m_sAddr + t.m_size ≤ s.m_sAddr ∨ s.m_sAddr + s.m_size ≤ t.m_sAddr :=
      hapart.2.2 t ht s List.mem_cons_self
    intro hin
    rw [Bool.and_eq_true, decide_eq_true_eq, decide_eq_true_eq, SpaceAddress.m_eAddr] at hin
    omega
  rw [hlist, List.find?_append, hpre, Option.none_or, List.find?_cons]
  simp [hinside]

/-- The address of a position, in the space that its code leads to. -/
theorem getPhAddr_of_mem {s : SpaceAddress} (hs : s ∈ mgr.m_spAddrList) {pos : PackedPosition}
    (hnull : pos ≠ packedNull) (hcode : pos.getSpaceCode = s.m_spaceCode) (addr : Nat) :
    mgr.getPhAddr ⟨pos, addr⟩ = (⟨pos, s.m_sAddr + pos.getOffSet⟩, true) := by
  unfold getPhAddr
  rw [if_neg (Ne.symm hnull)]
  simp only [hcode, mgr.findSpace_of_mem hs]
  rfl

/-- The position of an address, in the space that holds it. -/
theorem getShmPos_of_mem {s : SpaceAddress} (hs : s ∈ mgr.m_spAddrList) {off : Nat}
    (hoff : off < s.m_size) (q : PackedPosition) :
    mgr.getShmPos ⟨q, s.m_sAddr + off⟩ =
      (⟨(q.setValue s.m_spaceCode off).1, s.m_sAddr + off⟩,
        (q.setValue s.m_spaceCode off).2) := by
  have hcode : (q.setSpaceCode s.m_spaceCode).2 = true := by
    simp [PackedPosition.setSpaceCode, Nat.not_lt.mpr s.code_le]
  unfold getShmPos
  rw [mgr.find_of_inside hs hoff]
  simp only [MdbAddress.setShmPos, PackedPosition.setValue, hcode, if_true,
    Nat.add_sub_cancel_left]

/-- A position that is read as its space has it comes back, `NULL_SHMPOS` apart. -/
theorem roundTrip_of_mem {s : SpaceAddress} (hs : s ∈ mgr.m_spAddrList) {pos : PackedPosition}
    (hcode : pos.getSpaceCode = s.m_spaceCode) (hoff : pos.getOffSet < s.m_size)
    (hlow : s.m_spaceCode < 128) (hnull : pos ≠ packedNull) (q : PackedPosition) :
    mgr.roundTrip pos q = some pos := by
  have haccepts : (q.setValue s.m_spaceCode pos.getOffSet).2 = true := by
    rw [PackedPosition.setValue_accepts_iff]
    exact ⟨s.code_le, pos.getOffSet_lt⟩
  have hback : (q.setValue s.m_spaceCode pos.getOffSet).1 = pos := by
    apply PackedPosition.read_injective
    rw [(q.read_setValue_iff haccepts).mpr hlow, PackedPosition.read, hcode]
  simp only [roundTrip, mgr.getPhAddr_of_mem hs hnull hcode 0, mgr.getShmPos_of_mem hs hoff q,
    haccepts, hback]
  rfl

/-- No space is mapped at address 0, so `NULL_SHMPOS` has no way back. -/
theorem roundTrip_packedNull (q : PackedPosition) : mgr.roundTrip packedNull q = none := by
  have hnone : (mgr.m_spAddrList.find? fun s =>
      decide (s.m_sAddr ≤ 0) && decide (s.m_eAddr ≥ 0)) = none := by
    rw [List.find?_eq_none]
    intro s _ hin
    have hpos := s.addr_pos
    rw [Bool.and_eq_true, decide_eq_true_eq] at hin
    omega
  simp only [roundTrip, getPhAddr, if_true, getShmPos, hnone]
  rfl

end MdbAddressMgr

/-- What an accepted position should do: the numbers come back from its bytes, and in spaces
of which one has its code and holds its offset the position comes back from its address. -/
def RoundTrips (p : PackedPosition) (code off : Nat) (spaces : List SpaceAddress)
    (h : Disjoint spaces) : Prop :=
  (p.setValue code off).1.read = ⟨code, off⟩ ∧
    ∀ q, (MdbAddressMgr.initializeAddr spaces h).roundTrip (p.setValue code off).1 q =
      some (p.setValue code off).1

/-- **Round trips of positions.**  The numbers come back just for the codes below 128, and
with them the position comes back in all spaces, unless it is `NULL_SHMPOS`. -/
theorem roundTrips_iff (p : PackedPosition) {code off : Nat}
    (hset : (p.setValue code off).2 = true) :
    ((p.setValue code off).1.read = ⟨code, off⟩ ↔ code < 128) ∧
      ∀ spaces (h : Disjoint spaces), ∀ s ∈ spaces, s.m_spaceCode = code → off < s.m_size →
        (RoundTrips p code off spaces h ↔ code < 128 ∧ ¬ (code = 0 ∧ off = 0)) := by
  have hread := p.read_setValue_iff hset
  refine ⟨hread, fun spaces h s hs hcode hoff => ?_⟩
  have hmem := (MdbAddressMgr.mem_initializeAddr h).mpr hs
  constructor
  · intro htrip
    refine ⟨hread.mp htrip.1, fun hzero => ?_⟩
    have hnull : (p.setValue code off).1 = packedNull := by
      apply PackedPosition.read_injective
      rw [htrip.1, hzero.1, hzero.2, read_packedNull, nullShmPos]
    have hback := htrip.2 packedNull
    rw [hnull, MdbAddressMgr.roundTrip_packedNull] at hback
    cases hback
  · intro hlow
    have hpos : (p.setValue code off).1.read = ⟨code, off⟩ := hread.mpr hlow.1
    have hboth := ShmPosition.mk.inj hpos
    refine ⟨hpos, fun q => ?_⟩
    apply MdbAddressMgr.roundTrip_of_mem _ hmem
    · exact hboth.1.trans hcode.symm
    · rw [hboth.2]
      exact hoff
    · rw [hcode]
      exact hlow.1
    · intro hnull
      rw [hnull, read_packedNull, nullShmPos, ShmPosition.mk.injEq] at hpos
      exact hlow.2 ⟨hpos.1.symm, hpos.2.symm⟩

theorem roundTrips_iff_two :
    ((packedNull.setValue 2 4096).1.read = ⟨2, 4096⟩ ↔ 2 < 128) ∧
      ∀ spaces (h : Disjoint spaces), ∀ s ∈ spaces, s.m_spaceCode = 2 → 4096 < s.m_size →
        (RoundTrips packedNull 2 4096 spaces h ↔ 2 < 128 ∧ ¬ (2 = 0 ∧ 4096 = 0)) :=
  roundTrips_iff packedNull (by decide)

/-- The code 128 is accepted and read as 4294967168. -/
theorem setValue_not_roundTrip :
    ¬ ∀ (p : PackedPosition) (code off : Nat), (p.setValue code off).2 = true →
      (p.setValue code off).1.getSpaceCode = code ∧ (p.setValue code off).1.getOffSet = off := by
  intro h
  have hcode := (h packedNull 128 0 (by decide)).1
  revert hcode
  decide

end Address
