import Boss.DataSetIndex
import Mathlib.Data.List.FinRange
import Mathlib.Data.List.Forall2
import Mathlib.Data.List.Sort
import Mathlib.Logic.Function.Basic

/-!
# Searching a data set by an index

A data set builds an index over a list of its fields, each with a sort type, and finds rows by the
values of these fields.  It turns the values into a key row and searches the index for it.

The rows that a search returns are all those with the values as long as the values are what the
fields can hold and the index does not end with several of them (`locate_complete_iff`): from a run
of equal rows at the end of the index only the first is returned.

The rows stay as they are here, while indexes are built, dropped and searched.
-/

namespace DatasetIndex

open Dataset (DataType Field)
open Runs RunSearch

/-! ## Contents -/

/-- What a field can hold.  Rows with a NaN cannot be sorted. -/
structure Held (field : Field) (d : Data) : Prop where
  type : d.getDataType = field.dataType
  ordered : d.Ordered
  short : ∀ s, d = .str s → s.length < field.getLength

/-- The fields of a data set, with their names, and its rows. -/
structure Contents where
  fields : List (String × Field)
  rows : List Row
  held : ∀ row ∈ rows, ∀ index field, fields[index]? = some field → Held field.2 (row index)

namespace Contents

variable (c : Contents)

def getFieldIndex (fldName : String) : Option Nat :=
  c.fields.findIdx? fun field => field.1 = fldName

/-- Fields by their number instead of their name. -/
def numbered (vp : List (String × Bool)) : Keys :=
  vp.filterMap fun p => (c.getFieldIndex p.1).map fun idx => (idx, p.2)

def row (i : Fin c.rows.length) : Row := c.rows[i]

/-- A row of zero bytes. -/
def blank : Row := fun index =>
  match c.fields[index]? with
  | some (_, ⟨.FTINT64, _⟩) => .int64 0
  | some (_, ⟨.FTDOUBLE, _⟩) => .double (some (Number.ofInt 0))
  | some (_, ⟨.FTSTRING, _⟩) => .str []
  | _ => .int 0

end Contents

/-! ## Key rows -/

/-- A `double` as an integer of so many bits; undefined where it does not fit. -/
def Number.truncate (bits : Nat) : Number → Option Int
  | some (some q) =>
    let l := q.num.tdiv q.den
    if -2 ^ (bits - 1) ≤ l ∧ l < 2 ^ (bits - 1) then some l else none
  | _ => none

/-- What a value becomes in a field; where it cannot be converted, there is an exception. -/
def Data.convert (field : Field) (value : Data) : Option Data :=
  match field.dataType, value with
  | .FTINT, .int l => some (.int l)
  | .FTINT, .double d => (d.bind (Number.truncate 32)).map .int
  | .FTDOUBLE, .double d => some (.double d)
  | .FTDOUBLE, .int l => some (.double (some (Number.ofInt l)))
  | .FTINT64, .int64 l => some (.int64 l)
  | .FTINT64, .int l => some (.int64 l)
  | .FTINT64, .double d => (d.bind (Number.truncate 64)).map .int64
  | .FTSTRING, .str s => some (.str (s.take (field.getLength - 1)))
  | _, _ => none

namespace Contents

variable (c : Contents)

def fill : Row → List Nat → List Data → Option Row
  | key, index :: indexes, value :: vd =>
    (c.fields[index]?).bind fun field =>
      (value.convert field.2).bind fun d => fill (Function.update key index d) indexes vd
  | key, _, _ => some key

/-- The row that is searched for. -/
def keyRow (indexes : List Nat) (vd : List Data) : Option Row := c.fill c.blank indexes vd

end Contents

/-! ## Sort options -/

/-- `SortOption`, the fields of an index with their order. -/
structure SortOptions (S : Type) where
  clear : S → S
  append : S → Nat → Bool → S
  FieldCount : S → Nat
  FieldIndex : S → Nat → Nat
  Ascend : S → Nat → Bool

namespace SortOptions

variable {S : Type} (O : SortOptions S)

/-- `append` puts a field behind those there are, and `clear` removes all. -/
structure Lawful : Prop where
  clear_FieldCount : ∀ s, O.FieldCount (O.clear s) = 0
  append_FieldCount : ∀ s index ascend, O.FieldCount (O.append s index ascend) = O.FieldCount s + 1
  append_earlier : ∀ s index ascend i, i < O.FieldCount s →
    O.FieldIndex (O.append s index ascend) i = O.FieldIndex s i ∧
      O.Ascend (O.append s index ascend) i = O.Ascend s i
  append_last : ∀ s index ascend,
    O.FieldIndex (O.append s index ascend) (O.FieldCount s) = index ∧
      O.Ascend (O.append s index ascend) (O.FieldCount s) = ascend

def keys (s : S) : Keys :=
  (List.range (O.FieldCount s)).map fun i => (O.FieldIndex s i, O.Ascend s i)

variable {O}

/-- After clearing there are no keys. -/
theorem Lawful.keys_clear (hO : O.Lawful) (s : S) : O.keys (O.clear s) = [] := by
  rw [keys, hO.clear_FieldCount, List.range_zero, List.map_nil]

/-- A key that is appended comes last. -/
theorem Lawful.keys_append (hO : O.Lawful) (s : S) (index : Nat) (ascend : Bool) :
    O.keys (O.append s index ascend) = O.keys s ++ [(index, ascend)] := by
  obtain ⟨hindex, hascend⟩ := hO.append_last s index ascend
  rw [keys, hO.append_FieldCount, List.range_succ, List.map_append, List.map_singleton, hindex,
    hascend]
  congr 1
  apply List.map_congr_left
  intro i hi
  obtain ⟨hfield, horder⟩ := hO.append_earlier s index ascend i (List.mem_range.mp hi)
  rw [hfield, horder]

/-- There are as many keys as fields of the option. -/
theorem length_keys (s : S) : (O.keys s).length = O.FieldCount s := by
  rw [keys, List.length_map, List.length_range]

end SortOptions

/-! ## Sorting -/

/-- `std::sort`, for a comparison that is an order: equal elements come in any order. -/
structure Sorting where
  sort : {α : Type} → (α → α → Bool) → List α → List α
  perm : ∀ {α : Type} (cmp : α → α → Ordering) [Std.TransCmp cmp] (l : List α),
    (sort (fun a b => cmp a b == .lt) l).Perm l
  ascending : ∀ {α : Type} (cmp : α → α → Ordering) [Std.TransCmp cmp] (l : List α),
    (sort (fun a b => cmp a b == .lt) l).Pairwise fun a b => cmp b a ≠ .lt

/-! ## The data set -/

structure SortOption (S : Type) where
  IndexName : String
  options : S

/-- A data set with the given contents: the options in use, and the options and the rows of each
index.  A row is given by its number. -/
structure DataSet (c : Contents) (S : Type) where
  sortOpt : SortOption S
  sortOpts : List (SortOption S)
  indexs : List (List (Fin c.rows.length))
  paired : sortOpts.length = indexs.length

inductive SORT_TYPE
  | ASC
  | DESC
  deriving DecidableEq, Repr

def SORT_TYPE.value : SORT_TYPE → Int
  | .ASC => 1
  | .DESC => 2

variable {S : Type} (O : SortOptions S) (std : Sorting) {c : Contents}

/-- The options with the fields of a list, up to one that the data set does not have. -/
def appendFields (c : Contents) : S → List (String × Bool) → S × Bool
  | options, [] => (options, true)
  | options, (fldName, asc) :: vp =>
    match c.getFieldIndex fldName with
    | some idx => appendFields c (O.append options idx asc) vp
    | none => (options, false)

namespace DataSet

variable (ds : DataSet c S)

def named (name : String) : Bool := ds.sortOpts.any fun o => o.IndexName = name

/-- The options in use become those of a new index. -/
def pushIndex : DataSet c S :=
  { ds with
    sortOpts := ds.sortOpts ++ [ds.sortOpt]
    indexs := ds.indexs ++ [std.sort
      (fun i j => Row.less (O.keys ds.sortOpt.options) (c.row i) (c.row j))
      (List.finRange c.rows.length)]
    paired := by simp [ds.paired] }

/-- `buildIndex` over one field. -/
def buildIndex (name fldName : String) (type : SORT_TYPE) : DataSet c S × Bool :=
  if ds.named name then (ds, false)
  else
    match c.getFieldIndex fldName with
    | none => (ds, false)
    | some idx =>
      let options := O.append (O.clear ds.sortOpt.options) idx (type = .ASC)
      (pushIndex O std { ds with sortOpt := ⟨name, options⟩ }, true)

def buildIndexOver (name : String) (vp : List (String × Bool)) : DataSet c S × Bool :=
  if ds.named name then (ds, false)
  else
    let (options, known) := appendFields O c (O.clear ds.sortOpt.options) vp
    if known then (pushIndex O std { ds with sortOpt := ⟨name, options⟩ }, true)
    else ({ ds with sortOpt := ⟨name, options⟩ }, false)

/-- `buildIndex` over a vector.  A sort type is taken for a truth value, and none is zero. -/
def buildIndexVector (name : String) (vp : List (String × SORT_TYPE)) : DataSet c S × Bool :=
  buildIndexOver O std ds name (vp.map fun p => (p.1, p.2.value ≠ 0))

/-- `buildIndex` over the fields and flags that are passed on. -/
def buildIndexArgs (name : String) (ap : List (String × Int)) : DataSet c S × Bool :=
  if ap.length ≤ 0 then (ds, false)
  else buildIndexOver O std ds name (ap.map fun p => (p.1, p.2 = SORT_TYPE.ASC.value))

def dropIndex (name : String) : DataSet c S × Bool :=
  match ds.sortOpts.findIdx? fun o => o.IndexName = name with
  | none => (ds, false)
  | some i =>
    ({ ds with
        sortOpts := ds.sortOpts.eraseIdx i
        indexs := ds.indexs.eraseIdx i
        paired := by simp [List.length_eraseIdx, ds.paired] }, true)

/-- The data set after a search, and the index with what it returns.  `none` where the source throws
an exception or an assertion fails, and no index where it returns without a search. -/
def locate (name : String) (vd : List Data) : DataSet c S × Option (Option (Nat × Range)) :=
  match ds.sortOpts.findIdx? fun o => o.IndexName = name with
  | none => (ds, some none)
  | some iIndexno =>
    let sortOpt := (ds.sortOpts[iIndexno]?).getD ds.sortOpt
    let keys := O.keys sortOpt.options
    ({ ds with sortOpt := sortOpt },
      if O.FieldCount sortOpt.options ≠ vd.length then some none
      else
        (c.keyRow (keys.map Prod.fst) vd).bind fun row =>
          (Index.locate (fun i => Row.less keys (c.row i) row) (fun i => Row.eq keys (c.row i) row)
            (fun i => Row.less keys row (c.row i)) ((ds.indexs[iIndexno]?).getD [])).map fun r =>
              some (iIndexno, r))

/-- The rows in the range that a search gives. -/
def returned : Option (Nat × Range) → List (Fin c.rows.length)
  | some (iIndexno, r) => r.of ((ds.indexs[iIndexno]?).getD [])
  | none => []

end DataSet

/-- What a search returns. -/
def found : Option (Nat × Range) → Bool
  | some (_, r) => r.found
  | none => false

/-! ## Runs -/

/-- The overloads of `buildIndex`. -/
inductive Build
  | field (name fldName : String) (type : SORT_TYPE)
  | vector (name : String) (vp : List (String × SORT_TYPE))
  | args (name : String) (ap : List (String × Int))

namespace Build

def name : Build → String
  | .field name _ _ => name
  | .vector name _ => name
  | .args name _ => name

/-- The fields of the index; `true` for those that the overload takes for ascending. -/
def fields : Build → List (String × Bool)
  | .field _ fldName type => [(fldName, type = .ASC)]
  | .vector _ vp => vp.map fun p => (p.1, p.2.value ≠ 0)
  | .args _ ap => ap.map fun p => (p.1, p.2 = SORT_TYPE.ASC.value)

/-- The fields of the index by their number in the data set. -/
def keys (c : Contents) (b : Build) : Keys := c.numbered b.fields

def apply (ds : DataSet c S) : Build → DataSet c S × Bool
  | .field name fldName type => ds.buildIndex O std name fldName type
  | .vector name vp => ds.buildIndexVector O std name vp
  | .args name ap => ds.buildIndexArgs O std name ap

end Build

/-- What can be done while the rows stay as they are. -/
inductive Op
  | build (b : Build)
  | dropIndex (name : String)
  | locate (name : String) (vd : List Data)

def step (ds : DataSet c S) : Op → Option (DataSet c S)
  | .build b => some (b.apply O std ds).1
  | .dropIndex name => some (ds.dropIndex name).1
  | .locate name vd => some (ds.locate O name vd).1

/-! ## Indexes built and kept -/

variable {O} {std}

/-- The keys that are appended are the numbers of the fields. -/
theorem appendFields_keys (hO : O.Lawful) (options : S) (vp : List (String × Bool))
    (h : (appendFields O c options vp).2 = true) :
    O.keys (appendFields O c options vp).1 = O.keys options ++ c.numbered vp := by
  induction vp generalizing options with
  | nil => exact (List.append_nil _).symm
  | cons p vp ih =>
      obtain ⟨fldName, asc⟩ := p
      unfold appendFields at h ⊢
      cases hidx : c.getFieldIndex fldName with
      | none => simp [hidx] at h
      | some idx =>
          simp only [hidx] at h ⊢
          have hnumbered : c.numbered ((fldName, asc) :: vp) = (idx, asc) :: c.numbered vp := by
            simp [Contents.numbered, hidx]
          rw [ih _ h, hO.keys_append, hnumbered, List.append_assoc]
          rfl

/-- The index over some fields, sorted. -/
def built (std : Sorting) (c : Contents) (keys : Keys) : List (Fin c.rows.length) :=
  std.sort (fun i j => Row.less keys (c.row i) (c.row j)) (List.finRange c.rows.length)

/-- What one `buildIndex` can do: put a new index behind the others, or leave the indexes alone. -/
inductive BuildResult (O : SortOptions S) (std : Sorting) (ds : DataSet c S) (name : String)
    (keys : Keys) : DataSet c S × Bool → Prop
  | pushed (options : S) (hkeys : O.keys options = keys) (hnew : ds.named name = false)
      (result : DataSet c S) (hopts : result.sortOpts = ds.sortOpts ++ [⟨name, options⟩])
      (hindexs : result.indexs = ds.indexs ++ [built std c keys]) :
      BuildResult O std ds name keys (result, true)
  | left (result : DataSet c S) (hopts : result.sortOpts = ds.sortOpts)
      (hindexs : result.indexs = ds.indexs) : BuildResult O std ds name keys (result, false)

/-- A new index is put behind the others and holds the rows in its order. -/
theorem pushIndex_result {ds : DataSet c S} {name : String} {keys : Keys} {options : S}
    (hnew : ds.named name = false) (hkeys : O.keys options = keys) :
    BuildResult O std ds name keys
      (DataSet.pushIndex O std { ds with sortOpt := ⟨name, options⟩ }, true) := by
  refine .pushed options hkeys hnew _ rfl ?_
  rw [← hkeys]
  rfl

/-- Building an index fails for a name that is taken or gives the rows in order. -/
theorem buildIndexOver_result (hO : O.Lawful) (ds : DataSet c S) (name : String)
    (vp : List (String × Bool)) :
    BuildResult O std ds name (c.numbered vp) (ds.buildIndexOver O std name vp) := by
  unfold DataSet.buildIndexOver
  split
  · exact .left ds rfl rfl
  · next hnamed =>
      dsimp only
      split
      · next hknown =>
          apply pushIndex_result (Bool.eq_false_iff.mpr hnamed)
          rw [appendFields_keys hO _ _ hknown, hO.keys_clear, List.nil_append]
      · exact .left _ rfl rfl

/-- **Every overload** builds the index over its fields or builds none. -/
theorem Build.apply_result (hO : O.Lawful) (ds : DataSet c S) (b : Build) :
    BuildResult O std ds b.name (b.keys c) (b.apply O std ds) := by
  cases b with
  | field name fldName type =>
      change BuildResult O std ds name _ (ds.buildIndex O std name fldName type)
      unfold DataSet.buildIndex
      split
      · exact .left ds rfl rfl
      · next hnamed =>
          split
          · exact .left ds rfl rfl
          · next idx hidx =>
              apply pushIndex_result (Bool.eq_false_iff.mpr hnamed)
              rw [hO.keys_append, hO.keys_clear, List.nil_append]
              simp [Build.keys, Build.fields, Contents.numbered, hidx]
  | vector name vp => exact buildIndexOver_result hO ds name _
  | args name ap =>
      change BuildResult O std ds name _ (ds.buildIndexArgs O std name ap)
      unfold DataSet.buildIndexArgs
      split
      · exact .left ds rfl rfl
      · exact buildIndexOver_result hO ds name _

/-- An index is there under its name, and searches by the name come to it. -/
def Kept (o : SortOption S) (data : List (Fin c.rows.length)) (ds : DataSet c S) : Prop :=
  ∃ pre post before behind, ds.sortOpts = pre ++ o :: post ∧ ds.indexs = before ++ data :: behind ∧
    pre.length = before.length ∧ ∀ p ∈ pre, p.IndexName ≠ o.IndexName

/-- The search for a key row in an index. -/
def search (keys : Keys) (key : Row) (data : List (Fin c.rows.length)) : Option Range :=
  Index.locate (fun i => Row.less keys (c.row i) key) (fun i => Row.eq keys (c.row i) key)
    (fun i => Row.less keys key (c.row i)) data

section Kept

variable {o : SortOption S} {data : List (Fin c.rows.length)} {ds : DataSet c S}

/-- Further indexes leave the one that is kept. -/
theorem Kept.append (h : Kept o data ds) {result : DataSet c S} {opts : List (SortOption S)}
    {datas : List (List (Fin c.rows.length))} (hopts : result.sortOpts = ds.sortOpts ++ opts)
    (hindexs : result.indexs = ds.indexs ++ datas) : Kept o data result := by
  obtain ⟨pre, post, before, behind, hsplit, hsplit', hlength, hnames⟩ := h
  refine ⟨pre, post ++ opts, before, behind ++ datas, ?_, ?_, hlength, hnames⟩
  · rw [hopts, hsplit, List.append_assoc, List.cons_append]
  · rw [hindexs, hsplit', List.append_assoc, List.cons_append]

/-- What leaves the indexes leaves the one that is kept. -/
theorem Kept.of_eq (h : Kept o data ds) {result : DataSet c S}
    (hopts : result.sortOpts = ds.sortOpts) (hindexs : result.indexs = ds.indexs) :
    Kept o data result :=
  h.append (hopts.trans (List.append_nil _).symm) (hindexs.trans (List.append_nil _).symm)

/-- The index that is kept is found by its name. -/
theorem Kept.findIdx? (h : Kept o data ds) :
    ∃ i, ds.sortOpts.findIdx? (fun p => p.IndexName = o.IndexName) = some i ∧
      ds.sortOpts[i]? = some o ∧ ds.indexs[i]? = some data := by
  obtain ⟨pre, post, before, behind, hsplit, hsplit', hlength, hnames⟩ := h
  refine ⟨pre.length, ?_, ?_, ?_⟩
  · have hnone : pre.findIdx? (fun p => decide (p.IndexName = o.IndexName)) = none :=
      List.findIdx?_eq_none_iff.mpr fun p hp => decide_eq_false (hnames p hp)
    simp [hsplit, List.findIdx?_append, hnone, List.findIdx?_cons]
  · simp [hsplit]
  · simp [hsplit', hlength]

/-- Dropping an index of another name leaves the one that is kept. -/
theorem Kept.dropIndex (h : Kept o data ds) {name : String} (hne : name ≠ o.IndexName) :
    Kept o data (ds.dropIndex name).1 := by
  obtain ⟨pre, post, before, behind, hsplit, hsplit', hlength, hnames⟩ := h
  unfold DataSet.dropIndex
  split
  · exact ⟨pre, post, before, behind, hsplit, hsplit', hlength, hnames⟩
  · next i hi =>
      obtain ⟨hlt, hname, -⟩ := List.findIdx?_eq_some_iff_getElem.mp hi
      have hne' : i ≠ pre.length := by
        rintro rfl
        apply hne
        simpa [hsplit] using (of_decide_eq_true hname).symm
      rcases Nat.lt_or_gt_of_ne hne' with hi' | hi'
      · refine ⟨pre.eraseIdx i, post, before.eraseIdx i, behind, ?_, ?_, ?_, fun p hp =>
          hnames p (List.mem_of_mem_eraseIdx hp)⟩
        · simp only [hsplit, List.eraseIdx_append_of_lt_length hi']
        · simp only [hsplit', List.eraseIdx_append_of_lt_length (hlength ▸ hi')]
        · simp only [List.length_eraseIdx, hlength]
      · obtain ⟨k, rfl⟩ : ∃ k, i = pre.length + (k + 1) := ⟨i - pre.length - 1, by omega⟩
        refine ⟨pre, post.eraseIdx k, before, behind.eraseIdx k, ?_, ?_, hlength, hnames⟩
        · simp [hsplit, List.eraseIdx_append_of_length_le]
        · simp [hsplit', hlength, List.eraseIdx_append_of_length_le]

/-- No step but dropping it touches the index that is kept. -/
theorem step_kept (hO : O.Lawful) {op : Op} (h : Kept o data ds)
    (hop : op ≠ .dropIndex o.IndexName) {ds' : DataSet c S} (hstep : step O std ds op = some ds') :
    Kept o data ds' := by
  cases op with
  | build b =>
      obtain rfl : _ = ds' := Option.some.inj hstep
      have hresult : BuildResult O std ds b.name (b.keys c) (b.apply O std ds) :=
        b.apply_result hO ds
      generalize b.apply O std ds = result at hresult
      cases hresult with
      | pushed options hkeys hnew result hopts hindexs => exact h.append hopts hindexs
      | left result hopts hindexs =>
          exact h.of_eq hopts hindexs
  | dropIndex name =>
      obtain rfl : _ = ds' := Option.some.inj hstep
      exact h.dropIndex fun hname => hop (hname ▸ rfl)
  | locate name vd =>
      obtain rfl : _ = ds' := Option.some.inj hstep
      have hopts : (ds.locate O name vd).1.sortOpts = ds.sortOpts := by
        unfold DataSet.locate
        split <;> rfl
      have hindexs : (ds.locate O name vd).1.indexs = ds.indexs := by
        unfold DataSet.locate
        split <;> rfl
      exact h.of_eq hopts hindexs

/-- An index stays as it is until it is dropped. -/
theorem run_kept (hO : O.Lawful) {ops : List Op} (h : Kept o data ds)
    (hops : .dropIndex o.IndexName ∉ ops) {ds' : DataSet c S}
    (hrun : run (step O std) ds ops = some ds') : Kept o data ds' := by
  have hmeets : Meets (step O std) (fun _ op => op ≠ .dropIndex o.IndexName) ds ops :=
    meets_of_forall (fun op (hop : op ∈ ops) (hdrop : op = .dropIndex o.IndexName) =>
      hops (hdrop ▸ hop)) ds
  exact run_invariant_of_meets (fun _ _ _ hkept hop => step_kept hO hkept hop) h hmeets hrun

/-- A new index is kept under its name. -/
theorem kept_of_build (hO : O.Lawful) {b : Build} (h : (b.apply O std ds).2 = true) :
    ∃ options, O.keys options = b.keys c ∧
      Kept ⟨b.name, options⟩ (built std c (b.keys c)) (b.apply O std ds).1 := by
  have hresult : BuildResult O std ds b.name (b.keys c) (b.apply O std ds) := b.apply_result hO ds
  generalize b.apply O std ds = result at hresult h
  cases hresult with
  | pushed options hkeys hnew result hopts hindexs =>
      refine ⟨options, hkeys, ds.sortOpts, [], ds.indexs, [], hopts, hindexs, ds.paired, ?_⟩
      intro p hp hname
      apply List.any_eq_false.mp hnew p hp
      exact decide_eq_true hname
  | left result hopts hindexs => cases h

/-- A search by its name goes through the index. -/
theorem locate_kept (h : Kept o data ds) (vd : List Data) :
    ∃ i, ds.indexs[i]? = some data ∧ (ds.locate O o.IndexName vd).2 =
      if (O.keys o.options).length ≠ vd.length then some none
      else (c.keyRow ((O.keys o.options).map Prod.fst) vd).bind fun key =>
        (search (O.keys o.options) key data).map fun r => some (i, r) := by
  obtain ⟨i, hfind, hopt, hdata⟩ := h.findIdx?
  refine ⟨i, hdata, ?_⟩
  simp only [DataSet.locate, hfind, hopt, hdata, Option.getD_some, SortOptions.length_keys]
  rfl

end Kept

/-! ## Rows and key rows -/

/-- Different numbers stay different. -/
theorem Number.ofInt_inj {l m : Int} : Number.ofInt l = Number.ofInt m ↔ l = m := by
  simp [Number.ofInt]

/-- A number that fits is not cut. -/
theorem Number.truncate_ofInt {bits : Nat} {l m : Int}
    (h : (Number.ofInt l).truncate bits = some m) : m = l := by
  have hwhole : (l : ℚ).num.tdiv (l : ℚ).den = l := by
    rw [Rat.num_intCast, Rat.den_intCast, Nat.cast_one, Int.tdiv_one]
  have htruncate : (Number.ofInt l).truncate bits =
      if -2 ^ (bits - 1) ≤ l ∧ l < 2 ^ (bits - 1) then some l else none := by
    conv_rhs => rw [← hwhole]
    rfl
  rw [htruncate] at h
  split at h
  · exact (Option.some.inj h).symm
  · cases h

/-- A converted value has the type of its field. -/
theorem Data.getDataType_convert {field : Field} {value d : Data}
    (h : value.convert field = some d) : d.getDataType = field.dataType := by
  obtain ⟨type, length⟩ := field
  cases type <;> cases value <;> first
    | (obtain ⟨l, -, rfl⟩ := Option.map_eq_some_iff.mp h; rfl)
    | (obtain rfl := Option.some.inj h; rfl)
    | cases h

/-- What equals a number is a number. -/
theorem Data.Equals.number_eq {d value : Data} {x : Number} (h : d.Equals value)
    (hd : d.number = some x) : value.number = some x := by
  rcases h with ⟨-, heq⟩ | ⟨hsome, -⟩
  · rw [← heq, hd]
  · cases d <;> simp_all [Data.number, Data.text]

/-- What equals a text is the same text. -/
theorem Data.Equals.text_eq {d value : Data} {s : List UInt8} (h : d.Equals value)
    (hd : d.text = some s) : value.text = some s := by
  rcases h with ⟨hsome, -⟩ | ⟨-, heq⟩
  · cases d <;> simp_all [Data.number, Data.text]
  · rw [← heq, hd]

/-- A datum of a field that equals a value is what the value becomes there. -/
theorem Held.eq_convert {field : Field} {held value d : Data} (hheld : Held field held)
    (hequals : held.Equals value) (h : value.convert field = some d) : held = d := by
  obtain ⟨type, length⟩ := field
  cases held with
  | int l =>
      obtain rfl : DataType.FTINT = type := hheld.type
      have hnumber := hequals.number_eq rfl
      cases value with
      | int m =>
          obtain rfl := Option.some.inj h
          rw [Number.ofInt_inj.mp (Option.some.inj hnumber)]
      | int64 m => cases h
      | double e =>
          obtain ⟨m, hm, rfl⟩ := Option.map_eq_some_iff.mp h
          obtain rfl : e = some (Number.ofInt l) := hnumber
          rw [Number.truncate_ofInt hm]
      | str s => cases h
  | int64 l =>
      obtain rfl : DataType.FTINT64 = type := hheld.type
      have hnumber := hequals.number_eq rfl
      cases value with
      | int m =>
          obtain rfl := Option.some.inj h
          rw [Number.ofInt_inj.mp (Option.some.inj hnumber)]
      | int64 m =>
          obtain rfl := Option.some.inj h
          rw [Number.ofInt_inj.mp (Option.some.inj hnumber)]
      | double e =>
          obtain ⟨m, hm, rfl⟩ := Option.map_eq_some_iff.mp h
          obtain rfl : e = some (Number.ofInt l) := hnumber
          rw [Number.truncate_ofInt hm]
      | str s => cases h
  | double e =>
      obtain rfl : DataType.FTDOUBLE = type := hheld.type
      cases e with
      | none => exact absurd rfl hheld.ordered
      | some x =>
          have hnumber := hequals.number_eq rfl
          cases value with
          | int m =>
              obtain rfl := Option.some.inj h
              rw [← hnumber]
              rfl
          | int64 m => cases h
          | double e =>
              obtain rfl := Option.some.inj h
              rw [← hnumber]
              rfl
          | str s => cases h
  | str s =>
      obtain rfl : DataType.FTSTRING = type := hheld.type
      have htext := hequals.text_eq rfl
      cases value with
      | str t =>
          obtain rfl := Option.some.inj h
          have hshort := hheld.short s rfl
          rw [Option.some.inj htext, List.take_of_length_le (Nat.le_sub_one_of_lt hshort)]
      | int m => cases htext
      | int64 m => cases htext
      | double e => cases htext

/-- In a field of the index a key row holds what one of the values for it becomes there. -/
theorem Contents.fill_spec {key row : Row} {indexes : List Nat} {vd : List Data}
    (h : c.fill row indexes vd = some key) (hlength : indexes.length = vd.length) {index : Nat} :
    (index ∈ indexes → ∃ field value, c.fields[index]? = some field ∧
      (index, value) ∈ indexes.zip vd ∧ value.convert field.2 = some (key index)) ∧
    (index ∉ indexes → key index = row index) := by
  induction indexes generalizing row vd with
  | nil =>
      obtain rfl := Option.some.inj h
      exact ⟨nofun, fun _ => rfl⟩
  | cons first indexes ih =>
      cases vd with
      | nil => cases hlength
      | cons value vd =>
          obtain ⟨field, hfield, h⟩ := Option.bind_eq_some_iff.mp h
          obtain ⟨d, hd, h⟩ := Option.bind_eq_some_iff.mp h
          obtain ⟨hin, hout⟩ := ih h (Nat.succ.inj hlength)
          constructor
          · intro hindex
            by_cases hlater : index ∈ indexes
            · obtain ⟨field, value, hfield, hzip, hvalue⟩ := hin hlater
              exact ⟨field, value, hfield, List.mem_cons_of_mem _ hzip, hvalue⟩
            · obtain rfl : index = first := (List.mem_cons.mp hindex).resolve_right hlater
              refine ⟨field, value, hfield, List.mem_cons_self, ?_⟩
              rw [hd, hout hlater, Function.update_self]
          · intro hindex
            obtain ⟨hfirst, hlater⟩ := not_or.mp fun h => hindex (List.mem_cons.mpr h)
            rw [hout hlater, Function.update_of_ne hfirst]

/-- The row has the values in these fields. -/
def Row.Has (indexes : List Nat) (vd : List Data) (row : Row) : Prop :=
  List.Forall₂ (fun index value => (row index).Equals value) indexes vd

instance (indexes : List Nat) (vd : List Data) (row : Row) : Decidable (row.Has indexes vd) := by
  unfold Row.Has
  infer_instance

/-- A row with the values agrees with the key row. -/
theorem Row.Has.eq_key {indexes : List Nat} {vd : List Data} {row key : Row} (hrow : row ∈ c.rows)
    (hhas : row.Has indexes vd) (h : c.keyRow indexes vd = some key) {index : Nat}
    (hindex : index ∈ indexes) : row index = key index := by
  obtain ⟨field, value, hfield, hzip, hvalue⟩ :=
    (Contents.fill_spec h hhas.length_eq).1 hindex
  exact (c.held row hrow index field hfield).eq_convert (List.forall₂_zip hhas hzip) hvalue

/-- Rows that agree in the fields have the values or have them not. -/
theorem Row.Has.congr {indexes : List Nat} {vd : List Data} {row row' : Row}
    (h : ∀ index ∈ indexes, row index = row' index) (hhas : row.Has indexes vd) :
    row'.Has indexes vd := by
  unfold Row.Has at hhas ⊢
  induction hhas with
  | nil => exact .nil
  | cons hequals _ ih =>
      exact .cons (h _ List.mem_cons_self ▸ hequals) (ih fun index hindex =>
        h index (List.mem_cons_of_mem _ hindex))

/-! ## The sorted index -/

theorem Contents.row_mem (i : Fin c.rows.length) : c.row i ∈ c.rows := List.getElem_mem i.isLt

/-- The fields of an index are fields of the data set. -/
def Known (c : Contents) (keys : Keys) : Prop := ∀ k ∈ keys, ∃ field, c.fields[k.1]? = some field

/-- The fields that are numbered are known. -/
theorem Contents.known_numbered (vp : List (String × Bool)) : Known c (c.numbered vp) := by
  intro k hk
  obtain ⟨p, -, hp⟩ := List.mem_filterMap.mp hk
  obtain ⟨idx, hidx, rfl⟩ := Option.map_eq_some_iff.mp hp
  obtain ⟨hlt, -⟩ := List.findIdx?_eq_some_iff_getElem.mp hidx
  exact ⟨_, List.getElem?_eq_getElem hlt⟩

/-- Two rows are comparable by known keys. -/
theorem comparable_rows {keys : Keys} (hkeys : Known c keys) (i j : Fin c.rows.length) :
    Row.Comparable keys (c.row i) (c.row j) := by
  intro k hk
  obtain ⟨field, hfield⟩ := hkeys k hk
  have hi := c.held _ (c.row_mem i) k.1 field hfield
  have hj := c.held _ (c.row_mem j) k.1 field hfield
  exact ⟨.of_getDataType (hi.type.trans hj.type.symm), hi.ordered, hj.ordered⟩

/-- The index lists every row once, in the order of its fields. -/
theorem built_spec {keys : Keys} (hkeys : Known c keys) :
    (built std c keys).Perm (List.finRange c.rows.length) ∧
      (built std c keys).Pairwise fun i j => Row.cmp keys (c.row j) (c.row i) ≠ .lt := by
  have hcmp : Std.TransCmp fun i j => Row.cmp keys (c.row i) (c.row j) := {
    eq_swap := Std.OrientedCmp.eq_swap
    isLE_trans := Std.TransCmp.isLE_trans }
  have hless : (fun i j => Row.less keys (c.row i) (c.row j)) =
      fun i j => Row.cmp keys (c.row i) (c.row j) == .lt :=
    funext fun i => funext fun j => Row.less_eq (comparable_rows hkeys i j)
  rw [built, hless]
  exact ⟨std.perm _ _, std.ascending _ _⟩

/-- The key row has data of the types of the fields. -/
def Typed (c : Contents) (keys : Keys) (key : Row) : Prop :=
  ∀ k ∈ keys, ∃ field, c.fields[k.1]? = some field ∧ (key k.1).getDataType = field.2.dataType

section Search

variable {keys : Keys} {key : Row} {data : List (Fin c.rows.length)}

/-- In the fields of the keys a row is alike the key that is looked for. -/
theorem Typed.alike (hkey : Typed c keys key) (i : Fin c.rows.length) {k : Nat × Bool}
    (hk : k ∈ keys) :
    Data.Alike (c.row i k.1) (key k.1) ∧ (c.row i k.1).Ordered := by
  obtain ⟨field, hfield, htype⟩ := hkey k hk
  have hheld := c.held _ (c.row_mem i) k.1 field hfield
  exact ⟨.of_getDataType (hheld.type.trans htype.symm), hheld.ordered⟩

/-- A row is taken for the key exactly when it has its values. -/
theorem Typed.same_iff (hkey : Typed c keys key) (i : Fin c.rows.length) :
    Row.same keys (c.row i) key = true ↔ ∀ k ∈ keys, c.row i k.1 = key k.1 := by
  rw [Row.same, List.all_eq_true]
  apply forall₂_congr
  intro k hk
  obtain ⟨halike, hordered⟩ := hkey.alike i hk
  rw [Data.same_iff halike, and_iff_left hordered]

/-- **The search in an index.**  A NaN in the key row equals nothing. -/
theorem search_spec (hne : keys ≠ []) (hkey : Typed c keys key)
    (hmem : ∀ i, i ∈ data)
    (hsorted : data.Pairwise fun i j => Row.cmp keys (c.row j) (c.row i) ≠ .lt) :
    ∃ r, search keys key data = some r ∧
      (r.found = true ↔ ∃ i, Row.same keys (c.row i) key = true) ∧
      (r.found = true → r.of data =
        if ∃ i, Row.less keys key (c.row i) = true
        then data.filter fun i => Row.same keys (c.row i) key
        else (data.filter fun i => Row.same keys (c.row i) key).take 1) := by
  have hequal : ∀ i, Row.eq keys (c.row i) key = some (Row.same keys (c.row i) key) :=
    fun i => if_neg hne
  by_cases hordered : ∀ k ∈ keys, (key k.1).Ordered
  · have hcomparable : ∀ i, Row.Comparable keys (c.row i) key := fun i k hk =>
      ⟨(hkey.alike i hk).1, (hkey.alike i hk).2, hordered k hk⟩
    have hless : ∀ i, Row.less keys (c.row i) key = decide (Row.cmp keys (c.row i) key = .lt) :=
      fun i => (Row.less_eq (hcomparable i)).trans (beq_eq_decide _ _)
    have hsame : ∀ i, Row.same keys (c.row i) key = decide (Row.cmp keys (c.row i) key = .eq) :=
      fun i => (Row.same_eq (hcomparable i)).trans (beq_eq_decide _ _)
    have hbehind : ∀ i,
        Row.less keys key (c.row i) = decide (Row.cmp keys (c.row i) key = .gt) := by
      intro i
      rw [Row.less_eq (hcomparable i).symm, beq_eq_decide]
      exact decide_eq_decide.mpr Std.OrientedCmp.gt_iff_lt.symm
    have hexists : ∀ o, (∃ i ∈ data, Row.cmp keys (c.row i) key = o) ↔
        ∃ i, Row.cmp keys (c.row i) key = o := fun o =>
      exists_congr fun i => and_iff_right (hmem i)
    obtain ⟨r, hr, hfound, hof⟩ := Index.locate_spec (Ascends.of_sorted c.row key hsorted)
    simp only [hexists] at hfound hof
    simp only [search, hequal, hless, hsame, hbehind, decide_eq_true_iff]
    exact ⟨r, hr, hfound, hof⟩
  · have hfalse : ∀ i, Row.same keys (c.row i) key = false := by
      intro i
      apply Bool.eq_false_iff.mpr
      intro hsame
      apply hordered
      intro k hk
      rw [← (hkey.same_iff i).mp hsame k hk]
      exact (hkey.alike i hk).2
    refine ⟨_, Index.locate_of_forall_ne fun i _ => ?_, ?_, nofun⟩
    · rw [hequal i, hfalse i]
    · simp [hfalse]

end Search

/-- An index over no fields: the assertion fails at the first row. -/
theorem search_nil (key : Row) (data : List (Fin c.rows.length)) :
    search [] key data = if data = [] then some ⟨false, 0, 0⟩ else none := by
  have hpart : SortedMap.Partitioned (fun i => Row.less [] (c.row i) key) data :=
    List.pairwise_of_forall_mem_list fun i _ j _ h => h
  obtain ⟨pre, post, hsplit, hbound, hpre, -⟩ := SortedMap.lowerBound_split hpart
  have hnil : pre = [] := List.eq_nil_iff_forall_not_mem.mpr fun i hi =>
    Bool.false_ne_true (hpre i hi)
  rw [search, Index.locate, hbound, hnil]
  cases data with
  | nil => rfl
  | cons i data => rfl

/-! ## Complete searches -/

/-- The search tells whether there is a row with the values, and then returns all rows with the
values, each once. -/
def Complete (ds : DataSet c S) (indexes : List Nat) (vd : List Data)
    (result : Option (Option (Nat × Range))) : Prop :=
  ∃ r, result = some r ∧ (found r = true ↔ ∃ row ∈ c.rows, row.Has indexes vd) ∧
    (found r = true →
      (ds.returned r).Perm ((List.finRange c.rows.length).filter fun i => (c.row i).Has indexes vd))

/-- What a complete search rests on.  The values can be converted to the types of their fields; an
index over no fields is one of no rows; a row that agrees with the converted values has the values;
and if several rows agree with them, some row is behind them in the index. -/
def Answerable (c : Contents) (keys : Keys) (vd : List Data) : Prop :=
  vd.length ≠ keys.length ∨
    ∃ key, c.keyRow (keys.map Prod.fst) vd = some key ∧ (keys = [] → c.rows = []) ∧
      (∀ row ∈ c.rows, Row.same keys row key = true → row.Has (keys.map Prod.fst) vd) ∧
      (c.rows.countP (fun row => Row.same keys row key) ≤ 1 ∨
        ∃ row ∈ c.rows, Row.less keys key row = true)

/-- The key that is made of the values has the types of the fields. -/
theorem Typed.of_keyRow {keys : Keys} {vd : List Data} {key : Row}
    (hlength : keys.length = vd.length) (h : c.keyRow (keys.map Prod.fst) vd = some key) :
    Typed c keys key := by
  intro k hk
  obtain ⟨field, value, hfield, -, hvalue⟩ :=
    (Contents.fill_spec h ((List.length_map _).trans hlength)).1 (List.mem_map_of_mem hk)
  exact ⟨field, hfield, Data.getDataType_convert hvalue⟩

/-- Some row is some number of a row. -/
theorem exists_row_iff {p : Row → Prop} : (∃ row ∈ c.rows, p row) ↔ ∃ i, p (c.row i) := by
  constructor
  · rintro ⟨row, hrow, hp⟩
    obtain ⟨i, hi, rfl⟩ := List.mem_iff_getElem.mp hrow
    exact ⟨⟨i, hi⟩, hp⟩
  · rintro ⟨i, hp⟩
    exact ⟨_, c.row_mem i, hp⟩

/-- All rows are all numbers of rows. -/
theorem forall_row_iff {p : Row → Prop} : (∀ row ∈ c.rows, p row) ↔ ∀ i, p (c.row i) := by
  have h := exists_row_iff (c := c) (p := fun row => ¬ p row)
  grind

/-- Rows are counted by their numbers. -/
theorem countP_rows (p : Row → Bool) :
    c.rows.countP p = ((List.finRange c.rows.length).filter fun i => p (c.row i)).length := by
  have hrows : (List.finRange c.rows.length).map c.row = c.rows := List.map_getElem_finRange c.rows
  conv_lhs => rw [← hrows]
  rw [List.countP_map, List.countP_eq_length_filter]
  rfl

section Complete

variable {keys : Keys} {vd : List Data} {key : Row} {ds : DataSet c S} {place : Nat}

/-- Over no fields the search is complete if it does not come to the assertion. -/
theorem complete_nil_iff (hmem : ∀ i, i ∈ built std c []) :
    Complete ds [] [] ((search [] key (built std c [])).map fun r => some (place, r)) ↔
      c.rows = [] := by
  rw [search_nil]
  constructor
  · rintro ⟨_, hsome, -⟩
    by_cases hdata : built std c [] = []
    · apply List.eq_nil_iff_forall_not_mem.mpr
      intro row hrow
      obtain ⟨i, -⟩ := exists_row_iff (p := fun _ => True) |>.mp ⟨row, hrow, trivial⟩
      exact List.not_mem_nil (hdata ▸ hmem i)
    · rw [if_neg hdata] at hsome
      cases hsome
  · intro hrows
    have hdata : built std c [] = [] := by
      apply List.eq_nil_iff_forall_not_mem.mpr
      intro i _
      exact List.not_mem_nil (hrows ▸ c.row_mem i)
    rw [if_pos hdata]
    refine ⟨_, rfl, ?_, nofun⟩
    rw [hrows]
    exact ⟨nofun, nofun⟩

/-- A search is complete exactly when what is taken for the key has its values, and the rows do not
begin with several of them. -/
theorem complete_iff (hne : keys ≠ []) (hlength : keys.length = vd.length) (hkeys : Known c keys)
    (hkey : c.keyRow (keys.map Prod.fst) vd = some key)
    (hdata : ds.indexs[place]? = some (built std c keys)) :
    Complete ds (keys.map Prod.fst) vd
        ((search keys key (built std c keys)).map fun r => some (place, r)) ↔
      (∀ row ∈ c.rows, Row.same keys row key = true → row.Has (keys.map Prod.fst) vd) ∧
        (c.rows.countP (fun row => Row.same keys row key) ≤ 1 ∨
          ∃ row ∈ c.rows, Row.less keys key row = true) := by
  obtain ⟨hperm, hsorted⟩ :
      (built std c keys).Perm (List.finRange c.rows.length) ∧
        (built std c keys).Pairwise fun i j => Row.cmp keys (c.row j) (c.row i) ≠ .lt :=
    built_spec hkeys
  have htyped := Typed.of_keyRow hlength hkey
  obtain ⟨r, hr, hfound, hof⟩ := search_spec hne htyped
    (fun i => hperm.mem_iff.mpr (List.mem_finRange i)) hsorted
  have hsame : ∀ i, (c.row i).Has (keys.map Prod.fst) vd → Row.same keys (c.row i) key = true :=
    fun i hhas => (htyped.same_iff i).mpr fun k hk =>
      hhas.eq_key (c.row_mem i) hkey (List.mem_map_of_mem hk)
  have hagree : ∀ i j, Row.same keys (c.row i) key = true → Row.same keys (c.row j) key = true →
      (c.row i).Has (keys.map Prod.fst) vd → (c.row j).Has (keys.map Prod.fst) vd := by
    intro i j hi hj hhas
    apply hhas.congr
    intro index hindex
    obtain ⟨k, hk, rfl⟩ := List.mem_map.mp hindex
    rw [(htyped.same_iff i).mp hi k hk, (htyped.same_iff j).mp hj k hk]
  have hfilter := hperm.filter fun i => Row.same keys (c.row i) key
  have hpred : (∀ i, Row.same keys (c.row i) key = true → (c.row i).Has (keys.map Prod.fst) vd) →
      (fun i => decide ((c.row i).Has (keys.map Prod.fst) vd)) =
        fun i => Row.same keys (c.row i) key := fun hhas =>
    funext fun i => Bool.eq_iff_iff.mpr (decide_eq_true_iff.trans ⟨hsame i, hhas i⟩)
  have hreturned : ds.returned (some (place, r)) = r.of (built std c keys) := by
    rw [DataSet.returned, hdata, Option.getD_some]
  rw [hr, forall_row_iff, exists_row_iff, countP_rows, ← hfilter.length_eq]
  constructor
  · rintro ⟨_, hsome, hiff, hrange⟩
    obtain rfl := Option.some.inj hsome
    have hhas : ∀ i, Row.same keys (c.row i) key = true → (c.row i).Has (keys.map Prod.fst) vd := by
      intro i hi
      obtain ⟨j, hj⟩ := exists_row_iff.mp (hiff.mp (hfound.mpr ⟨i, hi⟩))
      exact hagree j i (hsame j hj) hi hj
    refine ⟨hhas, ?_⟩
    by_cases hbehind : ∃ i, Row.less keys key (c.row i) = true
    · exact .inr hbehind
    · apply Or.inl
      by_cases hr' : r.found = true
      · have hlengths := (hrange hr').length_eq
        rw [hreturned, hof hr', if_neg hbehind, hpred hhas, List.length_take,
          ← hfilter.length_eq] at hlengths
        omega
      · have hnone : (built std c keys).filter (fun i => Row.same keys (c.row i) key) = [] :=
          List.filter_eq_nil_iff.mpr fun i _ hi => hr' (hfound.mpr ⟨i, hi⟩)
        rw [hnone]
        exact Nat.zero_le 1
  · rintro ⟨hhas, hfew⟩
    refine ⟨_, rfl, ?_, fun hr' => ?_⟩
    · rw [exists_row_iff]
      exact hfound.trans (exists_congr fun i => ⟨hhas i, hsame i⟩)
    · rw [hreturned, hof hr', hpred hhas]
      by_cases hbehind : ∃ i, Row.less keys key (c.row i) = true
      · rw [if_pos hbehind]
        exact hfilter
      · rw [if_neg hbehind, List.take_of_length_le (hfew.resolve_right hbehind)]
        exact hfilter

end Complete

/-- What is asked for can be answered exactly under the condition of `complete_iff`. -/
theorem answerable_iff {keys : Keys} {vd : List Data} {key : Row}
    (hlength : keys.length = vd.length) (hkey : c.keyRow (keys.map Prod.fst) vd = some key) :
    Answerable c keys vd ↔ (keys = [] → c.rows = []) ∧
      (∀ row ∈ c.rows, Row.same keys row key = true → row.Has (keys.map Prod.fst) vd) ∧
      (c.rows.countP (fun row => Row.same keys row key) ≤ 1 ∨
        ∃ row ∈ c.rows, Row.less keys key row = true) := by
  constructor
  · rintro (hne | ⟨_, hkey', h⟩)
    · exact absurd hlength.symm hne
    · obtain rfl := Option.some.inj (hkey.symm.trans hkey')
      exact h
  · exact fun h => .inr ⟨key, hkey, h⟩

/-- **Searches by an index** find every row with the values, whatever was built, dropped and
searched since, if and only if the values are ones that the search can answer. -/
theorem locate_complete_iff (hO : O.Lawful) {ds ds' : DataSet c S} {b : Build} {since : List Op}
    (hbuild : (b.apply O std ds).2 = true)
    (hsince : run (step O std) (b.apply O std ds).1 since = some ds')
    (hkept : .dropIndex b.name ∉ since) (vd : List Data) :
    Complete ds' ((b.keys c).map Prod.fst) vd (ds'.locate O b.name vd).2 ↔
      Answerable c (b.keys c) vd := by
  obtain ⟨options, hkeys, hnew⟩ := kept_of_build hO hbuild
  obtain ⟨place, hdata, hlocate⟩ := locate_kept (run_kept hO hnew hkept hsince) vd
  rw [hkeys] at hlocate
  rw [hlocate]
  by_cases hlength : (b.keys c).length = vd.length
  · rw [if_neg (not_not_intro hlength)]
    cases hkey : c.keyRow ((b.keys c).map Prod.fst) vd with
    | none =>
        constructor
        · rintro ⟨_, hsome, -⟩
          cases hsome
        · rintro (hne | ⟨key, hkey', -⟩)
          · exact absurd hlength.symm hne
          · cases hkey.symm.trans hkey'
    | some key =>
        rw [answerable_iff hlength hkey, Option.bind_some]
        have hknown := c.known_numbered b.fields
        by_cases hnil : b.keys c = []
        · rw [hnil] at hlength hdata ⊢
          obtain rfl : vd = [] := List.length_eq_zero_iff.mp hlength.symm
          have hmem : ∀ i, i ∈ built std c [] := fun i =>
            (built_spec (hnil ▸ hknown)).1.mem_iff.mpr (List.mem_finRange i)
          apply (complete_nil_iff hmem).trans
          constructor
          · intro hrows
            refine ⟨fun _ => hrows, ?_, .inl ?_⟩
            · rw [hrows]
              exact nofun
            · rw [hrows]
              exact Nat.zero_le 1
          · exact fun h => h.1 rfl
        · rw [complete_iff hnil hlength hknown hkey hdata]
          exact (and_iff_right fun h => absurd h hnil).symm
  · rw [if_pos hlength]
    constructor
    · exact fun _ => .inl fun h => hlength h.symm
    · intro _
      refine ⟨none, rfl, ⟨nofun, ?_⟩, nofun⟩
      rintro ⟨row, -, hhas⟩
      exact absurd ((List.length_map _).symm.trans hhas.length_eq) hlength

/-! ## A run of equal rows at the end -/

/-- Sort options as the list of the fields. -/
def listed : SortOptions Keys where
  clear := fun _ => []
  append := fun keys index ascend => keys ++ [(index, ascend)]
  FieldCount := List.length
  FieldIndex := fun keys i => (keys.map Prod.fst).getD i 0
  Ascend := fun keys i => (keys.map Prod.snd).getD i false

/-- The option that keeps a list is lawful. -/
theorem lawful_listed : listed.Lawful where
  clear_FieldCount := fun _ => rfl
  append_FieldCount := fun keys index ascend => List.length_append
  append_earlier := fun keys index ascend i hi => by
    have hi' : i < keys.length := hi
    simp [listed, List.getD_eq_getElem?_getD, List.getElem?_append_left, hi']
  append_last := fun keys index ascend => by simp [listed, List.getD_eq_getElem?_getD]

def insertion : Sorting where
  sort := fun less l => l.insertionSort fun a b => less b a = false
  perm := fun cmp _ l => List.perm_insertionSort _ l
  ascending := fun cmp _ l => by
    have hr : ∀ a b, ((cmp b a == .lt) = false) ↔ (cmp a b).isLE := fun a b => by
      rw [beq_eq_false_iff_ne, SortedMap.isLE_iff_ne_lt]
    exact (SortedMap.pairwise_insertionSort_of_cmp hr l).imp fun h => SortedMap.isLE_iff_ne_lt.mp h

/-- A data set with one `int` field. -/
def column (l : List Int) : Contents where
  fields := [("field1", ⟨.FTINT, 4⟩)]
  rows := l.map fun n _ => .int n
  held := by
    intro row hrow index field hfield
    obtain ⟨n, -, rfl⟩ := List.mem_map.mp hrow
    cases index with
    | zero =>
        obtain rfl := Option.some.inj hfield
        exact ⟨rfl, nofun, nofun⟩
    | succ index => cases hfield

def byField1 : Build := .field "index1" "field1" .ASC

/-- The index over the field, built in a data set without indexes. -/
def indexed (l : List Int) : DataSet (column l) Keys :=
  (byField1.apply listed insertion ⟨⟨"", []⟩, [], [], rfl⟩).1

theorem run_indexed (l : List Int) :
    run (step listed insertion) (indexed l) [.dropIndex "index2"] = some (indexed l) := rfl

/-- Equal rows in front of another one are all found. -/
theorem rows_before_found :
    Complete (indexed [5, 7, 5]) [0] [.int 5]
      ((indexed [5, 7, 5]).locate listed "index1" [.int 5]).2 := by
  have hkept : Op.dropIndex "index1" ∉ [Op.dropIndex "index2"] := by simp
  apply (locate_complete_iff lawful_listed (b := byField1) rfl (run_indexed [5, 7, 5]) hkept _).mpr
  refine .inr ⟨_, rfl, nofun, ?_, .inr ⟨fun _ => .int 7, ?_, rfl⟩⟩
  · intro row hrow hsame
    obtain ⟨n, -, rfl⟩ := List.mem_map.mp hrow
    have hkeys : byField1.keys (column [5, 7, 5]) = [(0, true)] := rfl
    rw [hkeys] at hsame
    obtain rfl : n = 5 := of_decide_eq_true (List.all_eq_true.mp hsame (0, true) List.mem_cons_self)
    exact .cons (by decide +kernel) .nil
  · simp [column]

/-- Of two equal rows at the end of the index only one is returned. -/
theorem last_row_missed :
    ¬ Complete (indexed [5, 7, 7]) [0] [.int 7]
      ((indexed [5, 7, 7]).locate listed "index1" [.int 7]).2 := by
  rintro ⟨r, hr, -, hperm⟩
  have hsome : ((indexed [5, 7, 7]).locate listed "index1" [.int 7]).2 =
      some (some (0, ⟨true, 1, 2⟩)) := by decide +kernel
  obtain rfl := Option.some.inj (hsome.symm.trans hr)
  have hlength := (hperm rfl).length_eq
  revert hlength
  decide +kernel

end DatasetIndex
