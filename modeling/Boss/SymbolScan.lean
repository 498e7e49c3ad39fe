import Boss.CSymbolParser

/-!
# Symbols for any keywords

`CSymbolParser` is told its keywords with `addKeyWord`, and keeps the lengths of the shortest and
the longest one.  `__getNextSymbol` walks through the text with an index `i`, while
`__CurrentIndex` stays at the start of the symbol.  Keywords are looked for by every length from
the longest on; one of letters is given up again when a letter or a digit follows.  For a length
that goes beyond the end of the text, that character lies behind the text, and what stands there
is a parameter.

A list of tokens that is written with a blank behind each is read back (`parseText_printed`),
whatever the keywords are, and every text is read to an end (`parseText_ends`).
-/

namespace SymbolScan

open Decimal

/-! ## Keywords -/

/-- The keywords with their symbols, and the lengths of the shortest and the longest one. -/
structure Keywords where
  KeywordMap : List (List Byte × Int)
  MinKeywordLength : Int
  MaxKeywordLength : Int

namespace Keywords

/-- A new `CSymbolParser`. -/
def new : Keywords := ⟨[], -1, -1⟩

/-- `addKeyWord`. -/
def addKeyWord (p : Keywords) (keyword : List Byte) (symbol : Int) : Keywords :=
  let KeywordMap := (keyword, symbol) :: p.KeywordMap
  let strlen : Int := keyword.length
  if p.MaxKeywordLength = -1 then ⟨KeywordMap, strlen, strlen⟩
  else if strlen > p.MaxKeywordLength then ⟨KeywordMap, p.MinKeywordLength, strlen⟩
  else if strlen < p.MinKeywordLength then ⟨KeywordMap, strlen, p.MaxKeywordLength⟩
  else ⟨KeywordMap, p.MinKeywordLength, p.MaxKeywordLength⟩

/-- All keywords, one after the other. -/
def addAll (added : List (List Byte × Int)) : Keywords :=
  added.foldl (fun p entry => p.addKeyWord entry.1 entry.2) new

/-- `__KeywordMap.find`; what was added last counts. -/
def find (p : Keywords) (s : List Byte) : Option Int :=
  (p.KeywordMap.find? fun entry => entry.1 = s).map Prod.snd

/-- An `int` as an `unsigned int`. -/
def unsigned (n : Int) : Nat := (if n < 0 then 2 ^ 32 + n else n).toNat

/-- The lengths `__MaxKeywordLength - j`. -/
def lengths (p : Keywords) : List Nat :=
  (List.range ((p.MaxKeywordLength - p.MinKeywordLength).toNat + 1)).map fun (j : Nat) =>
    unsigned (p.MaxKeywordLength - j)

end Keywords

/-! ## The scan -/

/-- `SymbolPair`, with its location. -/
structure SymbolPair where
  first : Int
  second : List Byte
  LineNo : Int
  LinePos : Int
  deriving DecidableEq, Repr

/-- `SYMBOL_FALSE`. -/
def SYMBOL_FALSE : SymbolPair := ⟨-2, [], -2, -2⟩

/-- `SYMBOL_END`. -/
def SYMBOL_END : SymbolPair := ⟨-1, [], -1, -1⟩

/-- What `__getNextSymbol` keeps from call to call. -/
structure Scan where
  CurrentIndex : Nat
  CurrentLineNo : Nat
  CurrentLinePos : Nat
  ErrorInfo : String
  deriving DecidableEq, Repr

/-- `substr`. -/
def substr (s : List Byte) (pos n : Nat) : List Byte := (s.drop pos).take n

/-- The index that a loop over characters of one kind stops at. -/
def skip (kind : Byte → Bool) (body : List Byte) (i : Nat) : Nat :=
  i + ((body.drop i).takeWhile kind).length

/-- A symbol of this kind that goes up to the index `i`. -/
def Scan.symbolTo (st : Scan) (first : Int) (second : List Byte) (i : Nat) : SymbolPair × Scan :=
  (⟨first, second, st.CurrentLineNo, (i : Int) - st.CurrentLinePos⟩, { st with CurrentIndex := i })

/-- The text from the start of the symbol to the index `i`. -/
def Scan.textTo (st : Scan) (body : List Byte) (i : Nat) : List Byte :=
  substr body st.CurrentIndex (i - st.CurrentIndex)

/-- A number from the digit at `i` on. -/
def number (body : List Byte) (st : Scan) (i : Nat) : SymbolPair × Scan :=
  let i := skip isDigit body (i + 1)
  if body[i]? = some '.'.toUInt8 then
    let i := skip isDigit body (i + 1)
    st.symbolTo 1 (st.textTo body i) i
  else st.symbolTo 0 (st.textTo body i) i

/-- The loop over the characters of a string; the index behind the closing quote. -/
def stringLoop (const_string : List Byte) : List Byte → Nat → Option (List Byte × Nat)
  | [], _ => none
  | [c], i => if c = '\''.toUInt8 then some (const_string, i + 1) else none
  | c :: d :: text, i =>
    if c = '\\'.toUInt8 then stringLoop (const_string ++ [CSymbolParser.escape d]) text (i + 2)
    else if c = '\''.toUInt8 then some (const_string, i + 1)
    else stringLoop (const_string ++ [c]) (d :: text) (i + 1)

/-- The first of the lengths for which there is a keyword at `i`: its symbol, its text and the
length. -/
def findKeyword (p : Keywords) (body : List Byte) (i : Nat) :
    List Nat → Option (Int × List Byte × Nat)
  | [] => none
  | n :: lengths =>
    match p.find (substr body i n) with
    | some symbol => some (symbol, substr body i n, n)
    | none => findKeyword p body i lengths

/-- `__StringBody[i]`, also behind its end. -/
def charAt (behind : Nat → Byte) (body : List Byte) (i : Nat) : Byte := body.getD i (behind i)

/-- A name from the letter at `i` on. -/
def ident (body : List Byte) (st : Scan) (i : Nat) : SymbolPair × Scan :=
  let i := skip CSymbolParser.isWordChar body (i + 1)
  st.symbolTo 3 (st.textTo body i) i

/-- A keyword of letters or a name. -/
def word (p : Keywords) (behind : Nat → Byte) (body : List Byte) (st : Scan) (i : Nat) :
    SymbolPair × Scan :=
  match findKeyword p body i p.lengths with
  | none => ident body st i
  | some (symbol, _, n) =>
    if i + n ≠ body.length ∧ CSymbolParser.isWordChar (charAt behind body (i + n)) then
      ident body st i
    else st.symbolTo symbol (st.textTo body (i + n)) (i + n)

/-- `__getNextSymbol` from the index `i` on, where `text` begins. -/
def getNextSymbol (p : Keywords) (behind : Nat → Byte) (body : List Byte) :
    List Byte → Nat → Scan → SymbolPair × Scan
  | [], _, st => (SYMBOL_END, st)
  | c :: text, i, st =>
    if isSpace c then
      let st := if c = '\n'.toUInt8 then
          { st with CurrentLineNo := st.CurrentLineNo + 1, CurrentLinePos := i } else st
      getNextSymbol p behind body text (i + 1) { st with CurrentIndex := st.CurrentIndex + 1 }
    else if isDigit c then number body st i
    else if c = '\''.toUInt8 then
      match stringLoop [] text (i + 1) with
      | none => (SYMBOL_FALSE, { st with ErrorInfo := "没有结束的字符串." })
      | some (const_string, i) => st.symbolTo 2 const_string i
    else if CSymbolParser.isIdentChar c then word p behind body st i
    else
      match findKeyword p body i p.lengths with
      | none => (SYMBOL_FALSE, { st with ErrorInfo := "无法识别的符号." })
      | some (symbol, s, n) => st.symbolTo symbol s (i + n)

/-- The loop of `parseText`, for so many symbols at most: whether it succeeds, and the symbols. -/
def parseLoop (p : Keywords) (behind : Nat → Byte) (body : List Byte) :
    Nat → Scan → Option (Bool × List SymbolPair × Scan)
  | 0, _ => none
  | fuel + 1, st =>
    let rtn := getNextSymbol p behind body (body.drop st.CurrentIndex) st.CurrentIndex st
    if rtn.1.first = SYMBOL_END.first then some (true, [rtn.1], rtn.2)
    else if rtn.1.first = SYMBOL_FALSE.first then some (false, [rtn.1], rtn.2)
    else (parseLoop p behind body fuel rtn.2).map fun r => (r.1, rtn.1 :: r.2.1, r.2.2)

/-- `parseText`, for so many symbols at most; `__ErrorInfo` is left from before. -/
def parseText (p : Keywords) (behind : Nat → Byte) (ErrorInfo : String) (fuel : Nat)
    (text : List Byte) : Option (Bool × List SymbolPair × Scan) :=
  parseLoop p behind (text.takeWhile (· ≠ 0)) fuel ⟨0, 1, 0, ErrorInfo⟩

/-! ## Tokens -/

/-- A character of a keyword that has no letters. -/
def isOperatorChar (c : Byte) : Bool :=
  c ≠ 0 && c < 128 && !isSpace c && !isDigit c && c ≠ '\''.toUInt8 && !CSymbolParser.isIdentChar c

/-- What may be added as a keyword; its symbol is one above those of the constants and names. -/
structure IsKeyword (entry : List Byte × Int) : Prop where
  nonempty : entry.1 ≠ []
  kind : (∀ c ∈ entry.1, CSymbolParser.isIdentChar c = true) ∨
    ∀ c ∈ entry.1, isOperatorChar c = true
  symbol : 3 < entry.2

inductive Token
  | int (digits : List Byte)
  | decimal (digits fraction : List Byte)
  | str (const_string : List Byte)
  | ident (name : List Byte)
  | keyword (text : List Byte) (symbol : Int)

/-- A character of a string as it is written. -/
def written (c : Byte) : List Byte :=
  if c = '\''.toUInt8 || c = '\\'.toUInt8 then ['\\'.toUInt8, c] else [c]

namespace Token

/-- The text of a token. -/
def text : Token → List Byte
  | int digits => digits
  | decimal digits fraction => digits ++ '.'.toUInt8 :: fraction
  | str const_string => '\''.toUInt8 :: const_string.flatMap written ++ ['\''.toUInt8]
  | ident name => name
  | keyword text _ => text

/-- What `first` and `second` should be. -/
def pair : Token → Int × List Byte
  | int digits => (0, digits)
  | decimal digits fraction => (1, digits ++ '.'.toUInt8 :: fraction)
  | str const_string => (2, const_string)
  | ident name => (3, name)
  | keyword text symbol => (symbol, text)

/-- The tokens that there are for some keywords. -/
def Valid (p : Keywords) : Token → Prop
  | int digits => digits ≠ [] ∧ ∀ c ∈ digits, isDigit c = true
  | decimal digits fraction => (digits ≠ [] ∧ ∀ c ∈ digits, isDigit c = true) ∧
      ∀ c ∈ fraction, isDigit c = true
  | str const_string => ∀ c ∈ const_string, c ≠ 0
  | ident name => name.head?.any CSymbolParser.isIdentChar = true ∧
      (∀ c ∈ name, CSymbolParser.isWordChar c = true) ∧ p.find name = none
  | keyword text symbol => p.find text = some symbol

instance (p : Keywords) (t : Token) : Decidable (t.Valid p) :=
  match t with
  | int digits => inferInstanceAs (Decidable (digits ≠ [] ∧ ∀ c ∈ digits, isDigit c = true))
  | decimal digits fraction =>
      inferInstanceAs (Decidable ((digits ≠ [] ∧ ∀ c ∈ digits, isDigit c = true) ∧
        ∀ c ∈ fraction, isDigit c = true))
  | str const_string => inferInstanceAs (Decidable (∀ c ∈ const_string, c ≠ 0))
  | ident name =>
      inferInstanceAs (Decidable (name.head?.any CSymbolParser.isIdentChar = true ∧
        (∀ c ∈ name, CSymbolParser.isWordChar c = true) ∧ p.find name = none))
  | keyword text symbol => inferInstanceAs (Decidable (p.find text = some symbol))

end Token

/-- A blank behind each token. -/
def print (tokens : List Token) : List Byte := tokens.flatMap fun t => t.text ++ [' '.toUInt8]

/-! ## The lengths of the keywords -/

variable {p : Keywords} {behind : Nat → Byte} {body text rest : List Byte} {i n : Nat} {c : Byte}
  {st : Scan}

/-- The keywords are keywords, and the lengths are between the two that are kept. -/
structure Keywords.Sound (p : Keywords) : Prop where
  isKeyword : ∀ entry ∈ p.KeywordMap, IsKeyword entry
  range : ∀ entry ∈ p.KeywordMap,
    p.MinKeywordLength ≤ entry.1.length ∧ (entry.1.length : Int) ≤ p.MaxKeywordLength
  ordered : p.MinKeywordLength ≤ p.MaxKeywordLength
  start : p.MaxKeywordLength = -1 ∧ p.KeywordMap = [] ∨ 0 ≤ p.MinKeywordLength

/-- `addKeyWord`, by the length of the keyword. -/
theorem Keywords.addKeyWord_cases (p : Keywords) (entry : List Byte × Int) :
    let q := p.addKeyWord entry.1 entry.2
    q.KeywordMap = entry :: p.KeywordMap ∧
      ((p.MaxKeywordLength = -1 ∧ q.MinKeywordLength = entry.1.length ∧
          q.MaxKeywordLength = entry.1.length) ∨
        (p.MaxKeywordLength ≠ -1 ∧ q.MinKeywordLength ≤ p.MinKeywordLength ∧
          p.MaxKeywordLength ≤ q.MaxKeywordLength ∧
          (0 ≤ p.MinKeywordLength → 0 ≤ q.MinKeywordLength) ∧
          (p.MinKeywordLength ≤ p.MaxKeywordLength → q.MinKeywordLength ≤ entry.1.length ∧
            (entry.1.length : Int) ≤ q.MaxKeywordLength))) := by
  unfold Keywords.addKeyWord
  dsimp only
  split_ifs with hunset hlonger hshorter
  · exact ⟨rfl, .inl ⟨hunset, rfl, rfl⟩⟩
  · exact ⟨rfl, .inr ⟨hunset, le_rfl, hlonger.le, id, fun h => ⟨h.trans hlonger.le, le_rfl⟩⟩⟩
  · exact ⟨rfl, .inr ⟨hunset, hshorter.le, le_rfl, fun _ => Int.natCast_nonneg _,
      fun h => ⟨le_rfl, not_lt.mp hlonger⟩⟩⟩
  · exact ⟨rfl, .inr ⟨hunset, le_rfl, le_rfl, id,
      fun h => ⟨not_lt.mp hshorter, not_lt.mp hlonger⟩⟩⟩

/-- A further keyword keeps the table of lengths right. -/
theorem Keywords.Sound.addKeyWord (h : p.Sound) {entry : List Byte × Int}
    (hentry : IsKeyword entry) : (p.addKeyWord entry.1 entry.2).Sound := by
  obtain ⟨hmap, hlengths⟩ := p.addKeyWord_cases entry
  have hthis : (p.addKeyWord entry.1 entry.2).MinKeywordLength ≤ entry.1.length ∧
      (entry.1.length : Int) ≤ (p.addKeyWord entry.1 entry.2).MaxKeywordLength := by
    rcases hlengths with ⟨-, hmin, hmax⟩ | ⟨-, -, -, -, hboth⟩
    · omega
    · exact hboth h.ordered
  refine ⟨?_, ?_, by omega, ?_⟩
  · rw [hmap]
    exact List.forall_mem_cons.mpr ⟨hentry, h.isKeyword⟩
  · rw [hmap]
    refine List.forall_mem_cons.mpr ⟨hthis, fun e he => ?_⟩
    have hold := h.range e he
    rcases hlengths with ⟨hunset, -⟩ | ⟨-, hmin, hmax, -⟩
    · omega
    · omega
  · rcases hlengths with ⟨-, hmin, -⟩ | ⟨hset, -, -, hnonneg, -⟩
    · omega
    · rcases h.start with ⟨hunset, -⟩ | hstart
      · exact absurd hunset hset
      · exact .inr (hnonneg hstart)

/-- The table of all keywords is right. -/
theorem Keywords.addAll_sound {added : List (List Byte × Int)}
    (h : ∀ entry ∈ added, IsKeyword entry) : (Keywords.addAll added).Sound := by
  have hall : ∀ (l : List (List Byte × Int)) (p : Keywords), p.Sound →
      (∀ entry ∈ l, IsKeyword entry) →
      (l.foldl (fun p entry => p.addKeyWord entry.1 entry.2) p).Sound := by
    intro l
    induction l with
    | nil => exact fun p hp _ => hp
    | cons entry l ih =>
        intro p hp hl
        exact ih _ (hp.addKeyWord (hl entry List.mem_cons_self))
          fun e he => hl e (List.mem_cons_of_mem entry he)
  exact hall added Keywords.new ⟨by simp [new], by simp [new], le_rfl, .inl ⟨rfl, rfl⟩⟩ h

/-- A keyword that is found is in the table. -/
theorem mem_of_find {s : List Byte} {symbol : Int} (h : p.find s = some symbol) :
    (s, symbol) ∈ p.KeywordMap := by
  obtain ⟨entry, hentry, hsymbol⟩ := Option.map_eq_some_iff.mp h
  have htext : entry.1 = s := by simpa using List.find?_some hentry
  have hmem := List.mem_of_find?_eq_some hentry
  rwa [← htext, ← hsymbol]

/-- The length of every keyword is tried. -/
theorem Keywords.Sound.length_mem (h : p.Sound) {s : List Byte} {symbol : Int}
    (hfind : p.find s = some symbol) : s.length ∈ p.lengths := by
  obtain ⟨hmin, hmax⟩ := h.range _ (mem_of_find hfind)
  dsimp only at hmin hmax
  refine List.mem_map.mpr ⟨(p.MaxKeywordLength - s.length).toNat, ?_, ?_⟩
  · rw [List.mem_range]
    omega
  · rw [Keywords.unsigned, if_neg (by omega)]
    omega

/-- The lengths go down, as long as there is a keyword at all. -/
theorem Keywords.Sound.lengths_down (h : p.Sound) {s : List Byte} {symbol : Int}
    (hfind : p.find s = some symbol) : p.lengths.Pairwise (· > ·) := by
  have hmem := mem_of_find hfind
  have hstart : 0 ≤ p.MinKeywordLength := by
    rcases h.start with ⟨-, hempty⟩ | hstart
    · rw [hempty] at hmem
      cases hmem
    · exact hstart
  have hordered := h.ordered
  have hdown : ((List.range ((p.MaxKeywordLength - p.MinKeywordLength).toNat + 1)).Pairwise
      (· < ·)) := List.pairwise_lt_range
  refine List.pairwise_map.mpr (hdown.imp_of_mem fun {j k} hj hk hlt => ?_)
  rw [List.mem_range] at hj hk
  unfold Keywords.unsigned
  split_ifs <;> omega

/-- A keyword of some text with a blank in it. -/
theorem Keywords.Sound.find_blank (h : p.Sound) {s : List Byte} (hs : ' '.toUInt8 ∈ s) :
    p.find s = none := by
  rw [Option.eq_none_iff_forall_ne_some]
  intro symbol hfind
  rcases (h.isKeyword _ (mem_of_find hfind)).kind with hletters | hothers
  · exact absurd (hletters _ hs) (by decide)
  · exact absurd (hothers _ hs) (by decide)

/-! ## Finding keywords -/

/-- **The longest keyword is found** in front of a blank. -/
theorem findKeyword_keyword (h : p.Sound) {symbol : Int} (hfind : p.find text = some symbol)
    (hbody : body.drop i = text ++ ' '.toUInt8 :: rest) {lengths : List Nat}
    (hlength : text.length ∈ lengths) (hdown : lengths.Pairwise (· > ·)) :
    findKeyword p body i lengths = some (symbol, text, text.length) := by
  induction lengths with
  | nil => cases hlength
  | cons n lengths ih =>
      obtain ⟨hn, hdown⟩ := List.pairwise_cons.mp hdown
      unfold findKeyword
      rcases List.mem_cons.mp hlength with hthis | hlater
      · have hsub : substr body i n = text := by
          rw [substr, hbody, ← hthis, List.take_left']
          rfl
        rw [hsub, hfind, hthis]
      · -- a longer text has the blank in it
        have hsub : substr body i n = text ++ ' '.toUInt8 :: rest.take (n - text.length - 1) := by
          rw [substr, hbody]
          exact CSymbolParser.take_longer (hn _ hlater) _ _
        rw [hsub, h.find_blank (by simp)]
        exact ih hlater hdown

/-- The keyword found at a place is the text there, of its length. -/
theorem find_of_findKeyword {lengths : List Nat} {symbol : Int} {s : List Byte}
    (h : findKeyword p body i lengths = some (symbol, s, n)) :
    s = substr body i n ∧ p.find s = some symbol := by
  induction lengths with
  | nil => simp [findKeyword] at h
  | cons m lengths ih =>
      unfold findKeyword at h
      cases hfind : p.find (substr body i m) with
      | none =>
          rw [hfind] at h
          exact ih h
      | some symbol' =>
          rw [hfind] at h
          obtain ⟨rfl, rfl, rfl⟩ : symbol' = symbol ∧ substr body i m = s ∧ m = n := by
            simpa using h
          exact ⟨rfl, hfind⟩

/-! ## One token -/

/-- A loop goes over the characters of its kind. -/
theorem skip_eq {kind : Byte → Bool} (hbody : body.drop i = text ++ c :: rest)
    (htext : ∀ d ∈ text, kind d = true) (hc : kind c = false) :
    skip kind body i = i + text.length := by
  rw [skip, hbody, (CSymbolParser.takeWhile_append_cons htext hc rest).1]

/-- The characters up to the end of a text. -/
theorem textTo_eq (hbody : body.drop i = text ++ rest) (hst : st.CurrentIndex = i) :
    st.textTo body (i + text.length) = text := by
  rw [Scan.textTo, substr, hst, hbody, Nat.add_sub_cancel_left, List.take_left']
  rfl

/-- Behind a text comes what is left of the body. -/
theorem drop_add {d : List Byte} (hbody : body.drop i = text ++ d) :
    body.drop (i + text.length) = d := by
  rw [← List.drop_drop, hbody, List.drop_left']
  rfl

/-- The character behind a text. -/
theorem charAt_eq (hbody : body.drop i = text ++ c :: rest) :
    body[i + text.length]? = some c ∧ i + text.length ≠ body.length ∧
      charAt behind body (i + text.length) = c := by
  have hget : body[i + text.length]? = some c := by
    have hdrop := drop_add hbody
    rw [← Nat.add_zero (i + text.length), ← List.getElem?_drop, hdrop]
    rfl
  obtain ⟨hlt, -⟩ := List.getElem?_eq_some_iff.mp hget
  refine ⟨hget, hlt.ne, ?_⟩
  rw [charAt, List.getD_eq_getElem?_getD, hget, Option.getD_some]

/-- The symbol of a token, with the scan behind it. -/
def Reads (r : SymbolPair × Scan) (pair : Int × List Byte) (i : Nat) : Prop :=
  (r.1.first, r.1.second) = pair ∧ r.2.CurrentIndex = i

theorem symbolTo_reads (first : Int) (second : List Byte) :
    Reads (st.symbolTo first second i) (first, second) i := ⟨rfl, rfl⟩

/-- Digits up to a blank are an integer. -/
theorem number_int (hbody : body.drop i = text ++ ' '.toUInt8 :: rest) (hne : text ≠ [])
    (hdigits : ∀ d ∈ text, isDigit d = true) (hst : st.CurrentIndex = i) :
    Reads (number body st i) (0, text) (i + text.length) := by
  obtain ⟨d, digits, rfl⟩ := List.exists_cons_of_ne_nil hne
  have htail : body.drop (i + 1) = digits ++ ' '.toUInt8 :: rest :=
    @drop_add body [d] i _ (by simpa using hbody)
  have hskip : skip isDigit body (i + 1) = i + (d :: digits).length := by
    rw [skip_eq htail (fun e he => hdigits e (List.mem_cons_of_mem d he)) (by decide)]
    simp only [List.length_cons]
    omega
  have hnext := (@charAt_eq (fun _ => 0) _ _ _ _ _ hbody).1
  unfold number
  rw [hskip]
  dsimp only
  rw [hnext, if_neg (by decide), textTo_eq hbody hst]
  exact symbolTo_reads _ _

/-- Digits, a point and digits up to a blank are a decimal number. -/
theorem number_decimal {digits fraction : List Byte}
    (hbody : body.drop i = (digits ++ '.'.toUInt8 :: fraction) ++ ' '.toUInt8 :: rest)
    (hne : digits ≠ []) (hdigits : ∀ d ∈ digits, isDigit d = true)
    (hfraction : ∀ d ∈ fraction, isDigit d = true) (hst : st.CurrentIndex = i) :
    Reads (number body st i) (1, digits ++ '.'.toUInt8 :: fraction)
      (i + (digits ++ '.'.toUInt8 :: fraction).length) := by
  have hwhole : body.drop i = digits ++ '.'.toUInt8 :: (fraction ++ ' '.toUInt8 :: rest) := by
    rw [hbody, List.append_assoc]
    rfl
  have hpoint := (@charAt_eq (fun _ => 0) _ _ _ _ _ hwhole).1
  have hbehind : body.drop (i + digits.length + 1) = fraction ++ ' '.toUInt8 :: rest :=
    @drop_add body ['.'.toUInt8] _ _ (drop_add hwhole)
  obtain ⟨d, tail, rfl⟩ := List.exists_cons_of_ne_nil hne
  have htail : body.drop (i + 1) = tail ++ '.'.toUInt8 :: (fraction ++ ' '.toUInt8 :: rest) :=
    @drop_add body [d] i _ (by simpa using hwhole)
  have hskip : skip isDigit body (i + 1) = i + (d :: tail).length := by
    rw [skip_eq htail (fun e he => hdigits e (List.mem_cons_of_mem d he)) (by decide)]
    simp only [List.length_cons]
    omega
  have hskip' : skip isDigit body (i + (d :: tail).length + 1) =
      i + (d :: tail ++ '.'.toUInt8 :: fraction).length := by
    rw [skip_eq hbehind hfraction (by decide)]
    simp only [List.length_append, List.length_cons]
    omega
  unfold number
  rw [hskip]
  dsimp only
  rw [hpoint, if_pos rfl, hskip', textTo_eq hbody hst]
  exact symbolTo_reads _ _

/-- A written string is read up to its closing quote. -/
theorem stringLoop_written (content acc : List Byte) (i : Nat) :
    stringLoop acc (content.flatMap written ++ '\''.toUInt8 :: rest) i =
      some (acc ++ content, i + (content.flatMap written).length + 1) := by
  induction content generalizing acc i with
  | nil =>
      cases rest with
      | nil => simp [stringLoop]
      | cons d rest =>
          have hne : ¬ '\''.toUInt8 = '\\'.toUInt8 := by decide
          simp [stringLoop, hne]
  | cons c content ih =>
      obtain ⟨d, tail, htail⟩ : ∃ d tail,
          content.flatMap written ++ '\''.toUInt8 :: rest = d :: tail := by
        apply List.exists_cons_of_ne_nil
        simp
      rw [List.flatMap_cons, List.append_assoc]
      by_cases hc : (c = '\''.toUInt8 || c = '\\'.toUInt8) = true
      · have hescape : CSymbolParser.escape c = c := by
          simp only [Bool.or_eq_true, decide_eq_true_eq] at hc
          rcases hc with rfl | rfl <;> decide
        have hwritten : written c = ['\\'.toUInt8, c] := if_pos hc
        rw [hwritten, List.cons_append, List.cons_append, List.nil_append, stringLoop, if_pos rfl,
          hescape, ih]
        simp only [List.append_assoc, List.cons_append, List.nil_append, List.length_cons]
        congr 2
        omega
      · have hwritten : written c = [c] := if_neg hc
        simp only [Bool.or_eq_true, decide_eq_true_eq, not_or] at hc
        rw [hwritten, List.cons_append, List.nil_append, htail, stringLoop, if_neg hc.2,
          if_neg hc.1, ← htail, ih]
        simp only [List.append_assoc, List.cons_append, List.nil_append, List.length_cons]
        congr 2
        omega

/-- A name is a word: a keyword is at most a part of it. -/
theorem word_ident (h : p.Sound) (hbody : body.drop i = text ++ ' '.toUInt8 :: rest)
    (hne : text ≠ []) (hword : ∀ d ∈ text, CSymbolParser.isWordChar d = true)
    (hfind : p.find text = none) (hst : st.CurrentIndex = i) :
    Reads (word p behind body st i) (3, text) (i + text.length) := by
  have hident : Reads (ident body st i) (3, text) (i + text.length) := by
    obtain ⟨d, tail, rfl⟩ := List.exists_cons_of_ne_nil hne
    have htail : body.drop (i + 1) = tail ++ ' '.toUInt8 :: rest :=
      @drop_add body [d] i _ (by simpa using hbody)
    have hskip : skip CSymbolParser.isWordChar body (i + 1) = i + (d :: tail).length := by
      rw [skip_eq htail (fun e he => hword e (List.mem_cons_of_mem d he)) (by decide)]
      simp only [List.length_cons]
      omega
    unfold ident
    rw [hskip]
    dsimp only
    rw [textTo_eq hbody hst]
    exact symbolTo_reads _ _
  unfold word
  cases hkey : findKeyword p body i p.lengths with
  | none => exact hident
  | some found =>
      obtain ⟨symbol, s, n⟩ := found
      obtain ⟨hs, hsymbol⟩ := find_of_findKeyword hkey
      dsimp only
      rcases Nat.lt_trichotomy n text.length with hshort | heq | hlong
      · have hcut : body.drop i =
            text.take n ++ text[n] :: (text.drop (n + 1) ++ ' '.toUInt8 :: rest) := by
          rw [hbody, ← List.cons_append, ← List.drop_eq_getElem_cons hshort, ← List.append_assoc,
            List.take_append_drop]
        have hlength : (text.take n).length = n := List.length_take_of_le hshort.le
        obtain ⟨-, hend, hchar⟩ := @charAt_eq behind _ _ _ _ _ hcut
        rw [hlength] at hend hchar
        rw [if_pos ⟨hend, by rw [hchar]; exact hword _ (List.getElem_mem hshort)⟩]
        exact hident
      · rw [hs, substr, hbody, heq, List.take_left' rfl, hfind] at hsymbol
        cases hsymbol
      · rw [hs, substr, hbody, CSymbolParser.take_longer hlong, h.find_blank (by simp)] at hsymbol
        cases hsymbol

/-- A keyword of letters is a word of its own. -/
theorem word_keyword (h : p.Sound) {symbol : Int} (hfind : p.find text = some symbol)
    (hbody : body.drop i = text ++ ' '.toUInt8 :: rest) (hst : st.CurrentIndex = i) :
    Reads (word p behind body st i) (symbol, text) (i + text.length) := by
  obtain ⟨-, -, hchar⟩ := @charAt_eq behind _ _ _ _ _ hbody
  have hblank : CSymbolParser.isWordChar ' '.toUInt8 = false := by decide
  unfold word
  rw [findKeyword_keyword h hfind hbody (h.length_mem hfind) (h.lengths_down hfind)]
  dsimp only
  rw [hchar, if_neg (by simp [hblank]), textTo_eq hbody hst]
  exact symbolTo_reads _ _

/-- A digit is no space. -/
theorem isDigit_spec (h : isDigit c = true) : isSpace c = false := by
  simp only [isDigit, Bool.and_eq_true, decide_eq_true_eq] at h
  simp only [isSpace, Bool.or_eq_false_iff, Bool.and_eq_false_iff, decide_eq_false_iff_not]
  omega

/-- From a letter on there is a word. -/
theorem getNextSymbol_word (hc : CSymbolParser.isIdentChar c = true) :
    getNextSymbol p behind body (c :: rest) i st = word p behind body st i := by
  obtain ⟨hspace, hdigit, hquote⟩ := CSymbolParser.isIdentChar_spec hc
  have hquote' : ¬ c = '\''.toUInt8 := hquote
  rw [getNextSymbol, if_neg (by simp [hspace]), if_neg (by simp [hdigit]), if_neg hquote',
    if_pos hc]

/-- From a digit on there is a number. -/
theorem getNextSymbol_number (hc : isDigit c = true) :
    getNextSymbol p behind body (c :: rest) i st = number body st i := by
  rw [getNextSymbol, if_neg (by simp [isDigit_spec hc]), if_pos hc]

/-- **A token is read**, and the scan stops at the blank behind it. -/
theorem getNextSymbol_token (h : p.Sound) {t : Token} (ht : t.Valid p)
    (hbody : body.drop i = t.text ++ ' '.toUInt8 :: rest) (hst : st.CurrentIndex = i) :
    Reads (getNextSymbol p behind body (body.drop i) i st) t.pair (i + t.text.length) := by
  cases t with
  | int digits =>
      obtain ⟨hne, hdigits⟩ := ht
      have hread := number_int hbody hne hdigits hst
      obtain ⟨d, tail, rfl⟩ := List.exists_cons_of_ne_nil hne
      rw [hbody, Token.text, List.cons_append, getNextSymbol_number (hdigits d List.mem_cons_self)]
      exact hread
  | decimal digits fraction =>
      obtain ⟨⟨hne, hdigits⟩, hfraction⟩ := ht
      have hread := number_decimal hbody hne hdigits hfraction hst
      obtain ⟨d, tail, rfl⟩ := List.exists_cons_of_ne_nil hne
      rw [hbody, Token.text, List.cons_append, List.cons_append,
        getNextSymbol_number (hdigits d List.mem_cons_self)]
      exact hread
  | str const_string =>
      have hspace : isSpace '\''.toUInt8 = false := by decide
      have hdigit : isDigit '\''.toUInt8 = false := by decide
      have hloop := @stringLoop_written (' '.toUInt8 :: rest) const_string [] (i + 1)
      rw [List.nil_append] at hloop
      have hlength : i + (Token.str const_string).text.length =
          i + 1 + (const_string.flatMap written).length + 1 := by
        simp only [Token.text, List.length_append, List.length_cons, List.length_nil]
        omega
      have htext : body.drop i = '\''.toUInt8 ::
          (const_string.flatMap written ++ '\''.toUInt8 :: ' '.toUInt8 :: rest) := by
        simpa [Token.text] using hbody
      rw [htext, hlength, getNextSymbol, if_neg (by simp [hspace]), if_neg (by simp [hdigit]),
        if_pos rfl, hloop]
      exact symbolTo_reads _ _
  | ident name =>
      obtain ⟨hhead, hword, hfind⟩ := ht
      obtain ⟨d, tail, rfl⟩ : ∃ d tail, name = d :: tail := by
        apply List.exists_cons_of_ne_nil
        rintro rfl
        cases hhead
      have hread : Reads (word p behind body st i) (3, d :: tail) (i + (d :: tail).length) :=
        word_ident h hbody (by simp) hword hfind hst
      rw [hbody, Token.text, List.cons_append, getNextSymbol_word (by simpa using hhead)]
      exact hread
  | keyword text symbol =>
      have hkeyword := h.isKeyword _ (mem_of_find ht)
      obtain ⟨d, tail, rfl⟩ := List.exists_cons_of_ne_nil hkeyword.nonempty
      rcases hkeyword.kind with hletters | hothers
      · have hread : Reads (word p behind body st i) (symbol, d :: tail)
            (i + (d :: tail).length) := word_keyword h ht hbody hst
        rw [hbody, Token.text, List.cons_append,
          getNextSymbol_word (hletters d List.mem_cons_self)]
        exact hread
      · have hd := hothers d List.mem_cons_self
        simp only [isOperatorChar, Bool.and_eq_true, Bool.not_eq_true', decide_eq_true_eq] at hd
        obtain ⟨⟨⟨⟨⟨-, -⟩, hspace⟩, hdigit⟩, hquote⟩, hident⟩ := hd
        have hkey := findKeyword_keyword h ht hbody (h.length_mem ht) (h.lengths_down ht)
        rw [hbody, Token.text, List.cons_append, getNextSymbol, if_neg (by simp [hspace]),
          if_neg (by simp [hdigit]), if_neg hquote, if_neg (by simp [hident]), hkey]
        exact symbolTo_reads _ _

/-! ## All tokens -/

/-- No symbol of a token ends the loop. -/
theorem Token.Valid.first (h : p.Sound) {t : Token} (ht : t.Valid p) :
    t.pair.1 ≠ SYMBOL_END.first ∧ t.pair.1 ≠ SYMBOL_FALSE.first := by
  cases t with
  | keyword text symbol =>
      have hsymbol := (h.isKeyword _ (mem_of_find ht)).symbol
      simp only [Token.pair, SYMBOL_END, SYMBOL_FALSE] at hsymbol ⊢
      omega
  | _ => simp [Token.pair, SYMBOL_END, SYMBOL_FALSE]

/-- A blank is passed over. -/
theorem getNextSymbol_blank :
    getNextSymbol p behind body (' '.toUInt8 :: rest) i st =
      getNextSymbol p behind body rest (i + 1) { st with CurrentIndex := st.CurrentIndex + 1 } := by
  have hspace : isSpace ' '.toUInt8 = true := by decide
  have hline : ¬ ' '.toUInt8 = '\n'.toUInt8 := by decide
  rw [getNextSymbol, if_pos hspace]
  simp only [if_neg hline]

/-- A token, with or without a blank in front. -/
theorem getNextSymbol_behind (h : p.Sound) {gap : List Byte} (hgap : gap = [] ∨ gap = [' '.toUInt8])
    {t : Token} (ht : t.Valid p)
    (hbody : body.drop i = gap ++ (t.text ++ ' '.toUInt8 :: rest)) (hst : st.CurrentIndex = i) :
    Reads (getNextSymbol p behind body (body.drop i) i st) t.pair
      (i + gap.length + t.text.length) := by
  rcases hgap with rfl | rfl
  · exact getNextSymbol_token h ht hbody hst
  · have htoken : body.drop (i + 1) = t.text ++ ' '.toUInt8 :: rest :=
      @drop_add body [' '.toUInt8] i _ hbody
    rw [hbody, List.cons_append, List.nil_append, getNextSymbol_blank, ← htoken]
    exact getNextSymbol_token h ht htoken (by simp [hst])

/-- **All tokens are read**, from the scan behind the one before. -/
theorem parseLoop_tokens (h : p.Sound) {tokens : List Token} (htokens : ∀ t ∈ tokens, t.Valid p)
    {gap : List Byte} (hgap : gap = [] ∨ gap = [' '.toUInt8])
    (hbody : body.drop st.CurrentIndex = gap ++ print tokens) {fuel : Nat}
    (hfuel : tokens.length < fuel) :
    ∃ symbols st', parseLoop p behind body fuel st = some (true, symbols, st') ∧
      symbols.map (fun s => (s.first, s.second)) = tokens.map Token.pair ++ [(-1, [])] := by
  obtain ⟨fuel, rfl⟩ := Nat.exists_eq_succ_of_ne_zero (by omega : fuel ≠ 0)
  induction tokens generalizing gap st fuel with
  | nil =>
      have hend : (getNextSymbol p behind body (body.drop st.CurrentIndex) st.CurrentIndex st).1 =
          SYMBOL_END := by
        rw [hbody]
        rcases hgap with rfl | rfl
        · rfl
        · rw [List.cons_append, getNextSymbol_blank]
          rfl
      rw [parseLoop, hend, if_pos rfl]
      exact ⟨_, _, rfl, rfl⟩
  | cons t tokens ih =>
      have ht := htokens t List.mem_cons_self
      have hbody' : body.drop st.CurrentIndex =
          gap ++ (t.text ++ ' '.toUInt8 :: print tokens) := by
        rw [hbody, print, List.flatMap_cons, List.append_assoc]
        rfl
      have hread : Reads (getNextSymbol p behind body (body.drop st.CurrentIndex)
          st.CurrentIndex st) t.pair _ := getNextSymbol_behind h hgap ht hbody' rfl
      obtain ⟨hpair, hindex⟩ := hread
      obtain ⟨hend, hfalse⟩ := ht.first h
      rw [← hpair] at hend hfalse
      obtain ⟨m, rfl⟩ := Nat.exists_eq_succ_of_ne_zero
        (by simp only [List.length_cons] at hfuel; omega : fuel ≠ 0)
      have hrest : body.drop (getNextSymbol p behind body (body.drop st.CurrentIndex)
          st.CurrentIndex st).2.CurrentIndex = [' '.toUInt8] ++ print tokens := by
        have hgone := drop_add hbody'
        rw [hindex, drop_add hgone]
        rfl
      obtain ⟨symbols, st', hloop, hsymbols⟩ := ih
        (fun t' ht' => htokens t' (List.mem_cons_of_mem t ht')) (.inr rfl) hrest m
        (by simp only [List.length_cons] at hfuel; omega)
      refine ⟨(getNextSymbol p behind body (body.drop st.CurrentIndex) st.CurrentIndex st).1 ::
        symbols, st', ?_, ?_⟩
      · rw [parseLoop, if_neg hend, if_neg hfalse, hloop, Option.map_some]
      · rw [List.map_cons, List.map_cons, hpair, hsymbols]
        rfl

/-! ## The end of every text -/

/-- A keyword that is found is not empty. -/
theorem findKeyword_pos (h : p.Sound) {lengths : List Nat} {symbol : Int} {s : List Byte}
    (hkey : findKeyword p body i lengths = some (symbol, s, n)) : 0 < n := by
  obtain ⟨hs, hsymbol⟩ := find_of_findKeyword hkey
  rcases Nat.eq_zero_or_pos n with rfl | hpos
  · have hempty := (h.isKeyword _ (mem_of_find hsymbol)).nonempty
    exact absurd hs hempty
  · exact hpos

theorem le_skip (kind : Byte → Bool) (body : List Byte) (i : Nat) : i ≤ skip kind body i :=
  Nat.le_add_right _ _

/-- A string ends behind where it begins. -/
theorem stringLoop_lt (acc text : List Byte) (i : Nat) {r : List Byte × Nat}
    (h : stringLoop acc text i = some r) : i < r.2 := by
  induction acc, text, i using stringLoop.induct with
  | case1 => cases h
  | case2 acc i =>
      rw [stringLoop, if_pos rfl] at h
      cases h
      exact Nat.lt_succ_self _
  | case3 acc c i hquote =>
      rw [stringLoop, if_neg hquote] at h
      cases h
  | case4 acc d text i ih =>
      rw [stringLoop, if_pos rfl] at h
      have := ih h
      omega
  | case5 acc d text i hslash =>
      rw [stringLoop, if_neg hslash, if_pos rfl] at h
      cases h
      exact Nat.lt_succ_self _
  | case6 acc c d text i hslash hquote ih =>
      rw [stringLoop, if_neg hslash, if_neg hquote] at h
      have := ih h
      omega

/-- **Every symbol but the last brings the scan forward.** -/
theorem getNextSymbol_forward (h : p.Sound) (text : List Byte) (i : Nat) (st : Scan) :
    let r := getNextSymbol p behind body text i st
    r.1 = SYMBOL_END ∨ r.1 = SYMBOL_FALSE ∨ i < r.2.CurrentIndex := by
  induction text generalizing i st with
  | nil => exact .inl rfl
  | cons c text ih =>
      have hword : i < (ident body st i).2.CurrentIndex := le_skip _ body (i + 1)
      unfold getNextSymbol
      by_cases hspace : isSpace c = true
      · rw [if_pos hspace]
        exact (ih (i + 1) _).imp_right (Or.imp_right fun hforward => Nat.lt_of_succ_lt hforward)
      rw [if_neg hspace]
      by_cases hdigit : isDigit c = true
      · rw [if_pos hdigit]
        have hfirst := le_skip isDigit body (i + 1)
        have hsecond := le_skip isDigit body (skip isDigit body (i + 1) + 1)
        refine .inr (.inr ?_)
        unfold number
        dsimp only
        split_ifs
        · exact Nat.lt_of_lt_of_le (by omega) hsecond
        · exact hfirst
      rw [if_neg hdigit]
      by_cases hquote : c = '\''.toUInt8
      · rw [if_pos hquote]
        cases hloop : stringLoop [] text (i + 1) with
        | none => exact .inr (.inl rfl)
        | some r => exact .inr (.inr ((Nat.lt_succ_self i).trans (stringLoop_lt _ _ _ hloop)))
      rw [if_neg hquote]
      by_cases hident : CSymbolParser.isIdentChar c = true
      · rw [if_pos hident]
        refine .inr (.inr ?_)
        unfold word
        cases hkey : findKeyword p body i p.lengths with
        | none => exact hword
        | some found =>
            obtain ⟨symbol, s, n⟩ := found
            have hpos := findKeyword_pos h hkey
            dsimp only
            split_ifs
            · exact hword
            · exact Nat.lt_add_of_pos_right hpos
      rw [if_neg hident]
      cases hkey : findKeyword p body i p.lengths with
      | none => exact .inr (.inl rfl)
      | some found =>
          obtain ⟨symbol, s, n⟩ := found
          exact .inr (.inr (Nat.lt_add_of_pos_right (findKeyword_pos h hkey)))

/-- The loop comes to an end within as many symbols as there are characters left. -/
theorem parseLoop_ends (h : p.Sound) {fuel : Nat} {st : Scan}
    (hfuel : body.length - st.CurrentIndex < fuel) :
    ∃ r, parseLoop p behind body fuel st = some r := by
  induction fuel generalizing st with
  | zero => omega
  | succ fuel ih =>
      rw [parseLoop]
      rcases @getNextSymbol_forward p behind body h
        (body.drop st.CurrentIndex) st.CurrentIndex st with hend | hfalse | hforward
      · rw [hend, if_pos rfl]
        exact ⟨_, rfl⟩
      · rw [hfalse, if_neg (by decide), if_pos rfl]
        exact ⟨_, rfl⟩
      · split_ifs
        · exact ⟨_, rfl⟩
        · exact ⟨_, rfl⟩
        · by_cases hinside : st.CurrentIndex < body.length
          · obtain ⟨r, hr⟩ := @ih _ (by omega :
              body.length - (getNextSymbol p behind body (body.drop st.CurrentIndex)
                st.CurrentIndex st).2.CurrentIndex < fuel)
            rw [hr]
            exact ⟨_, rfl⟩
          · -- behind the end there is no symbol
            rename_i hnot _
            rw [List.drop_eq_nil_of_le (by omega)] at hnot
            exact absurd rfl hnot

/-- No character of a token is zero. -/
theorem Token.Valid.text_ne_zero (h : p.Sound) {t : Token} (ht : t.Valid p) :
    ∀ c ∈ t.text, c ≠ 0 := by
  have hdigit : ∀ c, isDigit c = true → c ≠ 0 := by
    rintro c hc rfl
    exact absurd hc (by decide)
  cases t with
  | int digits => exact fun c hc => hdigit c (ht.2 c hc)
  | decimal digits fraction =>
      intro c hc
      rcases List.mem_append.mp hc with hc | hc
      · exact hdigit c (ht.1.2 c hc)
      · rcases List.mem_cons.mp hc with rfl | hc
        · decide
        · exact hdigit c (ht.2 c hc)
  | str const_string =>
      intro c hc
      simp only [Token.text, List.mem_append, List.mem_cons, List.mem_flatMap, List.not_mem_nil,
        or_false] at hc
      rcases hc with (rfl | ⟨d, hd, hc⟩) | rfl
      · decide
      · have hne := ht d hd
        unfold written at hc
        split_ifs at hc
        · simp only [List.mem_cons, List.not_mem_nil, or_false] at hc
          rcases hc with rfl | rfl
          · decide
          · exact hne
        · rwa [List.mem_singleton.mp hc]
      · decide
  | ident name =>
      rintro c hc rfl
      exact absurd (ht.2.1 _ hc) (by decide)
  | keyword text symbol =>
      rintro c hc rfl
      rcases (h.isKeyword _ (mem_of_find ht)).kind with hletters | hothers
      · exact absurd (hletters _ hc) (by decide)
      · exact absurd (hothers _ hc) (by decide)

/-- **Printed tokens are read back**, whatever the keywords are, and every text is read to an
end. -/
theorem parseText_printed (added : List (List Byte × Int)) (h : ∀ entry ∈ added, IsKeyword entry)
    (behind : Nat → Byte) (ErrorInfo : String) :
    (∀ tokens : List Token, (∀ t ∈ tokens, t.Valid (Keywords.addAll added)) →
      ∀ fuel > tokens.length, ∃ symbols st,
        parseText (Keywords.addAll added) behind ErrorInfo fuel (print tokens) =
          some (true, symbols, st) ∧
        symbols.map (fun s => (s.first, s.second)) = tokens.map Token.pair ++ [(-1, [])]) ∧
    ∀ text : List Byte, ∀ fuel > text.length,
      ∃ r, parseText (Keywords.addAll added) behind ErrorInfo fuel text = some r := by
  have hsound := Keywords.addAll_sound h
  constructor
  · intro tokens htokens fuel hfuel
    have hbody : (print tokens).takeWhile (· ≠ 0) = print tokens := by
      apply List.takeWhile_eq_self_iff.mpr
      intro c hc
      obtain ⟨t, ht, hc⟩ := List.mem_flatMap.mp hc
      rcases List.mem_append.mp hc with hc | hc
      · exact decide_eq_true ((htokens t ht).text_ne_zero hsound c hc)
      · rw [List.mem_singleton.mp hc]
        decide
    obtain ⟨symbols, st, hloop, hsymbols⟩ := @parseLoop_tokens _ behind _
      ⟨0, 1, 0, ErrorInfo⟩ hsound tokens htokens [] (.inl rfl) rfl fuel hfuel
    refine ⟨symbols, st, ?_, hsymbols⟩
    rw [parseText, hbody]
    exact hloop
  · intro text fuel hfuel
    have hlength := (List.takeWhile_sublist (fun c : Byte => decide (c ≠ 0)) (l := text)).length_le
    exact parseLoop_ends hsound (by dsimp only; omega)

/-- `if`, `+` and `++`. -/
def fewKeywords : List (List Byte × Int) :=
  [(CSymbolParser.bytes ['i', 'f'], 4), (CSymbolParser.bytes ['+'], 5),
    (CSymbolParser.bytes ['+', '+'], 6)]

/-- `if ifs ++ + 'n''\' 10 1.5`, with its quote and its backslash escaped. -/
def fewTokens : List Token :=
  [.keyword (CSymbolParser.bytes ['i', 'f']) 4, .ident (CSymbolParser.bytes ['i', 'f', 's']),
    .keyword (CSymbolParser.bytes ['+', '+']) 6, .keyword (CSymbolParser.bytes ['+']) 5,
    .str (CSymbolParser.bytes ['n', '\'', '\\']), .int (CSymbolParser.bytes ['1', '0']),
    .decimal (CSymbolParser.bytes ['1']) (CSymbolParser.bytes ['5'])]

/-- The printed tokens of the example are read back. -/
theorem parseText_fewTokens : ∃ symbols st,
    parseText (Keywords.addAll fewKeywords) (fun _ => 0) "" 8 (print fewTokens) =
      some (true, symbols, st) ∧
    symbols.map (fun s => (s.first, s.second)) = fewTokens.map Token.pair ++ [(-1, [])] := by
  have hkeywords : ∀ entry ∈ fewKeywords, IsKeyword entry := by
    intro entry hentry
    simp only [fewKeywords, List.mem_cons, List.not_mem_nil, or_false] at hentry
    rcases hentry with rfl | rfl | rfl
    · exact ⟨by decide, .inl (by decide +kernel), by decide⟩
    · exact ⟨by decide, .inr (by decide +kernel), by decide⟩
    · exact ⟨by decide, .inr (by decide +kernel), by decide⟩
  have htokens : ∀ t ∈ fewTokens, t.Valid (Keywords.addAll fewKeywords) := by decide +kernel
  exact (parseText_printed fewKeywords hkeywords (fun _ => 0) "").1 fewTokens htokens 8 (by decide)

end SymbolScan
