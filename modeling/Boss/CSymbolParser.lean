import Boss.Decimal

/-!
# Symbols of a script

`CSymbolParser` cuts a script into symbols.  A word is a keyword when nothing follows that could
belong to a word, and a name otherwise; an operator is the longest keyword that the text begins
with, and that is looked for by trying every length from the longest keyword down.

`Spelled` goes the other way: it says which texts a list of symbols can be written as, with any
space between them and none where they cannot run into each other.  `parseText_spelled` is that
such a text is cut into exactly these symbols.
-/

namespace CSymbolParser

open Decimal

/-- The symbols of `KeywordArray`. -/
inductive Keyword
  | SYMBOL_WHERE | SYMBOL_STAT | SYMBOL_GROUP | SYMBOL_BY | SYMBOL_IF | SYMBOL_ELSE | SYMBOL_CALL
  | SYMBOL_DOT | SYMBOL_PLUS | SYMBOL_SUB | SYMBOL_MULTI | SYMBOL_DIV | SYMBOL_MOD | SYMBOL_LIKE
  | SYMBOL_GT | SYMBOL_LT | SYMBOL_GE | SYMBOL_LE | SYMBOL_EQ | SYMBOL_EE | SYMBOL_NOT
  | SYMBOL_NOTE | SYMBOL_AND | SYMBOL_OR | SYMBOL_COMMA | SYMBOL_SEMICOLON | SYMBOL_LBRACKET
  | SYMBOL_RBRACKET | SYMBOL_LCS | SYMBOL_RCS
  deriving DecidableEq, Repr

inductive Symbol
  | int (text : List Byte)
  | float (text : List Byte)
  | str (text : List Byte)
  | ident (name : List Byte)
  | keyword (k : Keyword)
  /-- `SYMBOL_END`. -/
  | fin
  deriving DecidableEq, Repr

def bytes (text : List Char) : List Byte := text.map fun c => UInt8.ofNat c.toNat

open Keyword in
/-- The keywords; the second one is written in the encoding of the sources. -/
def KeywordArray : List (List Byte × Keyword) :=
  [(bytes ['i', 'f'], SYMBOL_IF), ([229, 166, 130, 230, 158, 156], SYMBOL_IF),
    (bytes ['e', 'l', 's', 'e'], SYMBOL_ELSE), (bytes ['s', 't', 'a', 't'], SYMBOL_STAT),
    (bytes ['w', 'h', 'e', 'r', 'e'], SYMBOL_WHERE),
    (bytes ['g', 'r', 'o', 'u', 'p'], SYMBOL_GROUP), (bytes ['b', 'y'], SYMBOL_BY),
    (bytes ['c', 'a', 'l', 'l'], SYMBOL_CALL), (bytes ['.'], SYMBOL_DOT),
    (bytes ['+'], SYMBOL_PLUS), (bytes ['-'], SYMBOL_SUB), (bytes ['*'], SYMBOL_MULTI),
    (bytes ['/'], SYMBOL_DIV), (bytes ['%'], SYMBOL_MOD),
    (bytes ['l', 'i', 'k', 'e'], SYMBOL_LIKE), (bytes ['>'], SYMBOL_GT), (bytes ['<'], SYMBOL_LT),
    (bytes ['>', '='], SYMBOL_GE), (bytes ['<', '='], SYMBOL_LE), (bytes ['='], SYMBOL_EQ),
    (bytes ['=', '='], SYMBOL_EE), (bytes ['!'], SYMBOL_NOT), (bytes ['!', '='], SYMBOL_NOTE),
    (bytes ['a', 'n', 'd'], SYMBOL_AND), (bytes ['o', 'r'], SYMBOL_OR),
    (bytes ['&', '&'], SYMBOL_AND), (bytes ['|', '|'], SYMBOL_OR), (bytes [','], SYMBOL_COMMA),
    (bytes [';'], SYMBOL_SEMICOLON), (bytes ['('], SYMBOL_LBRACKET),
    (bytes [')'], SYMBOL_RBRACKET), ([123], SYMBOL_LCS), ([125], SYMBOL_RCS)]

/-- `__KeywordMap.find`. -/
def find (s : List Byte) : Option Keyword :=
  (KeywordArray.find? fun entry => entry.1 = s).map Prod.snd

/-- The lengths from `__MaxKeywordLength` down to `__MinKeywordLength`. -/
def keywordLengths : List Nat := [6, 5, 4, 3, 2, 1]

/-- The keyword that a text begins with, by the first length that has one. -/
def findKeyword (text : List Byte) : List Nat → Option (Keyword × Nat)
  | [] => none
  | n :: lengths =>
      match find (text.take n) with
      | some k => some (k, n)
      | none => findKeyword text lengths

def isIdentChar (c : Byte) : Bool :=
  (97 ≤ c.toNat && c.toNat ≤ 122) || (65 ≤ c.toNat && c.toNat ≤ 90) || c.toNat = 95

/-- A character that a word goes on with. -/
def isWordChar (c : Byte) : Bool := isDigit c || isIdentChar c

/-- A number, with a point a float. -/
def number (text : List Byte) : Symbol × List Byte :=
  match text.dropWhile isDigit with
  | [] => (.int (text.takeWhile isDigit), [])
  | c :: rest =>
      if c = 46 then
        (.float (text.takeWhile isDigit ++ c :: rest.takeWhile isDigit), rest.dropWhile isDigit)
      else (.int (text.takeWhile isDigit), c :: rest)

/-- What stands for a character after a backslash. -/
def escape (c : Byte) : Byte :=
  if c = 116 then 9 else if c = 114 then 13 else if c = 110 then 10 else c

/-- A string up to its closing quote. -/
def stringConst (const_string : List Byte) : List Byte → Except String (Symbol × List Byte)
  | [] => .error "没有结束的字符串."
  | [c] => if c = 39 then .ok (.str const_string, []) else .error "没有结束的字符串."
  | c :: d :: rest =>
      if c = 92 then stringConst (const_string ++ [escape d]) rest
      else if c = 39 then .ok (.str const_string, d :: rest)
      else stringConst (const_string ++ [c]) (d :: rest)

/-- A keyword or a name. -/
def word (text : List Byte) : Symbol × List Byte :=
  let name := (.ident (text.takeWhile isWordChar), text.dropWhile isWordChar)
  match findKeyword text keywordLengths with
  | none => name
  | some (k, n) =>
      if (text.drop n).head?.any isWordChar then name else (.keyword k, text.drop n)

/-- `__getNextSymbol`; `SYMBOL_FALSE` comes with `__ErrorInfo`. -/
def getNextSymbol : List Byte → Except String (Symbol × List Byte)
  | [] => .ok (.fin, [])
  | c :: rest =>
      if isSpace c then getNextSymbol rest
      else if isDigit c then .ok (number (c :: rest))
      else if c = 39 then stringConst [] rest
      else if isIdentChar c then .ok (word (c :: rest))
      else
        match findKeyword (c :: rest) keywordLengths with
        | none => .error "无法识别的符号."
        | some (k, n) => .ok (.keyword k, (c :: rest).drop n)

/-- `parseText`, for so many symbols at most. -/
def parseText : Nat → List Byte → Option (Except String (List Symbol))
  | 0, _ => none
  | n + 1, text =>
      match getNextSymbol text with
      | .error message => some (.error message)
      | .ok (s, rest) =>
          if s = .fin then some (.ok [.fin])
          else (parseText n rest).map fun symbols => symbols.map (s :: ·)

/-! ## Writing symbols -/

/-- A text that a symbol is written as. -/
inductive Spells : Symbol → List Byte → Prop
  | int {text} : text ≠ [] → (∀ c ∈ text, isDigit c = true) → Spells (.int text) text
  | ident {c name} : isIdentChar c = true → (∀ d ∈ name, isWordChar d = true) →
      find (c :: name) = none → Spells (.ident (c :: name)) (c :: name)
  | keyword {k text} : (text, k) ∈ KeywordArray → Spells (.keyword k) text

/-- A character that a written symbol would swallow. -/
def continues (text : List Byte) (c : Byte) : Bool :=
  if text.head?.any isDigit then isDigit c || c = 46
  else if text.head?.any isIdentChar then isWordChar c
  else text.length = 1 && text.head?.any (fun d => d = 61 || d = 33 || d = 60 || d = 62) && c = 61

/-- A text is written for a list of symbols: space, a symbol, and a text for the others that does
not go on with what would belong to the symbol.  Lines end with a newline, so something follows
every symbol. -/
inductive Spelled : List Symbol → List Byte → Prop
  | nil {gap} : (∀ c ∈ gap, isSpace c = true) → Spelled [] gap
  | cons {gap s text symbols c rest} : (∀ d ∈ gap, isSpace d = true) → Spells s text →
      continues text c = false → Spelled symbols (c :: rest) →
      Spelled (s :: symbols) (gap ++ text ++ c :: rest)

/-- A symbol without space in front. -/
theorem Spelled.next (text : List Byte) {s : Symbol} {symbols : List Symbol} {c : Byte}
    {rest : List Byte} (hspells : Spells s text) (hc : continues text c = false)
    (h : Spelled symbols (c :: rest)) : Spelled (s :: symbols) (text ++ c :: rest) :=
  @Spelled.cons [] _ _ _ _ _ (by simp) hspells hc h

/-! ## Keywords -/

/-- A keyword is found, it has one of the lengths that are tried, and it begins with a letter or
with a character that begins nothing else. -/
theorem keyword_spec : ∀ entry ∈ KeywordArray, find entry.1 = some entry.2 ∧
    entry.1.length ∈ keywordLengths ∧
    (entry.1.head?.any isIdentChar = true ∧ entry.1.all isWordChar = true ∨
      entry.1.head?.any (fun c => isIdentChar c || isSpace c || isDigit c || c = 39) = false) := by
  decide

/-- A longer keyword goes on with what would be swallowed. -/
theorem keyword_longer : ∀ entry ∈ KeywordArray, ∀ longer ∈ KeywordArray,
    entry.1.isPrefixOf longer.1 = true → entry.1 = longer.1 ∨
      longer.1[entry.1.length]?.any (continues entry.1) = true := by
  decide

theorem mem_of_find {text : List Byte} {k : Keyword} (h : find text = some k) :
    ∃ entry ∈ KeywordArray, entry.1 = text := by
  obtain ⟨entry, hentry, -⟩ := Option.map_eq_some_iff.mp h
  exact ⟨entry, List.mem_of_find?_eq_some hentry, by simpa using List.find?_some hentry⟩

/-- A text that is longer than what it is written for by a character that is not swallowed is not a
keyword. -/
theorem find_longer {entry : List Byte × Keyword} (hentry : entry ∈ KeywordArray) {c : Byte}
    (hc : continues entry.1 c = false) (more : List Byte) : find (entry.1 ++ c :: more) = none := by
  rw [Option.eq_none_iff_forall_ne_some]
  intro k hfind
  obtain ⟨longer, hlonger, htext⟩ := mem_of_find hfind
  rcases keyword_longer entry hentry longer hlonger (by simp [htext]) with heq | hany
  · have hlength := congrArg List.length (heq.trans htext)
    simp at hlength
  · rw [htext] at hany
    simp [hc] at hany

theorem take_longer {text : List Byte} {n : Nat} (hlong : text.length < n) (c : Byte)
    (rest : List Byte) :
    (text ++ c :: rest).take n = text ++ c :: rest.take (n - text.length - 1) := by
  obtain ⟨d, rfl⟩ := Nat.exists_eq_add_of_lt hlong
  have hone : text.length + d + 1 - text.length = d + 1 := by omega
  rw [List.take_append, List.take_of_length_le (by omega), hone]
  rfl

/-- **The longest keyword is found** in front of what is not swallowed. -/
theorem findKeyword_keyword {entry : List Byte × Keyword} (hentry : entry ∈ KeywordArray) {c : Byte}
    (hc : continues entry.1 c = false) (rest : List Byte) {lengths : List Nat}
    (hlength : entry.1.length ∈ lengths) (hdown : lengths.Pairwise (· > ·)) :
    findKeyword (entry.1 ++ c :: rest) lengths = some (entry.2, entry.1.length) := by
  induction lengths with
  | nil => simp at hlength
  | cons n lengths ih =>
      obtain ⟨hn, hdown⟩ := List.pairwise_cons.mp hdown
      unfold findKeyword
      rcases List.mem_cons.mp hlength with hthis | hlater
      · rw [← hthis, List.take_left', (keyword_spec entry hentry).1]
        rfl
      · have hshort := hn _ hlater
        rw [take_longer hshort, find_longer hentry hc]
        exact ih hlater hdown

theorem find_of_findKeyword {text : List Byte} {lengths : List Nat} {k : Keyword} {n : Nat}
    (h : findKeyword text lengths = some (k, n)) : find (text.take n) = some k := by
  induction lengths with
  | nil => simp [findKeyword] at h
  | cons m lengths ih =>
      unfold findKeyword at h
      cases hfind : find (text.take m) with
      | none =>
          rw [hfind] at h
          exact ih h
      | some k' =>
          rw [hfind] at h
          obtain ⟨rfl, rfl⟩ := Prod.mk.inj (Option.some.inj h)
          exact hfind

/-! ## One symbol -/

theorem takeWhile_append_cons {p : Byte → Bool} {text : List Byte} {c : Byte}
    (htext : ∀ d ∈ text, p d = true) (hc : p c = false) (rest : List Byte) :
    (text ++ c :: rest).takeWhile p = text ∧ (text ++ c :: rest).dropWhile p = c :: rest := by
  constructor
  · rw [List.takeWhile_append_of_pos htext, List.takeWhile_cons_of_neg (by simp [hc]),
      List.append_nil]
  · rw [List.dropWhile_append_of_pos htext, List.dropWhile_cons_of_neg (by simp [hc])]

theorem isIdentChar_spec {c : Byte} (h : isIdentChar c = true) :
    isSpace c = false ∧ isDigit c = false ∧ c ≠ 39 := by
  have hrange : 65 ≤ c.toNat := by
    simp only [isIdentChar, Bool.or_eq_true, Bool.and_eq_true, decide_eq_true_eq] at h
    omega
  refine ⟨?_, ?_, ?_⟩
  · simp only [isSpace, Bool.or_eq_false_iff, Bool.and_eq_false_iff, decide_eq_false_iff_not]
    omega
  · simp only [isDigit, Bool.and_eq_false_iff, decide_eq_false_iff_not]
    omega
  · rintro rfl
    exact absurd hrange (by decide)

/-- A name is a word: a keyword is at most a part of it. -/
theorem word_ident {d : Byte} {name : List Byte} (hd : isIdentChar d = true)
    (hname : ∀ d' ∈ d :: name, isWordChar d' = true) (hfind : find (d :: name) = none) {c : Byte}
    (hc : isWordChar c = false) (rest : List Byte) :
    word (d :: name ++ c :: rest) = (.ident (d :: name), c :: rest) := by
  obtain ⟨htake, hdrop⟩ := takeWhile_append_cons hname hc rest
  unfold word
  rw [htake, hdrop]
  dsimp only
  cases hkey : findKeyword (d :: name ++ c :: rest) keywordLengths with
  | none => rfl
  | some found =>
      obtain ⟨k, n⟩ := found
      have hfound := find_of_findKeyword hkey
      dsimp only
      rcases Nat.lt_trichotomy n (d :: name).length with hshort | heq | hlong
      · have hnext : (d :: name ++ c :: rest).drop n =
            (d :: name)[n] :: ((d :: name).drop (n + 1) ++ c :: rest) := by
          rw [List.drop_append_of_le_length hshort.le, List.drop_eq_getElem_cons hshort,
            List.cons_append]
        rw [hnext, if_pos (by simpa using hname _ (List.getElem_mem hshort))]
      · rw [heq, List.take_left', hfind] at hfound
        · simp at hfound
        · rfl
      · obtain ⟨entry, hentry, htext⟩ := mem_of_find hfound
        rw [take_longer hlong] at htext
        rcases (keyword_spec entry hentry).2.2 with ⟨-, hall⟩ | hother
        · rw [htext] at hall
          simp [hc] at hall
        · rw [htext] at hother
          simp [hd] at hother

/-- A keyword of letters is a word of its own. -/
theorem word_keyword {entry : List Byte × Keyword} (hentry : entry ∈ KeywordArray) {c : Byte}
    (hc : continues entry.1 c = false) (hc' : isWordChar c = false) (rest : List Byte) :
    word (entry.1 ++ c :: rest) = (.keyword entry.2, c :: rest) := by
  unfold word
  rw [findKeyword_keyword hentry hc rest (keyword_spec entry hentry).2.1 (by decide)]
  dsimp only
  rw [List.drop_left', if_neg]
  · simp [hc']
  · rfl

theorem number_int {text : List Byte} {c : Byte} (htext : ∀ d ∈ text, isDigit d = true)
    (hc : isDigit c = false) (hpoint : c ≠ 46) (rest : List Byte) :
    number (text ++ c :: rest) = (.int text, c :: rest) := by
  obtain ⟨htake, hdrop⟩ := takeWhile_append_cons htext hc rest
  rw [number, htake, hdrop]
  simp only [if_neg hpoint]

/-- **A written symbol is read**, and nothing of what follows it. -/
theorem getNextSymbol_spells {s : Symbol} {text : List Byte} (hspells : Spells s text) {c : Byte}
    (hc : continues text c = false) (rest : List Byte) :
    getNextSymbol (text ++ c :: rest) = .ok (s, c :: rest) := by
  cases hspells with
  | int hne hdigits =>
      obtain ⟨d, text, rfl⟩ := List.exists_cons_of_ne_nil hne
      have hd : isDigit d = true := hdigits d List.mem_cons_self
      have hspace : isSpace d = false := by
        simp only [isDigit, Bool.and_eq_true, decide_eq_true_eq] at hd
        simp only [isSpace, Bool.or_eq_false_iff, Bool.and_eq_false_iff, decide_eq_false_iff_not]
        omega
      simp only [continues, List.head?_cons, Option.any_some, hd, if_true, Bool.or_eq_false_iff,
        decide_eq_false_iff_not] at hc
      rw [List.cons_append, getNextSymbol, if_neg (by simp [hspace]), if_pos hd,
        ← List.cons_append, number_int hdigits hc.1 hc.2]
  | @ident d name hd hname hfind =>
      obtain ⟨hspace, hdigit, hquote⟩ := isIdentChar_spec hd
      simp only [continues, List.head?_cons, Option.any_some, hdigit, hd, if_true, if_false,
        Bool.false_eq_true] at hc
      have hall : ∀ d' ∈ d :: name, isWordChar d' = true := by
        intro d' hd'
        rcases List.mem_cons.mp hd' with rfl | hd'
        · simp [isWordChar, hd]
        · exact hname d' hd'
      rw [List.cons_append, getNextSymbol, if_neg (by simp [hspace]), if_neg (by simp [hdigit]),
        if_neg hquote, if_pos hd, ← List.cons_append, word_ident hd hall hfind hc]
  | @keyword k _ hmem =>
      obtain ⟨hfind, hlength, hhead⟩ := keyword_spec (text, k) hmem
      have hne : text ≠ [] := by
        rintro rfl
        simp [keywordLengths] at hlength
      obtain ⟨d, tail, rfl⟩ := List.exists_cons_of_ne_nil hne
      rcases hhead with ⟨hd, -⟩ | hother
      · have hd : isIdentChar d = true := by simpa using hd
        obtain ⟨hspace, hdigit, hquote⟩ := isIdentChar_spec hd
        have hc' : isWordChar c = false := by simpa [continues, hdigit, hd] using hc
        have hword := word_keyword hmem hc hc' rest
        rw [List.cons_append] at hword ⊢
        rw [getNextSymbol, if_neg (by simp [hspace]), if_neg (by simp [hdigit]), if_neg hquote,
          if_pos hd, hword]
      · have hother : ((isIdentChar d = false ∧ isSpace d = false) ∧ isDigit d = false) ∧
            d ≠ 39 := by simpa using hother
        obtain ⟨⟨⟨hident, hspace⟩, hdigit⟩, hquote⟩ := hother
        have hkey := findKeyword_keyword hmem hc rest hlength (by decide)
        have hdrop : (d :: tail ++ c :: rest).drop (d :: tail).length = c :: rest :=
          List.drop_left' rfl
        rw [List.cons_append] at hkey hdrop ⊢
        rw [getNextSymbol, if_neg (by simp [hspace]), if_neg (by simp [hdigit]), if_neg hquote,
          if_neg (by simp [hident]), hkey]
        simp only [hdrop]

/-! ## A text -/

theorem getNextSymbol_gap {gap : List Byte} (hgap : ∀ c ∈ gap, isSpace c = true)
    (text : List Byte) : getNextSymbol (gap ++ text) = getNextSymbol text := by
  induction gap with
  | nil => rfl
  | cons c gap ih =>
      rw [List.cons_append, getNextSymbol, if_pos (hgap c List.mem_cons_self)]
      exact ih fun d hd => hgap d (List.mem_cons_of_mem c hd)

theorem Spells.ne_fin {s : Symbol} {text : List Byte} (h : Spells s text) :
    s ≠ .fin ∧ 0 < text.length := by
  cases h with
  | int hne _ => exact ⟨by simp, List.length_pos_iff.mpr hne⟩
  | ident _ _ _ => exact ⟨by simp, by simp⟩
  | keyword hmem =>
      refine ⟨by simp, Nat.pos_of_ne_zero fun hzero => ?_⟩
      have hlength := (keyword_spec _ hmem).2.1
      rw [hzero] at hlength
      exact absurd hlength (by decide)

/-- **A written text is cut into the symbols it was written for.** -/
theorem parseText_spelled {symbols : List Symbol} {text : List Byte}
    (h : Spelled symbols text) {fuel : Nat} (hfuel : text.length < fuel) :
    parseText fuel text = some (.ok (symbols ++ [.fin])) := by
  induction h generalizing fuel with
  | @nil gap hgap =>
      obtain ⟨n, rfl⟩ := Nat.exists_eq_succ_of_ne_zero (by omega : fuel ≠ 0)
      have hskip := getNextSymbol_gap hgap []
      rw [List.append_nil] at hskip
      simp [parseText, hskip, getNextSymbol]
  | @cons gap s text symbols c rest hgap hspells hc _ ih =>
      obtain ⟨n, rfl⟩ := Nat.exists_eq_succ_of_ne_zero (by omega : fuel ≠ 0)
      obtain ⟨hfin, hpos⟩ := hspells.ne_fin
      simp only [List.length_append, List.length_cons] at hfuel ih
      rw [parseText, List.append_assoc, getNextSymbol_gap hgap, getNextSymbol_spells hspells hc]
      simp only [if_neg hfin]
      rw [ih (by omega)]
      rfl

/-! ## A text that ends with a symbol -/

/-- A text that may end with its last symbol, as long as that is no keyword of letters. -/
inductive Written : List Symbol → List Byte → Prop
  | spelled {symbols text} : Spelled symbols text → Written symbols text
  | last {gap s text} : (∀ d ∈ gap, isSpace d = true) → Spells s text →
      (∀ k, s = .keyword k → text.head?.any isIdentChar = false) → Written [s] (gap ++ text)
  | cons {gap s text symbols c rest} : (∀ d ∈ gap, isSpace d = true) → Spells s text →
      continues text c = false → Written symbols (c :: rest) →
      Written (s :: symbols) (gap ++ text ++ c :: rest)

/-- A symbol without space in front. -/
theorem Written.next (text : List Byte) {s : Symbol} {symbols : List Symbol} {c : Byte}
    {rest : List Byte} (hspells : Spells s text) (hc : continues text c = false)
    (h : Written symbols (c :: rest)) : Written (s :: symbols) (text ++ c :: rest) :=
  @Written.cons [] _ _ _ _ _ (by simp) hspells hc h

/-- A name at the end of the text. -/
theorem word_last {d : Byte} {name : List Byte} (hname : ∀ d' ∈ d :: name, isWordChar d' = true)
    (hfind : find (d :: name) = none) : word (d :: name) = (.ident (d :: name), []) := by
  have htake : (d :: name).takeWhile isWordChar = d :: name := List.takeWhile_eq_self_iff.mpr hname
  have hdrop : (d :: name).dropWhile isWordChar = [] := List.dropWhile_eq_nil_iff.mpr hname
  unfold word
  rw [htake, hdrop]
  dsimp only
  cases hkey : findKeyword (d :: name) keywordLengths with
  | none => rfl
  | some found =>
      obtain ⟨k, n⟩ := found
      have hfound := find_of_findKeyword hkey
      dsimp only
      rcases Nat.lt_or_ge n (d :: name).length with hshort | hlong
      · have hnext : (d :: name).drop n = (d :: name)[n] :: (d :: name).drop (n + 1) :=
          List.drop_eq_getElem_cons hshort
        rw [hnext, if_pos (by simpa using hname _ (List.getElem_mem hshort))]
      · rw [List.take_of_length_le hlong, hfind] at hfound
        cases hfound

/-- An operator at the end of the text: the first length that is tried goes beyond it. -/
theorem findKeyword_last {entry : List Byte × Keyword} (hentry : entry ∈ KeywordArray) :
    findKeyword entry.1 keywordLengths = some (entry.2, 6) := by
  obtain ⟨hfind, hlength, -⟩ := keyword_spec entry hentry
  have hshort : entry.1.length ≤ 6 := by
    simp only [keywordLengths, List.mem_cons, List.not_mem_nil, or_false] at hlength
    omega
  rw [keywordLengths, findKeyword, List.take_of_length_le hshort, hfind]

/-- **The last symbol is read** where the text ends with it. -/
theorem getNextSymbol_last {s : Symbol} {text : List Byte} (hspells : Spells s text)
    (hletters : ∀ k, s = .keyword k → text.head?.any isIdentChar = false) :
    getNextSymbol text = .ok (s, []) := by
  cases hspells with
  | int hne hdigits =>
      obtain ⟨d, tail, rfl⟩ := List.exists_cons_of_ne_nil hne
      have hd : isDigit d = true := hdigits d List.mem_cons_self
      have hspace : isSpace d = false := by
        simp only [isDigit, Bool.and_eq_true, decide_eq_true_eq] at hd
        simp only [isSpace, Bool.or_eq_false_iff, Bool.and_eq_false_iff, decide_eq_false_iff_not]
        omega
      have htake : (d :: tail).takeWhile isDigit = d :: tail :=
        List.takeWhile_eq_self_iff.mpr hdigits
      have hdrop : (d :: tail).dropWhile isDigit = [] := List.dropWhile_eq_nil_iff.mpr hdigits
      rw [getNextSymbol, if_neg (by simp [hspace]), if_pos hd, number, hdrop, htake]
  | @ident d name hd hname hfind =>
      obtain ⟨hspace, hdigit, hquote⟩ := isIdentChar_spec hd
      have hall : ∀ d' ∈ d :: name, isWordChar d' = true :=
        List.forall_mem_cons.mpr ⟨by simp [isWordChar, hd], hname⟩
      rw [getNextSymbol, if_neg (by simp [hspace]), if_neg (by simp [hdigit]), if_neg hquote,
        if_pos hd, word_last hall hfind]
  | @keyword k _ hmem =>
      obtain ⟨-, hlength, hhead⟩ := keyword_spec (text, k) hmem
      have hkey := findKeyword_last hmem
      have hne : text ≠ [] := by
        rintro rfl
        simp [keywordLengths] at hlength
      obtain ⟨d, tail, rfl⟩ := List.exists_cons_of_ne_nil hne
      have hident : isIdentChar d = false := by simpa using hletters k rfl
      have hother : ((isIdentChar d = false ∧ isSpace d = false) ∧ isDigit d = false) ∧
          d ≠ 39 := by simpa [hident] using hhead
      obtain ⟨⟨⟨-, hspace⟩, hdigit⟩, hquote⟩ := hother
      have hdrop : (d :: tail).drop 6 = [] := by
        apply List.drop_eq_nil_of_le
        simp only [keywordLengths, List.mem_cons, List.not_mem_nil, or_false] at hlength
        omega
      rw [getNextSymbol, if_neg (by simp [hspace]), if_neg (by simp [hdigit]), if_neg hquote,
        if_neg (by simp [hident]), hkey]
      simp only [hdrop]

/-- **A written text is cut into the symbols it was written for**, also at its end. -/
theorem parseText_written {symbols : List Symbol} {text : List Byte}
    (h : Written symbols text) {fuel : Nat} (hfuel : text.length < fuel) :
    parseText fuel text = some (.ok (symbols ++ [.fin])) := by
  induction h generalizing fuel with
  | spelled hspelled => exact parseText_spelled hspelled hfuel
  | @last gap s text hgap hspells hletters =>
      obtain ⟨hfin, hpos⟩ := hspells.ne_fin
      rw [List.length_append] at hfuel
      obtain ⟨n, rfl⟩ : ∃ n, fuel = n + 2 := ⟨fuel - 2, by omega⟩
      rw [parseText, getNextSymbol_gap hgap, getNextSymbol_last hspells hletters]
      simp only [if_neg hfin]
      rfl
  | @cons gap s text symbols c rest hgap hspells hc _ ih =>
      obtain ⟨n, rfl⟩ := Nat.exists_eq_succ_of_ne_zero (by omega : fuel ≠ 0)
      obtain ⟨hfin, hpos⟩ := hspells.ne_fin
      simp only [List.length_append, List.length_cons] at hfuel ih
      rw [parseText, List.append_assoc, getNextSymbol_gap hgap, getNextSymbol_spells hspells hc]
      simp only [if_neg hfin]
      rw [ih (by omega)]
      rfl

end CSymbolParser
