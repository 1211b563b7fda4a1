import Treewalk.Proofs.Scan.Steps

set_option autoImplicit false
set_option relaxedAutoImplicit false

/-!
The lexical forms of tokens.

`IsLexeme kind lexeme literal` says which characters spell a token of a kind and which literal they
denote, without regard to what may stand behind them. The words, numbers and strings that the scanner
reads have these forms, and it reads back what has them.
-/

namespace Treewalk

/-- The kinds that are spelled with the same characters everywhere, none of them a letter. -/
def Kind.symbols : List Kind :=
  [.leftParen, .rightParen, .leftBrace, .rightBrace, .comma, .dot, .minus, .plus, .semicolon,
    .slash, .star, .question, .colon, .bang, .bangEqual, .equal, .equalEqual, .greater,
    .greaterEqual, .less, .lessEqual]

/-- The characters between the quotes of a string, and the text that they denote. A quote or a
backslash stands behind a backslash, which is left out; any other backslash is kept. -/
inductive Denotes : List Char → List Char → Prop where
  | nil : Denotes [] []
  | plain {c : Char} {raw value : List Char} (hc : c ∉ ['"', '\\']) (h : Denotes raw value) :
      Denotes (c :: raw) (c :: value)
  | escaped {c : Char} {raw value : List Char} (hc : c ∈ ['"', '\\']) (h : Denotes raw value) :
      Denotes ('\\' :: c :: raw) (c :: value)
  | backslash {c : Char} {raw value : List Char} (hc : c ∉ ['"', '\\'])
      (h : Denotes (c :: raw) value) : Denotes ('\\' :: c :: raw) ('\\' :: value)

/-- One or more digits. -/
def IsDigits (ds : List Char) : Prop :=
  ds ≠ [] ∧ ∀ d ∈ ds, d.isDigit

/-- A letter or underscore, and then letters, digits and underscores. -/
def IsWord : List Char → Prop
  | [] => False
  | c :: rest => (c.isAlpha ∨ c = '_') ∧ ∀ d ∈ rest, d.isAlphanum ∨ d = '_'

/-- The characters spell a token of the kind, with the literal. -/
inductive IsLexeme : Kind → List Char → Option Value → Prop where
  | symbol {kind : Kind} (h : kind ∈ Kind.symbols) : IsLexeme kind kind.text.toList none
  | keyword {kind : Kind} (h : kind ∈ Kind.keywords) : IsLexeme kind kind.text.toList none
  | identifier {word : List Char} (h : IsWord word)
      (hkeyword : ∀ kind ∈ Kind.keywords, word ≠ kind.text.toList) :
      IsLexeme .identifier word none
  | integer {ds : List Char} (h : IsDigits ds) :
      IsLexeme .number ds (some (.number (Number.ofDigits ds [])))
  | decimal {whole fraction : List Char} (hw : IsDigits whole) (hf : IsDigits fraction) :
      IsLexeme .number (whole ++ '.' :: fraction) (some (.number (Number.ofDigits whole fraction)))
  | string {raw value : List Char} (h : Denotes raw value) :
      IsLexeme .string ('"' :: (raw ++ ['"'])) (some (.string (String.ofList value)))

namespace Scan

theorem stringBody?_cons_plain {c : Char} {rest : List Char} (hc : c ≠ '"')
    (hrest : c = '\\' → ∀ d ∈ rest.head?, d ∉ ['"', '\\']) :
    stringBody? (c :: rest) = (stringBody? rest).map (.after [c] [c]) := by
  rw [stringBody?]
  · exact hc
  · rintro rest' rfl rfl
    exact hrest rfl '"' rfl (by simp)
  · rintro rest' rfl rfl
    exact hrest rfl '\\' rfl (by simp)

/-- The body of a string is read up to the first quote without a backslash. -/
theorem stringBody?_of_denotes {raw value : List Char} (h : Denotes raw value)
    (rest : List Char) :
    stringBody? (raw ++ '"' :: rest) = some ⟨raw ++ ['"'], value, rest⟩ := by
  induction h with
  | nil => rfl
  | plain hc h ih =>
    simp only [List.mem_cons, List.not_mem_nil, or_false, not_or] at hc
    rw [List.cons_append, stringBody?_cons_plain hc.1 (fun heq => absurd heq hc.2), ih]
    rfl
  | @escaped c raw value hc h ih =>
    simp only [List.mem_cons, List.not_mem_nil, or_false] at hc
    rcases hc with rfl | rfl
    · rw [List.cons_append, List.cons_append, stringBody?, ih]
      rfl
    · rw [List.cons_append, List.cons_append, stringBody?, ih]
      rfl
  | @backslash c raw value hc h ih =>
    have hplain : ∀ d ∈ (c :: raw ++ '"' :: rest).head?, d ∉ ['"', '\\'] := by
      rintro d hd
      obtain rfl : c = d := by simpa using hd
      exact hc
    rw [List.cons_append, stringBody?_cons_plain (by decide) (fun _ => hplain), ih]
    rfl

/-- What is read as the body of a string is one. -/
theorem denotes_of_stringBody? {cs : List Char} {b : StringBody} (h : stringBody? cs = some b) :
    ∃ raw, b.raw = raw ++ ['"'] ∧ Denotes raw b.value := by
  fun_induction stringBody? cs generalizing b with
  | case1 => contradiction
  | case2 rest =>
    obtain rfl := Option.some.inj h
    exact ⟨[], rfl, .nil⟩
  | case3 rest ih =>
    obtain ⟨body, hbody, rfl⟩ := Option.map_eq_some_iff.mp h
    obtain ⟨raw, hraw, hdenotes⟩ := ih hbody
    exact ⟨'\\' :: '"' :: raw, by rw [StringBody.after, hraw]; rfl, .escaped (by simp) hdenotes⟩
  | case4 rest ih =>
    obtain ⟨body, hbody, rfl⟩ := Option.map_eq_some_iff.mp h
    obtain ⟨raw, hraw, hdenotes⟩ := ih hbody
    exact ⟨'\\' :: '\\' :: raw, by rw [StringBody.after, hraw]; rfl, .escaped (by simp) hdenotes⟩
  | case5 c rest hquote hescaped hbackslash ih =>
    obtain ⟨body, hbody, rfl⟩ := Option.map_eq_some_iff.mp h
    obtain ⟨raw, hraw, hdenotes⟩ := ih hbody
    refine ⟨c :: raw, by rw [StringBody.after, hraw]; rfl, ?_⟩
    by_cases hc : c = '\\'
    · subst hc
      -- A backslash that is kept has a character behind it that needs none.
      have hrest := stringBody?_eq_append hbody
      rw [hraw] at hrest
      cases raw with
      | nil => exact absurd hrest (hescaped _ rfl)
      | cons d raw =>
        refine .backslash ?_ hdenotes
        simp only [List.mem_cons, List.not_mem_nil, or_false, not_or]
        constructor
        · rintro rfl
          exact hescaped _ rfl hrest
        · rintro rfl
          exact hbackslash _ rfl hrest
    · exact .plain (by simpa using ⟨hquote, hc⟩) hdenotes

theorem isLetter_iff (c : Char) : isLetter c ↔ c.isAlpha ∨ c = '_' := by
  simp [isLetter]

theorem isWordPart_iff (c : Char) : isWordPart c ↔ c.isAlphanum ∨ c = '_' := by
  simp only [isWordPart, isLetter, Char.isAlphanum, Bool.or_eq_true, beq_iff_eq]
  exact or_right_comm

theorem isWord_cons {c : Char} {rest : List Char} :
    IsWord (c :: rest) ↔ isLetter c ∧ ∀ d ∈ rest, isWordPart d := by
  simp only [IsWord, isLetter_iff, isWordPart_iff]

/-- A word begins with a letter and is made of parts of words. -/
theorem exists_of_isWord {word : List Char} (h : IsWord word) :
    ∃ c rest, word = c :: rest ∧ isLetter c ∧ ∀ d ∈ word, isWordPart d := by
  cases word with
  | nil => exact h.elim
  | cons c rest =>
    obtain ⟨hc, hrest⟩ := isWord_cons.mp h
    refine ⟨c, rest, rfl, hc, List.forall_mem_cons.mpr ⟨?_, hrest⟩⟩
    simp [isWordPart, hc]

theorem isWord_of_all {word : List Char} (hletter : word.head?.any isLetter)
    (hparts : word.all isWordPart) : IsWord word := by
  cases word with
  | nil => contradiction
  | cons c rest =>
    rw [List.all_eq_true, List.forall_mem_cons] at hparts
    exact isWord_cons.mpr ⟨hletter, hparts.2⟩

theorem isWord_keyword (kind : Kind) (h : kind ∈ Kind.keywords) : IsWord kind.text.toList := by
  have hletters : ∀ kind ∈ Kind.keywords, kind.text.toList.head?.any isLetter := by decide +kernel
  have hparts : ∀ kind ∈ Kind.keywords, kind.text.toList.all isWordPart := by decide +kernel
  exact isWord_of_all (hletters kind h) (hparts kind h)

theorem keyword?_text : ∀ kind ∈ Kind.keywords, Kind.keyword? kind.text = some kind := by
  decide +kernel

theorem keyword?_eq_none {word : List Char}
    (h : ∀ kind ∈ Kind.keywords, word ≠ kind.text.toList) :
    Kind.keyword? (String.ofList word) = none := by
  rw [Kind.keyword?, List.find?_eq_none]
  intro kind hkind heq
  have htext : kind.text = String.ofList word := by simpa using heq
  refine h kind hkind ?_
  rw [htext, String.toList_ofList]

/-- Digits in front of a number belong to it. -/
theorem numeral_digits_append {ds : List Char} (h : ∀ d ∈ ds, d.isDigit) (rest : List Char) :
    numeral (ds ++ rest) = (ds ++ (numeral rest).1, (numeral rest).2.1, (numeral rest).2.2) := by
  unfold numeral
  rw [List.takeWhile_append_of_pos h, List.dropWhile_append_of_pos h]
  split
  · split
    · rfl
    · rfl
  · rfl

theorem numeral_point {d : Char} (hd : d.isDigit) (rest : List Char) :
    numeral ('.' :: d :: rest) =
      ([], d :: rest.takeWhile Char.isDigit, rest.dropWhile Char.isDigit) := by
  simp [numeral, List.takeWhile, List.dropWhile, hd]

/-- The digits that a number has before and behind its point. -/
theorem isDigits_numeral {c : Char} (hc : c.isDigit) (rest : List Char) :
    IsDigits (numeral (c :: rest)).1 ∧
      ((numeral (c :: rest)).2.1 = [] ∨ IsDigits (numeral (c :: rest)).2.1) := by
  have hdigits : ∀ cs : List Char, ∀ d ∈ cs.takeWhile Char.isDigit, d.isDigit := fun cs d hd =>
    List.all_eq_true.mp List.all_takeWhile d hd
  constructor
  · refine ⟨?_, ?_⟩
    · rw [numeral_whole, List.takeWhile_cons_of_pos hc]
      exact List.cons_ne_nil _ _
    · rw [numeral_whole]
      exact hdigits (c :: rest)
  · unfold numeral
    split
    · next d rest' _ =>
      split
      · next hd =>
        exact .inr ⟨List.cons_ne_nil _ _, List.forall_mem_cons.mpr ⟨hd, hdigits rest'⟩⟩
      · exact .inl rfl
    · exact .inl rfl

theorem isLexeme_numeral {c : Char} (hc : c.isDigit) (rest : List Char) :
    IsLexeme .number
      (numeralLexeme (numeral (c :: rest)).1 (numeral (c :: rest)).2.1)
      (some (.number (Number.ofDigits (numeral (c :: rest)).1 (numeral (c :: rest)).2.1))) := by
  obtain ⟨hwhole, hnil | hfraction⟩ := isDigits_numeral hc rest
  · rw [hnil]
    exact .integer hwhole
  · have hlexeme : numeralLexeme (numeral (c :: rest)).1 (numeral (c :: rest)).2.1 =
        (numeral (c :: rest)).1 ++ '.' :: (numeral (c :: rest)).2.1 := by
      simp [numeralLexeme, hfraction.1]
    rw [hlexeme]
    exact .decimal hwhole hfraction

theorem isLexeme_word {word : List Char} (h : IsWord word) :
    IsLexeme ((Kind.keyword? (String.ofList word)).getD .identifier) word none := by
  cases hkind : Kind.keyword? (String.ofList word) with
  | none =>
    refine .identifier h fun kind hmem hword => ?_
    have hno := List.find?_eq_none.mp hkind kind hmem
    rw [hword, String.ofList_toList] at hno
    simp at hno
  | some kind =>
    have hmem : kind ∈ Kind.keywords := List.mem_of_find?_eq_some hkind
    have htext : kind.text = String.ofList word := by
      simpa using List.find?_some hkind
    have hword : word = kind.text.toList := by
      rw [htext, String.toList_ofList]
    rw [Option.getD_some, hword]
    exact .keyword hmem

theorem isLexeme_punctuation {c : Char} {kind : Kind} (h : punctuation? c = some kind) :
    IsLexeme kind [c] none := by
  have htext : kind ∈ Kind.symbols ∧ kind.text.toList = [c] := by
    unfold punctuation? at h
    split at h
    case h_13 => contradiction
    all_goals
      obtain rfl := Option.some.inj h
      decide
  rw [← htext.2]
  exact .symbol htext.1

theorem isLexeme_equalPair {c : Char} {alone paired : Kind}
    (h : equalPair? c = some (alone, paired)) :
    IsLexeme alone [c] none ∧ IsLexeme paired [c, '='] none := by
  have htext : (alone ∈ Kind.symbols ∧ alone.text.toList = [c]) ∧
      paired ∈ Kind.symbols ∧ paired.text.toList = [c, '='] := by
    unfold equalPair? at h
    split at h
    case h_5 => contradiction
    all_goals
      obtain ⟨rfl, rfl⟩ := Prod.mk.inj (Option.some.inj h)
      decide
  obtain ⟨⟨halone, htext⟩, hpaired, htext'⟩ := htext
  rw [← htext, ← htext']
  exact ⟨.symbol halone, .symbol hpaired⟩

end Scan

end Treewalk
