import Treewalk.Proofs.Scan.Lexemes

set_option autoImplicit false
set_option relaxedAutoImplicit false

/-!
A source text as a sequence of pieces.

Blanks, comments and the lexemes of tokens are the regular pieces, each with its form. A text is cut
into the longest regular pieces from left to right. Where none starts there is a stray character or a
string without an end. `exists_pieces_ofSource` says that each text can be cut so in exactly one way,
and that the scan of the text finds the tokens and errors among its pieces.
-/

namespace Treewalk

/-- A part of a source text. -/
inductive Piece where
  | blank (character : Char)
  | comment (words : List Char)
  | token (kind : Kind) (lexeme : List Char) (literal : Option Value)
  | stray (character : Char)
  | unterminated (body : List Char)

namespace Piece

/-- The characters of a piece. -/
def text : Piece → List Char
  | .blank c => [c]
  | .comment words => '/' :: '/' :: words
  | .token _ lexeme _ => lexeme
  | .stray c => [c]
  | .unterminated body => '"' :: body

/-- The item that a piece gives, if any, on the line on which it ends. -/
def item (line : Nat) : Piece → Option ScanItem
  | .blank _ => none
  | .comment _ => none
  | .token kind lexeme literal => some (.token ⟨kind, String.ofList lexeme, literal, line⟩)
  | .stray c => some (.error (.unexpectedCharacter c line))
  | .unterminated _ => some (.error (.unterminatedString line))

/-- The pieces with a form of their own: white space, comments that stay on their line, and
tokens. -/
def IsRegular : Piece → Prop
  | .blank c => c ∈ [' ', '\r', '\t', '\n']
  | .comment words => '\n' ∉ words
  | .token kind lexeme literal => IsLexeme kind lexeme literal
  | .stray _ => False
  | .unterminated _ => False

/-- The piece can be cut off in front of the text `rest`: it is regular and no regular piece with
more characters starts here, or it is a character with which no other piece starts, or it is a string
that is not closed up to the end of the text. -/
inductive Fits : Piece → List Char → Prop where
  | regular {p : Piece} {rest : List Char} (h : p.IsRegular)
      (hlongest : ∀ q : Piece, q.IsRegular → q.text <+: p.text ++ rest →
        q.text.length ≤ p.text.length) : Fits p rest
  | stray {c : Char} {rest : List Char} (hquote : c ≠ '"')
      (h : ∀ q : Piece, q.IsRegular → q.text.head? ≠ some c) : Fits (.stray c) rest
  | unterminated {body : List Char}
      (h : ∀ raw value, Denotes raw value → ¬ raw ++ ['"'] <+: body) : Fits (.unterminated body) []

theorem IsRegular.item_ne_error {p : Piece} (h : p.IsRegular) {line : Nat} {e : LexicalError} :
    p.item line ≠ some (.error e) := by
  cases p with
  | blank c => simp [item]
  | comment words => simp [item]
  | token kind lexeme literal => simp [item]
  | stray c => exact h.elim
  | unterminated body => exact h.elim

theorem eq_of_item {p q : Piece} {line : Nat} (htext : p.text = q.text)
    (hitem : p.item line = q.item line) : p = q := by
  cases p with
  | blank c =>
    cases q with
    | blank d => exact congrArg Piece.blank (List.singleton_inj.mp htext)
    | comment words => simp [text] at htext
    | _ => simp [item] at hitem
  | comment words =>
    cases q with
    | blank d => simp [text] at htext
    | comment words' => simpa [text] using htext
    | _ => simp [item] at hitem
  | token kind lexeme literal =>
    cases q with
    | token kind' lexeme' literal' =>
      obtain rfl : lexeme = lexeme' := htext
      simpa [item] using hitem
    | _ => simp [item] at hitem
  | stray c =>
    cases q with
    | stray d => exact congrArg Piece.stray (List.singleton_inj.mp htext)
    | _ => simp [item] at hitem
  | unterminated body =>
    cases q with
    | unterminated body' => simpa [text] using htext
    | _ => simp [item] at hitem

end Piece

/-- The text of pieces in a row. -/
def textOf (pieces : List Piece) : List Char :=
  pieces.flatMap Piece.text

/-- Each piece can be cut off in front of the text of those behind it. -/
def AllFit : List Piece → Prop
  | [] => True
  | p :: rest => p.Fits (textOf rest) ∧ AllFit rest

/-- The items of pieces in a row, which start on the given line. -/
def itemsOf (line : Nat) : List Piece → List ScanItem
  | [] => []
  | p :: rest =>
    let last := line + Scan.lineBreaks p.text
    (p.item last).toList ++ itemsOf last rest

namespace Scan

/-- The step at the first of the characters. -/
def stepAt (line : Nat) : List Char → Step
  | [] => .skip line []
  | c :: rest => step line c rest

/-- The step that goes over a piece. -/
def Step.across (line : Nat) (p : Piece) (rest : List Char) : Step :=
  ⟨p.item (line + lineBreaks p.text), line + lineBreaks p.text, rest⟩

/-- The step goes over the piece or beyond. -/
def Step.Reaches (line : Nat) (p : Piece) (rest : List Char) (s : Step) : Prop :=
  s.rest.length < rest.length ∨ s = .across line p rest

section Steps

variable {line : Nat} {rest : List Char}

theorem Step.across_plain {kind : Kind} {lexeme : List Char} (h : ∀ c ∈ lexeme, c ≠ '\n') :
    Step.across line (.token kind lexeme none) rest = .plain kind lexeme line rest := by
  rw [across, Piece.text, lineBreaks_eq_zero h]
  rfl

/-- More of a run that goes on, or else nothing. -/
theorem dropWhile_length_lt_or (p : Char → Bool) (cs : List Char) :
    (cs.dropWhile p).length < cs.length ∨ cs.takeWhile p = [] ∧ cs.dropWhile p = cs := by
  cases cs with
  | nil => exact .inr ⟨rfl, rfl⟩
  | cons c cs =>
    by_cases hc : p c
    · left
      have hle := (List.dropWhile_suffix (l := cs) p).length_le
      rw [List.dropWhile_cons_of_pos hc, List.length_cons]
      omega
    · exact .inr ⟨List.takeWhile_cons_of_neg hc, List.dropWhile_cons_of_neg hc⟩

theorem stepAt_blank {c : Char} (h : (Piece.blank c).IsRegular) :
    stepAt line (c :: rest) = .across line (.blank c) rest := by
  simp only [Piece.IsRegular, List.mem_cons, List.not_mem_nil, or_false] at h
  rcases h with rfl | rfl | rfl | rfl <;> rfl

theorem stepAt_comment {words : List Char} (h : (Piece.comment words).IsRegular) :
    (stepAt line ('/' :: '/' :: words ++ rest)).Reaches line (.comment words) rest := by
  have hwords : ∀ c ∈ words, (c != '\n') = true := by
    intro c hc
    simpa using fun heq : c = '\n' => h (heq ▸ hc)
  have hbreaks : lineBreaks (Piece.comment words).text = 0 := by
    apply lineBreaks_eq_zero
    simpa [Piece.text] using hwords
  have hstep : stepAt line ('/' :: '/' :: words ++ rest) =
      .skip line (rest.dropWhile (· != '\n')) := by
    rw [← List.dropWhile_append_of_pos hwords]
    rfl
  rw [hstep]
  rcases dropWhile_length_lt_or (· != '\n') rest with hlt | ⟨-, hrest⟩
  · exact .inl hlt
  · right
    rw [hrest, Step.across, hbreaks]
    rfl

theorem step_punctuation {c : Char} {kind : Kind} (h : punctuation? c = some kind) :
    step line c rest = .plain kind [c] line rest := by
  unfold punctuation? at h
  split at h
  case h_13 => contradiction
  all_goals
    obtain rfl := Option.some.inj h
    rfl

theorem step_equalPair {c : Char} {alone paired : Kind}
    (h : equalPair? c = some (alone, paired)) :
    step line c rest = equalStep alone paired line c rest := by
  unfold equalPair? at h
  split at h
  case h_5 => contradiction
  all_goals
    obtain ⟨rfl, rfl⟩ := Prod.mk.inj (Option.some.inj h)
    rfl

theorem slashStep_reaches :
    (slashStep line rest).Reaches line (.token .slash ['/'] none) rest := by
  unfold slashStep
  split
  · next more =>
    left
    have hle := (List.dropWhile_suffix (l := more) (· != '\n')).length_le
    simp only [Step.skip, List.length_cons]
    omega
  · exact .inr (Step.across_plain (by simp)).symm

theorem equalStep_reaches {alone paired : Kind} {c : Char} (hc : c ≠ '\n') :
    (equalStep alone paired line c rest).Reaches line (.token alone [c] none) rest := by
  unfold equalStep
  split
  · next more =>
    left
    simp [Step.plain]
  · exact .inr (Step.across_plain (by simpa using hc)).symm

/-- The symbols are the slash, the characters that stand alone, and those that may have an equals
sign behind them, without and with it. -/
theorem exists_of_mem_symbols {kind : Kind} (h : kind ∈ Kind.symbols) :
    kind = .slash ∨ ∃ c,
      (punctuation? c = some kind ∧ kind.text.toList = [c]) ∨
      (∃ paired, equalPair? c = some (kind, paired) ∧ kind.text.toList = [c]) ∨
      ∃ alone, equalPair? c = some (alone, kind) ∧ kind.text.toList = [c, '='] := by
  have hstart : ∀ kind ∈ Kind.symbols, kind = .slash ∨
      let c := kind.text.toList.headD ' '
      (punctuation? c = some kind ∧ kind.text.toList = [c]) ∨
      ((equalPair? c).map Prod.fst = some kind ∧ kind.text.toList = [c]) ∨
      ((equalPair? c).map Prod.snd = some kind ∧ kind.text.toList = [c, '=']) := by
    decide
  rcases hstart kind h with hslash | hpunctuation | ⟨hpair, htext⟩ | ⟨hpair, htext⟩
  · exact .inl hslash
  · exact .inr ⟨_, .inl hpunctuation⟩
  · obtain ⟨⟨alone, paired⟩, hpair, rfl⟩ := Option.map_eq_some_iff.mp hpair
    exact .inr ⟨_, .inr (.inl ⟨paired, hpair, htext⟩)⟩
  · obtain ⟨⟨alone, paired⟩, hpair, rfl⟩ := Option.map_eq_some_iff.mp hpair
    exact .inr ⟨_, .inr (.inr ⟨alone, hpair, htext⟩)⟩

theorem stepAt_symbol {kind : Kind} (h : kind ∈ Kind.symbols) :
    (stepAt line (kind.text.toList ++ rest)).Reaches line
      (.token kind kind.text.toList none) rest := by
  rcases exists_of_mem_symbols h with
    rfl | ⟨c, ⟨hc, htext⟩ | ⟨paired, hc, htext⟩ | ⟨alone, hc, htext⟩⟩
  · exact slashStep_reaches
  all_goals
    have hnewline : c ≠ '\n' := by
      rintro rfl
      contradiction
    rw [htext]
  · right
    rw [Step.across_plain (by simpa using hnewline)]
    exact step_punctuation hc
  · have hstep : stepAt line ([c] ++ rest) = equalStep kind paired line c rest := step_equalPair hc
    rw [hstep]
    exact equalStep_reaches hnewline
  · right
    rw [Step.across_plain (by simpa using hnewline)]
    exact step_equalPair hc

theorem not_isDigit_of_isLetter {c : Char} (h : isLetter c) : ¬ c.isDigit := by
  intro hdigit
  have hnine : c.val ≤ '9'.val := of_decide_eq_true (Bool.and_eq_true_iff.mp hdigit).2
  rcases (isLetter_iff c).mp h with halpha | rfl
  · rcases Bool.or_eq_true_iff.mp halpha with hupper | hlower
    · have hfirst : 'A'.val ≤ c.val := (of_decide_eq_true hupper).1
      exact absurd (UInt32.le_trans hfirst hnine) (by decide)
    · have hfirst : 'a'.val ≤ c.val := of_decide_eq_true (Bool.and_eq_true_iff.mp hlower).1
      exact absurd (UInt32.le_trans hfirst hnine) (by decide)
  · exact absurd hdigit (by decide)

theorem step_digit {c : Char} (h : c.isDigit) : step line c rest = numberStep line (c :: rest) := by
  have hne : ∀ d : Char, d.isDigit = false → c ≠ d := by
    rintro d hd rfl
    simp [hd] at h
  have hlayout : ¬ (c = ' ' ∨ c = '\r' ∨ c = '\t') := by
    rintro (rfl | rfl | rfl) <;> contradiction
  rw [step, if_neg hlayout, if_neg (hne _ rfl), if_neg (hne _ rfl), if_neg (hne _ rfl), if_pos h]

theorem step_letter {c : Char} (h : isLetter c) : step line c rest = wordStep line (c :: rest) := by
  have hne : ∀ d : Char, isLetter d = false → c ≠ d := by
    rintro d hd rfl
    simp [hd] at h
  have hlayout : ¬ (c = ' ' ∨ c = '\r' ∨ c = '\t') := by
    rintro (rfl | rfl | rfl) <;> contradiction
  rw [step, if_neg hlayout, if_neg (hne _ rfl), if_neg (hne _ rfl), if_neg (hne _ rfl),
    if_neg (not_isDigit_of_isLetter h), if_pos h]

/-- A word is taken up to its end, as a keyword if it is spelled like one. -/
theorem stepAt_word {word : List Char} (h : IsWord word) :
    (stepAt line (word ++ rest)).Reaches line
      (.token ((Kind.keyword? (String.ofList word)).getD .identifier) word none) rest := by
  obtain ⟨c, more, hword, hc, hparts⟩ := exists_of_isWord h
  have hstep : stepAt line (word ++ rest) = wordStep line (word ++ rest) := by
    rw [hword]
    exact step_letter hc
  have hnewline : ∀ d ∈ word, d ≠ '\n' := by
    rintro d hd rfl
    exact absurd (hparts _ hd) (by decide)
  rw [hstep, wordStep, List.takeWhile_append_of_pos hparts, List.dropWhile_append_of_pos hparts]
  rcases dropWhile_length_lt_or isWordPart rest with hlt | ⟨htake, hdrop⟩
  · exact .inl hlt
  · right
    rw [htake, hdrop, List.append_nil, Step.across_plain hnewline]

/-- The token of a number that has been taken apart. -/
def numberPiece (whole fraction : List Char) : Piece :=
  .token .number (numeralLexeme whole fraction) (some (.number (Number.ofDigits whole fraction)))

theorem numberStep_eq_across (cs : List Char) :
    numberStep line cs =
      .across line (numberPiece (numeral cs).1 (numeral cs).2.1) (numeral cs).2.2 := by
  have hbreaks : lineBreaks (numberPiece (numeral cs).1 (numeral cs).2.1).text = 0 :=
    lineBreaks_eq_zero (numeralLexeme_ne_newline cs)
  rw [Step.across, hbreaks]
  rfl

theorem stepAt_digits {ds : List Char} (h : IsDigits ds) :
    stepAt line (ds ++ rest) =
      .across line (numberPiece (ds ++ (numeral rest).1) (numeral rest).2.1) (numeral rest).2.2 := by
  have hstep : stepAt line (ds ++ rest) = numberStep line (ds ++ rest) := by
    cases ds with
    | nil => exact absurd rfl h.1
    | cons d ds => exact step_digit (h.2 d (List.mem_cons_self ..))
  rw [hstep, numberStep_eq_across, numeral_digits_append h.2]

/-- More of a number that goes on, or else nothing. -/
theorem numeral_length_lt_or (cs : List Char) :
    (numeral cs).2.2.length < cs.length ∨ numeral cs = ([], [], cs) := by
  have hsplit := numeral_eq_append cs
  rcases hnumeral : numeral cs with ⟨whole, fraction, rest⟩
  rw [hnumeral] at hsplit
  by_cases hlexeme : numeralLexeme whole fraction = []
  · right
    have hparts : whole = [] ∧ fraction = [] := by
      unfold numeralLexeme at hlexeme
      split at hlexeme
      · next hempty => exact ⟨hlexeme, List.isEmpty_iff.mp hempty⟩
      · simp at hlexeme
    obtain ⟨rfl, rfl⟩ := hparts
    rw [hsplit]
    rfl
  · left
    have hpos : 0 < (numeralLexeme whole fraction).length := List.length_pos_iff.mpr hlexeme
    have hlength := congrArg List.length hsplit
    simp only [List.length_append] at hlength ⊢
    omega

/-- A number that starts with the digits goes on behind them or ends with them. -/
theorem stepAt_integer {ds : List Char} (h : IsDigits ds) :
    (stepAt line (ds ++ rest)).Reaches line
      (.token .number ds (some (.number (Number.ofDigits ds [])))) rest := by
  rw [stepAt_digits h]
  rcases numeral_length_lt_or rest with hlt | hnone
  · exact .inl hlt
  · right
    rw [hnone, List.append_nil]
    rfl

theorem stepAt_decimal {whole fraction : List Char} (hw : IsDigits whole) (hf : IsDigits fraction) :
    (stepAt line (whole ++ '.' :: fraction ++ rest)).Reaches line
      (.token .number (whole ++ '.' :: fraction)
        (some (.number (Number.ofDigits whole fraction)))) rest := by
  obtain ⟨hne, hdigits⟩ := hf
  obtain ⟨d, more, rfl⟩ := List.exists_cons_of_ne_nil hne
  rw [List.forall_mem_cons] at hdigits
  rw [List.append_assoc, stepAt_digits hw, List.cons_append, List.cons_append,
    numeral_point hdigits.1, List.takeWhile_append_of_pos hdigits.2,
    List.dropWhile_append_of_pos hdigits.2]
  rcases dropWhile_length_lt_or Char.isDigit rest with hlt | ⟨htake, hdrop⟩
  · exact .inl hlt
  · right
    simp only [htake, hdrop, List.append_nil]
    rfl

theorem stepAt_string {raw value : List Char} (h : Denotes raw value) :
    stepAt line ('"' :: (raw ++ ['"']) ++ rest) =
      .across line (.token .string ('"' :: (raw ++ ['"'])) (some (.string (String.ofList value))))
        rest := by
  have htext : raw ++ ['"'] ++ rest = raw ++ '"' :: rest := by simp
  have hbody : stringBody? (raw ++ ['"'] ++ rest) = some ⟨raw ++ ['"'], value, rest⟩ := by
    rw [htext, stringBody?_of_denotes h]
  have hstep : stepAt line ('"' :: (raw ++ ['"']) ++ rest) =
      stringStep line (raw ++ ['"'] ++ rest) := rfl
  rw [hstep, stringStep, hbody]
  rfl

/-- At the beginning of a regular piece, a step goes over it or beyond. -/
theorem stepAt_reaches {p : Piece} (h : p.IsRegular) :
    (stepAt line (p.text ++ rest)).Reaches line p rest := by
  cases p with
  | blank c => exact .inr (stepAt_blank h)
  | comment words => exact stepAt_comment h
  | stray c => exact h.elim
  | unterminated body => exact h.elim
  | token kind lexeme literal =>
    have hlexeme : IsLexeme kind lexeme literal := h
    cases hlexeme with
    | symbol hkind => exact stepAt_symbol hkind
    | keyword hkind =>
      have hstep : (stepAt line (kind.text.toList ++ rest)).Reaches line _ rest :=
        stepAt_word (isWord_keyword kind hkind)
      rwa [String.ofList_toList, keyword?_text kind hkind] at hstep
    | identifier hword hkeyword =>
      have hstep : (stepAt line (lexeme ++ rest)).Reaches line _ rest := stepAt_word hword
      rwa [keyword?_eq_none hkeyword] at hstep
    | integer hdigits => exact stepAt_integer hdigits
    | decimal hwhole hfraction => exact stepAt_decimal hwhole hfraction
    | string hdenotes => exact .inr (stepAt_string hdenotes)

theorem stepAt_alone {p : Piece} (h : p.IsRegular) : stepAt line p.text = .across line p [] := by
  have hreach : (stepAt line (p.text ++ [])).Reaches line p [] := stepAt_reaches h
  rw [List.append_nil] at hreach
  exact hreach.resolve_left (Nat.not_lt_zero _)

theorem fits_of_isRegular {p : Piece} (h : p.IsRegular)
    (hstep : stepAt line (p.text ++ rest) = .across line p rest) : p.Fits rest := by
  refine .regular h fun q hq hbegins => ?_
  obtain ⟨more, hmore⟩ := hbegins
  have hreach : (stepAt line (q.text ++ more)).Reaches line q more := stepAt_reaches hq
  have hlength := congrArg List.length hmore
  rw [hmore, hstep] at hreach
  rw [List.length_append, List.length_append] at hlength
  rcases hreach with hlt | heq
  · have hlt' : rest.length < more.length := hlt
    omega
  · obtain rfl : rest = more := congrArg Step.rest heq
    omega

theorem step_stray {c : Char} (hblank : c ∉ [' ', '\r', '\t', '\n']) (hslash : c ≠ '/')
    (hquote : c ≠ '"') (hdigit : ¬ c.isDigit) (hletter : ¬ isLetter c)
    (hpunctuation : punctuation? c = none) (hpair : equalPair? c = none) :
    step line c rest = .across line (.stray c) rest := by
  simp only [List.mem_cons, List.not_mem_nil, or_false, not_or] at hblank
  obtain ⟨hspace, hreturn, htab, hnewline⟩ := hblank
  have hlayout : ¬ (c = ' ' ∨ c = '\r' ∨ c = '\t') := by simp [hspace, hreturn, htab]
  have hbreaks : lineBreaks (Piece.stray c).text = 0 :=
    lineBreaks_eq_zero (by simpa [Piece.text] using hnewline)
  rw [step, if_neg hlayout, if_neg hnewline, if_neg hslash, if_neg hquote, if_neg hdigit,
    if_neg hletter, hpunctuation, hpair, Step.across, hbreaks]
  rfl

/-- A character at which every step is stuck starts no regular piece. -/
theorem fits_stray {c : Char} (hquote : c ≠ '"')
    (h : ∀ rest, step line c rest = .across line (.stray c) rest) :
    (Piece.stray c).Fits rest := by
  refine .stray hquote fun q hq hhead => ?_
  obtain ⟨more, htext⟩ := List.head?_eq_some_iff.mp hhead
  have hstep : stepAt line q.text = .across line q [] := stepAt_alone hq
  rw [htext, stepAt, h] at hstep
  exact hq.item_ne_error (congrArg Step.item hstep).symm

/-- The step cuts a piece that fits off the characters. -/
def Step.CutsOff (line : Nat) (cs : List Char) (s : Step) : Prop :=
  ∃ p : Piece, ∃ more, p.Fits more ∧ cs = p.text ++ more ∧ s = .across line p more

theorem cutsOff_of_isRegular {p : Piece} {c : Char} {more : List Char} (h : p.IsRegular)
    (htext : c :: rest = p.text ++ more) (hstep : step line c rest = .across line p more) :
    Step.CutsOff line (c :: rest) (step line c rest) := by
  have hat : stepAt line (p.text ++ more) = .across line p more := by
    rw [← htext]
    exact hstep
  exact ⟨p, more, fits_of_isRegular h hat, htext, hstep⟩

theorem cutsOff_of_isLexeme {kind : Kind} {lexeme more : List Char} {literal : Option Value}
    {c : Char} (h : IsLexeme kind lexeme literal) (htext : c :: rest = lexeme ++ more)
    (hstep : step line c rest = .across line (.token kind lexeme literal) more) :
    Step.CutsOff line (c :: rest) (step line c rest) :=
  cutsOff_of_isRegular (p := .token kind lexeme literal) h htext hstep

theorem cutsOff_of_plain {kind : Kind} {lexeme more : List Char} {c : Char}
    (h : IsLexeme kind lexeme none) (hnewline : ∀ d ∈ lexeme, d ≠ '\n')
    (htext : c :: rest = lexeme ++ more) (hstep : step line c rest = .plain kind lexeme line more) :
    Step.CutsOff line (c :: rest) (step line c rest) :=
  cutsOff_of_isLexeme h htext (hstep.trans (Step.across_plain hnewline).symm)

theorem cutsOff_slash : Step.CutsOff line ('/' :: rest) (step line '/' rest) := by
  by_cases hcomment : ∃ more, rest = '/' :: more
  · obtain ⟨more, rfl⟩ := hcomment
    have hnewline := takeWhile_ne_newline (p := (· != '\n')) rfl more
    have hregular : (Piece.comment (more.takeWhile (· != '\n'))).IsRegular :=
      fun hmem => hnewline _ hmem rfl
    have hbreaks : lineBreaks (Piece.comment (more.takeWhile (· != '\n'))).text = 0 :=
      lineBreaks_eq_zero (by simpa [Piece.text] using hnewline)
    have hstep : step line '/' ('/' :: more) =
        .across line (.comment (more.takeWhile (· != '\n'))) (more.dropWhile (· != '\n')) := by
      rw [Step.across, hbreaks]
      rfl
    exact cutsOff_of_isRegular hregular (by simp [Piece.text]) hstep
  · have hstep : slashStep line rest = .plain .slash ['/'] line rest := by
      unfold slashStep
      split
      · exact absurd ⟨_, rfl⟩ hcomment
      · rfl
    have hslash : IsLexeme .slash ['/'] none := IsLexeme.symbol (by decide)
    exact cutsOff_of_plain hslash (by simp) rfl hstep

theorem cutsOff_quote : Step.CutsOff line ('"' :: rest) (step line '"' rest) := by
  cases hbody : stringBody? rest with
  | some b =>
    obtain ⟨raw, hraw, hdenotes⟩ := denotes_of_stringBody? hbody
    obtain rfl : rest = raw ++ ['"'] ++ b.rest := by
      rw [← hraw]
      exact stringBody?_eq_append hbody
    exact cutsOff_of_isLexeme (.string hdenotes) rfl (stepAt_string hdenotes)
  | none =>
    refine ⟨.unterminated rest, [], .unterminated fun raw value hdenotes hbegins => ?_,
      (List.append_nil _).symm, ?_⟩
    · obtain ⟨more, rfl⟩ := hbegins
      rw [List.append_assoc, List.singleton_append, stringBody?_of_denotes hdenotes] at hbody
      contradiction
    · have hstep : step line '"' rest = stringStep line rest := rfl
      rw [hstep, stringStep, hbody]
      rfl

theorem cutsOff_digit {c : Char} (h : c.isDigit) :
    Step.CutsOff line (c :: rest) (step line c rest) := by
  have hstep : step line c rest =
      .across line (numberPiece (numeral (c :: rest)).1 (numeral (c :: rest)).2.1)
        (numeral (c :: rest)).2.2 := by
    rw [step_digit h, numberStep_eq_across]
  exact cutsOff_of_isLexeme (isLexeme_numeral h rest) (numeral_eq_append (c :: rest)) hstep

theorem cutsOff_letter {c : Char} (h : isLetter c) :
    Step.CutsOff line (c :: rest) (step line c rest) := by
  have hpart : isWordPart c := by simp [isWordPart, h]
  have hword : IsWord ((c :: rest).takeWhile isWordPart) := by
    rw [List.takeWhile_cons_of_pos hpart, isWord_cons]
    exact ⟨h, fun d hd => List.all_eq_true.mp List.all_takeWhile d hd⟩
  exact cutsOff_of_plain (isLexeme_word hword) (takeWhile_ne_newline rfl _)
    List.takeWhile_append_dropWhile.symm (step_letter h)

theorem cutsOff_equalPair {c : Char} {alone paired : Kind}
    (h : equalPair? c = some (alone, paired)) (hnewline : c ≠ '\n') :
    Step.CutsOff line (c :: rest) (step line c rest) := by
  obtain ⟨halone, hpaired⟩ := isLexeme_equalPair h
  by_cases hequal : ∃ more, rest = '=' :: more
  · obtain ⟨more, rfl⟩ := hequal
    exact cutsOff_of_plain hpaired (by simpa using hnewline) rfl (step_equalPair h)
  · have hstep : step line c rest = .plain alone [c] line rest := by
      rw [step_equalPair h]
      unfold equalStep
      split
      · exact absurd ⟨_, rfl⟩ hequal
      · rfl
    exact cutsOff_of_plain halone (by simpa using hnewline) rfl hstep

/-- Every step cuts off a piece that fits. -/
theorem cutsOff_step (c : Char) : Step.CutsOff line (c :: rest) (step line c rest) := by
  by_cases hblank : c ∈ [' ', '\r', '\t', '\n']
  · exact cutsOff_of_isRegular (p := .blank c) hblank rfl (stepAt_blank hblank)
  have hnewline : c ≠ '\n' := by
    rintro rfl
    exact hblank (by decide)
  by_cases hslash : c = '/'
  · subst hslash
    exact cutsOff_slash
  by_cases hquote : c = '"'
  · subst hquote
    exact cutsOff_quote
  by_cases hdigit : c.isDigit
  · exact cutsOff_digit hdigit
  by_cases hletter : isLetter c
  · exact cutsOff_letter hletter
  cases hpunctuation : punctuation? c with
  | some kind =>
    exact cutsOff_of_plain (isLexeme_punctuation hpunctuation) (by simpa using hnewline) rfl
      (step_punctuation hpunctuation)
  | none =>
    cases hpair : equalPair? c with
    | some kinds => exact cutsOff_equalPair hpair hnewline
    | none =>
      have hstep : ∀ rest, step line c rest = .across line (.stray c) rest := fun rest =>
        step_stray hblank hslash hquote hdigit hletter hpunctuation hpair
      exact ⟨.stray c, rest, fits_stray hquote hstep, rfl, hstep rest⟩

/-- A regular piece with a quote in front is a string. -/
theorem exists_denotes_of_quote {p : Piece} {body : List Char} (h : p.IsRegular)
    (htext : p.text = '"' :: body) : ∃ raw value, Denotes raw value ∧ raw ++ ['"'] <+: body := by
  have hstep : stepAt 1 p.text = .across 1 p [] := stepAt_alone h
  have hquote : stepAt 1 ('"' :: body) = stringStep 1 body := rfl
  rw [htext, hquote, stringStep] at hstep
  cases hbody : stringBody? body with
  | some b =>
    obtain ⟨raw, hraw, hdenotes⟩ := denotes_of_stringBody? hbody
    refine ⟨raw, b.value, hdenotes, b.rest, ?_⟩
    rw [← hraw, ← stringBody?_eq_append hbody]
  | none =>
    rw [hbody] at hstep
    exact absurd (congrArg Step.item hstep).symm h.item_ne_error

theorem text_ne_nil_of_isRegular {p : Piece} (h : p.IsRegular) : p.text ≠ [] := by
  intro htext
  have hstep : stepAt 1 p.text = .across 1 p [] := stepAt_alone h
  rw [htext] at hstep
  have hitem : none = p.item _ := congrArg Step.item hstep
  cases p with
  | blank c => exact List.cons_ne_nil _ _ htext
  | comment words => exact List.cons_ne_nil _ _ htext
  | token kind lexeme literal => simp [Piece.item] at hitem
  | stray c => exact h
  | unterminated body => exact h

theorem text_ne_nil {p : Piece} (h : p.Fits rest) : p.text ≠ [] := by
  cases h with
  | regular hp _ => exact text_ne_nil_of_isRegular hp
  | stray _ _ => exact List.cons_ne_nil _ _
  | unterminated _ => exact List.cons_ne_nil _ _

/-- Where a regular piece starts, only regular pieces fit. -/
theorem isRegular_of_fits {p q : Piece} {more : List Char} (hp : p.IsRegular) (hq : q.Fits more)
    (htext : p.text ++ rest = q.text ++ more) : q.IsRegular := by
  obtain ⟨c, b, hb⟩ := List.exists_cons_of_ne_nil (text_ne_nil_of_isRegular hp)
  rw [hb, List.cons_append] at htext
  cases hq with
  | regular hq _ => exact hq
  | @stray d _ _ hno =>
    obtain ⟨rfl, -⟩ := List.cons.inj htext
    exact absurd (by rw [hb]; rfl) (hno p hp)
  | @unterminated body hopen =>
    rw [List.append_nil] at htext
    obtain ⟨rfl, hbody⟩ := List.cons.inj htext
    obtain ⟨raw, value, hdenotes, hbegins⟩ := exists_denotes_of_quote hp hb
    exact absurd (hbegins.trans ⟨rest, hbody⟩) (hopen raw value hdenotes)

/-- The step at a piece that fits goes over that piece. -/
theorem stepAt_fits {p : Piece} (h : p.Fits rest) :
    stepAt line (p.text ++ rest) = .across line p rest := by
  obtain ⟨c, cs, hcs⟩ : ∃ c cs, p.text ++ rest = c :: cs :=
    List.exists_cons_of_ne_nil (by simp [text_ne_nil h])
  obtain ⟨q, more, hq, htext, hstep⟩ : Step.CutsOff line (p.text ++ rest)
      (stepAt line (p.text ++ rest)) := by
    rw [hcs]
    exact cutsOff_step c
  cases h with
  | regular hp hlongest =>
    have hreach : (stepAt line (p.text ++ rest)).Reaches line p rest := stepAt_reaches hp
    refine hreach.resolve_left fun hlt => ?_
    -- A step beyond `p` would go over a regular piece with more characters.
    rw [hstep] at hlt
    have hmore : more.length < rest.length := hlt
    have hle := hlongest q (isRegular_of_fits hp hq htext) ⟨more, htext.symm⟩
    have hlength := congrArg List.length htext
    rw [List.length_append, List.length_append] at hlength
    omega
  | stray hquote hno =>
    cases hq with
    | regular hq _ => exact (isRegular_of_fits hq (.stray hquote hno) htext.symm).elim
    | stray _ _ =>
      obtain ⟨rfl, rfl⟩ := List.cons.inj htext
      exact hstep
    | unterminated _ =>
      obtain ⟨rfl, -⟩ := List.cons.inj htext
      exact absurd rfl hquote
  | unterminated hopen =>
    cases hq with
    | regular hq _ => exact (isRegular_of_fits hq (.unterminated hopen) htext.symm).elim
    | stray hquote _ =>
      obtain ⟨rfl, -⟩ := List.cons.inj htext
      exact absurd rfl hquote
    | unterminated _ =>
      rw [List.append_nil, List.append_nil] at htext
      obtain ⟨-, rfl⟩ := List.cons.inj htext
      exact hstep

/-- No two pieces can be cut off the same text. -/
theorem eq_of_fits {p q : Piece} {more : List Char} (hp : p.Fits rest) (hq : q.Fits more)
    (htext : p.text ++ rest = q.text ++ more) : p = q ∧ rest = more := by
  have hacross : Step.across 1 p rest = .across 1 q more := by
    rw [← stepAt_fits hp, htext, stepAt_fits hq]
  obtain rfl : rest = more := congrArg Step.rest hacross
  have hsame : p.text = q.text := List.append_cancel_right htext
  have hitem : p.item (1 + lineBreaks p.text) = q.item (1 + lineBreaks q.text) :=
    congrArg Step.item hacross
  rw [← hsame] at hitem
  exact ⟨Piece.eq_of_item hsame hitem, rfl⟩

/-- Behind a piece that fits, a scan goes on as if it began there, on the line on which the piece
ends. -/
theorem ofChars_fits {p : Piece} (h : p.Fits rest) :
    ofChars line (p.text ++ rest) =
      let last := line + lineBreaks p.text
      let later := ofChars last rest
      ⟨(p.item last).toList ++ later.items, later.line⟩ := by
  have hstep : stepAt line (p.text ++ rest) = .across line p rest := stepAt_fits h
  obtain ⟨c, cs, hcs⟩ : ∃ c cs, p.text ++ rest = c :: cs :=
    List.exists_cons_of_ne_nil (by simp [text_ne_nil h])
  rw [hcs, stepAt] at hstep
  rw [hcs, ofChars_cons, hstep]
  rfl

end Steps

end Scan

/-- Every text can be cut into pieces that fit. -/
theorem exists_allFit (cs : List Char) : ∃ pieces, AllFit pieces ∧ textOf pieces = cs := by
  induction 1, cs using Scan.induction with
  | nil line => exact ⟨[], trivial, rfl⟩
  | cons line c rest ih =>
    obtain ⟨pieces, hfit, htext⟩ := ih
    obtain ⟨p, more, hp, hrest, hstep⟩ : Scan.Step.CutsOff line (c :: rest) (Scan.step line c rest) :=
      Scan.cutsOff_step c
    have hmore : textOf pieces = more := by
      rw [htext, hstep]
      rfl
    subst hmore
    exact ⟨p :: pieces, ⟨hp, hfit⟩, hrest.symm⟩

/-- There is only one way to cut a text. -/
theorem AllFit.unique {pieces others : List Piece} (h : AllFit pieces) (h' : AllFit others)
    (htext : textOf pieces = textOf others) : pieces = others := by
  induction pieces generalizing others with
  | nil =>
    cases others with
    | nil => rfl
    | cons q others =>
      have hnil := List.append_eq_nil_iff.mp htext.symm
      exact absurd hnil.1 (Scan.text_ne_nil h'.1)
  | cons p pieces ih =>
    cases others with
    | nil =>
      have hnil := List.append_eq_nil_iff.mp htext
      exact absurd hnil.1 (Scan.text_ne_nil h.1)
    | cons q others =>
      obtain ⟨rfl, hrest⟩ := Scan.eq_of_fits h.1 h'.1 htext
      rw [ih h.2 h'.2 hrest]

/-- The scan of a text goes over its pieces one by one. -/
theorem AllFit.ofChars_items {pieces : List Piece} (h : AllFit pieces) (line : Nat) :
    (Scan.ofChars line (textOf pieces)).items = itemsOf line pieces := by
  induction pieces generalizing line with
  | nil => rfl
  | cons p pieces ih =>
    have hscan : Scan.ofChars line (textOf (p :: pieces)) = _ := Scan.ofChars_fits h.1
    rw [hscan]
    exact congrArg (Option.toList _ ++ ·) (ih h.2 _)

theorem AllFit.ofSource_items {pieces : List Piece} (h : AllFit pieces) {source : String}
    (htext : textOf pieces = source.toList) : (Scan.ofSource source).items = itemsOf 1 pieces := by
  rw [← h.ofChars_items, htext]
  rfl

/-- The text of every source is made of pieces, in one way only: white space, comments, the lexemes
of tokens, each as long as it can be, single characters with which none of these starts, and a string
that is not closed, at the end. The items of its scan are the tokens and the errors among the pieces,
each on the line on which its piece ends; its tokens are these tokens and the end-of-input token on
the last line; and its reports are those of these errors. -/
theorem exists_pieces_ofSource (source : String) :
    ∃ pieces : List Piece,
      (textOf pieces = source.toList ∧ AllFit pieces ∧
        ∀ others, textOf others = source.toList → AllFit others → others = pieces) ∧
      (Scan.ofSource source).items = itemsOf 1 pieces ∧
      (Scan.ofSource source).tokens =
        (itemsOf 1 pieces).filterMap ScanItem.token? ++
          [.eof (1 + source.toList.count '\n')] ∧
      (Scan.ofSource source).diagnostics =
        ((itemsOf 1 pieces).filterMap ScanItem.error?).map LexicalError.diagnostic := by
  obtain ⟨pieces, hfit, htext⟩ := exists_allFit source.toList
  have hitems : (Scan.ofSource source).items = itemsOf 1 pieces := hfit.ofSource_items htext
  have hline : (Scan.ofSource source).line = 1 + source.toList.count '\n' :=
    Scan.ofChars_line 1 source.toList
  refine ⟨pieces, ⟨htext, hfit, fun others hothers hfit' => ?_⟩, hitems, ?_, ?_⟩
  · exact hfit'.unique hfit (hothers.trans htext.symm)
  · rw [Scan.tokens, hitems, hline]
  · rw [Scan.diagnostics, hitems]

end Treewalk
