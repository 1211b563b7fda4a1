import Treewalk.Proofs.Number.ReadBack
import Treewalk.Proofs.Scan.Pieces
import Treewalk.Proofs.Syntax.Expressions

set_option autoImplicit false
set_option relaxedAutoImplicit false

/-!
The pieces of a printed expression.

The text of an expression is made of the lexemes of its tokens and literals, of parentheses and of
blanks. Behind every lexeme that could go on stands a blank, a closing parenthesis or nothing, which
does not go on with it; only `!` stands right before its operand, which does not begin with an equals
sign. So the text is cut into exactly these pieces.
-/

namespace Treewalk

/-- The literal has a text that denotes it: a number that is finite and without a sign, a string in
which nothing needs a backslash. -/
def Value.IsReadable : Value → Prop
  | .nil => True
  | .boolean _ => True
  | .number x => Binary64.magnitude x < Binary64.infinity ∧ Binary64.isNegative x = false
  | .string s => '"' ∉ s.toList ∧ '\\' ∉ s.toList

/-- The value is no number beyond all digits and no string with a quote in it. -/
def Value.IsPlain : Value → Prop
  | .number x => Binary64.magnitude x < Binary64.infinity
  | .string s => '"' ∉ s.toList
  | _ => True

/-- The value is plain, and no string with a backslash in it. -/
def Value.IsVerbatim : Value → Prop
  | .number x => Binary64.magnitude x < Binary64.infinity
  | .string s => '"' ∉ s.toList ∧ '\\' ∉ s.toList
  | _ => True

/-- The value is no negative number. -/
def Value.IsUnsigned : Value → Prop
  | .number x => Binary64.isNegative x = false
  | _ => True

instance : DecidablePred Value.IsPlain
  | .nil => inferInstanceAs (Decidable True)
  | .boolean _ => inferInstanceAs (Decidable True)
  | .number _ => inferInstanceAs (Decidable (_ < _))
  | .string _ => inferInstanceAs (Decidable (_ ∉ _))

instance : DecidablePred Value.IsVerbatim
  | .nil => inferInstanceAs (Decidable True)
  | .boolean _ => inferInstanceAs (Decidable True)
  | .number _ => inferInstanceAs (Decidable (_ < _))
  | .string _ => inferInstanceAs (Decidable (_ ∧ _))

theorem Value.IsVerbatim.isReadable {v : Value} (h : v.IsVerbatim) (hsign : v.IsUnsigned) :
    v.IsReadable := by
  cases v with
  | nil => trivial
  | boolean b => trivial
  | number x => exact ⟨h, hsign⟩
  | string s => exact h

/-- The token is of one of the kinds and spelled like a token of its kind that has no literal. -/
def Token.IsSpelled (kinds : List Kind) (t : Token) : Prop :=
  t.kind ∈ kinds ∧ IsLexeme t.kind t.lexeme.toList none

/-- Operators and names are of kinds that belong there, and spelled like that, and literals can be
read. -/
def Expr.IsReadable : Expr → Prop
  | .literal value => value.IsReadable
  | .grouping inner => inner.IsReadable
  | .unary operator operand => operator.IsSpelled Kind.unaryOperators ∧ operand.IsReadable
  | .binary left operator right =>
    left.IsReadable ∧ operator.IsSpelled Kind.binaryOperators ∧ right.IsReadable
  | .logical left operator right =>
    left.IsReadable ∧ operator.IsSpelled Kind.logicalOperators ∧ right.IsReadable
  | .ternary condition ifTrue ifFalse =>
    condition.IsReadable ∧ ifTrue.IsReadable ∧ ifFalse.IsReadable
  | .reference name => name.IsSpelled [.identifier]
  | .assign name value => name.IsSpelled [.identifier] ∧ value.IsReadable

/-- A kind that is spelled in one way only, as a piece. -/
def Kind.piece (k : Kind) : Piece :=
  .token k k.text.toList none

/-- An operator or name as a piece. -/
def Token.piece (t : Token) : Piece :=
  .token t.kind t.lexeme.toList none

/-- The kind of the token that a literal is written as. -/
def Value.kind : Value → Kind
  | .nil => .nilWord
  | .boolean true => .trueWord
  | .boolean false => .falseWord
  | .number _ => .number
  | .string _ => .string

/-- What the token that a literal is written as carries. -/
def Value.carried? : Value → Option Value
  | .nil => none
  | .boolean _ => none
  | .number x => some (.number x)
  | .string s => some (.string s)

/-- A literal as a piece. -/
def Value.piece (v : Value) : Piece :=
  .token v.kind v.quoted.toList v.carried?

/-- Pieces between parentheses. -/
def parenthesised (ps : List Piece) : List Piece :=
  Kind.leftParen.piece :: (ps ++ [Kind.rightParen.piece])

/-- A piece with a blank on each side, between others. -/
def spaced (ps : List Piece) (p : Piece) (qs : List Piece) : List Piece :=
  ps ++ .blank ' ' :: p :: .blank ' ' :: qs

/-- The pieces of a printed expression. -/
def Expr.pieces : Expr → List Piece
  | .literal value => [value.piece]
  | .grouping inner => inner.pieces
  | .unary operator operand => parenthesised (operator.piece :: operand.pieces)
  | .binary left operator right => parenthesised (spaced left.pieces operator.piece right.pieces)
  | .logical left operator right => parenthesised (spaced left.pieces operator.piece right.pieces)
  | .ternary condition ifTrue ifFalse =>
    parenthesised (spaced condition.pieces Kind.question.piece
      (spaced ifTrue.pieces Kind.colon.piece ifFalse.pieces))
  | .reference name => [name.piece]
  | .assign name value => parenthesised (spaced [name.piece] Kind.equal.piece value.pieces)

@[simp] theorem textOf_nil : textOf [] = [] := rfl

@[simp] theorem textOf_cons (p : Piece) (rest : List Piece) :
    textOf (p :: rest) = p.text ++ textOf rest := List.flatMap_cons

@[simp] theorem textOf_append (ps qs : List Piece) : textOf (ps ++ qs) = textOf ps ++ textOf qs :=
  List.flatMap_append

theorem itemsOf_append (line : Nat) (ps qs : List Piece) :
    itemsOf line (ps ++ qs) =
      itemsOf line ps ++ itemsOf (line + Scan.lineBreaks (textOf ps)) qs := by
  induction ps generalizing line with
  | nil => rfl
  | cons p ps ih =>
    rw [List.cons_append, itemsOf, itemsOf, ih, textOf_cons, Scan.lineBreaks_append, Nat.add_assoc,
      List.append_assoc]

theorem itemsOf_token (line : Nat) (kind : Kind) (lexeme : List Char) (literal : Option Value)
    (ps : List Piece) : ∃ last, itemsOf line (.token kind lexeme literal :: ps) =
      .token ⟨kind, String.ofList lexeme, literal, last⟩ :: itemsOf last ps :=
  ⟨_, rfl⟩

theorem textOf_parenthesised (ps : List Piece) :
    textOf (parenthesised ps) = '(' :: (textOf ps ++ [')']) := by
  simp [parenthesised, Kind.piece, Piece.text, Kind.text]

theorem textOf_spaced (ps : List Piece) (p : Piece) (qs : List Piece) :
    textOf (spaced ps p qs) = textOf ps ++ ' ' :: (p.text ++ ' ' :: textOf qs) := by
  simp [spaced, Piece.text]

@[simp] theorem Piece.text_blank (c : Char) : (blank c).text = [c] := rfl

@[simp] theorem Kind.text_piece (k : Kind) : k.piece.text = k.text.toList := rfl

@[simp] theorem Token.text_piece (t : Token) : t.piece.text = t.lexeme.toList := rfl

@[simp] theorem Value.text_piece (v : Value) : v.piece.text = v.quoted.toList := rfl

/-- The text of an expression is that of its pieces. -/
theorem Expr.textOf_pieces (e : Expr) : textOf e.pieces = e.text.toList := by
  induction e with
  | literal value => simp [pieces, text]
  | grouping inner ih => exact ih
  | unary operator operand ih => simp [pieces, text, textOf_parenthesised, ih]
  | binary left operator right ihl ihr =>
    simp [pieces, text, textOf_parenthesised, textOf_spaced, ihl, ihr]
  | logical left operator right ihl ihr =>
    simp [pieces, text, textOf_parenthesised, textOf_spaced, ihl, ihr]
  | ternary condition ifTrue ifFalse ihc iht ihf =>
    simp [pieces, text, textOf_parenthesised, textOf_spaced, Kind.text, ihc, iht, ihf]
  | reference name => simp [pieces, text]
  | assign name value ih =>
    simp [pieces, text, textOf_parenthesised, textOf_spaced, Kind.text, ih]

/-- The characters with which no token goes on. -/
def stops : List Char :=
  [' ', '\r', '\t', '\n', ')', ';', ':']

/-- Characters at which every token ends: none, or one in front with which no token goes on. -/
inductive Stops : List Char → Prop where
  | nil : Stops []
  | cons {c : Char} (h : c ∈ stops) (more : List Char) : Stops (c :: more)

theorem Stops.blank (more : List Char) : Stops (' ' :: more) :=
  .cons (by simp [stops]) more

theorem Stops.paren (more : List Char) : Stops (')' :: more) :=
  .cons (by simp [stops]) more

namespace Scan

variable {line : Nat} {rest : List Char}

theorem dropWhile_of_stops {p : Char → Bool} (hp : ∀ c ∈ stops, p c = false) (h : Stops rest) :
    rest.dropWhile p = rest := by
  cases h with
  | nil => rfl
  | cons hc more => exact List.dropWhile_cons_of_neg (by simp [hp _ hc])

theorem slashStep_of_stops (h : Stops rest) : slashStep line rest = .plain .slash ['/'] line rest := by
  have hslash : '/' ∉ stops := by simp [stops]
  cases h with
  | nil => rfl
  | cons hc more =>
    unfold slashStep
    split
    · next hrest => exact absurd ((List.cons.inj hrest).1 ▸ hc) hslash
    · rfl

theorem equalStep_of_stops {alone paired : Kind} {c : Char} (h : Stops rest) :
    equalStep alone paired line c rest = .plain alone [c] line rest := by
  have hequal : '=' ∉ stops := by simp [stops]
  cases h with
  | nil => rfl
  | cons hc more =>
    unfold equalStep
    split
    · next hrest => exact absurd ((List.cons.inj hrest).1 ▸ hc) hequal
    · rfl

theorem stepAt_symbol_rest {kind : Kind} (h : kind ∈ Kind.symbols) (hrest : Stops rest) :
    (stepAt line (kind.text.toList ++ rest)).rest = rest := by
  rcases exists_of_mem_symbols h with
    rfl | ⟨c, ⟨hc, htext⟩ | ⟨paired, hc, htext⟩ | ⟨alone, hc, htext⟩⟩
  · have hstep : stepAt line (Kind.slash.text.toList ++ rest) = slashStep line rest := rfl
    rw [hstep, slashStep_of_stops hrest]
    rfl
  · have hstep : stepAt line ([c] ++ rest) = .plain kind [c] line rest := step_punctuation hc
    rw [htext, hstep]
    rfl
  · have hstep : stepAt line ([c] ++ rest) = equalStep kind paired line c rest := step_equalPair hc
    rw [htext, hstep, equalStep_of_stops hrest]
    rfl
  · have hstep : stepAt line ([c, '='] ++ rest) = equalStep alone kind line c ('=' :: rest) :=
      step_equalPair hc
    rw [htext, hstep]
    rfl

theorem stepAt_word_rest {word : List Char} (h : IsWord word) (hrest : Stops rest) :
    (stepAt line (word ++ rest)).rest = rest := by
  obtain ⟨c, more, hword, hc, hparts⟩ := exists_of_isWord h
  have hstep : stepAt line (word ++ rest) = wordStep line (word ++ rest) := by
    rw [hword]
    exact step_letter hc
  calc (stepAt line (word ++ rest)).rest
    _ = (word ++ rest).dropWhile isWordPart := by rw [hstep]; rfl
    _ = rest.dropWhile isWordPart := List.dropWhile_append_of_pos hparts
    _ = rest := dropWhile_of_stops (by simp [stops, isWordPart, isLetter]) hrest

theorem numeral_of_stops (h : Stops rest) : numeral rest = ([], [], rest) := by
  cases h with
  | nil => rfl
  | cons hc more =>
    simp only [stops, List.mem_cons, List.not_mem_nil, or_false] at hc
    rcases hc with rfl | rfl | rfl | rfl | rfl | rfl | rfl <;> rfl

/-- A token in front of characters at which every token ends goes no further. -/
theorem stepAt_lexeme_rest {kind : Kind} {lexeme : List Char} {literal : Option Value}
    (h : IsLexeme kind lexeme literal) (hrest : Stops rest) :
    (stepAt line (lexeme ++ rest)).rest = rest := by
  cases h with
  | symbol hkind => exact stepAt_symbol_rest hkind hrest
  | keyword hkind => exact stepAt_word_rest (isWord_keyword kind hkind) hrest
  | identifier hword hkeyword => exact stepAt_word_rest hword hrest
  | integer hdigits =>
    rw [stepAt_digits hdigits, numeral_of_stops hrest]
    rfl
  | @decimal whole fraction hwhole hfraction =>
    obtain ⟨hne, hdigits⟩ := hfraction
    obtain ⟨d, more, rfl⟩ := List.exists_cons_of_ne_nil hne
    rw [List.forall_mem_cons] at hdigits
    rw [List.append_assoc, stepAt_digits hwhole, List.cons_append, List.cons_append,
      numeral_point hdigits.1, List.dropWhile_append_of_pos hdigits.2]
    exact dropWhile_of_stops (by simp [stops]) hrest
  | string hdenotes =>
    rw [stepAt_string hdenotes]
    rfl

end Scan

namespace Piece

variable {p : Piece} {rest : List Char}

/-- A regular piece fits where a step ends right behind it. -/
theorem fits_of_rest (h : p.IsRegular) (hrest : (Scan.stepAt 1 (p.text ++ rest)).rest = rest) :
    p.Fits rest := by
  have hreach : (Scan.stepAt 1 (p.text ++ rest)).Reaches 1 p rest := Scan.stepAt_reaches h
  refine Scan.fits_of_isRegular h (hreach.resolve_left fun hlt => ?_)
  exact absurd (congrArg List.length hrest) (Nat.ne_of_lt hlt)

theorem fits_blank (rest : List Char) : (blank ' ').Fits rest :=
  fits_of_rest List.mem_cons_self rfl

/-- A token fits in front of characters at which every token ends. -/
theorem fits_of_stops {kind : Kind} {lexeme : List Char} {literal : Option Value}
    (h : IsLexeme kind lexeme literal) (hrest : Stops rest) :
    (token kind lexeme literal).Fits rest :=
  fits_of_rest h (Scan.stepAt_lexeme_rest h hrest)

/-- A parenthesis never goes on. -/
theorem fits_paren {k : Kind} (h : k ∈ [.leftParen, .rightParen]) (rest : List Char) :
    k.piece.Fits rest := by
  simp only [List.mem_cons, List.not_mem_nil, or_false] at h
  rcases h with rfl | rfl
  · exact fits_of_rest (.symbol (by decide)) rfl
  · exact fits_of_rest (.symbol (by decide)) rfl

end Piece

/-- The pieces can be cut off in front of others at which every token ends. -/
def Separable (ps : List Piece) : Prop :=
  ∀ rest, AllFit rest → Stops (textOf rest) → AllFit (ps ++ rest)

theorem separable_singleton {kind : Kind} {lexeme : List Char} {literal : Option Value}
    (h : IsLexeme kind lexeme literal) : Separable [.token kind lexeme literal] :=
  fun _ hrest hstops => ⟨Piece.fits_of_stops h hstops, hrest⟩

theorem Separable.parenthesised {ps : List Piece} (h : Separable ps) :
    Separable (parenthesised ps) := by
  intro rest hrest hstops
  have hclosed : AllFit (Kind.rightParen.piece :: rest) := ⟨Piece.fits_paren (by decide) _, hrest⟩
  rw [Treewalk.parenthesised, List.cons_append, List.append_assoc]
  exact ⟨Piece.fits_paren (by decide) _, h _ hclosed (.paren _)⟩

theorem Separable.spaced {ps qs : List Piece} {kind : Kind} {lexeme : List Char}
    {literal : Option Value} (hp : Separable ps) (h : IsLexeme kind lexeme literal)
    (hq : Separable qs) : Separable (spaced ps (.token kind lexeme literal) qs) := by
  intro rest hrest hstops
  have htoken : AllFit (.token kind lexeme literal :: .blank ' ' :: (qs ++ rest)) :=
    ⟨Piece.fits_of_stops h (.blank _), Piece.fits_blank _, hq rest hrest hstops⟩
  rw [Treewalk.spaced, List.append_assoc]
  exact hp _ ⟨Piece.fits_blank _, htoken⟩ (.blank _)

/-- Only numbers and strings have a literal. -/
theorem IsLexeme.eq_none {kind : Kind} {lexeme : List Char} {literal : Option Value}
    (h : IsLexeme kind lexeme literal) (hkind : kind ∉ [.number, .string]) : literal = none := by
  cases h with
  | symbol _ => rfl
  | keyword _ => rfl
  | identifier _ _ => rfl
  | integer _ => simp at hkind
  | decimal _ _ => simp at hkind
  | string _ => simp at hkind

/-- Without a literal only names are spelled in more than one way. -/
theorem IsLexeme.eq_text {kind : Kind} {lexeme : List Char} (h : IsLexeme kind lexeme none)
    (hkind : kind ≠ .identifier) : lexeme = kind.text.toList := by
  cases h with
  | symbol _ => rfl
  | keyword _ => rfl
  | identifier _ _ => exact absurd rfl hkind

theorem IsWord.head_ne_equal {word : List Char} (h : IsWord word) (rest : List Char) :
    (word ++ rest).head? ≠ some '=' := by
  obtain ⟨c, more, rfl, hc, -⟩ := Scan.exists_of_isWord h
  intro hhead
  obtain rfl : c = '=' := Option.some.inj hhead
  contradiction

theorem IsDigits.head_ne_equal {ds : List Char} (h : IsDigits ds) (rest : List Char) :
    (ds ++ rest).head? ≠ some '=' := by
  obtain ⟨hne, hdigits⟩ := h
  obtain ⟨d, more, rfl⟩ := List.exists_cons_of_ne_nil hne
  intro hhead
  obtain rfl : d = '=' := Option.some.inj hhead
  have hdigit := hdigits '=' List.mem_cons_self
  contradiction

/-- Only symbols begin with an equals sign. -/
theorem IsLexeme.head_ne_equal {kind : Kind} {lexeme : List Char} {literal : Option Value}
    (h : IsLexeme kind lexeme literal) (hkind : kind ∉ Kind.symbols) (rest : List Char) :
    (lexeme ++ rest).head? ≠ some '=' := by
  cases h with
  | symbol hsymbol => exact absurd hsymbol hkind
  | keyword hkeyword => exact (Scan.isWord_keyword kind hkeyword).head_ne_equal rest
  | identifier hword _ => exact hword.head_ne_equal rest
  | integer hdigits => exact hdigits.head_ne_equal rest
  | decimal hwhole _ =>
    rw [List.append_assoc]
    exact hwhole.head_ne_equal _
  | string _ => simp

/-- Of the operators in front of an operand only `!` could go on, with an equals sign. -/
theorem Piece.fits_unary {kind : Kind} {lexeme rest : List Char}
    (hkind : kind ∈ Kind.unaryOperators) (h : IsLexeme kind lexeme none)
    (hrest : rest.head? ≠ some '=') : (Piece.token kind lexeme none).Fits rest := by
  have hbang : (Scan.equalStep .bang .bangEqual 1 '!' rest).rest = rest := by
    unfold Scan.equalStep
    split
    · exact absurd rfl hrest
    · rfl
  have hname : kind ≠ .identifier := by
    rintro rfl
    contradiction
  obtain rfl := h.eq_text hname
  simp only [Kind.unaryOperators, List.mem_cons, List.not_mem_nil, or_false] at hkind
  rcases hkind with rfl | rfl
  · exact fits_of_rest h hbang
  · exact fits_of_rest h rfl

theorem denotes_self {cs : List Char} (hquote : '"' ∉ cs) (hbackslash : '\\' ∉ cs) :
    Denotes cs cs := by
  induction cs with
  | nil => exact .nil
  | cons c cs ih =>
    simp only [List.mem_cons, not_or] at hquote hbackslash
    have hplain : c ∉ ['"', '\\'] := by
      simp only [List.mem_cons, List.not_mem_nil, or_false, not_or]
      exact ⟨fun h => hquote.1 h.symm, fun h => hbackslash.1 h.symm⟩
    exact .plain hplain (ih hquote.2 hbackslash.2)

theorem isLexeme_of_digits {whole fraction : List Char} (hwhole : IsDigits whole)
    (hfraction : fraction = [] ∨ IsDigits fraction) :
    IsLexeme .number (Scan.numeralLexeme whole fraction)
      (some (.number (Number.ofDigits whole fraction))) := by
  rcases hfraction with rfl | hfraction
  · exact .integer hwhole
  · have hlexeme : Scan.numeralLexeme whole fraction = whole ++ '.' :: fraction := by
      simp [Scan.numeralLexeme, hfraction.1]
    rw [hlexeme]
    exact .decimal hwhole hfraction

theorem Value.kind_mem (v : Value) :
    v.kind ∈ [.falseWord, .trueWord, .nilWord, .number, .string] := by
  fun_cases kind v <;> decide

theorem Value.exists_quoted_number {x : Float} (hfinite : Binary64.magnitude x < Binary64.infinity)
    (hsign : Binary64.isNegative x = false) : ∃ whole fraction : List Char,
    IsDigits whole ∧ (fraction = [] ∨ IsDigits fraction) ∧
      (number x).quoted.toList = Scan.numeralLexeme whole fraction ∧
      Number.ofDigits whole fraction = x := by
  obtain ⟨whole, fraction, hwhole, hfraction, htext, hvalue⟩ := Number.exists_text hfinite hsign
  refine ⟨whole, fraction, hwhole, hfraction, ?_, hvalue⟩
  have hquoted : (number x).quoted = Number.text x := rfl
  rw [hquoted, htext, String.toList_ofList]

theorem Value.quoted_string (s : String) :
    (string s).quoted.toList = '"' :: (s.toList ++ ['"']) := by
  simp [quoted]

/-- A literal is written like a token with this literal. -/
theorem Value.isLexeme_quoted {v : Value} (h : v.IsReadable) :
    IsLexeme v.kind v.quoted.toList v.carried? := by
  cases v with
  | nil => exact .keyword (by decide)
  | boolean b =>
    cases b with
    | false => exact .keyword (by decide)
    | true => exact .keyword (by decide)
  | number x =>
    obtain ⟨whole, fraction, hwhole, hfraction, hquoted, hvalue⟩ := exists_quoted_number h.1 h.2
    have hdigits := isLexeme_of_digits hwhole hfraction
    rw [hvalue, ← hquoted] at hdigits
    exact hdigits
  | string s =>
    have hdenotes := IsLexeme.string (denotes_self h.1 h.2)
    rw [String.ofList_toList, ← quoted_string] at hdenotes
    exact hdenotes

/-- No expression begins with an equals sign. -/
theorem Expr.head_ne_equal {e : Expr} (h : e.IsReadable) (rest : List Char) :
    (textOf e.pieces ++ rest).head? ≠ some '=' := by
  -- All but literals and names stand between parentheses.
  have hparen : ∀ ps : List Piece, (textOf (parenthesised ps) ++ rest).head? ≠ some '=' := by
    intro ps
    rw [textOf_parenthesised]
    simp
  have hlexeme : ∀ {kind : Kind} {lexeme : List Char} {literal : Option Value},
      IsLexeme kind lexeme literal → kind ∉ Kind.symbols →
      (textOf [.token kind lexeme literal] ++ rest).head? ≠ some '=' := by
    intro kind lexeme literal hspelled hkind
    rw [textOf_cons, textOf_nil, List.append_nil]
    exact hspelled.head_ne_equal hkind rest
  induction e with
  | literal value =>
    have hsymbols : ∀ k ∈ [Kind.falseWord, .trueWord, .nilWord, .number, .string],
        k ∉ Kind.symbols := by decide
    exact hlexeme (Value.isLexeme_quoted h) (hsymbols value.kind value.kind_mem)
  | grouping inner ih => exact ih h
  | reference name =>
    have hkind : name.kind = .identifier := List.mem_singleton.mp h.1
    exact hlexeme h.2 (by rw [hkind]; decide)
  | unary operator operand ih => exact hparen _
  | binary left operator right ihl ihr => exact hparen _
  | logical left operator right ihl ihr => exact hparen _
  | ternary condition ifTrue ifFalse ihc iht ihf => exact hparen _
  | assign name value ih => exact hparen _

/-- The pieces of a printed expression are the pieces of its text, also in front of a blank or a
closing parenthesis. -/
theorem separable_pieces {e : Expr} (h : e.IsReadable) : Separable e.pieces := by
  induction e with
  | literal value => exact separable_singleton (Value.isLexeme_quoted h)
  | grouping inner ih => exact ih h
  | unary operator operand ih =>
    obtain ⟨hoperator, hoperand⟩ := h
    refine Separable.parenthesised fun rest hrest hstops => ?_
    have hhead : (textOf (operand.pieces ++ rest)).head? ≠ some '=' := by
      rw [textOf_append]
      exact Expr.head_ne_equal hoperand _
    exact ⟨Piece.fits_unary hoperator.1 hoperator.2 hhead, ih hoperand rest hrest hstops⟩
  | binary left operator right ihl ihr =>
    obtain ⟨hleft, hoperator, hright⟩ := h
    exact ((ihl hleft).spaced hoperator.2 (ihr hright)).parenthesised
  | logical left operator right ihl ihr =>
    obtain ⟨hleft, hoperator, hright⟩ := h
    exact ((ihl hleft).spaced hoperator.2 (ihr hright)).parenthesised
  | ternary condition ifTrue ifFalse ihc iht ihf =>
    obtain ⟨hcondition, htrue, hfalse⟩ := h
    have hquestion : IsLexeme .question Kind.question.text.toList none := .symbol (by decide)
    have hcolon : IsLexeme .colon Kind.colon.text.toList none := .symbol (by decide)
    have hbranches := (iht htrue).spaced hcolon (ihf hfalse)
    exact ((ihc hcondition).spaced hquestion hbranches).parenthesised
  | reference name => exact separable_singleton h.2
  | assign name value ih =>
    obtain ⟨hname, hvalue⟩ := h
    have hequal : IsLexeme .equal Kind.equal.text.toList none := .symbol (by decide)
    exact ((separable_singleton hname.2).spaced hequal (ih hvalue)).parenthesised

end Treewalk
