import Treewalk.Proofs.Grammar.Sources
import Treewalk.Proofs.Syntax.Spelling

set_option autoImplicit false
set_option relaxedAutoImplicit false

/-!
Reading an expression in reverse Polish order with a stack.

The text is cut into words at the blanks outside of quotes. A literal or a name is put on the stack,
any other word takes its operands from there. The text of an expression leaves the expression on the
stack, without its groupings, if every word can be told from the others.
-/

namespace Treewalk

namespace Rpn

/-- The words of a text: it is cut at the blanks outside of quotes. -/
def words (quoted : Bool) : List Char → List (List Char)
  | [] => [[]]
  | c :: cs =>
    if c = ' ' ∧ quoted = false then [] :: words false cs
    else (words (if c = '"' then !quoted else quoted) cs).modifyHead (c :: ·)

/-- What a word asks for. -/
inductive Instruction where
  | push (e : Expr)
  | unary (operator : Token)
  | binary (operator : Token)
  | logical (operator : Token)
  | conditional
  | assign

/-- The operator of a kind that is spelled in one way only. -/
def operator (k : Kind) : Token :=
  ⟨k, k.text, none, 0⟩

/-- The words with a meaning of their own. -/
def reserved : List (List Char × Instruction) :=
  [("not".toList, .unary (operator .bang)), ("neg".toList, .unary (operator .minus)),
    ("?:".toList, .conditional), ("=".toList, .assign), ("nil".toList, .push (.literal .nil)),
    ("true".toList, .push (.literal (.boolean true))),
    ("false".toList, .push (.literal (.boolean false)))] ++
  Kind.binaryOperators.map (fun k => (k.text.toList, .binary (operator k))) ++
  Kind.logicalOperators.map fun k => (k.text.toList, .logical (operator k))

/-- What any other word stands for: a string between quotes, a number that begins with a digit, or a
name. -/
def operand (word : List Char) : Expr :=
  match word with
  | '"' :: rest => .literal (.string (String.ofList rest.dropLast))
  | word =>
    if word.head?.any Char.isDigit then
      .literal (.number (Number.ofDigits (Scan.numeral word).1 (Scan.numeral word).2.1))
    else .reference ⟨.identifier, String.ofList word, none, 0⟩

/-- The instruction that a word is. -/
def instruction (word : List Char) : Instruction :=
  (reserved.lookup word).getD (.push (operand word))

/-- One instruction, on a stack with the last expression in front. An assignment takes its name from the
stack, where it was put like a name that is read. -/
def step (stack : List Expr) : Instruction → Option (List Expr)
  | .push e => some (e :: stack)
  | .unary operator =>
    match stack with
    | operand :: rest => some (.unary operator operand :: rest)
    | _ => none
  | .binary operator =>
    match stack with
    | right :: left :: rest => some (.binary left operator right :: rest)
    | _ => none
  | .logical operator =>
    match stack with
    | right :: left :: rest => some (.logical left operator right :: rest)
    | _ => none
  | .conditional =>
    match stack with
    | ifFalse :: ifTrue :: condition :: rest => some (.ternary condition ifTrue ifFalse :: rest)
    | _ => none
  | .assign =>
    match stack with
    | .reference name :: value :: rest => some (.assign name value :: rest)
    | _ => none

/-- The words one by one. -/
def runWords (stack : List Expr) (ws : List (List Char)) : Option (List Expr) :=
  ws.foldlM (fun stack word => step stack (instruction word)) stack

/-- The stack that a text leaves behind, if there were operands enough all the time. -/
def run (text : String) : Option (List Expr) :=
  runWords [] (words false text.toList)

end Rpn

/-- The words of an expression in reverse Polish order. -/
def Expr.rpnWords : Expr → List (List Char)
  | .literal value => [value.quoted.toList]
  | .grouping inner => inner.rpnWords
  | .unary operator operand => operand.rpnWords ++ [(unaryWord operator).toList]
  | .binary left operator right => left.rpnWords ++ right.rpnWords ++ [operator.lexeme.toList]
  | .logical left operator right => left.rpnWords ++ right.rpnWords ++ [operator.lexeme.toList]
  | .ternary condition ifTrue ifFalse =>
    condition.rpnWords ++ ifTrue.rpnWords ++ ifFalse.rpnWords ++ ["?:".toList]
  | .reference name => [name.lexeme.toList]
  | .assign name value => value.rpnWords ++ [name.lexeme.toList] ++ ["=".toList]

namespace Rpn

/-! ### Cutting a text into words -/

/-- The text is cut into these words, at its end as well as in front of a blank. -/
structure CutsInto (text : List Char) (ws : List (List Char)) : Prop where
  alone : words false text = ws
  before_blank : ∀ rest, words false (text ++ ' ' :: rest) = ws ++ words false rest

theorem CutsInto.append {ts us : List Char} {ws vs : List (List Char)} (h : CutsInto ts ws)
    (h' : CutsInto us vs) : CutsInto (ts ++ ' ' :: us) (ws ++ vs) where
  alone := by rw [h.before_blank, h'.alone]
  before_blank rest := by
    rw [List.append_assoc, List.cons_append, h.before_blank, h'.before_blank, List.append_assoc]

/-- Characters that go into the word in front of them, as they are. -/
theorem words_append {quoted : Bool} {cs : List Char} (hquote : '"' ∉ cs)
    (hblank : quoted = true ∨ ' ' ∉ cs) (rest : List Char) :
    words quoted (cs ++ rest) = (words quoted rest).modifyHead (cs ++ ·) := by
  induction cs with
  | nil =>
    have hid : (fun w : List Char => [] ++ w) = id := rfl
    rw [List.nil_append, hid, List.modifyHead_id, id]
  | cons c cs ih =>
    simp only [List.mem_cons, not_or] at hquote hblank
    have hcut : ¬(c = ' ' ∧ quoted = false) := by
      rintro ⟨rfl, rfl⟩
      simp at hblank
    rw [List.cons_append, words, if_neg hcut, if_neg (Ne.symm hquote.1),
      ih hquote.2 (hblank.imp id And.right), List.modifyHead_modifyHead]
    rfl

/-- A word is cut off as a whole. -/
theorem CutsInto.of_words {word : List Char}
    (h : ∀ rest, words false (word ++ rest) = (words false rest).modifyHead (word ++ ·)) :
    CutsInto word [word] where
  alone := by
    have hword := h []
    rw [List.append_nil] at hword
    simpa [words] using hword
  before_blank rest := by
    rw [h, words, if_pos ⟨rfl, rfl⟩, List.modifyHead_cons, List.append_nil]
    rfl

theorem cutsInto_plain {word : List Char} (hquote : '"' ∉ word) (hblank : ' ' ∉ word) :
    CutsInto word [word] :=
  .of_words (words_append hquote (.inr hblank))

/-- Quotes hold a string together. -/
theorem cutsInto_string {cs : List Char} (hquote : '"' ∉ cs) :
    CutsInto ('"' :: (cs ++ ['"'])) ['"' :: (cs ++ ['"'])] := by
  refine .of_words fun rest => ?_
  have hopen : words false ('"' :: (cs ++ ['"'] ++ rest)) =
      (words true (cs ++ ['"'] ++ rest)).modifyHead ('"' :: ·) := rfl
  have hclose : words true ('"' :: rest) = (words false rest).modifyHead ('"' :: ·) := rfl
  rw [List.cons_append, hopen, List.append_assoc, words_append hquote (.inl rfl),
    List.singleton_append, hclose, List.modifyHead_modifyHead, List.modifyHead_modifyHead]
  congr 1
  funext w
  simp

end Rpn

/-! ### Words that are lexemes -/

theorem IsWord.not_mem {word : List Char} (h : IsWord word) {c : Char}
    (hc : Scan.isWordPart c = false) : c ∉ word := by
  obtain ⟨-, -, -, -, hparts⟩ := Scan.exists_of_isWord h
  intro hmem
  rw [hparts c hmem] at hc
  contradiction

theorem IsDigits.not_mem {ds : List Char} (h : IsDigits ds) {c : Char} (hc : c.isDigit = false) :
    c ∉ ds := by
  intro hmem
  rw [h.2 c hmem] at hc
  contradiction

/-- Only strings have quotes or blanks in them. -/
theorem IsLexeme.not_mem {kind : Kind} {lexeme : List Char} {literal : Option Value}
    (h : IsLexeme kind lexeme literal) (hkind : kind ≠ .string) : '"' ∉ lexeme ∧ ' ' ∉ lexeme := by
  have hsymbols : ∀ k ∈ Kind.symbols, '"' ∉ k.text.toList ∧ ' ' ∉ k.text.toList := by decide +kernel
  cases h with
  | symbol hsymbol => exact hsymbols kind hsymbol
  | keyword hkeyword =>
    have hword := Scan.isWord_keyword kind hkeyword
    exact ⟨hword.not_mem (by decide), hword.not_mem (by decide)⟩
  | identifier hword _ => exact ⟨hword.not_mem (by decide), hword.not_mem (by decide)⟩
  | integer hdigits => exact ⟨hdigits.not_mem (by decide), hdigits.not_mem (by decide)⟩
  | decimal hwhole hfraction =>
    have hquote := And.intro (hwhole.not_mem (c := '"') (by decide))
      (hfraction.not_mem (c := '"') (by decide))
    have hblank := And.intro (hwhole.not_mem (c := ' ') (by decide))
      (hfraction.not_mem (c := ' ') (by decide))
    simp [hquote, hblank]
  | string _ => exact absurd rfl hkind

/-- The digits of a number are found in its spelling. -/
theorem Scan.numeral_numeralLexeme {whole fraction : List Char} (hwhole : IsDigits whole)
    (hfraction : fraction = [] ∨ IsDigits fraction) :
    numeral (numeralLexeme whole fraction) = (whole, fraction, []) := by
  rcases hfraction with rfl | ⟨hne, hdigits⟩
  · have hdigits := numeral_digits_append hwhole.2 []
    rw [List.append_nil] at hdigits
    simpa [numeralLexeme, numeral] using hdigits
  · obtain ⟨d, more, rfl⟩ := List.exists_cons_of_ne_nil hne
    rw [List.forall_mem_cons] at hdigits
    have htake : (more ++ []).takeWhile Char.isDigit = more ++ [] :=
      List.takeWhile_append_of_pos hdigits.2
    have hdrop : (more ++ []).dropWhile Char.isDigit = [] := List.dropWhile_append_of_pos hdigits.2
    have hlexeme : numeralLexeme whole (d :: more) = whole ++ '.' :: d :: more := rfl
    rw [List.append_nil] at htake hdrop
    rw [hlexeme, numeral_digits_append hwhole.2, numeral_point hdigits.1, htake, hdrop,
      List.append_nil]

/-- A name without its line is its spelling. -/
theorem Token.IsLexical.withoutLine_name {t : Token} (h : t.IsLexical) (hkind : t.kind = .identifier) :
    t.withoutLine = ⟨.identifier, t.lexeme, none, 0⟩ := by
  have hliteral : t.literal = none := IsLexeme.eq_none h (by rw [hkind]; decide)
  rw [← hkind, ← hliteral]
  rfl

/-- An operator without its line is told by its kind. -/
theorem Token.IsLexical.withoutLine_operator {t : Token} (h : t.IsLexical)
    (hkind : t.kind ∉ [.identifier, .number, .string]) : t.withoutLine = Rpn.operator t.kind := by
  simp only [List.mem_cons, List.not_mem_nil, or_false, not_or] at hkind
  have hliteral : t.literal = none := IsLexeme.eq_none h (by simp [hkind])
  have hlexeme : IsLexeme t.kind t.lexeme.toList none := hliteral ▸ h
  have htext : t.lexeme = t.kind.text := String.toList_inj.mp (hlexeme.eq_text hkind.1)
  rw [Rpn.operator, ← htext, ← hliteral]
  rfl

theorem IsLexeme.isWord {word : List Char} {literal : Option Value}
    (h : IsLexeme .identifier word literal) :
    IsWord word ∧ word ∉ Kind.keywords.map (·.text.toList) := by
  cases h with
  | symbol hsymbol => contradiction
  | keyword hkeyword => contradiction
  | identifier hword hkeyword =>
    refine ⟨hword, fun hmem => ?_⟩
    obtain ⟨kind, hkind, heq⟩ := List.mem_map.mp hmem
    exact hkeyword kind hkind heq.symm

namespace Rpn

/-! ### The instruction of a word -/

theorem instruction_binary : ∀ k ∈ Kind.binaryOperators,
    instruction k.text.toList = .binary (operator k) := by
  simp only [Kind.binaryOperators, List.forall_mem_cons]
  exact ⟨rfl, rfl, rfl, rfl, rfl, rfl, rfl, rfl, rfl, rfl, by simp⟩

theorem instruction_logical : ∀ k ∈ Kind.logicalOperators,
    instruction k.text.toList = .logical (operator k) := by
  simp only [Kind.logicalOperators, List.forall_mem_cons]
  exact ⟨rfl, rfl, by simp⟩

/-- A word without a meaning of its own is an operand. -/
theorem instruction_operand {word : List Char} (h : word ∉ reserved.map Prod.fst) :
    instruction word = .push (operand word) := by
  have hnone : reserved.lookup word = none := by
    rw [List.lookup_eq_none_iff]
    intro p hp
    exact bne_iff_ne.mpr fun heq => h (heq ▸ List.mem_map_of_mem hp)
  rw [instruction, hnone]
  rfl

/-- The words with a meaning of their own that are like names. -/
theorem isWord_reserved : ∀ word ∈ reserved.map Prod.fst, word.head?.any Scan.isLetter →
    word ∈ ["neg", "not"].map String.toList ++ Kind.keywords.map (·.text.toList) := by
  decide +kernel

/-- None of them begins like a number or a string. -/
theorem head_reserved : ∀ word ∈ reserved.map Prod.fst,
    word.head? ≠ some '"' ∧ word.head?.any Char.isDigit = false := by
  decide +kernel

theorem operand_string (cs : List Char) :
    operand ('"' :: (cs ++ ['"'])) = .literal (.string (String.ofList cs)) := by
  rw [operand, List.dropLast_concat]

theorem operand_number {word : List Char} (h : word.head?.any Char.isDigit) :
    operand word =
      .literal (.number (Number.ofDigits (Scan.numeral word).1 (Scan.numeral word).2.1)) := by
  unfold operand
  split
  · contradiction
  · rw [if_pos h]

theorem operand_name {word : List Char} (h : word.head?.any Scan.isLetter) :
    operand word = .reference ⟨.identifier, String.ofList word, none, 0⟩ := by
  have hdigit : word.head?.any Char.isDigit = false := by
    cases word with
    | nil => rfl
    | cons c rest => exact Bool.eq_false_iff.mpr (Scan.not_isDigit_of_isLetter h)
  unfold operand
  split
  · contradiction
  · rw [hdigit]
    rfl

theorem instruction_name {name : Token} (h : name.IsLexical) (hkind : name.kind = .identifier)
    (hname : name.lexeme ∉ ["neg", "not"]) :
    instruction name.lexeme.toList = .push (.reference name.withoutLine) := by
  have hlexeme : IsLexeme .identifier name.lexeme.toList name.literal := hkind ▸ h
  obtain ⟨hword, hkeyword⟩ := hlexeme.isWord
  have hhead : name.lexeme.toList.head?.any Scan.isLetter := by
    obtain ⟨c, rest, heq, hc, -⟩ := Scan.exists_of_isWord hword
    rw [heq]
    exact hc
  have hfree : name.lexeme.toList ∉ reserved.map Prod.fst := by
    intro hmem
    rcases List.mem_append.mp (isWord_reserved _ hmem hhead) with hreserved | hreserved
    · obtain ⟨word, hword, heq⟩ := List.mem_map.mp hreserved
      exact hname (String.toList_inj.mp heq ▸ hword)
    · exact hkeyword hreserved
  rw [instruction_operand hfree, operand_name hhead, String.ofList_toList,
    h.withoutLine_name hkind]

theorem head_numeralLexeme {whole : List Char} (h : IsDigits whole) (fraction : List Char) :
    (Scan.numeralLexeme whole fraction).head?.any Char.isDigit := by
  obtain ⟨d, more, rfl⟩ := List.exists_cons_of_ne_nil h.1
  have hd : d.isDigit := h.2 d List.mem_cons_self
  unfold Scan.numeralLexeme
  split
  · exact hd
  · exact hd

theorem instruction_value {v : Value} (hplain : v.IsPlain) (hsign : v.IsUnsigned) :
    instruction v.quoted.toList = .push (.literal v) := by
  cases v with
  | nil => rfl
  | boolean b =>
    cases b with
    | false => rfl
    | true => rfl
  | number x =>
    obtain ⟨whole, fraction, hwhole, hfraction, hquoted, hvalue⟩ :=
      Value.exists_quoted_number hplain hsign
    have hhead := head_numeralLexeme hwhole fraction
    have hfree : Scan.numeralLexeme whole fraction ∉ reserved.map Prod.fst := by
      intro hmem
      rw [(head_reserved _ hmem).2] at hhead
      contradiction
    rw [hquoted, instruction_operand hfree, operand_number hhead,
      Scan.numeral_numeralLexeme hwhole hfraction, hvalue]
  | string s =>
    have hfree : '"' :: (s.toList ++ ['"']) ∉ reserved.map Prod.fst := by
      intro hmem
      exact (head_reserved _ hmem).1 rfl
    rw [Value.quoted_string, instruction_operand hfree, operand_string, String.ofList_toList]

/-! ### Running the words of an expression -/

theorem runWords_append (stack : List Expr) (ws vs : List (List Char)) :
    runWords stack (ws ++ vs) = (runWords stack ws).bind (runWords · vs) :=
  List.foldlM_append

theorem runWords_singleton (stack : List Expr) (word : List Char) :
    runWords stack [word] = step stack (instruction word) := by
  simp [runWords]

theorem cutsInto_lexeme {t : Token} (h : t.IsLexical) (hkind : t.kind ≠ .string) :
    CutsInto t.lexeme.toList [t.lexeme.toList] :=
  cutsInto_plain (IsLexeme.not_mem h hkind).1 (IsLexeme.not_mem h hkind).2

theorem cutsInto_value {v : Value} (hplain : v.IsPlain) (hsign : v.IsUnsigned) :
    CutsInto v.quoted.toList [v.quoted.toList] := by
  cases v with
  | nil => exact cutsInto_plain (by decide) (by decide)
  | boolean b =>
    cases b with
    | false => exact cutsInto_plain (by decide) (by decide)
    | true => exact cutsInto_plain (by decide) (by decide)
  | number x =>
    obtain ⟨whole, fraction, hwhole, hfraction, hquoted, -⟩ :=
      Value.exists_quoted_number hplain hsign
    obtain ⟨hquote, hblank⟩ := (isLexeme_of_digits hwhole hfraction).not_mem (by decide)
    rw [hquoted]
    exact cutsInto_plain hquote hblank
  | string s =>
    rw [Value.quoted_string]
    exact cutsInto_string hplain

/-- The word of a unary operator, with what it asks for. -/
theorem unaryWord_spec {t : Token} (h : t.kind ∈ Kind.unaryOperators) :
    CutsInto (Expr.unaryWord t).toList [(Expr.unaryWord t).toList] ∧
      instruction (Expr.unaryWord t).toList = .unary (operator t.kind) := by
  simp only [Kind.unaryOperators, List.mem_cons, List.not_mem_nil, or_false] at h
  rcases h with h | h
  · have hword : Expr.unaryWord t = "not" := by rw [Expr.unaryWord, h]
    rw [hword, h]
    exact ⟨cutsInto_plain (by decide) (by decide), rfl⟩
  · have hword : Expr.unaryWord t = "neg" := by rw [Expr.unaryWord, h]
    rw [hword, h]
    exact ⟨cutsInto_plain (by decide) (by decide), rfl⟩

theorem cutsInto_token {e : Expr} {t : Token} (h : e.Fits Token.IsLexical) (ht : e.token? = some t) :
    CutsInto t.lexeme.toList [t.lexeme.toList] := by
  obtain ⟨hkind, hlexical⟩ := h t ht
  have hkinds : ∀ k ∈ e.kinds, k ≠ .string := Expr.forall_mem_kinds (by decide) e
  exact cutsInto_lexeme hlexical (hkinds t.kind hkind)

/-- The text of an expression is cut into its words. -/
theorem cutsInto_rpn {e : Expr} (htokens : e.AllFit Token.IsLexical)
    (hliterals : ∀ v ∈ e.literals, v.IsPlain ∧ v.IsUnsigned) :
    CutsInto e.rpn.toList e.rpnWords := by
  induction e with
  | literal value =>
    obtain ⟨hplain, hsign⟩ := hliterals value List.mem_cons_self
    exact cutsInto_value hplain hsign
  | grouping inner ih => exact ih (Expr.allFit_grouping.mp htokens) hliterals
  | unary operator operand ih =>
    obtain ⟨hself, hoperand⟩ := Expr.allFit_unary.mp htokens
    have hcut := (ih hoperand hliterals).append (unaryWord_spec (hself operator rfl).1).1
    simpa [Expr.rpn, Expr.rpnWords] using hcut
  | binary left operator right ihl ihr =>
    obtain ⟨hself, hleft, hright⟩ := Expr.allFit_binary.mp htokens
    rw [Expr.literals, List.forall_mem_append] at hliterals
    have hoperands := (ihl hleft hliterals.1).append (ihr hright hliterals.2)
    simpa [Expr.rpn, Expr.rpnWords] using hoperands.append (cutsInto_token hself rfl)
  | logical left operator right ihl ihr =>
    obtain ⟨hself, hleft, hright⟩ := Expr.allFit_logical.mp htokens
    rw [Expr.literals, List.forall_mem_append] at hliterals
    have hoperands := (ihl hleft hliterals.1).append (ihr hright hliterals.2)
    simpa [Expr.rpn, Expr.rpnWords] using hoperands.append (cutsInto_token hself rfl)
  | ternary condition ifTrue ifFalse ihc iht ihf =>
    obtain ⟨hcondition, htrue, hfalse⟩ := Expr.allFit_ternary.mp htokens
    rw [Expr.literals, List.forall_mem_append, List.forall_mem_append] at hliterals
    have hmark : CutsInto "?:".toList ["?:".toList] := cutsInto_plain (by decide) (by decide)
    have hbranches := (iht htrue hliterals.2.1).append ((ihf hfalse hliterals.2.2).append hmark)
    simpa [Expr.rpn, Expr.rpnWords] using (ihc hcondition hliterals.1).append hbranches
  | reference name => exact cutsInto_token (Expr.allFit_reference.mp htokens) rfl
  | assign name value ih =>
    obtain ⟨hself, hvalue⟩ := Expr.allFit_assign.mp htokens
    have hmark : CutsInto "=".toList ["=".toList] := cutsInto_plain (by decide) (by decide)
    have htarget := (cutsInto_token hself rfl).append hmark
    simpa [Expr.rpn, Expr.rpnWords] using (ih hvalue hliterals).append htarget

/-- The words put one expression on the stack, whatever else is there. -/
def Pushes (ws : List (List Char)) (e : Expr) : Prop :=
  ∀ stack, runWords stack ws = some (e :: stack)

theorem Pushes.append {ws vs : List (List Char)} {d e : Expr} (h : Pushes ws d) (h' : Pushes vs e)
    (stack : List Expr) : runWords stack (ws ++ vs) = some (e :: d :: stack) := by
  rw [runWords_append, h, Option.bind_some, h']

theorem runWords_concat {stack stack' : List Expr} {ws : List (List Char)}
    (h : runWords stack ws = some stack') (word : List Char) :
    runWords stack (ws ++ [word]) = step stack' (instruction word) := by
  rw [runWords_append, h, Option.bind_some, runWords_singleton]

theorem eq_operator {t : Token} (h : t.IsLexical)
    (hkind : t.kind ∈ Kind.binaryOperators ++ Kind.logicalOperators) :
    t.withoutLine = operator t.kind ∧ t.lexeme.toList = t.kind.text.toList := by
  have hkinds : ∀ k ∈ Kind.binaryOperators ++ Kind.logicalOperators,
      k ∉ [Kind.identifier, .number, .string] := by decide
  have heq : t.withoutLine = operator t.kind := h.withoutLine_operator (hkinds _ hkind)
  exact ⟨heq, congrArg (String.toList ∘ Token.lexeme) heq⟩

/-- The words of an expression put it on the stack, without its groupings. -/
theorem pushes_rpnWords {e : Expr} (htokens : e.AllFit Token.IsLexical)
    (hliterals : ∀ v ∈ e.literals, v.IsPlain ∧ v.IsUnsigned)
    (hnames : ∀ name ∈ e.names, name ∉ ["neg", "not"]) :
    Pushes e.rpnWords (e.stripped Token.withoutLine) := by
  induction e with
  | literal value =>
    intro stack
    obtain ⟨hplain, hsign⟩ := hliterals value List.mem_cons_self
    rw [Expr.rpnWords, runWords_singleton, instruction_value hplain hsign]
    rfl
  | grouping inner ih => exact ih (Expr.allFit_grouping.mp htokens) hliterals hnames
  | unary operator operand ih =>
    intro stack
    obtain ⟨hself, hoperand⟩ := Expr.allFit_unary.mp htokens
    obtain ⟨hkind, hlexical⟩ := hself operator rfl
    have hkinds : ∀ k ∈ Kind.unaryOperators, k ∉ [Kind.identifier, .number, .string] := by decide
    rw [Expr.rpnWords, runWords_concat (ih hoperand hliterals hnames stack),
      (unaryWord_spec hkind).2, Expr.stripped, hlexical.withoutLine_operator (hkinds _ hkind)]
    rfl
  | binary left operator right ihl ihr =>
    intro stack
    obtain ⟨hself, hleft, hright⟩ := Expr.allFit_binary.mp htokens
    obtain ⟨hkind, hlexical⟩ := hself operator rfl
    rw [Expr.literals, List.forall_mem_append] at hliterals
    rw [Expr.names, List.forall_mem_append] at hnames
    obtain ⟨heq, hword⟩ := eq_operator hlexical (List.mem_append_left _ hkind)
    have hoperands :=
      (ihl hleft hliterals.1 hnames.1).append (ihr hright hliterals.2 hnames.2) stack
    rw [Expr.rpnWords, runWords_concat hoperands, hword, instruction_binary _ hkind, Expr.stripped, heq]
    rfl
  | logical left operator right ihl ihr =>
    intro stack
    obtain ⟨hself, hleft, hright⟩ := Expr.allFit_logical.mp htokens
    obtain ⟨hkind, hlexical⟩ := hself operator rfl
    rw [Expr.literals, List.forall_mem_append] at hliterals
    rw [Expr.names, List.forall_mem_append] at hnames
    obtain ⟨heq, hword⟩ := eq_operator hlexical (List.mem_append_right _ hkind)
    have hoperands :=
      (ihl hleft hliterals.1 hnames.1).append (ihr hright hliterals.2 hnames.2) stack
    rw [Expr.rpnWords, runWords_concat hoperands, hword, instruction_logical _ hkind, Expr.stripped,
      heq]
    rfl
  | ternary condition ifTrue ifFalse ihc iht ihf =>
    intro stack
    obtain ⟨hcondition, htrue, hfalse⟩ := Expr.allFit_ternary.mp htokens
    rw [Expr.literals, List.forall_mem_append, List.forall_mem_append] at hliterals
    rw [Expr.names, List.forall_mem_append, List.forall_mem_append] at hnames
    have hoperands :=
      (ihc hcondition hliterals.1 hnames.1).append (iht htrue hliterals.2.1 hnames.2.1) stack
    have hfalse := ihf hfalse hliterals.2.2 hnames.2.2 (ifTrue.stripped Token.withoutLine ::
      condition.stripped Token.withoutLine :: stack)
    rw [Expr.rpnWords, runWords_append, runWords_append, hoperands, Option.bind_some, hfalse,
      Option.bind_some, runWords_singleton]
    rfl
  | reference name =>
    intro stack
    obtain ⟨hkind, hlexical⟩ := Expr.allFit_reference.mp htokens name rfl
    rw [Expr.rpnWords, runWords_singleton, instruction_name hlexical (List.mem_singleton.mp hkind)
      (hnames _ List.mem_cons_self)]
    rfl
  | assign name value ih =>
    intro stack
    obtain ⟨hself, hvalue⟩ := Expr.allFit_assign.mp htokens
    obtain ⟨hkind, hlexical⟩ := hself name rfl
    rw [Expr.names, List.forall_mem_cons] at hnames
    have htarget := runWords_concat (ih hvalue hliterals hnames.2 stack) name.lexeme.toList
    rw [instruction_name hlexical (List.mem_singleton.mp hkind) hnames.1] at htarget
    rw [Expr.rpnWords, runWords_concat htarget]
    rfl

/-- The text of an expression leaves exactly the expression on the stack. -/
theorem run_rpn {e : Expr} (htokens : e.AllFit Token.IsLexical)
    (hliterals : ∀ v ∈ e.literals, v.IsPlain ∧ v.IsUnsigned)
    (hnames : ∀ name ∈ e.names, name ∉ ["neg", "not"]) :
    run e.rpn = some [e.stripped Token.withoutLine] := by
  rw [run, (cutsInto_rpn htokens hliterals).alone, pushes_rpnWords htokens hliterals hnames]

end Rpn

/-- The expression is in a source that the parser has no report about, as a whole or inside of another
one. The source is read as a program, or as a line that may also be a single expression. -/
inductive Expr.IsIn (source : String) (e : Expr) : Prop where
  | program {outer : Expr}
      (hnone : (parseProgram (Scan.ofSource source).tokens).diagnostics = [])
      (houter : outer ∈ Stmt.expressionsOfAll (parseProgram (Scan.ofSource source).tokens).program)
      (he : e ∈ outer.parts)
  | entry {outer : Expr}
      (hnone : (parseEntry (Scan.ofSource source).tokens).diagnostics = [])
      (houter : outer ∈ (parseEntry (Scan.ofSource source).tokens).entry.expressions)
      (he : e ∈ outer.parts)

/-- No variable is named like an operator, and every literal can be told from its words. -/
structure Expr.IsTellable (e : Expr) : Prop where
  names : ∀ name ∈ e.names, name ∉ ["neg", "not"]
  literals : ∀ v ∈ e.literals, v.IsPlain

theorem Expr.IsIn.isSourced {source : String} {e : Expr} (h : e.IsIn source) : e.IsSourced := by
  cases h with
  | program hnone houter he => exact (isSourced_of_mem_program hnone _ houter).of_mem_parts he
  | entry hnone houter he => exact (isSourced_of_mem_entry hnone _ houter).of_mem_parts he

theorem Expr.IsTellable.run_rpn {source : String} {e : Expr} (h : e.IsTellable) (he : e.IsIn source) :
    Rpn.run e.rpn = some [e.stripped Token.withoutLine] :=
  Rpn.run_rpn he.isSourced.tokens (fun v hv => ⟨h.literals v hv, he.isSourced.literals v hv⟩) h.names

/-- **The reverse Polish text tells the expression.** Reading the text of an expression with a stack ends
with one entry, which is the expression without its groupings and lines. So expressions with the same
text differ in nothing else, whatever sources they are from. -/
theorem rpn_tells_expression {source : String} {e : Expr} (he : e.IsIn source) (h : e.IsTellable) :
    Rpn.run e.rpn = some [e.stripped Token.withoutLine] ∧
      ∀ (source' : String) (e' : Expr), e'.IsIn source' → e'.IsTellable → e'.rpn = e.rpn →
        e'.stripped Token.withoutLine = e.stripped Token.withoutLine := by
  refine ⟨h.run_rpn he, fun source' e' he' h' hrpn => ?_⟩
  have hrun : some [e'.stripped Token.withoutLine] = some [e.stripped Token.withoutLine] := by
    rw [← h'.run_rpn he', hrpn, h.run_rpn he]
  simpa using hrun

/-- A string with a blank, an operator and a backslash in it, and a name that begins like an operator. -/
theorem rpn_tells_expression_assignment :
    let source := "x = -\"a - \\n\" ? 1.5 : !(nots and nil)"
    let minus : Expr := .unary ⟨.minus, "-", none, 1⟩ (.literal (.string "a - \\n"))
    let operation : Expr :=
      .logical (.reference ⟨.identifier, "nots", none, 1⟩) ⟨.andWord, "and", none, 1⟩ (.literal .nil)
    let negation : Expr := .unary ⟨.bang, "!", none, 1⟩ (.grouping operation)
    let e : Expr := .assign ⟨.identifier, "x", none, 1⟩
      (.ternary minus (.literal (.number 1.5)) negation)
    e.rpn = "\"a - \\n\" neg 1.5 nots nil and not ?: x =" ∧ e.IsIn source ∧ e.IsTellable ∧
      Rpn.run e.rpn = some [e.stripped Token.withoutLine] ∧
      ∀ (source' : String) (e' : Expr), e'.IsIn source' → e'.IsTellable → e'.rpn = e.rpn →
        e'.stripped Token.withoutLine = e.stripped Token.withoutLine := by
  intro source minus operation negation e
  have houter : e ∈ (parseEntry (Scan.ofSource source).tokens).entry.expressions := by decide +kernel
  have hin : e.IsIn source := .entry (by decide +kernel) houter List.mem_cons_self
  have htellable : e.IsTellable := ⟨by decide +kernel, by decide +kernel⟩
  exact ⟨by decide +kernel, hin, htellable, rpn_tells_expression hin htellable⟩

end Treewalk
