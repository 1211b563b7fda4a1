import Treewalk.Proofs.Scan.Layout

set_option autoImplicit false
set_option relaxedAutoImplicit false

/-!
The pieces of a printed program.

A statement is printed with single blanks between its words and expressions, and ends in a semicolon or a
brace. Every word is followed by a blank, a colon or a semicolon, with which no token goes on. So the text
of a program is cut into exactly these pieces.
-/

namespace Treewalk

/-- Operators and names are tokens as they are found in a text, and literals can be read. -/
structure Expr.IsPrintable (e : Expr) : Prop where
  tokens : e.AllFit Token.IsLexical
  literals : ∀ v ∈ e.literals, v.IsReadable

/-- The kind of the keyword that a loop is written with. -/
def LoopForm.kind : LoopForm → Kind
  | .whileLoop => .whileWord
  | .forLoop => .forWord

/-- What announces the second branch of an `if`. -/
def elsePieces : List Piece :=
  [.blank ' ', Kind.elseWord.piece, .blank ' ']

/-- What announces the default branch of a switch. -/
def defaultPieces : List Piece :=
  [.blank ' ', Kind.defaultWord.piece, Kind.colon.piece, .blank ' ']

/-- What ends a block. -/
def closingPieces : List Piece :=
  [.blank ' ', Kind.rightBrace.piece]

namespace Stmt

mutual

/-- The pieces of a printed statement. -/
def pieces : Stmt → List Piece
  | .expression value => value.pieces ++ [Kind.semicolon.piece]
  | .print value =>
    Kind.printWord.piece :: .blank ' ' :: (value.pieces ++ [Kind.semicolon.piece])
  | .declare name initializer =>
    Kind.varWord.piece :: .blank ' ' ::
      spaced [name.piece] Kind.equal.piece (initializer.pieces ++ [Kind.semicolon.piece])
  | .block statements => Kind.leftBrace.piece :: (piecesOfAll statements ++ closingPieces)
  | .branch condition thenBranch elseBranch =>
    Kind.ifWord.piece :: .blank ' ' :: (condition.pieces ++ .blank ' ' ::
      (thenBranch.pieces ++ piecesOfOption elsePieces elseBranch))
  | .loop form condition body =>
    form.kind.piece :: .blank ' ' :: (condition.pieces ++ .blank ' ' :: body.pieces)
  | .switch subject cases fallback =>
    Kind.switchWord.piece :: .blank ' ' :: (subject.pieces ++ .blank ' ' :: Kind.leftBrace.piece ::
      (piecesOfCases cases ++ (piecesOfOption defaultPieces fallback ++ closingPieces)))
  | .breakLoop => [Kind.breakWord.piece, Kind.semicolon.piece]
  | .continueLoop => [Kind.continueWord.piece, Kind.semicolon.piece]
  | .exitProgram => [Kind.exitWord.piece, Kind.semicolon.piece]

/-- The pieces of statements, each with a blank before it. -/
def piecesOfAll : List Stmt → List Piece
  | [] => []
  | s :: rest => .blank ' ' :: (s.pieces ++ piecesOfAll rest)

/-- The pieces of the branches of a switch, each with a blank before it. -/
def piecesOfCases : List (Expr × Stmt) → List Piece
  | [] => []
  | (condition, body) :: rest =>
    .blank ' ' :: Kind.caseWord.piece :: .blank ' ' ::
      (condition.pieces ++ Kind.colon.piece :: .blank ' ' :: (body.pieces ++ piecesOfCases rest))

/-- The pieces of an optional statement, behind those that announce it. -/
def piecesOfOption (announced : List Piece) : Option Stmt → List Piece
  | none => []
  | some s => announced ++ s.pieces

end

/-- The printed statement ends in an `if` without an `else`. -/
def isOpen : Stmt → Bool
  | .branch _ _ none => true
  | .branch _ _ (some elseBranch) => elseBranch.isOpen
  | .loop _ _ body => body.isOpen
  | _ => false

mutual

/-- The expressions of a statement can be printed, and the names that it declares like names that are read,
and no `else` belongs to another `if` than the nearest one. -/
def IsPrintable : Stmt → Prop
  | .expression value => value.IsPrintable
  | .print value => value.IsPrintable
  | .declare name initializer => (Expr.reference name).IsPrintable ∧ initializer.IsPrintable
  | .block statements => ArePrintable statements
  | .branch condition thenBranch elseBranch =>
    condition.IsPrintable ∧ thenBranch.IsPrintable ∧ IsPrintableOption elseBranch ∧
      (elseBranch.isSome → thenBranch.isOpen = false)
  | .loop _ condition body => condition.IsPrintable ∧ body.IsPrintable
  | .switch subject cases fallback =>
    subject.IsPrintable ∧ ArePrintableCases cases ∧ IsPrintableOption fallback
  | .breakLoop => True
  | .continueLoop => True
  | .exitProgram => True

/-- All statements in a row can be printed. -/
def ArePrintable : List Stmt → Prop
  | [] => True
  | s :: rest => s.IsPrintable ∧ ArePrintable rest

/-- All branches of a switch can be printed. -/
def ArePrintableCases : List (Expr × Stmt) → Prop
  | [] => True
  | (condition, body) :: rest =>
    condition.IsPrintable ∧ body.IsPrintable ∧ ArePrintableCases rest

/-- An optional statement can be printed if it is there. -/
def IsPrintableOption : Option Stmt → Prop
  | none => True
  | some s => s.IsPrintable

end

end Stmt

/-- The pieces of a printed program, in which a line ends behind every statement. -/
def Program.pieces : Program → List Piece
  | [] => []
  | s :: rest => s.pieces ++ .blank '\n' :: pieces rest

/-! ### The text of the pieces -/

namespace Stmt

mutual

/-- The text of a statement is that of its pieces. -/
theorem textOf_pieces : (s : Stmt) → textOf s.pieces = s.text.toList
  | .expression value => by
    simp [pieces, text, value.textOf_pieces, Kind.text]
  | .print value => by
    simp [pieces, text, value.textOf_pieces, Kind.text]
  | .declare name initializer => by
    simp [pieces, text, textOf_spaced, initializer.textOf_pieces, Kind.text]
  | .block statements => by
    simp [pieces, text, closingPieces, Kind.text, textOf_piecesOfAll statements]
  | .branch condition thenBranch elseBranch => by
    simp [pieces, text, Kind.text, condition.textOf_pieces, thenBranch.textOf_pieces,
      textOf_piecesOfOption elsePieces " else " rfl elseBranch]
  | .loop form condition body => by
    have hkeyword : form.kind.text = form.keyword := by cases form <;> rfl
    simp [pieces, text, hkeyword, condition.textOf_pieces, body.textOf_pieces]
  | .switch subject cases fallback => by
    simp [pieces, text, closingPieces, Kind.text, subject.textOf_pieces, textOf_piecesOfCases cases,
      textOf_piecesOfOption defaultPieces " default: " rfl fallback]
  | .breakLoop => rfl
  | .continueLoop => rfl
  | .exitProgram => rfl

theorem textOf_piecesOfAll : (ss : List Stmt) → textOf (piecesOfAll ss) = (textOfAll ss).toList
  | [] => rfl
  | s :: rest => by
    simp [piecesOfAll, textOfAll, s.textOf_pieces, textOf_piecesOfAll rest]

theorem textOf_piecesOfCases : (cases : List (Expr × Stmt)) →
    textOf (piecesOfCases cases) = (textOfCases cases).toList
  | [] => rfl
  | (condition, body) :: rest => by
    simp [piecesOfCases, textOfCases, Kind.text, condition.textOf_pieces, body.textOf_pieces,
      textOf_piecesOfCases rest]

theorem textOf_piecesOfOption (announced : List Piece) (text : String)
    (h : textOf announced = text.toList) : (o : Option Stmt) →
    textOf (piecesOfOption announced o) = (textOfOption text o).toList
  | none => rfl
  | some s => by
    simp [piecesOfOption, textOfOption, h, s.textOf_pieces]

end

end Stmt

theorem Program.textOf_pieces (p : Program) : textOf p.pieces = p.text.toList := by
  induction p with
  | nil => rfl
  | cons s rest ih =>
    have htext : Program.text (s :: rest) = s.text ++ "\n" ++ Program.text rest := by
      simp [Program.text]
    simp [pieces, htext, ih, s.textOf_pieces]

/-! ### Cutting the text into its pieces -/

/-- The operator or name of a printable expression is spelled like one. -/
theorem Expr.Fits.isSpelled {e : Expr} {t : Token} (h : e.Fits Token.IsLexical)
    (ht : e.token? = some t) : t.IsSpelled e.kinds ∧ t.literal = none := by
  obtain ⟨hkind, hlexical⟩ := h t ht
  have hkinds : ∀ k ∈ e.kinds, k ∉ [Kind.number, .string] := Expr.forall_mem_kinds (by decide) e
  have hliteral : t.literal = none := IsLexeme.eq_none hlexical (hkinds t.kind hkind)
  have hspelled : IsLexeme t.kind t.lexeme.toList none := hliteral ▸ hlexical
  exact ⟨⟨hkind, hspelled⟩, hliteral⟩

theorem Expr.IsPrintable.isReadable {e : Expr} (h : e.IsPrintable) : e.IsReadable := by
  obtain ⟨htokens, hliterals⟩ := h
  induction e with
  | literal value => exact hliterals value List.mem_cons_self
  | grouping inner ih => exact ih (Expr.allFit_grouping.mp htokens) hliterals
  | unary operator operand ih =>
    obtain ⟨hself, hoperand⟩ := Expr.allFit_unary.mp htokens
    exact ⟨(hself.isSpelled rfl).1, ih hoperand hliterals⟩
  | binary left operator right ihl ihr =>
    obtain ⟨hself, hleft, hright⟩ := Expr.allFit_binary.mp htokens
    obtain ⟨hl, hr⟩ := List.forall_mem_append.mp hliterals
    exact ⟨ihl hleft hl, (hself.isSpelled rfl).1, ihr hright hr⟩
  | logical left operator right ihl ihr =>
    obtain ⟨hself, hleft, hright⟩ := Expr.allFit_logical.mp htokens
    obtain ⟨hl, hr⟩ := List.forall_mem_append.mp hliterals
    exact ⟨ihl hleft hl, (hself.isSpelled rfl).1, ihr hright hr⟩
  | ternary condition ifTrue ifFalse ihc iht ihf =>
    obtain ⟨hcondition, htrue, hfalse⟩ := Expr.allFit_ternary.mp htokens
    obtain ⟨hc, hbranches⟩ := List.forall_mem_append.mp hliterals
    obtain ⟨ht, hf⟩ := List.forall_mem_append.mp hbranches
    exact ⟨ihc hcondition hc, iht htrue ht, ihf hfalse hf⟩
  | reference name => exact ((Expr.allFit_reference.mp htokens).isSpelled rfl).1
  | assign name value ih =>
    obtain ⟨hself, hvalue⟩ := Expr.allFit_assign.mp htokens
    exact ⟨(hself.isSpelled rfl).1, ih hvalue hliterals⟩

/-- The pieces can be cut off, and everything in front of them ends there. -/
def Trails (ps : List Piece) : Prop :=
  ∀ rest, AllFit rest → Stops (textOf rest) → AllFit (ps ++ rest) ∧ Stops (textOf (ps ++ rest))

namespace Trails

variable {ps qs : List Piece}

theorem nil : Trails [] :=
  fun _ hrest hstops => ⟨hrest, hstops⟩

theorem append (h : Trails ps) (h' : Trails qs) : Trails (ps ++ qs) := by
  intro rest hrest hstops
  obtain ⟨hfit, hends⟩ := h' rest hrest hstops
  rw [List.append_assoc]
  exact h _ hfit hends

theorem blank (h : Separable ps) : Trails (.blank ' ' :: ps) := by
  intro rest hrest hstops
  exact ⟨⟨Piece.fits_blank _, h rest hrest hstops⟩, .blank _⟩

/-- A semicolon or colon ends what is in front of it. -/
theorem mark {k : Kind} (hk : k ∈ [.semicolon, .colon]) (h : Trails ps) : Trails (k.piece :: ps) := by
  intro rest hrest hstops
  have hsymbol : ∀ k ∈ [Kind.semicolon, .colon], k ∈ Kind.symbols := by decide
  have hchar : ∃ c ∈ stops, k.text.toList = [c] := by
    simp only [List.mem_cons, List.not_mem_nil, or_false] at hk
    rcases hk with rfl | rfl
    · exact ⟨';', by simp [stops], rfl⟩
    · exact ⟨':', by simp [stops], rfl⟩
  obtain ⟨hfit, hends⟩ := h rest hrest hstops
  obtain ⟨c, hc, htext⟩ := hchar
  refine ⟨⟨Piece.fits_of_stops (.symbol (hsymbol k hk)) hends, hfit⟩, ?_⟩
  rw [List.cons_append, textOf_cons, Kind.text_piece, htext]
  exact .cons hc _

end Trails

theorem Separable.append {ps qs : List Piece} (h : Separable ps) (h' : Trails qs) :
    Separable (ps ++ qs) := by
  intro rest hrest hstops
  obtain ⟨hfit, hends⟩ := h' rest hrest hstops
  rw [List.append_assoc]
  exact h _ hfit hends

theorem Separable.keyword {k : Kind} {ps : List Piece} (hk : k ∈ Kind.keywords) (h : Trails ps) :
    Separable (k.piece :: ps) :=
  (separable_singleton (.keyword hk)).append h

theorem Separable.symbol {k : Kind} {ps : List Piece} (hk : k ∈ Kind.symbols) (h : Trails ps) :
    Separable (k.piece :: ps) :=
  (separable_singleton (.symbol hk)).append h

theorem Trails.elsePieces {ps : List Piece} (h : Separable ps) : Trails (elsePieces ++ ps) :=
  .blank (.keyword (by decide) (.blank h))

theorem Trails.defaultPieces {ps : List Piece} (h : Separable ps) : Trails (defaultPieces ++ ps) :=
  .blank (.keyword (by decide) (.mark (by decide) (.blank h)))

theorem trails_semicolon : Trails [Kind.semicolon.piece] :=
  .mark (by decide) .nil

theorem trails_closingPieces : Trails closingPieces :=
  .blank (.symbol (by decide) .nil)

theorem Expr.IsPrintable.separable {e : Expr} (h : e.IsPrintable) : Separable e.pieces :=
  separable_pieces h.isReadable

namespace Stmt

mutual

theorem separable : (s : Stmt) → s.IsPrintable → Separable s.pieces
  | .expression _, h => h.separable.append trails_semicolon
  | .print _, h => .keyword (by decide) (.blank (h.separable.append trails_semicolon))
  | .declare _ _, ⟨hname, hinitializer⟩ =>
    .keyword (by decide) (.blank (hname.separable.spaced (.symbol (by decide))
      (hinitializer.separable.append trails_semicolon)))
  | .block statements, h =>
    .symbol (by decide) ((trails_piecesOfAll statements h).append trails_closingPieces)
  | .branch _ thenBranch elseBranch, ⟨hcondition, hthen, helse, _⟩ => by
    have hthen := (thenBranch.separable hthen).append
      (trails_piecesOfOption Trails.elsePieces elseBranch helse)
    exact .keyword (by decide) (.blank (hcondition.separable.append (.blank hthen)))
  | .loop form _ body, ⟨hcondition, hbody⟩ => by
    have hkind : form.kind ∈ Kind.keywords := by cases form <;> decide
    exact .keyword hkind (.blank (hcondition.separable.append (.blank (body.separable hbody))))
  | .switch _ cases fallback, ⟨hsubject, hcases, hfallback⟩ => by
    have hbranches := (trails_piecesOfCases cases hcases).append
      ((trails_piecesOfOption Trails.defaultPieces fallback hfallback).append trails_closingPieces)
    exact .keyword (by decide) (.blank
      (hsubject.separable.append (.blank (.symbol (by decide) hbranches))))
  | .breakLoop, _ => .keyword (by decide) trails_semicolon
  | .continueLoop, _ => .keyword (by decide) trails_semicolon
  | .exitProgram, _ => .keyword (by decide) trails_semicolon

theorem trails_piecesOfAll : (ss : List Stmt) → ArePrintable ss → Trails (piecesOfAll ss)
  | [], _ => .nil
  | s :: rest, ⟨hs, hrest⟩ => .blank ((s.separable hs).append (trails_piecesOfAll rest hrest))

theorem trails_piecesOfCases : (cases : List (Expr × Stmt)) → ArePrintableCases cases →
    Trails (piecesOfCases cases)
  | [], _ => .nil
  | (condition, body) :: rest, ⟨hcondition, hbody, hrest⟩ => by
    have hbody := (body.separable hbody).append (trails_piecesOfCases rest hrest)
    exact .blank (.keyword (by decide) (.blank
      (hcondition.separable.append (.mark (by decide) (.blank hbody)))))

theorem trails_piecesOfOption {announced : List Piece}
    (hannounced : ∀ {ps : List Piece}, Separable ps → Trails (announced ++ ps)) :
    (o : Option Stmt) → IsPrintableOption o → Trails (piecesOfOption announced o)
  | none, _ => .nil
  | some s, h => hannounced (s.separable h)

end

end Stmt

/-- The text of a program is cut into the pieces of the program. -/
theorem Program.allFit_pieces {p : Program} (h : Stmt.ArePrintable p) : AllFit p.pieces := by
  induction p with
  | nil => trivial
  | cons s rest ih =>
    have hline : AllFit (.blank '\n' :: pieces rest) :=
      ⟨Piece.fits_blank_of_mem (by simp) _, ih h.2⟩
    exact s.separable h.1 _ hline (.cons (by simp [stops]) _)

end Treewalk
