import Treewalk.Proofs.Scan.Printed
import Treewalk.Proofs.Session.Prompt

set_option autoImplicit false
set_option relaxedAutoImplicit false

/-!
Printed expressions are read back.

The text of an expression has parentheses around every operation. Its tokens are those of an
expression of the grammar in which each operation is grouped, so no operator can take a part that is
not its own. Without the groupings it is the expression that was printed.
-/

namespace Treewalk

open Treewalk.Grammar

theorem itemsOf_parenthesised (line : Nat) (ps : List Piece) :
    ∃ first last, itemsOf line (parenthesised ps) =
      .token ⟨.leftParen, "(", none, first⟩ ::
        (itemsOf first ps ++ [.token ⟨.rightParen, ")", none, last⟩]) := by
  rw [parenthesised, itemsOf, itemsOf_append]
  exact ⟨_, _, rfl⟩

theorem itemsOf_spaced (line : Nat) (ps qs : List Piece) (kind : Kind) (lexeme : List Char)
    (literal : Option Value) :
    ∃ last next, itemsOf line (spaced ps (.token kind lexeme literal) qs) =
      itemsOf line ps ++ .token ⟨kind, String.ofList lexeme, literal, last⟩ :: itemsOf next qs := by
  rw [spaced, itemsOf_append]
  exact ⟨_, _, rfl⟩

/-- The pieces, from any line on, are the tokens of an expression of the grammar that without
groupings and lines is the given one. -/
def ReadsAs (p : Nat) (ps : List Piece) (e : Expr) : Prop :=
  ∀ line, ∃ s : Expression p,
    itemsOf line ps = s.tokens.map ScanItem.token ∧ s.tree.stripped Token.withoutLine = e

theorem stripped_operation {f : Token → Token} (hf : Token.KeepsSpelling f) (left : Expr)
    (operator : Token) (right : Expr) : (operation left operator right).stripped f =
      operation (left.stripped f) (f operator) (right.stripped f) := by
  simp only [operation, hf.kind]
  split
  · rfl
  · rfl

namespace ReadsAs

variable {ps qs rs : List Piece} {e e' e'' : Expr}

/-- A literal is read as its value, whatever stands around it. -/
theorem literal (p : Nat) (v : Value) : ReadsAs p [v.piece] (.literal v) := by
  intro line
  obtain ⟨last, hitems⟩ := itemsOf_token line v.kind v.quoted.toList v.carried? []
  let word : Token := ⟨v.kind, String.ofList v.quoted.toList, v.carried?, last⟩
  have hvalue : literalValue word = v := by
    cases v with
    | boolean b => cases b <;> rfl
    | _ => rfl
  exact ⟨.literal ⟨word, v.kind_mem⟩, hitems, congrArg Expr.literal hvalue⟩

theorem reference (p : Nat) {name : Token} (h : name.kind ∈ [.identifier]) :
    ReadsAs p [name.piece] (.reference name.bare) := by
  intro line
  obtain ⟨last, hitems⟩ := itemsOf_token line name.kind name.lexeme.toList none []
  rw [String.ofList_toList] at hitems
  exact ⟨.reference ⟨⟨name.kind, name.lexeme, none, last⟩, h⟩, hitems, rfl⟩

/-- What stands between parentheses is an operand of every operator. -/
theorem parenthesised (p : Nat) (h : ReadsAs 0 ps e) : ReadsAs p (parenthesised ps) e := by
  intro line
  obtain ⟨first, last, hitems⟩ := itemsOf_parenthesised line ps
  obtain ⟨s, hs, htree⟩ := h first
  let opening : Terminal [.leftParen] := ⟨⟨.leftParen, "(", none, first⟩, by simp⟩
  let closing : Terminal [.rightParen] := ⟨⟨.rightParen, ")", none, last⟩, by simp⟩
  refine ⟨.grouping opening s closing, ?_, htree⟩
  rw [hitems, hs]
  simp [Expression.tokens, opening, closing]

theorem unary {operator : Token} (hkind : operator.kind ∈ Kind.unaryOperators)
    (h : ReadsAs 8 ps e) : ReadsAs 0 (operator.piece :: ps) (.unary operator.bare e) := by
  intro line
  obtain ⟨last, hitems⟩ := itemsOf_token line operator.kind operator.lexeme.toList none ps
  rw [String.ofList_toList] at hitems
  obtain ⟨s, hs, rfl⟩ := h last
  refine ⟨.unary (by decide) ⟨⟨operator.kind, operator.lexeme, none, last⟩, hkind⟩ s, ?_, rfl⟩
  exact hitems.trans (congrArg _ hs)

/-- Operands that every operator takes make an operation of the operator between them. -/
theorem operation {operator : Token} {q : Nat} (hbinds : binding? operator.kind = some q)
    (hleft : ReadsAs q ps e) (hright : ReadsAs (q + 1) qs e') :
    ReadsAs 0 (spaced ps operator.piece qs) (operation e operator.bare e') := by
  intro line
  obtain ⟨last, next, hitems⟩ :=
    itemsOf_spaced line ps qs operator.kind operator.lexeme.toList none
  rw [String.ofList_toList] at hitems
  obtain ⟨s, hs, rfl⟩ := hleft line
  obtain ⟨s', hs', rfl⟩ := hright next
  refine ⟨.binary (Nat.zero_le q) s ⟨operator.kind, operator.lexeme, none, last⟩ hbinds s', ?_, ?_⟩
  · rw [Expression.tokens, List.map_append, List.map_cons, ← hs, ← hs']
    exact hitems
  · exact stripped_operation (Token.keepsSpelling_mapLine _) ..

theorem ternary (hcondition : ReadsAs 4 ps e) (htrue : ReadsAs 3 qs e')
    (hfalse : ReadsAs 3 rs e'') :
    ReadsAs 0 (spaced ps Kind.question.piece (spaced qs Kind.colon.piece rs))
      (.ternary e e' e'') := by
  intro line
  obtain ⟨last, next, hitems⟩ := itemsOf_spaced line ps (spaced qs Kind.colon.piece rs) .question
    Kind.question.text.toList none
  obtain ⟨last', next', hitems'⟩ :=
    itemsOf_spaced next qs rs .colon Kind.colon.text.toList none
  obtain ⟨s, hs, rfl⟩ := hcondition line
  obtain ⟨s', hs', rfl⟩ := htrue next
  obtain ⟨s'', hs'', rfl⟩ := hfalse next'
  let question : Terminal [.question] := ⟨⟨.question, "?", none, last⟩, by simp⟩
  let colon : Terminal [.colon] := ⟨⟨.colon, ":", none, last'⟩, by simp⟩
  refine ⟨.conditional (Nat.zero_le 3) s question s' colon s'', ?_, rfl⟩
  rw [Expression.tokens, List.map_append, List.map_cons, List.map_append, List.map_cons, ← hs,
    ← hs', ← hs'']
  exact hitems.trans (congrArg _ (congrArg _ hitems'))

theorem assign {name : Token} (hkind : name.kind ∈ [.identifier]) (h : ReadsAs 0 ps e) :
    ReadsAs 0 (spaced [name.piece] Kind.equal.piece ps) (.assign name.bare e) := by
  intro line
  obtain ⟨last, next, hitems⟩ :=
    itemsOf_spaced line [name.piece] ps .equal Kind.equal.text.toList none
  obtain ⟨first, hname⟩ := itemsOf_token line name.kind name.lexeme.toList none []
  rw [String.ofList_toList] at hname
  obtain ⟨s, hs, rfl⟩ := h next
  let equals : Terminal [.equal] := ⟨⟨.equal, "=", none, last⟩, by simp⟩
  refine ⟨.assignment ⟨⟨name.kind, name.lexeme, none, first⟩, hkind⟩ equals s, ?_, rfl⟩
  rw [Expression.tokens, List.map_cons, List.map_cons, ← hs]
  exact hitems.trans (congrArg (· ++ _) hname)

end ReadsAs

theorem operation_of_binary {operator : Token} (h : operator.kind ∈ Kind.binaryOperators)
    (left right : Expr) :
    operation left operator.bare right = .binary left operator.bare right := by
  have hbinary : ∀ k ∈ Kind.binaryOperators, k ∉ [Kind.orWord, .andWord] := by decide
  exact if_neg (hbinary operator.kind h)

theorem operation_of_logical {operator : Token} (h : operator.kind ∈ Kind.logicalOperators)
    (left right : Expr) :
    operation left operator.bare right = .logical left operator.bare right := by
  have hlogical : ∀ k ∈ Kind.logicalOperators, k ∈ [Kind.orWord, .andWord] := by decide
  exact if_pos (hlogical operator.kind h)

theorem exists_binding {k : Kind} (h : k ∈ Kind.binaryOperators ++ Kind.logicalOperators) :
    ∃ q, binding? k = some q := by
  have hsome : ∀ k ∈ Kind.binaryOperators ++ Kind.logicalOperators, (binding? k).isSome := by decide
  exact Option.isSome_iff_exists.mp (hsome k h)

/-- The printed form of an expression is read as the expression, whatever stands around it. -/
theorem readsAs_pieces {e : Expr} (h : e.IsReadable) (p : Nat) :
    ReadsAs p e.pieces (e.stripped Token.bare) := by
  induction e generalizing p with
  | literal value => exact .literal p value
  | grouping inner ih => exact ih h p
  | unary operator operand ih =>
    obtain ⟨hoperator, hoperand⟩ := h
    exact (ReadsAs.unary hoperator.1 (ih hoperand 8)).parenthesised p
  | binary left operator right ihl ihr =>
    obtain ⟨hleft, hoperator, hright⟩ := h
    obtain ⟨q, hq⟩ := exists_binding (List.mem_append_left _ hoperator.1)
    have hread := ReadsAs.operation hq (ihl hleft q) (ihr hright (q + 1))
    rw [operation_of_binary hoperator.1] at hread
    exact hread.parenthesised p
  | logical left operator right ihl ihr =>
    obtain ⟨hleft, hoperator, hright⟩ := h
    obtain ⟨q, hq⟩ := exists_binding (List.mem_append_right _ hoperator.1)
    have hread := ReadsAs.operation hq (ihl hleft q) (ihr hright (q + 1))
    rw [operation_of_logical hoperator.1] at hread
    exact hread.parenthesised p
  | ternary condition ifTrue ifFalse ihc iht ihf =>
    obtain ⟨hcondition, htrue, hfalse⟩ := h
    exact (ReadsAs.ternary (ihc hcondition 4) (iht htrue 3) (ihf hfalse 3)).parenthesised p
  | reference name => exact .reference p h.1
  | assign name value ih =>
    obtain ⟨hname, hvalue⟩ := h
    exact (ReadsAs.assign hname.1 (ih hvalue 0)).parenthesised p

end Treewalk
