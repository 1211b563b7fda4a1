import Treewalk.Proofs.Grammar.Sources
import Treewalk.Proofs.Scan.PrintedStatements
import Treewalk.Proofs.Session.ReadBack

set_option autoImplicit false
set_option relaxedAutoImplicit false

/-!
The printed form of a program tells the program.

A printed expression ends where its parentheses close, and inside of them it is read back. A printed
statement begins with a word that tells its form, and goes on no further than its last part does. Only an
`if` could be followed by an `else` that is not its own; since each `else` belongs to the nearest `if`,
the branch in front of an `else` never ends in an `if` without one.
-/

namespace Treewalk

open Treewalk.Grammar

/-! ### Where a printed expression ends -/

/-- The number of open parentheses behind a piece. -/
def Piece.depth (n : Nat) : Piece → Nat
  | .token .leftParen _ _ => n + 1
  | .token .rightParen _ _ => n - 1
  | _ => n

/-- What is left behind the piece at which no parenthesis is open. -/
def afterClosing (n : Nat) : List Piece → List Piece
  | [] => []
  | p :: ps => if p.depth n = 0 then ps else afterClosing (p.depth n) ps

theorem Piece.depth_token {kind : Kind} (h : kind ∉ [.leftParen, .rightParen]) (n : Nat)
    (lexeme : List Char) (literal : Option Value) : (token kind lexeme literal).depth n = n := by
  unfold depth
  split <;> simp_all

/-- Inside of parentheses the pieces are passed over. -/
def Passes (ps : List Piece) : Prop :=
  ∀ n rest, 0 < n → afterClosing n (ps ++ rest) = afterClosing n rest

namespace Passes

variable {ps qs : List Piece}

theorem append (h : Passes ps) (h' : Passes qs) : Passes (ps ++ qs) := by
  intro n rest hn
  rw [List.append_assoc, h n _ hn, h' n rest hn]

theorem cons {p : Piece} (hp : ∀ n, p.depth n = n) (h : Passes ps) : Passes (p :: ps) := by
  intro n rest hn
  rw [List.cons_append, afterClosing, hp, if_neg (Nat.ne_of_gt hn), h n rest hn]

theorem nil : Passes [] :=
  fun _ _ _ => rfl

/-- Parentheses are closed behind what they hold. -/
theorem afterClosing_parenthesised (h : Passes ps) (n : Nat) (rest : List Piece) :
    afterClosing n (parenthesised ps ++ rest) = if n = 0 then rest else afterClosing n rest := by
  have hopen : afterClosing n (parenthesised ps ++ rest) =
      afterClosing (n + 1) (ps ++ Kind.rightParen.piece :: rest) := by
    simp [parenthesised, afterClosing, Piece.depth, Kind.piece]
  rw [hopen, h (n + 1) _ (Nat.succ_pos n)]
  rfl

theorem spaced {kind : Kind} {lexeme : List Char} {literal : Option Value} (h : Passes ps)
    (hkind : kind ∉ [.leftParen, .rightParen]) (h' : Passes qs) :
    Passes (spaced ps (.token kind lexeme literal) qs) :=
  h.append (.cons (fun _ => rfl) (.cons (Piece.depth_token hkind · lexeme literal)
    (.cons (fun _ => rfl) h')))

end Passes

/-- The pieces are passed over inside of parentheses, and outside of them they end where their own are
closed. -/
def Encloses (ps : List Piece) : Prop :=
  Passes ps ∧ ∀ rest, afterClosing 0 (ps ++ rest) = rest

theorem Passes.encloses {ps : List Piece} (h : Passes ps) : Encloses (parenthesised ps) := by
  constructor
  · intro n rest hn
    rw [h.afterClosing_parenthesised, if_neg (Nat.ne_of_gt hn)]
  · intro rest
    rw [h.afterClosing_parenthesised, if_pos rfl]

/-- A single token that is no parenthesis. -/
theorem encloses_singleton {kind : Kind} {lexeme : List Char} {literal : Option Value}
    (h : kind ∉ [.leftParen, .rightParen]) : Encloses [.token kind lexeme literal] := by
  have hdepth : ∀ n, (Piece.token kind lexeme literal).depth n = n := (Piece.depth_token h · _ _)
  refine ⟨.cons hdepth .nil, fun rest => ?_⟩
  rw [List.singleton_append, afterClosing, hdepth, if_pos rfl]

theorem encloses_pieces {e : Expr} (h : e.IsReadable) : Encloses e.pieces := by
  have hkinds : ∀ e : Expr, ∀ k ∈ e.kinds, k ∉ [Kind.leftParen, .rightParen] :=
    Expr.forall_mem_kinds (by decide)
  induction e with
  | literal value =>
    have hliterals : ∀ k ∈ [Kind.falseWord, .trueWord, .nilWord, .number, .string],
        k ∉ [Kind.leftParen, .rightParen] := by decide
    exact encloses_singleton (hliterals _ value.kind_mem)
  | grouping inner ih => exact ih h
  | unary operator operand ih =>
    obtain ⟨hoperator, hoperand⟩ := h
    have hinner : Passes (operator.piece :: operand.pieces) :=
      .cons (Piece.depth_token (hkinds (.unary operator operand) _ hoperator.1) · _ _) (ih hoperand).1
    exact hinner.encloses
  | binary left operator right ihl ihr =>
    obtain ⟨hleft, hoperator, hright⟩ := h
    have hkind := hkinds (.binary left operator right) _ hoperator.1
    exact ((ihl hleft).1.spaced hkind (ihr hright).1).encloses
  | logical left operator right ihl ihr =>
    obtain ⟨hleft, hoperator, hright⟩ := h
    have hkind := hkinds (.logical left operator right) _ hoperator.1
    exact ((ihl hleft).1.spaced hkind (ihr hright).1).encloses
  | ternary condition ifTrue ifFalse ihc iht ihf =>
    obtain ⟨hcondition, htrue, hfalse⟩ := h
    have hbranches : Passes (spaced ifTrue.pieces Kind.colon.piece ifFalse.pieces) :=
      (iht htrue).1.spaced (by decide) (ihf hfalse).1
    exact ((ihc hcondition).1.spaced (by decide) hbranches).encloses
  | reference name => exact encloses_singleton (hkinds (.reference name) _ h.1)
  | assign name value ih =>
    obtain ⟨htarget, hvalue⟩ := h
    have htarget : Passes [name.piece] := (encloses_singleton (hkinds (.reference name) _ htarget.1)).1
    exact (htarget.spaced (by decide) (ih hvalue).1).encloses

/-! ### Printed expressions are told apart -/

/-- An expression of the grammar is told by its tokens. -/
theorem Grammar.Expression.tree_eq {d e : Expression 0} (h : d.tokens = e.tokens) :
    d.tree = e.tree := by
  have hbefore : ∀ g : Expression 0, beforeEnd (g.tokens ++ [.eof 0]) = g.tokens := fun g =>
    beforeEnd_append_finish rfl g.tokens_ne_eof []
  have hd := run_expression_iff.mpr ⟨d, (hbefore d).symm, rfl⟩
  have he := run_expression_iff.mpr ⟨e, (hbefore e).symm, rfl⟩
  rw [h, he] at hd
  simpa using hd.symm

namespace Expr

/-- A printable expression has no tokens with literals. -/
theorem IsPrintable.stripped_bare {e : Expr} (h : e.IsPrintable) :
    e.stripped Token.withoutLine = e.stripped Token.bare := by
  refine stripped_congr fun part hpart t ht => ?_
  have hnone : t.literal = none := ((h.tokens part hpart).isSpelled ht).2
  rw [Token.bare, ← hnone]
  rfl

/-- Two printed expressions are the same, with what follows them, only if the expressions are the same
but for groupings and lines. -/
theorem IsPrintable.pieces_inj {d e : Expr} (hd : d.IsPrintable) (he : e.IsPrintable)
    {rest rest' : List Piece} (h : d.pieces ++ rest = e.pieces ++ rest') :
    d.stripped Token.withoutLine = e.stripped Token.withoutLine ∧ rest = rest' := by
  have hrest : rest = rest' := by
    rw [← (encloses_pieces hd.isReadable).2 rest, h, (encloses_pieces he.isReadable).2 rest']
  have hpieces : d.pieces = e.pieces := List.append_cancel_right (hrest ▸ h)
  obtain ⟨s, hs, hsd⟩ := readsAs_pieces hd.isReadable 0 1
  obtain ⟨t, ht, hte⟩ := readsAs_pieces he.isReadable 0 1
  have htokens : s.tokens = t.tokens := by
    rw [hpieces, ht] at hs
    exact (List.map_inj_right fun _ _ => ScanItem.token.inj).mp hs.symm
  refine ⟨?_, hrest⟩
  calc d.stripped Token.withoutLine
    _ = d.stripped Token.bare := hd.stripped_bare
    _ = s.tree.stripped Token.withoutLine := hsd.symm
    _ = t.tree.stripped Token.withoutLine := by rw [Grammar.Expression.tree_eq htokens]
    _ = e.stripped Token.bare := hte
    _ = e.stripped Token.withoutLine := he.stripped_bare.symm

end Expr

/-! ### Printed statements are told apart -/

/-- The kinds of tokens that a printed expression begins with. -/
def expressionLeads : List Kind :=
  [.leftParen, .identifier, .falseWord, .trueWord, .nilWord, .number, .string]

/-- The kind of the token behind a blank. -/
def nextKind? : List Piece → Option Kind
  | .blank _ :: .token kind _ _ :: _ => some kind
  | _ => none

theorem Expr.IsPrintable.exists_lead {e : Expr} (h : e.IsPrintable) :
    ∃ kind ∈ expressionLeads, ∃ lexeme literal more,
      e.pieces = .token kind lexeme literal :: more := by
  have hreadable := h.isReadable
  clear h
  induction e with
  | literal value =>
    have hkinds : ∀ k ∈ [Kind.falseWord, .trueWord, .nilWord, .number, .string],
        k ∈ expressionLeads := by decide
    exact ⟨value.kind, hkinds _ value.kind_mem, _, _, _, rfl⟩
  | grouping inner ih => exact ih hreadable
  | reference name =>
    have hkind : name.kind = .identifier := List.mem_singleton.mp hreadable.1
    exact ⟨name.kind, by rw [hkind]; decide, _, _, _, rfl⟩
  | _ => exact ⟨.leftParen, by decide, _, _, _, rfl⟩

/-- The same for expressions with a token behind them. -/
theorem Expr.IsPrintable.cons_inj {d e : Expr} (hd : d.IsPrintable) (he : e.IsPrintable) {p : Piece}
    {rest rest' : List Piece} (h : d.pieces ++ p :: rest = e.pieces ++ p :: rest') :
    d.stripped Token.withoutLine = e.stripped Token.withoutLine ∧ rest = rest' := by
  obtain ⟨hexpr, hrest⟩ := hd.pieces_inj he h
  exact ⟨hexpr, (List.cons.inj hrest).2⟩

namespace Stmt

/-- The kind that stands for the form of a statement. -/
def form : Stmt → Kind
  | .expression _ => .identifier
  | .print _ => .printWord
  | .declare _ _ => .varWord
  | .block _ => .leftBrace
  | .branch _ _ _ => .ifWord
  | .loop _ _ _ => .whileWord
  | .switch _ _ _ => .switchWord
  | .breakLoop => .breakWord
  | .continueLoop => .continueWord
  | .exitProgram => .exitWord

/-- The form of a statement that begins with a token of the given kind. -/
def formOf (kind : Kind) : Kind :=
  if kind ∈ expressionLeads then .identifier
  else if kind = .forWord then .whileWord
  else kind

/-- A printed statement begins with a token that tells its form. -/
theorem exists_lead {s : Stmt} (h : s.IsPrintable) : ∃ kind lexeme literal more,
    s.pieces = .token kind lexeme literal :: more ∧ formOf kind = s.form := by
  cases s with
  | expression value =>
    obtain ⟨kind, hkind, lexeme, literal, more, hpieces⟩ := Expr.IsPrintable.exists_lead h
    refine ⟨kind, lexeme, literal, more ++ [Kind.semicolon.piece], ?_, if_pos hkind⟩
    rw [pieces, hpieces]
    rfl
  | loop form condition body =>
    refine ⟨form.kind, _, _, _, rfl, ?_⟩
    cases form <;> rfl
  | _ => exact ⟨_, _, _, _, rfl, rfl⟩

/-- Two printed statements that begin alike are of the same form. -/
theorem form_eq {s t : Stmt} (hs : s.IsPrintable) (ht : t.IsPrintable) {rest rest' : List Piece}
    (h : s.pieces ++ rest = t.pieces ++ rest') : s.form = t.form := by
  obtain ⟨kind, lexeme, literal, more, hpieces, hform⟩ := exists_lead hs
  obtain ⟨kind', lexeme', literal', more', hpieces', hform'⟩ := exists_lead ht
  rw [hpieces, hpieces', List.cons_append, List.cons_append] at h
  obtain ⟨rfl, -, -⟩ := Piece.token.inj (List.cons.inj h).1
  exact hform.symm.trans hform'

/-- No statement begins with an `else` or a closing brace. -/
theorem nextKind?_pieces {s : Stmt} (h : s.IsPrintable) {kind : Kind}
    (hkind : kind ∈ [.elseWord, .rightBrace]) (c : Char) (rest : List Piece) :
    nextKind? (.blank c :: (s.pieces ++ rest)) ≠ some kind := by
  obtain ⟨lead, lexeme, literal, more, hpieces, hform⟩ := exists_lead h
  have hself : ∀ k ∈ [Kind.elseWord, .rightBrace], formOf k = k := by decide
  intro hnext
  rw [hpieces] at hnext
  obtain rfl : lead = kind := Option.some.inj hnext
  rw [hself lead hkind] at hform
  rw [hform] at hkind
  cases s <;> simp [form] at hkind

/-- A block does not end where another statement begins. -/
theorem closingPieces_ne {s : Stmt} (h : s.IsPrintable) (ss : List Stmt) (rest rest' : List Piece) :
    closingPieces ++ rest ≠ piecesOfAll (s :: ss) ++ rest' := by
  intro heq
  have hnext : nextKind? (piecesOfAll (s :: ss) ++ rest') = some .rightBrace := heq ▸ rfl
  rw [piecesOfAll, List.cons_append, List.append_assoc] at hnext
  exact nextKind?_pieces h (by decide) ' ' (piecesOfAll ss ++ rest') hnext

theorem nextKind?_piecesOfAll {ss : List Stmt} (h : ArePrintable ss) (rest : List Piece) :
    nextKind? (piecesOfAll ss ++ (closingPieces ++ rest)) ≠ some .elseWord := by
  cases ss with
  | nil => simp [piecesOfAll, closingPieces, nextKind?, Kind.piece]
  | cons s ss =>
    rw [piecesOfAll, List.cons_append, List.append_assoc]
    exact nextKind?_pieces h.1 (by decide) ' ' (piecesOfAll ss ++ (closingPieces ++ rest))

/-- Behind the cases of a switch comes its default, or the end. -/
theorem nextKind?_fallback (o : Option Stmt) (rest : List Piece) :
    nextKind? (piecesOfOption defaultPieces o ++ (closingPieces ++ rest)) ∈
      [some .defaultWord, some .rightBrace] := by
  cases o with
  | none => exact List.mem_cons_of_mem _ List.mem_cons_self
  | some s => exact List.mem_cons_self

theorem nextKind?_piecesOfCases (cases : List (Expr × Stmt)) {rest : List Piece}
    (h : nextKind? rest ∈ [some .defaultWord, some .rightBrace]) :
    nextKind? (piecesOfCases cases ++ rest) ≠ some .elseWord := by
  cases cases with
  | nil =>
    intro heq
    rw [piecesOfCases, List.nil_append] at heq
    simp [heq] at h
  | cons b bs => simp [piecesOfCases, nextKind?, Kind.piece]

/-- What follows a statement could not be its own: no `else` behind an `if` without one. -/
def Follows (s : Stmt) (rest : List Piece) : Prop :=
  s.isOpen = true → nextKind? rest ≠ some .elseWord

theorem Follows.of_isOpen_eq_false {s : Stmt} (h : s.isOpen = false) (rest : List Piece) :
    s.Follows rest := by
  intro hopen
  rw [h] at hopen
  contradiction

mutual

/-- Two printed statements are the same, with what follows them, only if the statements are the same but
for groupings and lines. -/
theorem pieces_inj : (s : Stmt) → s.IsPrintable → ∀ t : Stmt, t.IsPrintable →
    ∀ rest rest' : List Piece, s.Follows rest → t.Follows rest' →
    s.pieces ++ rest = t.pieces ++ rest' →
    s.stripped Token.withoutLine = t.stripped Token.withoutLine ∧ rest = rest'
  | .expression value, hs, t, ht, rest, rest', _, _, h => by
    have hform := form_eq hs ht h
    cases t with
    | expression value' =>
      have h : value.pieces ++ Kind.semicolon.piece :: rest =
          value'.pieces ++ Kind.semicolon.piece :: rest' := by simpa [pieces] using h
      obtain ⟨hvalue, hrest⟩ := Expr.IsPrintable.cons_inj hs ht h
      exact ⟨congrArg expression hvalue, hrest⟩
    | _ => simp [form] at hform
  | .print value, hs, t, ht, rest, rest', _, _, h => by
    have hform := form_eq hs ht h
    cases t with
    | print value' =>
      have h : value.pieces ++ Kind.semicolon.piece :: rest =
          value'.pieces ++ Kind.semicolon.piece :: rest' := by simpa [pieces] using h
      obtain ⟨hvalue, hrest⟩ := Expr.IsPrintable.cons_inj hs ht h
      exact ⟨congrArg print hvalue, hrest⟩
    | _ => simp [form] at hform
  | .declare name initializer, hs, t, ht, rest, rest', _, _, h => by
    have hform := form_eq hs ht h
    cases t with
    | declare name' initializer' =>
      obtain ⟨hpiece, h⟩ : name.piece = name'.piece ∧
          initializer.pieces ++ Kind.semicolon.piece :: rest =
            initializer'.pieces ++ Kind.semicolon.piece :: rest' := by
        simpa [pieces, spaced] using h
      have hreference : [name.piece] ++ [] = [name'.piece] ++ [] := by rw [hpiece]
      obtain ⟨hname, -⟩ := hs.1.pieces_inj ht.1 hreference
      obtain ⟨hinitializer, hrest⟩ := hs.2.cons_inj ht.2 h
      exact ⟨by rw [stripped, stripped, Expr.reference.inj hname, hinitializer], hrest⟩
    | _ => simp [form] at hform
  | .block statements, hs, t, ht, rest, rest', _, _, h => by
    have hform := form_eq hs ht h
    cases t with
    | block statements' =>
      have h : piecesOfAll statements ++ (closingPieces ++ rest) =
          piecesOfAll statements' ++ (closingPieces ++ rest') := by simpa [pieces] using h
      obtain ⟨hstatements, hrest⟩ := piecesOfAll_inj statements hs statements' ht rest rest' h
      exact ⟨congrArg block hstatements, hrest⟩
    | _ => simp [form] at hform
  | .branch condition thenBranch none, hs, t, ht, rest, rest', hf, hf', h => by
    have hform := form_eq hs ht h
    cases t with
    | branch condition' thenBranch' elseBranch' =>
      obtain ⟨hcondition, hthen, -, -⟩ := hs
      obtain ⟨hcondition', hthen', -, hclosed'⟩ := ht
      have h : condition.pieces ++ .blank ' ' :: (thenBranch.pieces ++ rest) =
          condition'.pieces ++ .blank ' ' ::
            (thenBranch'.pieces ++ (piecesOfOption elsePieces elseBranch' ++ rest')) := by
        simpa [pieces, piecesOfOption] using h
      obtain ⟨hcondition, h⟩ := hcondition.cons_inj hcondition' h
      have hnext : nextKind? rest ≠ some .elseWord := hf rfl
      cases elseBranch' with
      | none =>
        obtain ⟨hthen, hrest⟩ :=
          thenBranch.pieces_inj hthen thenBranch' hthen' rest rest' (fun _ => hnext) (fun _ => hf' rfl) h
        exact ⟨by rw [stripped, stripped, hcondition, hthen], hrest⟩
      | some elseBranch' =>
        -- the `else` would belong to the first statement too
        obtain ⟨-, rfl⟩ := thenBranch.pieces_inj hthen thenBranch' hthen' rest _ (fun _ => hnext)
          (.of_isOpen_eq_false (hclosed' rfl) _) h
        exact absurd rfl hnext
    | _ => simp [form] at hform
  | .branch condition thenBranch (some elseBranch), hs, t, ht, rest, rest', hf, hf', h => by
    have hform := form_eq hs ht h
    cases t with
    | branch condition' thenBranch' elseBranch' =>
      obtain ⟨hcondition, hthen, helse, hclosed⟩ := hs
      obtain ⟨hcondition', hthen', helse', hclosed'⟩ := ht
      have h : condition.pieces ++ .blank ' ' ::
            (thenBranch.pieces ++ (elsePieces ++ (elseBranch.pieces ++ rest))) =
          condition'.pieces ++ .blank ' ' ::
            (thenBranch'.pieces ++ (piecesOfOption elsePieces elseBranch' ++ rest')) := by
        simpa [pieces, piecesOfOption] using h
      obtain ⟨hcondition, h⟩ := hcondition.cons_inj hcondition' h
      have hfollows : thenBranch.Follows (elsePieces ++ (elseBranch.pieces ++ rest)) :=
        .of_isOpen_eq_false (hclosed rfl) _
      cases elseBranch' with
      | none =>
        have hnext' : nextKind? rest' ≠ some .elseWord := hf' rfl
        obtain ⟨-, hrest⟩ :=
          thenBranch.pieces_inj hthen thenBranch' hthen' _ rest' hfollows (fun _ => hnext') h
        rw [← hrest] at hnext'
        exact absurd rfl hnext'
      | some elseBranch' =>
        have h : thenBranch.pieces ++ (elsePieces ++ (elseBranch.pieces ++ rest)) =
            thenBranch'.pieces ++ (elsePieces ++ (elseBranch'.pieces ++ rest')) := by
          simpa [piecesOfOption] using h
        obtain ⟨hthen, h⟩ := thenBranch.pieces_inj hthen thenBranch' hthen' _ _ hfollows
          (.of_isOpen_eq_false (hclosed' rfl) _) h
        obtain ⟨helse, hrest⟩ := elseBranch.pieces_inj helse elseBranch' helse' rest rest' hf hf'
          (List.append_cancel_left h)
        exact ⟨by simp only [stripped, strippedOfOption, hcondition, hthen, helse], hrest⟩
    | _ => simp [form] at hform
  | .loop keyword condition body, hs, t, ht, rest, rest', hf, hf', h => by
    have hform := form_eq hs ht h
    cases t with
    | loop keyword' condition' body' =>
      obtain ⟨hkeyword, hparts⟩ : keyword.kind.piece = keyword'.kind.piece ∧
          condition.pieces ++ .blank ' ' :: (body.pieces ++ rest) =
            condition'.pieces ++ .blank ' ' :: (body'.pieces ++ rest') := by
        simpa [pieces] using h
      obtain ⟨hkind, -, -⟩ := Piece.token.inj hkeyword
      obtain rfl : keyword = keyword' := by cases keyword <;> cases keyword' <;> trivial
      obtain ⟨hcondition, hparts⟩ := hs.1.cons_inj ht.1 hparts
      obtain ⟨hbody, hrest⟩ := body.pieces_inj hs.2 body' ht.2 rest rest' hf hf' hparts
      exact ⟨by rw [stripped, stripped, hcondition, hbody], hrest⟩
    | _ => simp [form] at hform
  | .switch subject branches fallback, hs, t, ht, rest, rest', _, _, h => by
    have hform := form_eq hs ht h
    cases t with
    | switch subject' branches' fallback' =>
      obtain ⟨hsubject, hbranches, hfallback⟩ := hs
      obtain ⟨hsubject', hbranches', hfallback'⟩ := ht
      have h : subject.pieces ++ .blank ' ' :: Kind.leftBrace.piece :: (piecesOfCases branches ++
            (piecesOfOption defaultPieces fallback ++ (closingPieces ++ rest))) =
          subject'.pieces ++ .blank ' ' :: Kind.leftBrace.piece :: (piecesOfCases branches' ++
            (piecesOfOption defaultPieces fallback' ++ (closingPieces ++ rest'))) := by
        simpa [pieces] using h
      obtain ⟨hsubject, h⟩ := hsubject.cons_inj hsubject' h
      obtain ⟨hbranches, h⟩ := piecesOfCases_inj branches hbranches branches' hbranches' _ _
        (nextKind?_fallback fallback rest) (nextKind?_fallback fallback' rest') (List.cons.inj h).2
      obtain ⟨hfallback, hrest⟩ :=
        fallback_inj fallback hfallback fallback' hfallback' rest rest' h
      exact ⟨by rw [stripped, stripped, hsubject, hbranches, hfallback], hrest⟩
    | _ => simp [form] at hform
  | .breakLoop, hs, t, ht, rest, rest', _, _, h => by
    have hform := form_eq hs ht h
    cases t with
    | breakLoop => exact ⟨rfl, List.append_cancel_left h⟩
    | _ => simp [form] at hform
  | .continueLoop, hs, t, ht, rest, rest', _, _, h => by
    have hform := form_eq hs ht h
    cases t with
    | continueLoop => exact ⟨rfl, List.append_cancel_left h⟩
    | _ => simp [form] at hform
  | .exitProgram, hs, t, ht, rest, rest', _, _, h => by
    have hform := form_eq hs ht h
    cases t with
    | exitProgram => exact ⟨rfl, List.append_cancel_left h⟩
    | _ => simp [form] at hform

theorem piecesOfAll_inj : (ss : List Stmt) → ArePrintable ss → ∀ ts : List Stmt, ArePrintable ts →
    ∀ rest rest' : List Piece,
    piecesOfAll ss ++ (closingPieces ++ rest) = piecesOfAll ts ++ (closingPieces ++ rest') →
    strippedOfAll Token.withoutLine ss = strippedOfAll Token.withoutLine ts ∧ rest = rest'
  | [], _, [], _, rest, rest', h => ⟨rfl, List.append_cancel_left h⟩
  | [], _, _ :: _, ⟨ht, _⟩, _, _, h => absurd h (closingPieces_ne ht _ _ _)
  | _ :: _, ⟨hs, _⟩, [], _, _, _, h => absurd h.symm (closingPieces_ne hs _ _ _)
  | s :: ss, ⟨hs, hss⟩, t :: ts, ⟨ht, hts⟩, rest, rest', h => by
    have h : s.pieces ++ (piecesOfAll ss ++ (closingPieces ++ rest)) =
        t.pieces ++ (piecesOfAll ts ++ (closingPieces ++ rest')) := by simpa [piecesOfAll] using h
    obtain ⟨hfirst, hmore⟩ := s.pieces_inj hs t ht _ _
      (fun _ => nextKind?_piecesOfAll hss rest) (fun _ => nextKind?_piecesOfAll hts rest') h
    obtain ⟨hothers, hrest⟩ := piecesOfAll_inj ss hss ts hts rest rest' hmore
    exact ⟨by rw [strippedOfAll, strippedOfAll, hfirst, hothers], hrest⟩

theorem piecesOfCases_inj : (bs : List (Expr × Stmt)) → ArePrintableCases bs →
    ∀ cs : List (Expr × Stmt), ArePrintableCases cs → ∀ rest rest' : List Piece,
    nextKind? rest ∈ [some .defaultWord, some .rightBrace] →
    nextKind? rest' ∈ [some .defaultWord, some .rightBrace] →
    piecesOfCases bs ++ rest = piecesOfCases cs ++ rest' →
    strippedOfCases Token.withoutLine bs = strippedOfCases Token.withoutLine cs ∧ rest = rest'
  | [], _, [], _, rest, rest', _, _, h => ⟨rfl, h⟩
  | [], _, _ :: _, _, rest, rest', hnext, _, h => by
    obtain rfl : rest = _ := h
    simp [piecesOfCases, nextKind?, Kind.piece] at hnext
  | _ :: _, _, [], _, rest, rest', _, hnext, h => by
    obtain rfl : _ = rest' := h
    simp [piecesOfCases, nextKind?, Kind.piece] at hnext
  | (condition, body) :: bs, ⟨hcondition, hbody, hbs⟩, (condition', body') :: cs,
      ⟨hcondition', hbody', hcs⟩, rest, rest', hnext, hnext', h => by
    have h : condition.pieces ++ Kind.colon.piece :: .blank ' ' ::
          (body.pieces ++ (piecesOfCases bs ++ rest)) =
        condition'.pieces ++ Kind.colon.piece :: .blank ' ' ::
          (body'.pieces ++ (piecesOfCases cs ++ rest')) := by
      simpa [piecesOfCases] using h
    obtain ⟨hcondition, h⟩ := hcondition.cons_inj hcondition' h
    obtain ⟨hbody, h⟩ := body.pieces_inj hbody body' hbody' _ _
      (fun _ => nextKind?_piecesOfCases bs hnext) (fun _ => nextKind?_piecesOfCases cs hnext')
      (List.cons.inj h).2
    obtain ⟨hothers, hrest⟩ := piecesOfCases_inj bs hbs cs hcs rest rest' hnext hnext' h
    exact ⟨by rw [strippedOfCases, strippedOfCases, hcondition, hbody, hothers], hrest⟩

theorem fallback_inj : (o : Option Stmt) → IsPrintableOption o →
    ∀ o' : Option Stmt, IsPrintableOption o' → ∀ rest rest' : List Piece,
    piecesOfOption defaultPieces o ++ (closingPieces ++ rest) =
      piecesOfOption defaultPieces o' ++ (closingPieces ++ rest') →
    strippedOfOption Token.withoutLine o = strippedOfOption Token.withoutLine o' ∧ rest = rest'
  | none, _, none, _, rest, rest', h => ⟨rfl, List.append_cancel_left h⟩
  | none, _, some _, _, rest, rest', h => by
    have hnext := congrArg nextKind? h
    simp [piecesOfOption, defaultPieces, closingPieces, nextKind?, Kind.piece] at hnext
  | some _, _, none, _, rest, rest', h => by
    have hnext := congrArg nextKind? h
    simp [piecesOfOption, defaultPieces, closingPieces, nextKind?, Kind.piece] at hnext
  | some s, hs, some t, ht, rest, rest', h => by
    have h : defaultPieces ++ (s.pieces ++ (closingPieces ++ rest)) =
        defaultPieces ++ (t.pieces ++ (closingPieces ++ rest')) := by simpa [piecesOfOption] using h
    have hnext : ∀ rest, nextKind? (closingPieces ++ rest) ≠ some .elseWord := by
      simp [closingPieces, nextKind?, Kind.piece]
    obtain ⟨hbody, hrest⟩ := s.pieces_inj hs t ht _ _ (fun _ => hnext rest) (fun _ => hnext rest')
      (List.append_cancel_left h)
    exact ⟨congrArg some hbody, List.append_cancel_left hrest⟩

end

end Stmt

namespace Program

theorem pieces_inj {p q : Program} (hp : Stmt.ArePrintable p) (hq : Stmt.ArePrintable q)
    (h : p.pieces = q.pieces) :
    Stmt.strippedOfAll Token.withoutLine p = Stmt.strippedOfAll Token.withoutLine q := by
  have hnext : ∀ {p : Program}, Stmt.ArePrintable p →
      nextKind? (.blank '\n' :: p.pieces) ≠ some .elseWord := by
    intro p hp
    cases p with
    | nil => simp [pieces, nextKind?]
    | cons s rest => exact Stmt.nextKind?_pieces hp.1 (by decide) '\n' (.blank '\n' :: pieces rest)
  induction p generalizing q with
  | nil =>
    cases q with
    | nil => rfl
    | cons t ts => simp [pieces] at h
  | cons s ss ih =>
    cases q with
    | nil => simp [pieces] at h
    | cons t ts =>
      obtain ⟨hfirst, hrest⟩ := s.pieces_inj hp.1 t hq.1 _ _ (fun _ => hnext hp.2)
        (fun _ => hnext hq.2) h
      rw [Stmt.strippedOfAll, Stmt.strippedOfAll, hfirst, ih hp.2 hq.2 (List.cons.inj hrest).2]

/-- Printable programs with the same text are the same but for groupings and lines. -/
theorem text_inj {p q : Program} (hp : Stmt.ArePrintable p) (hq : Stmt.ArePrintable q)
    (h : p.text = q.text) :
    Stmt.strippedOfAll Token.withoutLine p = Stmt.strippedOfAll Token.withoutLine q := by
  refine pieces_inj hp hq (AllFit.unique (allFit_pieces hp) (allFit_pieces hq) ?_)
  rw [p.textOf_pieces, q.textOf_pieces, h]

end Program

/-! ### Programs of the grammar can be printed -/

namespace Grammar

/-- The body of a `for` loop is printed as a block. -/
theorem ForHead.isOpen_tree (h : ForHead) (body : Stmt) : (h.tree body).isOpen = false := by
  unfold ForHead.tree ForHead.round
  cases h.initializer.tree <;> cases h.increment <;> rfl

/-- Only statements that end in an `if` without an `else` are printed so. -/
theorem Statement.isOpen_tree : {inLoop dangling : Bool} → (s : Statement inLoop dangling) →
    dangling = false → s.tree.isOpen = false
  | _, _, .expression _ _, _ => rfl
  | _, _, .print _ _ _, _ => rfl
  | _, _, .block _ _ _, _ => rfl
  | _, _, .ifThen _ _, h => absurd h.symm Bool.false_ne_true
  | _, _, .ifElse _ _ _ elseBranch, h => elseBranch.isOpen_tree h
  | _, _, .whileLoop _ body, h => body.isOpen_tree h
  | _, _, .forLoop head body, _ => head.isOpen_tree body.tree
  | _, _, .switch _ _ _ _, _ => rfl
  | _, _, .breakLoop _ _, _ => rfl
  | _, _, .continueLoop _ _, _ => rfl
  | _, _, .exitProgram _ _, _ => rfl

theorem Declaration.isPrintable_tree {d : Declaration} (htokens : ∀ t ∈ d.tokens, t.IsLexical)
    (h : ∀ e ∈ d.tree.expressions, e.IsPrintable) : d.tree.IsPrintable := by
  have hname : (Expr.reference d.name.val).Fits Token.IsLexical :=
    .of_some rfl d.name.property (htokens _ (by simp [Declaration.tokens]))
  exact ⟨⟨Expr.allFit_reference.mpr hname, by simp [Expr.literals]⟩, h _ List.mem_cons_self⟩

theorem Initializer.isPrintable_tree {i : Initializer} (htokens : ∀ t ∈ i.tokens, t.IsLexical)
    (h : ∀ e ∈ Stmt.expressionsOfOption i.tree, e.IsPrintable) : Stmt.IsPrintableOption i.tree := by
  cases i with
  | absent semicolon => trivial
  | declaration d => exact d.isPrintable_tree htokens h
  | expression value semicolon => exact h _ List.mem_cons_self

theorem ForHead.isPrintable_round {h : ForHead} {body : Stmt} (hbody : body.IsPrintable)
    (hincrement : ∀ e ∈ h.incrementLines.map Line.tree, e.IsPrintable) :
    (h.round body).IsPrintable := by
  unfold ForHead.incrementLines at hincrement
  unfold ForHead.round
  cases hcase : h.increment with
  | none => exact ⟨hbody, trivial⟩
  | some e =>
    rw [hcase] at hincrement
    exact ⟨hbody, hincrement _ List.mem_cons_self, trivial⟩

theorem ForHead.isPrintable_tree {h : ForHead} {body : Stmt}
    (htokens : ∀ t ∈ h.tokens, t.IsLexical) (hbody : body.IsPrintable)
    (hexpressions : ∀ e ∈ (h.tree body).expressions, e.IsPrintable) :
    (h.tree body).IsPrintable := by
  rw [h.expressions_tree, h.initializer.map_tree_lines, List.forall_mem_append, List.forall_mem_cons,
    List.forall_mem_append, h.tree_conditionLine] at hexpressions
  obtain ⟨hinitializer, hcondition, -, hincrement⟩ := hexpressions
  have hloop := And.intro hcondition (isPrintable_round hbody hincrement)
  have hfirst := h.initializer.isPrintable_tree
    (fun t ht => htokens t (by simp [ForHead.tokens, ht])) hinitializer
  unfold ForHead.tree
  cases hcase : h.initializer.tree with
  | none => exact hloop
  | some initializer =>
    rw [hcase] at hfirst
    exact ⟨hfirst, hloop, trivial⟩

mutual

theorem Statement.isPrintable_tree : {inLoop dangling : Bool} → (s : Statement inLoop dangling) →
    (∀ t ∈ s.tokens, t.IsLexical) → (∀ e ∈ s.tree.expressions, e.IsPrintable) → s.tree.IsPrintable
  | _, _, .expression _ _, _, h => h _ List.mem_cons_self
  | _, _, .print _ _ _, _, h => h _ List.mem_cons_self
  | _, _, .block _ body _, htokens, h =>
    body.isPrintable_tree (fun t ht => htokens t (by simp [Statement.tokens, ht])) h
  | _, _, .ifThen head thenBranch, htokens, h => by
    rw [Statement.tree, Stmt.expressions, Stmt.expressionsOfOption, List.append_nil,
      List.forall_mem_cons] at h
    have hthen := (List.forall_mem_append.mp htokens).2
    exact ⟨h.1, thenBranch.isPrintable_tree hthen h.2, trivial, by simp⟩
  | _, _, .ifElse head thenBranch _ elseBranch, htokens, h => by
    rw [Statement.tree, Stmt.expressions, Stmt.expressionsOfOption, List.forall_mem_cons,
      List.forall_mem_append] at h
    rw [Statement.tokens, List.forall_mem_append, List.forall_mem_append, List.forall_mem_cons]
      at htokens
    obtain ⟨hcondition, hthen, helse⟩ := h
    obtain ⟨-, hthen', -, helse'⟩ := htokens
    exact ⟨hcondition, thenBranch.isPrintable_tree hthen' hthen,
      elseBranch.isPrintable_tree helse' helse, fun _ => thenBranch.isOpen_tree rfl⟩
  | _, _, .whileLoop head body, htokens, h => by
    obtain ⟨hcondition, hbody⟩ := List.forall_mem_cons.mp h
    exact ⟨hcondition, body.isPrintable_tree (List.forall_mem_append.mp htokens).2 hbody⟩
  | _, _, .forLoop head body, htokens, h => by
    obtain ⟨hhead, hbody⟩ := List.forall_mem_append.mp htokens
    rw [Statement.tree] at h
    have hexpressions : ∀ e ∈ body.tree.expressions, e.IsPrintable := fun e he =>
      h e (by simp [head.expressions_tree, he])
    exact head.isPrintable_tree hhead (body.isPrintable_tree hbody hexpressions) h
  | _, _, .switch head _ branches _, htokens, h => by
    obtain ⟨hsubject, hbranches⟩ := List.forall_mem_cons.mp h
    have htokens : ∀ t ∈ branches.tokens, t.IsLexical := fun t ht =>
      htokens t (by simp [Statement.tokens, ht])
    exact ⟨hsubject, branches.isPrintable htokens hbranches⟩
  | _, _, .breakLoop _ _, _, _ => trivial
  | _, _, .continueLoop _ _, _, _ => trivial
  | _, _, .exitProgram _ _, _, _ => trivial

theorem Sequence.isPrintable_tree : {inLoop : Bool} → (q : Sequence inLoop) →
    (∀ t ∈ q.tokens, t.IsLexical) → (∀ e ∈ Stmt.expressionsOfAll q.tree, e.IsPrintable) →
    Stmt.ArePrintable q.tree
  | _, .nil, _, _ => trivial
  | _, .declaration first rest, htokens, h => by
    obtain ⟨hfirst, hrest⟩ := List.forall_mem_append.mp h
    obtain ⟨hfirst', hrest'⟩ := List.forall_mem_append.mp htokens
    exact ⟨first.isPrintable_tree hfirst' hfirst, rest.isPrintable_tree hrest' hrest⟩
  | _, .statement first rest, htokens, h => by
    obtain ⟨hfirst, hrest⟩ := List.forall_mem_append.mp h
    obtain ⟨hfirst', hrest'⟩ := List.forall_mem_append.mp htokens
    exact ⟨first.isPrintable_tree hfirst' hfirst, rest.isPrintable_tree hrest' hrest⟩

theorem Branches.isPrintable : {inLoop seen : Bool} → (b : Branches inLoop seen) →
    (∀ t ∈ b.tokens, t.IsLexical) →
    (∀ e ∈ Stmt.expressionsOfCases b.cases ++ Stmt.expressionsOfOption b.fallback, e.IsPrintable) →
    Stmt.ArePrintableCases b.cases ∧ Stmt.IsPrintableOption b.fallback
  | _, _, .nil, _, _ => ⟨trivial, trivial⟩
  | _, _, .case _ value _ body rest, htokens, h => by
    simp only [Branches.cases, Branches.fallback, Stmt.expressionsOfCases, Stmt.expressions,
      List.cons_append, List.append_assoc, List.forall_mem_cons, List.forall_mem_append] at h
    simp only [Branches.tokens, List.forall_mem_cons, List.forall_mem_append] at htokens
    obtain ⟨hvalue, hbody, hrest⟩ := h
    obtain ⟨-, -, -, hbody', hrest'⟩ := htokens
    have hbranches := rest.isPrintable hrest' (List.forall_mem_append.mpr hrest)
    exact ⟨⟨hvalue, body.isPrintable_tree hbody' hbody, hbranches.1⟩, hbranches.2⟩
  | _, _, .default _ _ body rest, htokens, h => by
    obtain ⟨hcases, hbody⟩ := List.forall_mem_append.mp h
    simp only [Branches.tokens, List.forall_mem_cons, List.forall_mem_append] at htokens
    obtain ⟨-, -, hbody', hrest'⟩ := htokens
    have hrest : ∀ e ∈ Stmt.expressionsOfCases rest.cases ++ Stmt.expressionsOfOption rest.fallback,
        e.IsPrintable := by
      rw [rest.fallback_eq_none, Stmt.expressionsOfOption, List.append_nil]
      exact hcases
    exact ⟨(rest.isPrintable hrest' hrest).1, body.isPrintable_tree hbody' hbody⟩

end

end Grammar

/-- The parser has no report about the source, and the literals of the program are verbatim. -/
structure IsVerbatimSource (source : String) : Prop where
  diagnostics : (parseProgram (Scan.ofSource source).tokens).diagnostics = []
  literals : ∀ e ∈ Stmt.expressionsOfAll (parseProgram (Scan.ofSource source).tokens).program,
    ∀ v ∈ e.literals, v.IsVerbatim

theorem IsVerbatimSource.arePrintable {source : String} (h : IsVerbatimSource source) :
    Stmt.ArePrintable (parseProgram (Scan.ofSource source).tokens).program := by
  obtain ⟨p, htokens, htree⟩ := exists_program_of_source h.diagnostics
  have hlexical : ∀ t ∈ p.tokens, t.IsLexical := fun t ht =>
    Scan.isLexical_of_mem_found (htokens ▸ ht)
  have hliterals := h.literals
  rw [← htree] at hliterals ⊢
  refine p.isPrintable_tree hlexical fun e he => ?_
  have hsourced : e.IsSourced := p.isSourced_expressions hlexical e he
  exact ⟨hsourced.tokens, fun v hv => (hliterals e he v hv).isReadable (hsourced.literals v hv)⟩

/-- **The printed form tells the program.** Two sources without a report from the parser, whose strings have
no quotes and backslashes in them and whose numbers are finite, have the same printed form only if their
programs are the same without groupings and lines. -/
theorem text_tells_program {source source' : String} (h : IsVerbatimSource source)
    (h' : IsVerbatimSource source')
    (htext : (parseProgram (Scan.ofSource source).tokens).program.text =
      (parseProgram (Scan.ofSource source').tokens).program.text) :
    Stmt.strippedOfAll Token.withoutLine (parseProgram (Scan.ofSource source).tokens).program =
      Stmt.strippedOfAll Token.withoutLine (parseProgram (Scan.ofSource source').tokens).program :=
  Program.text_inj h.arePrintable h'.arePrintable htext

/-- Two layouts and groupings of `if a if b x = -1; else print "x";`, in which the `else` belongs to the
second `if`. -/
theorem text_tells_program_else :
    let source := "if (a) if (b) x = -1; else print \"x\";"
    let source' := "if ((a))\n  if (b) (x = (-(1)));\n  else print (\"x\");"
    IsVerbatimSource source ∧ IsVerbatimSource source' ∧
      (parseProgram (Scan.ofSource source).tokens).program.text =
        "if a if b (x = (-1)); else print \"x\";\n" ∧
      (parseProgram (Scan.ofSource source').tokens).program.text =
        "if a if b (x = (-1)); else print \"x\";\n" ∧
      Stmt.strippedOfAll Token.withoutLine (parseProgram (Scan.ofSource source).tokens).program =
        Stmt.strippedOfAll Token.withoutLine (parseProgram (Scan.ofSource source').tokens).program := by
  intro source source'
  have h : IsVerbatimSource source := ⟨by decide +kernel, by decide +kernel⟩
  have h' : IsVerbatimSource source' := ⟨by decide +kernel, by decide +kernel⟩
  have htext : (parseProgram (Scan.ofSource source).tokens).program.text =
      "if a if b (x = (-1)); else print \"x\";\n" := by decide +kernel
  have htext' : (parseProgram (Scan.ofSource source').tokens).program.text =
      "if a if b (x = (-1)); else print \"x\";\n" := by decide +kernel
  exact ⟨h, h', htext, htext', text_tells_program h h' (htext.trans htext'.symm)⟩

end Treewalk
