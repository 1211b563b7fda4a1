import Treewalk.Parse.Stmt
import Treewalk.Proofs.Grammar.Expressions

set_option autoImplicit false
set_option relaxedAutoImplicit false

/-!
The statement reader accepts exactly the statements of the grammar.

Expressions inside of statements always end at a fixed token, so their readers are put in terms of
the grammar first. Then one induction on the trees shows that they are read, and one on the budget
of the reader that what is read without a complaint is a tree.
-/

namespace Treewalk

open Treewalk.Grammar Treewalk.Parser

variable {β : Type} {finish : Token} {tokens rest : List Token}

theorem Grammar.Terminal.kind_eq {k : Kind} (t : Terminal [k]) : t.val.kind = k :=
  List.mem_singleton.mp t.property

/-- A token of the given kind, as a terminal of the grammar. -/
def terminal {k : Kind} {t : Token} (h : t.kind = k) : Terminal [k] :=
  ⟨t, List.mem_singleton.mpr h⟩

theorem reads_expect_terminal {k : Kind} {context : String} (t : Terminal [k])
    (rest : List Token) : (expect k context).Reads finish (t.val :: rest) () rest :=
  reads_expect.mpr ⟨t.val, t.kind_eq, rfl⟩

/-- An expression up to a token that ends it, and what follows. -/
theorem reads_delimited (hf : finish.kind = .eof) {k : Kind} (hk : holds? k = none)
    {context : String} {f : Expr → Parser β} {b : β} :
    (do let value ← expression; expect k context; f value : Parser β).Reads finish tokens b rest ↔
      ∃ (s : Expression 0) (t : Terminal [k]) (mid : List Token),
        tokens = s.tokens ++ t.val :: mid ∧ (f s.tree).Reads finish mid b rest := by
  constructor
  · intro h
    obtain ⟨value, mid, hvalue, h₁⟩ := reads_bind.mp h
    obtain ⟨_, mid', hend, h₂⟩ := reads_bind.mp h₁
    obtain ⟨t, ht, rfl⟩ := reads_expect.mp hend
    obtain ⟨s, rfl, rfl, -⟩ := (reads_expression_iff hf).mp hvalue
    exact ⟨s, terminal ht, mid', rfl, h₂⟩
  · rintro ⟨s, t, mid, rfl, h⟩
    have hclosed : Closed 0 (t.val :: mid) := by
      rw [closed_cons, t.kind_eq, hk]
      simp
    have hvalue := (reads_expression_iff hf).mpr ⟨s, rfl, rfl, hclosed⟩
    exact hvalue.bind ((reads_expect_terminal t mid).bind h)

theorem reads_expressionStatement_iff (hf : finish.kind = .eof) {s : Stmt} :
    expressionStatement.Reads finish tokens s rest ↔
      ∃ (e : Expression 0) (semicolon : Terminal [.semicolon]),
        tokens = e.tokens ++ semicolon.val :: rest ∧ .expression e.tree = s := by
  rw [expressionStatement, reads_delimited hf rfl]
  constructor
  · rintro ⟨e, t, mid, rfl, h⟩
    obtain ⟨rfl, rfl⟩ := reads_pure.mp h
    exact ⟨e, t, rfl, rfl⟩
  · rintro ⟨e, t, rfl, rfl⟩
    exact ⟨e, t, rest, rfl, .pure _ _⟩

theorem reads_variableDeclaration_iff (hf : finish.kind = .eof) {s : Stmt}
    (keyword : Terminal [.varWord]) :
    variableDeclaration.Reads finish tokens s rest ↔
      ∃ d : Declaration, d.keyword = keyword ∧ keyword.val :: tokens = d.tokens ++ rest ∧
        d.tree = s := by
  constructor
  · intro h
    obtain ⟨o, mid, ho, h₁⟩ := reads_bind.mp h
    cases o with
    | none => exact absurd h₁ not_reads_unexpected
    | some name =>
      obtain ⟨rfl, hname⟩ := reads_accept_some.mp ho
      obtain ⟨o, mid', ho', h₂⟩ := reads_bind.mp h₁
      cases o with
      | none =>
        obtain ⟨rfl, -⟩ := reads_accept_none.mp ho'
        obtain ⟨_, mid', hend, h₃⟩ := reads_bind.mp h₂
        obtain ⟨t, ht, rfl⟩ := reads_expect.mp hend
        obtain ⟨rfl, rfl⟩ := reads_pure.mp h₃
        exact ⟨⟨keyword, ⟨name, hname⟩, none, terminal ht⟩, rfl, rfl, rfl⟩
      | some equals =>
        obtain ⟨rfl, hequals⟩ := reads_accept_some.mp ho'
        obtain ⟨e, t, mid, rfl, h₃⟩ := (reads_delimited hf rfl).mp h₂
        obtain ⟨rfl, rfl⟩ := reads_pure.mp h₃
        refine ⟨⟨keyword, ⟨name, hname⟩, some (⟨equals, hequals⟩, e), t⟩, rfl, ?_, rfl⟩
        simp [Declaration.tokens]
  · rintro ⟨⟨_, name, initializer, semicolon⟩, rfl, htokens, rfl⟩
    cases initializer with
    | none =>
      simp only [Declaration.tokens, Option.map_none, Option.getD_none, List.nil_append,
        List.cons_append, List.cons.injEq, true_and] at htokens
      subst htokens
      refine (Reads.accept name.property _).bind ?_
      refine (Reads.decline ?_).bind
        ((reads_expect_terminal semicolon rest).bind (.pure _ _))
      simp [semicolon.kind_eq]
    | some i =>
      obtain ⟨equals, e⟩ := i
      simp only [Declaration.tokens, Option.map_some, Option.getD_some, List.append_assoc,
        List.cons_append, List.nil_append, List.cons.injEq, true_and] at htokens
      subst htokens
      refine (Reads.accept name.property _).bind
        ((Reads.accept equals.property _).bind ?_)
      exact (reads_delimited hf rfl).mpr ⟨e, semicolon, rest, rfl, .pure _ _⟩

/-- A keyword, an expression between parentheses, and what follows. -/
theorem reads_head (hf : finish.kind = .eof) {keyword : Kind} {opens closes : String}
    {f : Expr → Parser β} {b : β} {word : Token} (hword : word.kind = keyword) :
    (do
      advance
      expect .leftParen opens
      let value ← expression
      expect .rightParen closes
      f value : Parser β).Reads finish (word :: tokens) b rest ↔
      ∃ (h : Head keyword) (mid : List Token),
        word :: tokens = h.tokens ++ mid ∧ (f h.value.tree).Reads finish mid b rest := by
  constructor
  · intro h
    obtain ⟨_, mid, hadvance, h₁⟩ := reads_bind.mp h
    obtain rfl := reads_advance.mp hadvance
    obtain ⟨_, mid, hopen, h₂⟩ := reads_bind.mp h₁
    obtain ⟨t, ht, hmid⟩ := reads_expect.mp hopen
    obtain ⟨e, t', mid', rfl, h₃⟩ := (reads_delimited hf rfl).mp h₂
    refine ⟨⟨terminal hword, terminal ht, e, t'⟩, mid', ?_, h₃⟩
    have htokens : tokens = t :: (e.tokens ++ t'.val :: mid') := hmid
    simp [Head.tokens, htokens, terminal]
  · rintro ⟨⟨word', opening, e, closing⟩, mid, htokens, h⟩
    simp only [Head.tokens, List.cons_append, List.append_assoc, List.nil_append,
      List.cons.injEq] at htokens
    obtain ⟨rfl, rfl⟩ := htokens
    refine (Reads.advance _ _).bind ((reads_expect_terminal opening _).bind ?_)
    exact (reads_delimited hf rfl).mpr ⟨e, closing, mid, rfl, h⟩

/-- The kinds of tokens that an expression begins with. -/
def expressionStarts : List Kind :=
  [.falseWord, .trueWord, .nilWord, .number, .string, .identifier, .leftParen, .bang, .minus]

theorem Grammar.Expression.exists_head {p : Nat} (e : Expression p) :
    ∃ t ts, e.tokens = t :: ts ∧ t.kind ∈ expressionStarts := by
  induction e with
  | literal word =>
    have starts : ∀ k ∈ [Kind.falseWord, .trueWord, .nilWord, .number, .string],
        k ∈ expressionStarts := by decide
    exact ⟨word.val, [], rfl, starts _ word.property⟩
  | reference name =>
    exact ⟨name.val, [], rfl, by simp [name.kind_eq, expressionStarts]⟩
  | grouping opening inner closing _ =>
    exact ⟨opening.val, _, rfl, by simp [opening.kind_eq, expressionStarts]⟩
  | unary _ operator operand _ =>
    have starts : ∀ k ∈ [Kind.bang, .minus], k ∈ expressionStarts := by decide
    exact ⟨operator.val, operand.tokens, rfl, starts _ operator.property⟩
  | binary _ left operator _ right ihl _ =>
    obtain ⟨t, ts, htokens, ht⟩ := ihl
    exact ⟨t, ts ++ operator :: right.tokens, by simp [Expression.tokens, htokens], ht⟩
  | conditional _ condition question ifTrue colon ifFalse ihc _ _ =>
    obtain ⟨t, ts, htokens, ht⟩ := ihc
    exact ⟨t, ts ++ question.val :: (ifTrue.tokens ++ colon.val :: ifFalse.tokens),
      by simp [Expression.tokens, htokens], ht⟩
  | assignment name equals value _ =>
    exact ⟨name.val, _, rfl, by simp [name.kind_eq, expressionStarts]⟩

theorem Grammar.Expression.nextNot {p : Nat} (e : Expression p) {kinds : List Kind}
    (h : ∀ k ∈ expressionStarts, k ∉ kinds) (tokens : List Token) :
    NextNot kinds (e.tokens ++ tokens) := by
  obtain ⟨t, ts, htokens, ht⟩ := e.exists_head
  rw [htokens, List.cons_append, nextNot_cons]
  exact h t.kind ht

/-- An expression that may be missing, up to the token that ends it, and what follows. -/
theorem reads_optional (hf : finish.kind = .eof) {k : Kind} (hk : holds? k = none)
    (hstart : k ∉ expressionStarts) {context : String} {f : Option Expr → Parser β} {b : β} :
    (do let value ← expressionUnless k; expect k context; f value : Parser β).Reads
        finish tokens b rest ↔
      ∃ (o : Option (Expression 0)) (t : Terminal [k]) (mid : List Token),
        tokens = (o.map Expression.tokens).getD [] ++ t.val :: mid ∧
          (f (o.map Expression.tree)).Reads finish mid b rest := by
  constructor
  · intro h
    obtain ⟨o, mid, ho, h₁⟩ := reads_bind.mp h
    obtain ⟨_, mid', hend, h₂⟩ := reads_bind.mp h₁
    obtain ⟨t, ht, rfl⟩ := reads_expect.mp hend
    obtain ⟨next, mid, hnext, h₃⟩ := reads_bind.mp ho
    obtain ⟨rfl, rfl⟩ := reads_currentKind.mp hnext
    split at h₃
    · obtain ⟨rfl, rfl⟩ := reads_pure.mp h₃
      exact ⟨none, terminal ht, mid', rfl, h₂⟩
    · obtain ⟨e, mid, he, h₄⟩ := reads_bind.mp h₃
      obtain ⟨rfl, rfl⟩ := reads_pure.mp h₄
      obtain ⟨s, rfl, rfl, -⟩ := (reads_expression_iff hf).mp he
      exact ⟨some s, terminal ht, mid', rfl, h₂⟩
  · rintro ⟨o, t, mid, rfl, h⟩
    have hread : (expressionUnless k).Reads finish
        ((o.map Expression.tokens).getD [] ++ t.val :: mid) (o.map Expression.tree)
        (t.val :: mid) := by
      refine (Reads.currentKind _).bind ?_
      cases o with
      | none =>
        simp only [Option.map_none, Option.getD_none, List.nil_append, List.headD_cons, t.kind_eq,
          if_true]
        exact Reads.pure _ _
      | some s =>
        simp only [Option.map_some, Option.getD_some]
        obtain ⟨t', ts, htokens, ht'⟩ := s.exists_head
        have hne : ((s.tokens ++ t.val :: mid).headD finish).kind ≠ k := by
          rw [htokens]
          intro heq
          exact hstart (heq ▸ ht')
        have hclosed : Closed 0 (t.val :: mid) := by
          rw [closed_cons, t.kind_eq, hk]
          simp
        rw [if_neg hne]
        have hs := (reads_expression_iff hf).mpr ⟨s, rfl, rfl, hclosed⟩
        exact hs.bind (.pure _ _)
    exact hread.bind ((reads_expect_terminal t mid).bind h)

theorem reads_forInitializer_iff (hf : finish.kind = .eof) {o : Option Stmt} :
    forInitializer.Reads finish tokens o rest ↔
      ∃ i : Initializer, tokens = i.tokens ++ rest ∧ i.tree = o := by
  constructor
  · intro h
    obtain ⟨a, mid, ha, h₁⟩ := reads_bind.mp h
    cases a with
    | some semicolon =>
      obtain ⟨rfl, hk⟩ := reads_accept_some.mp ha
      obtain ⟨rfl, rfl⟩ := reads_pure.mp h₁
      exact ⟨.absent ⟨semicolon, hk⟩, rfl, rfl⟩
    | none =>
      obtain ⟨rfl, -⟩ := reads_accept_none.mp ha
      obtain ⟨a, mid', ha', h₂⟩ := reads_bind.mp h₁
      cases a with
      | some keyword =>
        obtain ⟨rfl, hk⟩ := reads_accept_some.mp ha'
        obtain ⟨s, mid, hs, h₃⟩ := reads_bind.mp h₂
        obtain ⟨rfl, rfl⟩ := reads_pure.mp h₃
        obtain ⟨d, -, hd, rfl⟩ := (reads_variableDeclaration_iff hf ⟨keyword, hk⟩).mp hs
        exact ⟨.declaration d, hd, rfl⟩
      | none =>
        obtain ⟨rfl, -⟩ := reads_accept_none.mp ha'
        obtain ⟨s, mid, hs, h₃⟩ := reads_bind.mp h₂
        obtain ⟨rfl, rfl⟩ := reads_pure.mp h₃
        obtain ⟨e, semicolon, rfl, rfl⟩ := (reads_expressionStatement_iff hf).mp hs
        exact ⟨.expression e semicolon, by simp [Initializer.tokens], rfl⟩
  · rintro ⟨i, rfl, rfl⟩
    cases i with
    | absent semicolon =>
      exact (Reads.accept semicolon.property _).bind (.pure _ _)
    | declaration d =>
      have hd : variableDeclaration.Reads finish (d.tokens.tail ++ rest) d.tree rest :=
        (reads_variableDeclaration_iff hf d.keyword).mpr ⟨d, rfl, rfl, rfl⟩
      refine (Reads.decline ?_).bind
        ((Reads.accept d.keyword.property _).bind
          (hd.bind (.pure _ _)))
      simp [Initializer.tokens, Declaration.tokens, d.keyword.kind_eq]
    | expression e semicolon =>
      have hs : expressionStatement.Reads finish
          ((Initializer.expression e semicolon).tokens ++ rest) (.expression e.tree) rest :=
        (reads_expressionStatement_iff hf).mpr ⟨e, semicolon, by simp [Initializer.tokens], rfl⟩
      have hnext : ∀ k ∉ expressionStarts,
          NextNot [k] ((Initializer.expression e semicolon).tokens ++ rest) := by
        intro k hk
        rw [Initializer.tokens, List.append_assoc]
        exact e.nextNot (by grind) _
      exact (Reads.decline (hnext _ (by decide))).bind
        ((Reads.decline (hnext _ (by decide))).bind
          (hs.bind (.pure _ _)))

/-- What the reader keeps of the head of a `for` loop. -/
def Grammar.ForHead.clauses (h : ForHead) : ForClauses :=
  ⟨h.initializer.tree, h.condition.map Expression.tree, h.increment.map Expression.tree⟩

theorem Grammar.ForHead.statement_clauses (h : ForHead) (body : Stmt) :
    h.clauses.statement body = h.tree body := by
  obtain ⟨_, _, initializer, condition, _, increment, _⟩ := h
  cases initializer <;> cases increment <;> rfl

theorem reads_forClauses_iff (hf : finish.kind = .eof) {word : Token} (hword : word.kind = .forWord)
    {c : ForClauses} :
    forClauses.Reads finish (word :: tokens) c rest ↔
      ∃ h : ForHead, word :: tokens = h.tokens ++ rest ∧ h.clauses = c := by
  constructor
  · intro h
    obtain ⟨_, mid, hadvance, h₁⟩ := reads_bind.mp h
    obtain rfl := reads_advance.mp hadvance
    obtain ⟨_, mid, hopen, h₂⟩ := reads_bind.mp h₁
    obtain ⟨opening, ho, hmid⟩ := reads_expect.mp hopen
    obtain ⟨initializer, mid', hi, h₃⟩ := reads_bind.mp h₂
    obtain ⟨i, rfl, rfl⟩ := (reads_forInitializer_iff hf).mp hi
    obtain ⟨condition, semicolon, mid, rfl, h₄⟩ := (reads_optional hf rfl (by decide)).mp h₃
    obtain ⟨increment, closing, mid, rfl, h₅⟩ := (reads_optional hf rfl (by decide)).mp h₄
    obtain ⟨rfl, rfl⟩ := reads_pure.mp h₅
    have htokens : tokens = opening :: _ := hmid
    refine ⟨⟨terminal hword, terminal ho, i, condition, semicolon, increment, closing⟩, ?_, rfl⟩
    simp [ForHead.tokens, terminal, htokens]
  · rintro ⟨⟨word', opening, i, condition, semicolon, increment, closing⟩, htokens, rfl⟩
    simp only [ForHead.tokens, List.cons_append, List.append_assoc, List.nil_append,
      List.cons.injEq] at htokens
    obtain ⟨rfl, rfl⟩ := htokens
    refine (Reads.advance _ _).bind ((reads_expect_terminal opening _).bind ?_)
    refine ((reads_forInitializer_iff hf).mpr ⟨i, rfl, rfl⟩).bind ?_
    refine (reads_optional hf rfl (by decide)).mpr ⟨condition, semicolon, _, rfl, ?_⟩
    refine (reads_optional hf rfl (by decide)).mpr ⟨increment, closing, rest, rfl, ?_⟩
    exact Reads.pure _ _

theorem reads_printStatement_iff (hf : finish.kind = .eof) {word : Token} {s : Stmt} :
    printStatement.Reads finish (word :: tokens) s rest ↔
      ∃ (e : Expression 0) (semicolon : Terminal [.semicolon]),
        tokens = e.tokens ++ semicolon.val :: rest ∧ .print e.tree = s := by
  constructor
  · intro h
    obtain ⟨_, mid, hadvance, h₁⟩ := reads_bind.mp h
    obtain rfl := reads_advance.mp hadvance
    obtain ⟨e, semicolon, mid, htokens, h₂⟩ := (reads_delimited hf rfl).mp h₁
    obtain ⟨rfl, rfl⟩ := reads_pure.mp h₂
    exact ⟨e, semicolon, htokens, rfl⟩
  · rintro ⟨e, semicolon, rfl, rfl⟩
    exact (Reads.advance _ _).bind
      ((reads_delimited hf rfl).mpr ⟨e, semicolon, rest, rfl, .pure _ _⟩)

theorem reads_exitStatement_iff {word : Token} {s : Stmt} :
    exitStatement.Reads finish (word :: tokens) s rest ↔
      ∃ semicolon : Terminal [.semicolon], tokens = semicolon.val :: rest ∧ .exitProgram = s := by
  constructor
  · intro h
    obtain ⟨_, mid, hadvance, h₁⟩ := reads_bind.mp h
    obtain rfl := reads_advance.mp hadvance
    obtain ⟨_, mid, hend, h₂⟩ := reads_bind.mp h₁
    obtain ⟨t, ht, htokens⟩ := reads_expect.mp hend
    obtain ⟨rfl, rfl⟩ := reads_pure.mp h₂
    exact ⟨terminal ht, htokens, rfl⟩
  · rintro ⟨semicolon, rfl, rfl⟩
    exact (Reads.advance _ _).bind
      ((reads_expect_terminal semicolon rest).bind (.pure _ _))

theorem reads_checkInLoop_iff {inLoop : Bool} {word : Token} :
    (checkInLoop inLoop word).Reads finish tokens () rest ↔ inLoop = true ∧ tokens = rest := by
  cases inLoop with
  | false => simpa [checkInLoop] using not_reads_record
  | true => simp [checkInLoop, reads_pure]

/-- What `break` and `continue` have in common: a keyword that is fine in loops, and a semicolon. -/
theorem reads_loopKeyword_iff {inLoop : Bool} {word : Token} {context : String} {s s' : Stmt} :
    (do
      let keyword ← current
      advance
      checkInLoop inLoop keyword
      expect .semicolon context
      pure s' : Parser Stmt).Reads finish (word :: tokens) s rest ↔
      inLoop = true ∧ ∃ semicolon : Terminal [.semicolon],
        tokens = semicolon.val :: rest ∧ s' = s := by
  constructor
  · intro h
    obtain ⟨keyword, mid, hcurrent, h₁⟩ := reads_bind.mp h
    obtain ⟨rfl, rfl⟩ := reads_current.mp hcurrent
    obtain ⟨_, mid, hadvance, h₂⟩ := reads_bind.mp h₁
    obtain rfl := reads_advance.mp hadvance
    obtain ⟨_, mid, hcheck, h₃⟩ := reads_bind.mp h₂
    obtain ⟨hloop, rfl⟩ := reads_checkInLoop_iff.mp hcheck
    obtain ⟨_, mid, hend, h₄⟩ := reads_bind.mp h₃
    obtain ⟨t, ht, htokens⟩ := reads_expect.mp hend
    obtain ⟨rfl, rfl⟩ := reads_pure.mp h₄
    exact ⟨hloop, terminal ht, htokens, rfl⟩
  · rintro ⟨hloop, semicolon, rfl, rfl⟩
    refine (Reads.current _).bind ((Reads.advance _ _).bind ?_)
    exact (reads_checkInLoop_iff.mpr ⟨hloop, rfl⟩).bind
      ((reads_expect_terminal semicolon rest).bind (.pure _ _))

/-- The kinds of tokens that a statement begins with. -/
def statementStarts : List Kind :=
  expressionStarts ++ [.printWord, .leftBrace, .ifWord, .whileWord, .forWord, .switchWord,
    .breakWord, .continueWord, .exitWord]

theorem Grammar.Statement.exists_head {inLoop dangling : Bool} (s : Statement inLoop dangling) :
    ∃ t ts, s.tokens = t :: ts ∧ t.kind ∈ statementStarts := by
  have keyword : ∀ {k : Kind} (t : Terminal [k]), k ∈ statementStarts →
      t.val.kind ∈ statementStarts := by
    intro k t hk
    rw [t.kind_eq]
    exact hk
  cases s with
  | expression value semicolon =>
    obtain ⟨t, ts, htokens, ht⟩ := value.exists_head
    exact ⟨t, ts ++ [semicolon.val], by simp [Statement.tokens, htokens],
      List.mem_append_left _ ht⟩
  | print word _ _ => exact ⟨word.val, _, by rw [Statement.tokens], keyword word (by decide)⟩
  | block opening _ _ =>
    exact ⟨opening.val, _, by rw [Statement.tokens], keyword opening (by decide)⟩
  | ifThen head _ =>
    exact ⟨head.word.val, _, by rw [Statement.tokens, Head.tokens, List.cons_append],
      keyword head.word (by decide)⟩
  | ifElse head _ _ _ =>
    exact ⟨head.word.val, _, by rw [Statement.tokens, Head.tokens, List.cons_append],
      keyword head.word (by decide)⟩
  | whileLoop head _ =>
    exact ⟨head.word.val, _, by rw [Statement.tokens, Head.tokens, List.cons_append],
      keyword head.word (by decide)⟩
  | forLoop head _ =>
    exact ⟨head.word.val, _, by rw [Statement.tokens, ForHead.tokens, List.cons_append],
      keyword head.word (by decide)⟩
  | switch head _ _ _ =>
    exact ⟨head.word.val, _, by rw [Statement.tokens, Head.tokens, List.cons_append],
      keyword head.word (by decide)⟩
  | breakLoop word _ => exact ⟨word.val, _, by rw [Statement.tokens], keyword word (by decide)⟩
  | continueLoop word _ => exact ⟨word.val, _, by rw [Statement.tokens], keyword word (by decide)⟩
  | exitProgram word _ => exact ⟨word.val, _, by rw [Statement.tokens], keyword word (by decide)⟩

theorem Grammar.Sequence.nextNot {inLoop : Bool} (q : Sequence inLoop) {kinds : List Kind}
    (hstarts : ∀ k ∈ Kind.varWord :: statementStarts, k ∉ kinds) (hrest : NextNot kinds rest) :
    NextNot kinds (q.tokens ++ rest) := by
  cases q with
  | nil => simpa [Sequence.tokens] using hrest
  | declaration first more =>
    simp only [Sequence.tokens, Declaration.tokens, List.cons_append, nextNot_cons,
      first.keyword.kind_eq]
    exact hstarts _ (List.mem_cons_self ..)
  | statement first more =>
    obtain ⟨t, ts, htokens, ht⟩ := first.exists_head
    simp only [Sequence.tokens, htokens, List.cons_append, nextNot_cons]
    exact hstarts _ (List.mem_cons_of_mem _ ht)

/-- Puts statements in front of those that a reader gives. -/
def prepend (before : List Stmt) (p : Parser (List Stmt)) : Parser (List Stmt) := do
  let more ← p
  pure (before ++ more)

theorem prepend_nil (p : Parser (List Stmt)) (tokens : List Token) :
    prepend [] p finish tokens = p finish tokens := by
  rw [prepend, bind_apply]
  rcases p finish tokens with ⟨outcome, pending, recorded⟩
  cases outcome <;> simp [pure_apply]

theorem prepend_prepend {p q : Parser (List Stmt)} {before more : List Stmt}
    (h : p finish tokens = prepend more q finish rest) :
    prepend before p finish tokens = prepend (before ++ more) q finish rest := by
  rw [prepend, bind_apply, h, prepend, prepend, bind_apply, bind_apply]
  rcases q finish rest with ⟨outcome, pending, recorded⟩
  cases outcome <;> simp [pure_apply]

theorem reads_declarations_nil {n : Nat} {inLoop : Bool} {ends : List Kind} (hn : 0 < n)
    (h : (tokens.headD finish).kind ∈ ends) :
    (declarations n inLoop ends).Reads finish tokens [] tokens := by
  obtain ⟨n, rfl⟩ := Nat.exists_eq_succ_of_ne_zero (Nat.ne_of_gt hn)
  refine (Reads.currentKind _).bind ?_
  rw [if_pos h]
  exact Reads.pure _ _

theorem declarations_eq_prepend {n : Nat} {inLoop : Bool} {ends : List Kind} {s : Stmt}
    (hnext : (tokens.headD finish).kind ∉ ends)
    (h : (declaration n inLoop).Reads finish tokens (some s) rest) :
    declarations (n + 1) inLoop ends finish tokens =
      prepend [s] (declarations n inLoop ends) finish rest := by
  have hkind : currentKind.Reads finish tokens (tokens.headD finish).kind tokens :=
    Reads.currentKind _
  rw [declarations, hkind.bind_eq, if_neg hnext]
  exact h.bind_eq _

/-- The reader takes the statement off the tokens, unless the next token belongs to it too. -/
def StatementIsRead (finish : Token) {inLoop dangling : Bool} (s : Statement inLoop dangling) :
    Prop :=
  ∀ (n : Nat) (rest : List Token), (dangling = true → NextNot [.elseWord] rest) →
    4 * (s.tokens ++ rest).length + 1 ≤ n →
    (statement n inLoop).Reads finish (s.tokens ++ rest) s.tree rest

/-- The reader takes the statements off the tokens and goes on with what is behind them. -/
def SequenceIsRead (finish : Token) {inLoop : Bool} (q : Sequence inLoop) : Prop :=
  ∀ (n : Nat) (rest : List Token) (ends : List Kind), (∀ k ∈ ends, k ∈ branchEnds) →
    NextNot [.elseWord] rest → 4 * (q.tokens ++ rest).length + 3 ≤ n →
    ∃ m, 4 * rest.length + 3 ≤ m ∧
      declarations n inLoop ends finish (q.tokens ++ rest) =
        prepend q.tree (declarations m inLoop ends) finish rest

def BranchesAreRead (finish : Token) {inLoop seen : Bool} (b : Branches inLoop seen) : Prop :=
  ∀ (n : Nat) (rest : List Token), (∃ t ts, rest = t :: ts ∧ t.kind = .rightBrace) →
    4 * (b.tokens ++ rest).length + 3 ≤ n →
    (switchBranches n inLoop seen).Reads finish (b.tokens ++ rest) ⟨b.cases, b.fallback⟩ rest

theorem SequenceIsRead.reads {inLoop : Bool} {q : Sequence inLoop} (h : SequenceIsRead finish q)
    {n : Nat} {ends : List Kind} (hends : ∀ k ∈ ends, k ∈ branchEnds)
    (hrest : (rest.headD finish).kind ∈ ends) (hn : 4 * (q.tokens ++ rest).length + 3 ≤ n) :
    (declarations n inLoop ends).Reads finish (q.tokens ++ rest) q.tree rest := by
  have helse : NextNot [.elseWord] rest := by
    cases rest with
    | nil => simp
    | cons t ts =>
      rw [nextNot_cons, List.mem_singleton]
      intro hk
      have hmem := hends _ hrest
      rw [List.headD_cons, hk] at hmem
      exact absurd hmem (by decide)
  obtain ⟨m, hm, heq⟩ := h n rest ends hends helse hn
  have hnil : (declarations m inLoop ends).Reads finish rest [] rest :=
    reads_declarations_nil (by omega) hrest
  have hread :
      (prepend q.tree (declarations m inLoop ends)).Reads finish rest (q.tree ++ []) rest :=
    hnil.bind (.pure _ _)
  rw [List.append_nil] at hread
  exact heq.trans hread

theorem sequenceIsRead_nil {inLoop : Bool} :
    SequenceIsRead finish (.nil : Sequence inLoop) := by
  intro n rest ends _ _ hn
  refine ⟨n, by simpa [Sequence.tokens] using hn, ?_⟩
  rw [Sequence.tokens, Sequence.tree, prepend_nil, List.nil_append]

/-- A first declaration or statement that is read leaves the rest of the sequence to be read. -/
theorem sequenceIsRead_cons {inLoop : Bool} {q more : Sequence inLoop} {first : List Token}
    {s : Stmt} (htokens : q.tokens = first ++ more.tokens) (htree : q.tree = s :: more.tree)
    (hhead : ∃ t ts, first = t :: ts ∧ t.kind ∈ Kind.varWord :: statementStarts)
    (hfirst : ∀ (n : Nat) (rest : List Token), NextNot [.elseWord] rest →
      4 * (first ++ rest).length + 2 ≤ n →
      (declaration n inLoop).Reads finish (first ++ rest) (some s) rest)
    (hmore : SequenceIsRead finish more) : SequenceIsRead finish q := by
  intro n rest ends hends helse hn
  rw [htokens, List.append_assoc] at hn ⊢
  obtain ⟨n, rfl⟩ : ∃ k, n = k + 1 := ⟨n - 1, by omega⟩
  obtain ⟨t, ts, rfl, ht⟩ := hhead
  have hnext : ((t :: ts ++ (more.tokens ++ rest)).headD finish).kind ∉ ends := by
    intro hk
    have disjoint : ∀ k ∈ Kind.varWord :: statementStarts, k ∉ branchEnds := by decide
    exact disjoint _ ht (hends _ hk)
  have helse' : NextNot [.elseWord] (more.tokens ++ rest) := more.nextNot (by decide) helse
  have hread := hfirst n (more.tokens ++ rest) helse' (by omega)
  simp only [List.length_append, List.length_cons] at hn
  obtain ⟨m, hm, heq⟩ := hmore n rest ends hends helse (by simp only [List.length_append]; omega)
  refine ⟨m, hm, ?_⟩
  rw [declarations_eq_prepend hnext hread, prepend_prepend heq, htree]
  rfl

theorem sequenceIsRead_declaration (hf : finish.kind = .eof) {inLoop : Bool} (d : Declaration)
    {more : Sequence inLoop} (hmore : SequenceIsRead finish more) :
    SequenceIsRead finish (.declaration d more) := by
  have hhead : ∃ t ts, d.tokens = t :: ts ∧ t.kind ∈ Kind.varWord :: statementStarts :=
    ⟨d.keyword.val, _, rfl, by simp [d.keyword.kind_eq]⟩
  refine sequenceIsRead_cons (by rw [Sequence.tokens]) (by rw [Sequence.tree]) hhead
    (fun n rest _ hn => ?_) hmore
  obtain ⟨n, rfl⟩ : ∃ k, n = k + 1 := ⟨n - 1, by omega⟩
  have hd : variableDeclaration.Reads finish (d.tokens.tail ++ rest) d.tree rest :=
    (reads_variableDeclaration_iff hf d.keyword).mpr ⟨d, rfl, rfl, rfl⟩
  exact reads_recover.mpr ⟨d.tree, rfl, (Reads.accept d.keyword.property _).bind hd⟩

theorem sequenceIsRead_statement {inLoop dangling : Bool} {first : Statement inLoop dangling}
    {more : Sequence inLoop} (hfirst : StatementIsRead finish first)
    (hmore : SequenceIsRead finish more) : SequenceIsRead finish (.statement first more) := by
  obtain ⟨t, ts, htokens, ht⟩ := first.exists_head
  refine sequenceIsRead_cons (by rw [Sequence.tokens]) (by rw [Sequence.tree])
    ⟨t, ts, htokens, List.mem_cons_of_mem _ ht⟩ (fun n rest helse hn => ?_) hmore
  obtain ⟨n, rfl⟩ : ∃ k, n = k + 1 := ⟨n - 1, by omega⟩
  have hnext : NextNot [.varWord] (first.tokens ++ rest) := by
    have differ : ∀ k ∈ statementStarts, k ∉ [Kind.varWord] := by decide
    rw [htokens, List.cons_append, nextNot_cons]
    exact differ _ ht
  have hread := hfirst n rest (fun _ => helse) (by omega)
  exact reads_recover.mpr ⟨first.tree, rfl, (Reads.decline hnext).bind hread⟩

/-- What begins like an expression is read as an expression statement. -/
theorem statement_eq_expressionStatement (n : Nat) (inLoop : Bool) {t : Token}
    (ht : t.kind ∈ expressionStarts) (ts : List Token) :
    statement (n + 1) inLoop finish (t :: ts) = expressionStatement finish (t :: ts) := by
  have hkind : currentKind.Reads finish (t :: ts) t.kind (t :: ts) := .currentKind _
  rw [statement, hkind.bind_eq]
  simp only [expressionStarts, List.mem_cons, List.not_mem_nil, or_false] at ht
  rcases ht with ht | ht | ht | ht | ht | ht | ht | ht | ht <;> simp only [ht]

theorem reads_statement_expression (hf : finish.kind = .eof) {inLoop : Bool} (n : Nat)
    (e : Expression 0) (semicolon : Terminal [.semicolon]) (rest : List Token) :
    (statement (n + 1) inLoop).Reads finish (e.tokens ++ semicolon.val :: rest)
      (.expression e.tree) rest := by
  have hread : expressionStatement.Reads finish (e.tokens ++ semicolon.val :: rest)
      (.expression e.tree) rest :=
    (reads_expressionStatement_iff hf).mpr ⟨e, semicolon, rfl, rfl⟩
  obtain ⟨t, ts, htokens, ht⟩ := e.exists_head
  rw [htokens, List.cons_append] at hread ⊢
  rw [Reads, statement_eq_expressionStatement n inLoop ht]
  exact hread

theorem statementIsRead_block {inLoop : Bool} {body : Sequence inLoop}
    (h : SequenceIsRead finish body) (opening : Terminal [.leftBrace])
    (closing : Terminal [.rightBrace]) :
    StatementIsRead finish (.block opening body closing) := by
  intro n rest _ hn
  simp only [Statement.tokens, Statement.tree, List.cons_append, List.append_assoc,
    List.nil_append] at hn ⊢
  simp only [List.length_cons] at hn
  obtain ⟨n, rfl⟩ : ∃ k, n = k + 1 := ⟨n - 1, by omega⟩
  have hread : (declarations n inLoop [.rightBrace, .eof]).Reads finish
      (body.tokens ++ closing.val :: rest) body.tree (closing.val :: rest) :=
    h.reads (by decide) (by simp [closing.kind_eq]) (by omega)
  refine (Reads.currentKind _).bind ?_
  simp only [List.headD_cons, opening.kind_eq]
  exact (reads_expect_terminal opening _).bind
    (hread.bind ((reads_expect_terminal closing rest).bind (.pure _ _)))

theorem length_head_tokens {k : Kind} (h : Head k) : 3 ≤ h.tokens.length := by
  simp only [Head.tokens, List.length_cons, List.length_append, List.length_nil]
  omega

theorem statementIsRead_ifThen (hf : finish.kind = .eof) {inLoop dangling : Bool}
    {thenBranch : Statement inLoop dangling} (h : StatementIsRead finish thenBranch)
    (head : Head .ifWord) : StatementIsRead finish (.ifThen head thenBranch) := by
  intro n rest helse hn
  simp only [Statement.tokens, Statement.tree, List.append_assoc] at hn ⊢
  have hlen := length_head_tokens head
  rw [List.length_append] at hn
  obtain ⟨n, rfl⟩ : ∃ k, n = k + 1 := ⟨n - 1, by omega⟩
  have hthen := h n rest (fun _ => helse rfl) (by omega)
  refine (Reads.currentKind _).bind ?_
  simp only [Head.tokens, List.cons_append, List.headD_cons, head.word.kind_eq]
  refine (reads_head hf head.word.kind_eq).mpr ⟨head, thenBranch.tokens ++ rest, rfl, ?_⟩
  exact hthen.bind ((Reads.decline (helse rfl)).bind (.pure _ _))

theorem statementIsRead_ifElse (hf : finish.kind = .eof) {inLoop dangling : Bool}
    {thenBranch : Statement inLoop false} {elseBranch : Statement inLoop dangling}
    (hthen : StatementIsRead finish thenBranch) (helse : StatementIsRead finish elseBranch)
    (head : Head .ifWord) (word : Terminal [.elseWord]) :
    StatementIsRead finish (.ifElse head thenBranch word elseBranch) := by
  intro n rest hrest hn
  simp only [Statement.tokens, Statement.tree, List.append_assoc, List.cons_append] at hn ⊢
  have hlen := length_head_tokens head
  simp only [List.length_append, List.length_cons] at hn
  obtain ⟨n, rfl⟩ : ∃ k, n = k + 1 := ⟨n - 1, by omega⟩
  have readThen := hthen n (word.val :: (elseBranch.tokens ++ rest)) (by simp)
    (by simp only [List.length_append, List.length_cons]; omega)
  have readElse := helse n rest hrest (by simp only [List.length_append]; omega)
  refine (Reads.currentKind _).bind ?_
  simp only [Head.tokens, List.cons_append, List.headD_cons, head.word.kind_eq]
  refine (reads_head hf head.word.kind_eq).mpr
    ⟨head, thenBranch.tokens ++ word.val :: (elseBranch.tokens ++ rest), rfl, ?_⟩
  exact readThen.bind ((Reads.accept word.property _).bind
    (readElse.bind (.pure _ _)))

theorem statementIsRead_whileLoop (hf : finish.kind = .eof) {inLoop dangling : Bool}
    {body : Statement true dangling} (h : StatementIsRead finish body) (head : Head .whileWord) :
    StatementIsRead finish (.whileLoop head body : Statement inLoop dangling) := by
  intro n rest hrest hn
  simp only [Statement.tokens, Statement.tree, List.append_assoc] at hn ⊢
  have hlen := length_head_tokens head
  rw [List.length_append] at hn
  obtain ⟨n, rfl⟩ : ∃ k, n = k + 1 := ⟨n - 1, by omega⟩
  have hbody := h n rest hrest (by omega)
  refine (Reads.currentKind _).bind ?_
  simp only [Head.tokens, List.cons_append, List.headD_cons, head.word.kind_eq]
  refine (reads_head hf head.word.kind_eq).mpr ⟨head, body.tokens ++ rest, rfl, ?_⟩
  exact hbody.bind (.pure _ _)

theorem statementIsRead_forLoop (hf : finish.kind = .eof) {inLoop dangling : Bool}
    {body : Statement true dangling} (h : StatementIsRead finish body) (head : ForHead) :
    StatementIsRead finish (.forLoop head body : Statement inLoop dangling) := by
  intro n rest hrest hn
  simp only [Statement.tokens, Statement.tree, List.append_assoc] at hn ⊢
  have hlen : 0 < head.tokens.length := by simp [ForHead.tokens]
  rw [List.length_append] at hn
  obtain ⟨n, rfl⟩ : ∃ k, n = k + 1 := ⟨n - 1, by omega⟩
  have hbody := h n rest hrest (by omega)
  have hhead : forClauses.Reads finish (head.tokens ++ (body.tokens ++ rest)) head.clauses
      (body.tokens ++ rest) :=
    (reads_forClauses_iff hf head.word.kind_eq).mpr ⟨head, rfl, rfl⟩
  refine (Reads.currentKind _).bind ?_
  have hkind : ((head.tokens ++ (body.tokens ++ rest)).headD finish).kind = .forWord :=
    head.word.kind_eq
  simp only [hkind]
  exact hhead.bind (hbody.bind (reads_pure.mpr ⟨head.statement_clauses body.tree, rfl⟩))

theorem statementIsRead_switch (hf : finish.kind = .eof) {inLoop : Bool}
    {branches : Branches inLoop false} (h : BranchesAreRead finish branches)
    (head : Head .switchWord) (opening : Terminal [.leftBrace])
    (closing : Terminal [.rightBrace]) :
    StatementIsRead finish (.switch head opening branches closing) := by
  intro n rest _ hn
  simp only [Statement.tokens, Statement.tree, List.append_assoc, List.cons_append,
    List.nil_append] at hn ⊢
  have hlen := length_head_tokens head
  rw [List.length_append, List.length_cons] at hn
  obtain ⟨n, rfl⟩ : ∃ k, n = k + 1 := ⟨n - 1, by omega⟩
  have hbranches := h n (closing.val :: rest) ⟨_, _, rfl, closing.kind_eq⟩ (by omega)
  refine (Reads.currentKind _).bind ?_
  simp only [Head.tokens, List.cons_append, List.headD_cons, head.word.kind_eq]
  refine (reads_head hf head.word.kind_eq).mpr
    ⟨head, opening.val :: (branches.tokens ++ closing.val :: rest), rfl, ?_⟩
  exact (reads_expect_terminal opening _).bind
    (hbranches.bind ((reads_expect_terminal closing rest).bind (.pure _ _)))

theorem Grammar.Branches.head_mem {inLoop seen : Bool} (b : Branches inLoop seen)
    (hrest : ∃ t ts, rest = t :: ts ∧ t.kind = .rightBrace) :
    ((b.tokens ++ rest).headD finish).kind ∈ branchEnds := by
  cases b with
  | nil =>
    obtain ⟨t, ts, rfl, ht⟩ := hrest
    simp [Branches.tokens, ht, branchEnds]
  | case word value colon body more => simp [Branches.tokens, word.kind_eq, branchEnds]
  | default word colon body more => simp [Branches.tokens, word.kind_eq, branchEnds]

theorem branchesAreRead_nil {inLoop seen : Bool} :
    BranchesAreRead finish (.nil : Branches inLoop seen) := by
  rintro n rest ⟨t, ts, rfl, ht⟩ hn
  obtain ⟨n, rfl⟩ : ∃ k, n = k + 1 := ⟨n - 1, by omega⟩
  refine (Reads.current _).bind ?_
  simp only [Branches.tokens, List.nil_append, List.headD_cons, ht]
  exact reads_pure.mpr ⟨by simp only [Branches.cases, Branches.fallback], rfl⟩

theorem branchesAreRead_case (hf : finish.kind = .eof) {inLoop seen : Bool}
    {body : Sequence inLoop} {more : Branches inLoop seen} (hbody : SequenceIsRead finish body)
    (hmore : BranchesAreRead finish more) (word : Terminal [.caseWord]) (value : Expression 0)
    (colon : Terminal [.colon]) : BranchesAreRead finish (.case word value colon body more) := by
  intro n rest hrest hn
  simp only [Branches.tokens, Branches.cases, Branches.fallback, List.cons_append,
    List.append_assoc] at hn ⊢
  simp only [List.length_cons, List.length_append] at hn
  obtain ⟨n, rfl⟩ : ∃ k, n = k + 1 := ⟨n - 1, by omega⟩
  have readBody : (declarations n inLoop branchEnds).Reads finish
      (body.tokens ++ (more.tokens ++ rest)) body.tree (more.tokens ++ rest) :=
    hbody.reads (fun _ hk => hk) (more.head_mem hrest)
      (by simp only [List.length_append]; omega)
  have readMore := hmore n rest hrest (by simp only [List.length_append]; omega)
  refine (Reads.current _).bind ?_
  simp only [List.headD_cons, word.kind_eq]
  refine (Reads.advance _ _).bind ((reads_delimited hf rfl).mpr
    ⟨value, colon, body.tokens ++ (more.tokens ++ rest), rfl, ?_⟩)
  exact readBody.bind (readMore.bind (.pure _ _))

theorem branchesAreRead_default {inLoop : Bool} {body : Sequence inLoop}
    {more : Branches inLoop true} (hbody : SequenceIsRead finish body)
    (hmore : BranchesAreRead finish more) (word : Terminal [.defaultWord])
    (colon : Terminal [.colon]) : BranchesAreRead finish (.default word colon body more) := by
  intro n rest hrest hn
  simp only [Branches.tokens, Branches.cases, Branches.fallback, List.cons_append,
    List.append_assoc] at hn ⊢
  simp only [List.length_cons, List.length_append] at hn
  obtain ⟨n, rfl⟩ : ∃ k, n = k + 1 := ⟨n - 1, by omega⟩
  have readBody : (declarations n inLoop branchEnds).Reads finish
      (body.tokens ++ (more.tokens ++ rest)) body.tree (more.tokens ++ rest) :=
    hbody.reads (fun _ hk => hk) (more.head_mem hrest)
      (by simp only [List.length_append]; omega)
  have readMore := hmore n rest hrest (by simp only [List.length_append]; omega)
  refine (Reads.current _).bind ?_
  simp only [List.headD_cons, word.kind_eq]
  refine (Reads.advance _ _).bind ((reads_expect_terminal colon _).bind (readBody.bind ?_))
  exact readMore.bind (.pure _ _)

mutual

theorem statementIsRead (hf : finish.kind = .eof) :
    {inLoop dangling : Bool} → (s : Statement inLoop dangling) → StatementIsRead finish s
  | _, _, .expression value semicolon => by
    intro n rest _ hn
    simp only [Statement.tokens, Statement.tree, List.append_assoc, List.cons_append,
      List.nil_append] at hn ⊢
    obtain ⟨n, rfl⟩ : ∃ k, n = k + 1 := ⟨n - 1, by omega⟩
    exact reads_statement_expression hf n value semicolon rest
  | _, _, .print word value semicolon => by
    intro n rest _ hn
    obtain ⟨n, rfl⟩ : ∃ k, n = k + 1 := ⟨n - 1, by omega⟩
    refine (Reads.currentKind _).bind ?_
    simp only [Statement.tokens, Statement.tree, List.cons_append, List.append_assoc,
      List.nil_append, List.headD_cons, word.kind_eq]
    exact (reads_printStatement_iff hf).mpr ⟨value, semicolon, rfl, rfl⟩
  | _, _, .block opening body closing =>
    statementIsRead_block (sequenceIsRead hf body) opening closing
  | _, _, .ifThen head thenBranch =>
    statementIsRead_ifThen hf (statementIsRead hf thenBranch) head
  | _, _, .ifElse head thenBranch word elseBranch =>
    statementIsRead_ifElse hf (statementIsRead hf thenBranch) (statementIsRead hf elseBranch)
      head word
  | _, _, .whileLoop head body => statementIsRead_whileLoop hf (statementIsRead hf body) head
  | _, _, .forLoop head body => statementIsRead_forLoop hf (statementIsRead hf body) head
  | _, _, .switch head opening branches closing =>
    statementIsRead_switch hf (branchesAreRead hf branches) head opening closing
  | _, _, .breakLoop word semicolon => by
    intro n rest _ hn
    obtain ⟨n, rfl⟩ : ∃ k, n = k + 1 := ⟨n - 1, by omega⟩
    refine (Reads.currentKind _).bind ?_
    simp only [Statement.tokens, Statement.tree, List.cons_append, List.nil_append,
      List.headD_cons, word.kind_eq]
    exact reads_loopKeyword_iff.mpr ⟨rfl, semicolon, rfl, rfl⟩
  | _, _, .continueLoop word semicolon => by
    intro n rest _ hn
    obtain ⟨n, rfl⟩ : ∃ k, n = k + 1 := ⟨n - 1, by omega⟩
    refine (Reads.currentKind _).bind ?_
    simp only [Statement.tokens, Statement.tree, List.cons_append, List.nil_append,
      List.headD_cons, word.kind_eq]
    exact reads_loopKeyword_iff.mpr ⟨rfl, semicolon, rfl, rfl⟩
  | _, _, .exitProgram word semicolon => by
    intro n rest _ hn
    obtain ⟨n, rfl⟩ : ∃ k, n = k + 1 := ⟨n - 1, by omega⟩
    refine (Reads.currentKind _).bind ?_
    simp only [Statement.tokens, Statement.tree, List.cons_append, List.nil_append,
      List.headD_cons, word.kind_eq]
    exact reads_exitStatement_iff.mpr ⟨semicolon, rfl, rfl⟩

theorem sequenceIsRead (hf : finish.kind = .eof) :
    {inLoop : Bool} → (q : Sequence inLoop) → SequenceIsRead finish q
  | _, .nil => sequenceIsRead_nil
  | _, .declaration first more => sequenceIsRead_declaration hf first (sequenceIsRead hf more)
  | _, .statement first more =>
    sequenceIsRead_statement (statementIsRead hf first) (sequenceIsRead hf more)

theorem branchesAreRead (hf : finish.kind = .eof) :
    {inLoop seen : Bool} → (b : Branches inLoop seen) → BranchesAreRead finish b
  | _, _, .nil => branchesAreRead_nil
  | _, _, .case word value colon body more =>
    branchesAreRead_case hf (sequenceIsRead hf body) (branchesAreRead hf more) word value colon
  | _, _, .default word colon body more =>
    branchesAreRead_default (sequenceIsRead hf body) (branchesAreRead hf more) word colon

end

/-- The tokens before `rest` are those of a statement with the given tree. -/
def SpellsStatement (inLoop : Bool) (tokens : List Token) (s : Stmt) (rest : List Token) : Prop :=
  ∃ (dangling : Bool) (t : Statement inLoop dangling),
    tokens = t.tokens ++ rest ∧ t.tree = s ∧ (dangling = true → NextNot [.elseWord] rest)

/-- The tokens before `rest` are those of a sequence with the given trees. -/
def SpellsSequence (inLoop : Bool) (tokens : List Token) (ss : List Stmt) (rest : List Token) :
    Prop :=
  ∃ q : Sequence inLoop, tokens = q.tokens ++ rest ∧ q.tree = ss

/-- What the reader makes of a statement with the given budget is spelled by the tokens it consumes.
-/
def StatementSound (finish : Token) (n : Nat) : Prop :=
  ∀ (inLoop : Bool) (tokens rest : List Token) (s : Stmt),
    (statement n inLoop).Reads finish tokens s rest → SpellsStatement inLoop tokens s rest

/-- A declaration that is read stands in front of any sequence. -/
def DeclarationSound (finish : Token) (n : Nat) : Prop :=
  ∀ (inLoop : Bool) (tokens mid rest : List Token) (o : Option Stmt) (ss : List Stmt),
    (declaration n inLoop).Reads finish tokens o mid → SpellsSequence inLoop mid ss rest →
    SpellsSequence inLoop tokens (o.toList ++ ss) rest

def SequenceSound (finish : Token) (n : Nat) : Prop :=
  ∀ (inLoop : Bool) (ends : List Kind) (tokens rest : List Token) (ss : List Stmt),
    (declarations n inLoop ends).Reads finish tokens ss rest →
    SpellsSequence inLoop tokens ss rest

def BranchesSound (finish : Token) (n : Nat) : Prop :=
  ∀ (inLoop seen : Bool) (tokens rest : List Token) (body : SwitchBody),
    (switchBranches n inLoop seen).Reads finish tokens body rest →
    ∃ b : Branches inLoop seen, tokens = b.tokens ++ rest ∧ b.cases = body.cases ∧
      b.fallback = body.fallback

theorem exists_cons_of_kind (hf : finish.kind = .eof) {k : Kind} (hk : k ≠ .eof)
    (h : (tokens.headD finish).kind = k) : ∃ t ts, tokens = t :: ts ∧ t.kind = k := by
  cases tokens with
  | nil => exact absurd (hf.symm.trans h) hk.symm
  | cons t ts => exact ⟨t, ts, rfl, h⟩

theorem declarationSound_succ (hf : finish.kind = .eof) {n : Nat} (ih : StatementSound finish n) :
    DeclarationSound finish (n + 1) := by
  rintro inLoop tokens mid rest o ss h ⟨q, rfl, rfl⟩
  obtain ⟨s, rfl, h₁⟩ := reads_recover.mp h
  obtain ⟨o, mid', ho, h₂⟩ := reads_bind.mp h₁
  cases o with
  | some keyword =>
    obtain ⟨rfl, hk⟩ := reads_accept_some.mp ho
    obtain ⟨d, -, hd, rfl⟩ := (reads_variableDeclaration_iff hf ⟨keyword, hk⟩).mp h₂
    have hd' : keyword :: mid' = d.tokens ++ (q.tokens ++ rest) := hd
    exact ⟨.declaration d q, by rw [hd', Sequence.tokens, List.append_assoc],
      by rw [Sequence.tree]; rfl⟩
  | none =>
    obtain ⟨rfl, -⟩ := reads_accept_none.mp ho
    obtain ⟨_, t, rfl, rfl, -⟩ := ih _ _ _ _ h₂
    exact ⟨.statement t q, by rw [Sequence.tokens, List.append_assoc], by rw [Sequence.tree]; rfl⟩

theorem sequenceSound_succ {n : Nat} (ihDeclaration : DeclarationSound finish n)
    (ih : SequenceSound finish n) : SequenceSound finish (n + 1) := by
  intro inLoop ends tokens rest ss h
  obtain ⟨next, mid, hnext, h₁⟩ := reads_bind.mp h
  obtain ⟨rfl, rfl⟩ := reads_currentKind.mp hnext
  split at h₁
  · obtain ⟨rfl, rfl⟩ := reads_pure.mp h₁
    exact ⟨.nil, by rw [Sequence.tokens, List.nil_append], by rw [Sequence.tree]⟩
  · obtain ⟨first, mid, hfirst, h₂⟩ := reads_bind.mp h₁
    obtain ⟨more, mid', hmore, h₃⟩ := reads_bind.mp h₂
    obtain ⟨rfl, rfl⟩ := reads_pure.mp h₃
    exact ihDeclaration _ _ _ _ _ _ hfirst (ih _ _ _ _ _ hmore)

theorem branchesSound_succ (hf : finish.kind = .eof) {n : Nat} (ihSequence : SequenceSound finish n)
    (ih : BranchesSound finish n) : BranchesSound finish (n + 1) := by
  intro inLoop seen tokens rest body h
  obtain ⟨next, mid, hnext, h₁⟩ := reads_bind.mp h
  obtain ⟨rfl, rfl⟩ := reads_current.mp hnext
  split at h₁
  case h_1 =>
    obtain ⟨rfl, rfl⟩ := reads_pure.mp h₁
    exact ⟨.nil, by rw [Branches.tokens, List.nil_append], by rw [Branches.cases],
      by rw [Branches.fallback]⟩
  case h_2 =>
    obtain ⟨rfl, rfl⟩ := reads_pure.mp h₁
    exact ⟨.nil, by rw [Branches.tokens, List.nil_append], by rw [Branches.cases],
      by rw [Branches.fallback]⟩
  case h_3 hk =>
    obtain ⟨word, ts, rfl, hword⟩ := exists_cons_of_kind hf (by decide) hk
    obtain ⟨_, mid, hadvance, h₂⟩ := reads_bind.mp h₁
    obtain rfl := reads_advance.mp hadvance
    obtain ⟨value, colon, mid, htokens, h₃⟩ := (reads_delimited hf rfl).mp h₂
    obtain ⟨statements, mid', hstatements, h₄⟩ := reads_bind.mp h₃
    obtain ⟨more, mid'', hmore, h₅⟩ := reads_bind.mp h₄
    obtain ⟨rfl, rfl⟩ := reads_pure.mp h₅
    obtain ⟨q, rfl, rfl⟩ := ihSequence _ _ _ _ _ hstatements
    obtain ⟨b, rfl, hcases, hfallback⟩ := ih _ _ _ _ _ hmore
    have hts : ts = value.tokens ++ colon.val :: (q.tokens ++ (b.tokens ++ mid'')) := htokens
    refine ⟨.case (terminal hword) value colon q b, ?_, ?_, ?_⟩
    · simp [Branches.tokens, hts, terminal]
    · rw [Branches.cases, hcases]
    · rw [Branches.fallback, hfallback]
  case h_4 hk =>
    obtain ⟨word, ts, rfl, hword⟩ := exists_cons_of_kind hf (by decide) hk
    obtain ⟨_, mid, hadvance, h₂⟩ := reads_bind.mp h₁
    obtain rfl := reads_advance.mp hadvance
    obtain ⟨_, mid, hcolon, h₃⟩ := reads_bind.mp h₂
    obtain ⟨colon, hcolon', hmid⟩ := reads_expect.mp hcolon
    obtain ⟨statements, mid', hstatements, h₄⟩ := reads_bind.mp h₃
    obtain ⟨q, rfl, rfl⟩ := ihSequence _ _ _ _ _ hstatements
    cases seen with
    | true =>
      obtain ⟨_, _, hrecord, -⟩ := reads_bind.mp h₄
      exact absurd hrecord not_reads_record
    | false =>
      obtain ⟨more, mid'', hmore, h₅⟩ := reads_bind.mp h₄
      obtain ⟨rfl, rfl⟩ := reads_pure.mp h₅
      obtain ⟨b, rfl, hcases, -⟩ := ih _ _ _ _ _ hmore
      have hts : ts = colon :: (q.tokens ++ (b.tokens ++ mid'')) := hmid
      refine ⟨.default (terminal hword) (terminal hcolon') q b, ?_, ?_, ?_⟩
      · simp [Branches.tokens, hts, terminal]
      · rw [Branches.cases, hcases]
      · rw [Branches.fallback]
  case h_5 =>
    obtain ⟨_, _, hrecord, -⟩ := reads_bind.mp h₁
    exact absurd hrecord not_reads_record

theorem sound_forLoop (hf : finish.kind = .eof) {n : Nat} (ih : StatementSound finish n)
    {inLoop : Bool} {word : Token} {s : Stmt} (hword : word.kind = .forWord)
    (h : (do
      let clauses ← forClauses
      let body ← statement n true
      pure (clauses.statement body) : Parser Stmt).Reads finish (word :: tokens) s rest) :
    SpellsStatement inLoop (word :: tokens) s rest := by
  obtain ⟨clauses, mid, hclauses, h₁⟩ := reads_bind.mp h
  obtain ⟨body, mid', hbody, h₂⟩ := reads_bind.mp h₁
  obtain ⟨rfl, rfl⟩ := reads_pure.mp h₂
  obtain ⟨head, htokens, rfl⟩ := (reads_forClauses_iff hf hword).mp hclauses
  obtain ⟨dangling, t, rfl, rfl, helse⟩ := ih _ _ _ _ hbody
  refine ⟨dangling, .forLoop head t, ?_, ?_, helse⟩
  · rw [htokens, Statement.tokens, List.append_assoc]
  · rw [Statement.tree, head.statement_clauses]

theorem sound_if (hf : finish.kind = .eof) {n : Nat} (ih : StatementSound finish n)
    {inLoop : Bool} {word : Token} {s : Stmt} (hword : word.kind = .ifWord)
    (h : (do
      advance
      expect .leftParen "after 'if'"
      let condition ← expression
      expect .rightParen "after if condition"
      let thenBranch ← statement n inLoop
      match ← accept? [.elseWord] with
      | some _ => do
        let elseBranch ← statement n inLoop
        pure (.branch condition thenBranch (some elseBranch))
      | none => pure (.branch condition thenBranch none) : Parser Stmt).Reads
        finish (word :: tokens) s rest) :
    SpellsStatement inLoop (word :: tokens) s rest := by
  obtain ⟨head, mid, htokens, h₁⟩ := (reads_head hf hword).mp h
  obtain ⟨thenBranch, mid', hthen, h₂⟩ := reads_bind.mp h₁
  obtain ⟨dangling, t, rfl, rfl, helse⟩ := ih _ _ _ _ hthen
  obtain ⟨o, mid'', ho, h₃⟩ := reads_bind.mp h₂
  cases o with
  | none =>
    obtain ⟨rfl, hnext⟩ := reads_accept_none.mp ho
    obtain ⟨rfl, rfl⟩ := reads_pure.mp h₃
    refine ⟨true, .ifThen head t, ?_, by rw [Statement.tree], fun _ => hnext⟩
    rw [htokens, Statement.tokens, List.append_assoc]
  | some otherwise =>
    obtain ⟨rfl, hk⟩ := reads_accept_some.mp ho
    obtain ⟨elseBranch, mid, helseBranch, h₄⟩ := reads_bind.mp h₃
    obtain ⟨rfl, rfl⟩ := reads_pure.mp h₄
    obtain ⟨dangling', t', rfl, rfl, helse'⟩ := ih _ _ _ _ helseBranch
    cases dangling with
    | true =>
      -- a then-branch that ends in an open `if` would have taken this `else` itself
      have hnext := helse rfl
      rw [nextNot_cons] at hnext
      exact absurd hk hnext
    | false =>
      refine ⟨dangling', .ifElse head t ⟨otherwise, hk⟩ t', ?_, by rw [Statement.tree], helse'⟩
      rw [htokens, Statement.tokens]
      simp

theorem sound_whileLoop (hf : finish.kind = .eof) {n : Nat} (ih : StatementSound finish n)
    {inLoop : Bool} {word : Token} {s : Stmt} (hword : word.kind = .whileWord)
    (h : (do
      advance
      expect .leftParen "after 'while'"
      let condition ← expression
      expect .rightParen "after condition"
      let body ← statement n true
      pure (.loop .whileLoop condition body) : Parser Stmt).Reads finish (word :: tokens) s rest) :
    SpellsStatement inLoop (word :: tokens) s rest := by
  obtain ⟨head, mid, htokens, h₁⟩ := (reads_head hf hword).mp h
  obtain ⟨body, mid', hbody, h₂⟩ := reads_bind.mp h₁
  obtain ⟨rfl, rfl⟩ := reads_pure.mp h₂
  obtain ⟨dangling, t, rfl, rfl, helse⟩ := ih _ _ _ _ hbody
  refine ⟨dangling, .whileLoop head t, ?_, by rw [Statement.tree], helse⟩
  rw [htokens, Statement.tokens, List.append_assoc]

theorem sound_block {n : Nat} (ih : SequenceSound finish n) {inLoop : Bool} {s : Stmt}
    (h : (do
      expect .leftBrace "before block"
      let statements ← declarations n inLoop [.rightBrace, .eof]
      expect .rightBrace "after block"
      pure (.block statements) : Parser Stmt).Reads finish tokens s rest) :
    SpellsStatement inLoop tokens s rest := by
  obtain ⟨_, mid, hopen, h₁⟩ := reads_bind.mp h
  obtain ⟨opening, ho, rfl⟩ := reads_expect.mp hopen
  obtain ⟨statements, mid', hstatements, h₂⟩ := reads_bind.mp h₁
  obtain ⟨_, mid'', hclose, h₃⟩ := reads_bind.mp h₂
  obtain ⟨closing, hc, rfl⟩ := reads_expect.mp hclose
  obtain ⟨rfl, rfl⟩ := reads_pure.mp h₃
  obtain ⟨q, rfl, rfl⟩ := ih _ _ _ _ _ hstatements
  refine ⟨false, .block (terminal ho) q (terminal hc), ?_, by rw [Statement.tree], by simp⟩
  simp [Statement.tokens, terminal]

theorem sound_switch (hf : finish.kind = .eof) {n : Nat} (ih : BranchesSound finish n)
    {inLoop : Bool} {word : Token} {s : Stmt} (hword : word.kind = .switchWord)
    (h : (do
      advance
      expect .leftParen "after 'switch'"
      let subject ← expression
      expect .rightParen "after switch subject"
      expect .leftBrace "before switch body"
      let body ← switchBranches n inLoop false
      expect .rightBrace "after switch body"
      pure (.switch subject body.cases body.fallback) : Parser Stmt).Reads
        finish (word :: tokens) s rest) :
    SpellsStatement inLoop (word :: tokens) s rest := by
  obtain ⟨head, mid, htokens, h₁⟩ := (reads_head hf hword).mp h
  obtain ⟨_, mid', hopen, h₂⟩ := reads_bind.mp h₁
  obtain ⟨opening, ho, rfl⟩ := reads_expect.mp hopen
  obtain ⟨body, mid, hbody, h₃⟩ := reads_bind.mp h₂
  obtain ⟨_, mid'', hclose, h₄⟩ := reads_bind.mp h₃
  obtain ⟨closing, hc, rfl⟩ := reads_expect.mp hclose
  obtain ⟨rfl, rfl⟩ := reads_pure.mp h₄
  obtain ⟨b, rfl, hcases, hfallback⟩ := ih _ _ _ _ _ hbody
  refine ⟨false, .switch head (terminal ho) b (terminal hc), ?_, ?_, by simp⟩
  · rw [htokens, Statement.tokens]
    simp [terminal]
  · rw [Statement.tree, hcases, hfallback]

theorem sound_expressionStatement (hf : finish.kind = .eof) {inLoop : Bool} {s : Stmt}
    (h : expressionStatement.Reads finish tokens s rest) :
    SpellsStatement inLoop tokens s rest := by
  obtain ⟨e, semicolon, rfl, rfl⟩ := (reads_expressionStatement_iff hf).mp h
  exact ⟨false, .expression e semicolon, by simp [Statement.tokens], by rw [Statement.tree],
    by simp⟩

theorem statementSound_succ (hf : finish.kind = .eof) {n : Nat} (ih : StatementSound finish n)
    (ihSequence : SequenceSound finish n) (ihBranches : BranchesSound finish n) :
    StatementSound finish (n + 1) := by
  intro inLoop tokens rest s h
  obtain ⟨next, mid, hnext, h₁⟩ := reads_bind.mp h
  obtain ⟨hk, rfl⟩ := reads_currentKind.mp hnext
  split at h₁
  case h_1 =>
    obtain ⟨word, ts, rfl, hword⟩ := exists_cons_of_kind hf (by decide) hk
    exact sound_forLoop hf ih hword h₁
  case h_2 =>
    obtain ⟨word, ts, rfl, hword⟩ := exists_cons_of_kind hf (by decide) hk
    exact sound_if hf ih hword h₁
  case h_3 =>
    obtain ⟨word, ts, rfl, hword⟩ := exists_cons_of_kind hf (by decide) hk
    obtain ⟨e, semicolon, rfl, rfl⟩ := (reads_printStatement_iff hf).mp h₁
    exact ⟨false, .print (terminal hword) e semicolon, by simp [Statement.tokens, terminal],
      by rw [Statement.tree], by simp⟩
  case h_4 =>
    obtain ⟨word, ts, rfl, hword⟩ := exists_cons_of_kind hf (by decide) hk
    exact sound_whileLoop hf ih hword h₁
  case h_5 => exact sound_block ihSequence h₁
  case h_6 =>
    obtain ⟨word, ts, rfl, hword⟩ := exists_cons_of_kind hf (by decide) hk
    obtain ⟨semicolon, rfl, rfl⟩ := reads_exitStatement_iff.mp h₁
    exact ⟨false, .exitProgram (terminal hword) semicolon, by simp [Statement.tokens, terminal],
      by rw [Statement.tree], by simp⟩
  case h_7 =>
    obtain ⟨word, ts, rfl, hword⟩ := exists_cons_of_kind hf (by decide) hk
    obtain ⟨rfl, semicolon, rfl, rfl⟩ := reads_loopKeyword_iff.mp h₁
    exact ⟨false, .breakLoop (terminal hword) semicolon, by simp [Statement.tokens, terminal],
      by rw [Statement.tree], by simp⟩
  case h_8 =>
    obtain ⟨word, ts, rfl, hword⟩ := exists_cons_of_kind hf (by decide) hk
    obtain ⟨rfl, semicolon, rfl, rfl⟩ := reads_loopKeyword_iff.mp h₁
    exact ⟨false, .continueLoop (terminal hword) semicolon, by simp [Statement.tokens, terminal],
      by rw [Statement.tree], by simp⟩
  case h_9 =>
    obtain ⟨word, ts, rfl, hword⟩ := exists_cons_of_kind hf (by decide) hk
    exact sound_switch hf ihBranches hword h₁
  case h_10 => exact sound_expressionStatement hf h₁

/-- A budget that runs out ends a reading with an error or ends a list early, so that the token that
has to close the list is missed; no bound on it is needed here. -/
theorem statement_sound (hf : finish.kind = .eof) (n : Nat) :
    StatementSound finish n ∧ DeclarationSound finish n ∧ SequenceSound finish n ∧
      BranchesSound finish n := by
  induction n with
  | zero =>
    refine ⟨?_, ?_, ?_, ?_⟩
    · intro inLoop tokens rest s h
      exact absurd h not_reads_unexpected
    · intro inLoop tokens mid rest o ss h _
      rw [declaration] at h
      obtain ⟨_, _, h₁⟩ := reads_recover.mp h
      exact absurd h₁ not_reads_unexpected
    · intro inLoop ends tokens rest ss h
      obtain ⟨rfl, rfl⟩ := reads_pure.mp h
      exact ⟨.nil, by rw [Sequence.tokens, List.nil_append], by rw [Sequence.tree]⟩
    · intro inLoop seen tokens rest body h
      obtain ⟨rfl, rfl⟩ := reads_pure.mp h
      exact ⟨.nil, by rw [Branches.tokens, List.nil_append], by rw [Branches.cases],
        by rw [Branches.fallback]⟩
  | succ n ih =>
    obtain ⟨ihStatement, ihDeclaration, ihSequence, ihBranches⟩ := ih
    exact ⟨statementSound_succ hf ihStatement ihSequence ihBranches,
      declarationSound_succ hf ihStatement, sequenceSound_succ ihDeclaration ihSequence,
      branchesSound_succ hf ihSequence ihBranches⟩

end Treewalk
