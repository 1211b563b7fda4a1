import Treewalk.Proofs.Grammar.Statements
import Treewalk.Proofs.Parse.Progress
import Treewalk.Proofs.Scan.Append

set_option autoImplicit false
set_option relaxedAutoImplicit false

/-!
Programs are read without a complaint exactly if the grammar spells them.

`parseProgram_tokens` says that the tokens of a program of the grammar are read back as its tree,
and `exists_program_of_diagnostics_eq_nil` that every token sequence that is read without a
complaint is, up to its first end-of-input token, the tokens of a program of the grammar with the
tree that was read.
-/

namespace Treewalk

open Treewalk.Grammar Treewalk.Parser

variable {finish : Token}

theorem Grammar.Terminal.ne_eof {kinds : List Kind} (t : Terminal kinds) (h : .eof ∉ kinds) :
    t.val.kind ≠ .eof := by
  intro hk
  exact h (hk ▸ t.property)

/-- The kinds of the tokens of expressions. -/
def expressionKinds : List Kind :=
  expressionStarts ++ [.rightParen, .question, .colon, .equal, .orWord, .andWord, .bangEqual,
    .equalEqual, .greater, .greaterEqual, .less, .lessEqual, .plus, .slash, .star]

theorem binding_mem_expressionKinds {k : Kind} {q : Nat} (h : binding? k = some q) :
    k ∈ expressionKinds := by
  cases k <;> first | contradiction | decide

theorem Grammar.Expression.kind_mem {p : Nat} (e : Expression p) :
    ∀ t ∈ e.tokens, t.kind ∈ expressionKinds := by
  have terminal : ∀ {kinds : List Kind} (t : Terminal kinds), (∀ k ∈ kinds, k ∈ expressionKinds) →
      t.val.kind ∈ expressionKinds := fun t h => h _ t.property
  induction e with
  | literal word =>
    rw [Expression.tokens, List.forall_mem_singleton]
    exact terminal word (by decide)
  | reference name =>
    rw [Expression.tokens, List.forall_mem_singleton]
    exact terminal name (by decide)
  | grouping opening inner closing ih =>
    rw [Expression.tokens, List.forall_mem_cons, List.forall_mem_append, List.forall_mem_singleton]
    exact ⟨terminal opening (by decide), ih, terminal closing (by decide)⟩
  | unary loose operator operand ih =>
    rw [Expression.tokens, List.forall_mem_cons]
    exact ⟨terminal operator (by decide), ih⟩
  | binary loose left operator binds right ihl ihr =>
    rw [Expression.tokens, List.forall_mem_append, List.forall_mem_cons]
    exact ⟨ihl, binding_mem_expressionKinds binds, ihr⟩
  | conditional loose condition question ifTrue colon ifFalse ihc iht ihf =>
    rw [Expression.tokens, List.forall_mem_append, List.forall_mem_cons, List.forall_mem_append,
      List.forall_mem_cons]
    exact ⟨ihc, terminal question (by decide), iht, terminal colon (by decide), ihf⟩
  | assignment name equals value ih =>
    rw [Expression.tokens, List.forall_mem_cons, List.forall_mem_cons]
    exact ⟨terminal name (by decide), terminal equals (by decide), ih⟩

theorem Grammar.Expression.tokens_ne_eof {p : Nat} (e : Expression p) :
    ∀ t ∈ e.tokens, t.kind ≠ .eof := by
  intro t ht hkind
  have hmem := e.kind_mem t ht
  rw [hkind] at hmem
  exact absurd hmem (by decide)

theorem Grammar.Declaration.tokens_ne_eof (d : Declaration) : ∀ t ∈ d.tokens, t.kind ≠ .eof := by
  have hinitializer : ∀ t ∈ (d.initializer.map fun i => i.1.val :: i.2.tokens).getD [],
      t.kind ≠ .eof := by
    cases d.initializer with
    | none => simp
    | some i =>
      rw [Option.map_some, Option.getD_some, List.forall_mem_cons]
      exact ⟨i.1.ne_eof (by decide), i.2.tokens_ne_eof⟩
  rw [Declaration.tokens, List.forall_mem_cons, List.forall_mem_cons, List.forall_mem_append,
    List.forall_mem_singleton]
  exact ⟨d.keyword.ne_eof (by decide), d.name.ne_eof (by decide), hinitializer,
    d.semicolon.ne_eof (by decide)⟩

theorem Grammar.Head.tokens_ne_eof {keyword : Kind} (h : Head keyword) (hk : keyword ≠ .eof) :
    ∀ t ∈ h.tokens, t.kind ≠ .eof := by
  rw [Head.tokens, List.forall_mem_cons, List.forall_mem_cons, List.forall_mem_append,
    List.forall_mem_singleton]
  exact ⟨h.word.ne_eof (by simpa using hk.symm), h.opening.ne_eof (by decide),
    h.value.tokens_ne_eof, h.closing.ne_eof (by decide)⟩

theorem Grammar.ForHead.tokens_ne_eof (h : ForHead) : ∀ t ∈ h.tokens, t.kind ≠ .eof := by
  have optional : ∀ o : Option (Expression 0),
      ∀ t ∈ (o.map Expression.tokens).getD [], t.kind ≠ .eof := by
    intro o
    cases o with
    | none => simp
    | some e => exact e.tokens_ne_eof
  have hinitializer : ∀ t ∈ h.initializer.tokens, t.kind ≠ .eof := by
    cases h.initializer with
    | absent semicolon =>
      rw [Initializer.tokens, List.forall_mem_singleton]
      exact semicolon.ne_eof (by decide)
    | declaration d => exact d.tokens_ne_eof
    | expression value semicolon =>
      rw [Initializer.tokens, List.forall_mem_append, List.forall_mem_singleton]
      exact ⟨value.tokens_ne_eof, semicolon.ne_eof (by decide)⟩
  rw [ForHead.tokens, List.forall_mem_cons, List.forall_mem_cons, List.forall_mem_append,
    List.forall_mem_append, List.forall_mem_cons, List.forall_mem_append,
    List.forall_mem_singleton]
  exact ⟨h.word.ne_eof (by decide), h.opening.ne_eof (by decide), hinitializer,
    optional h.condition, h.semicolon.ne_eof (by decide), optional h.increment,
    h.closing.ne_eof (by decide)⟩

mutual

theorem Grammar.Statement.tokens_ne_eof :
    {inLoop dangling : Bool} → (s : Statement inLoop dangling) → ∀ t ∈ s.tokens, t.kind ≠ .eof
  | _, _, .expression value semicolon => by
    rw [Statement.tokens, List.forall_mem_append, List.forall_mem_singleton]
    exact ⟨value.tokens_ne_eof, semicolon.ne_eof (by decide)⟩
  | _, _, .print word value semicolon => by
    rw [Statement.tokens, List.forall_mem_cons, List.forall_mem_append, List.forall_mem_singleton]
    exact ⟨word.ne_eof (by decide), value.tokens_ne_eof, semicolon.ne_eof (by decide)⟩
  | _, _, .block opening body closing => by
    rw [Statement.tokens, List.forall_mem_cons, List.forall_mem_append, List.forall_mem_singleton]
    exact ⟨opening.ne_eof (by decide), body.tokens_ne_eof, closing.ne_eof (by decide)⟩
  | _, _, .ifThen head thenBranch => by
    rw [Statement.tokens, List.forall_mem_append]
    exact ⟨head.tokens_ne_eof (by decide), thenBranch.tokens_ne_eof⟩
  | _, _, .ifElse head thenBranch word elseBranch => by
    rw [Statement.tokens, List.forall_mem_append, List.forall_mem_append, List.forall_mem_cons]
    exact ⟨head.tokens_ne_eof (by decide), thenBranch.tokens_ne_eof, word.ne_eof (by decide),
      elseBranch.tokens_ne_eof⟩
  | _, _, .whileLoop head body => by
    rw [Statement.tokens, List.forall_mem_append]
    exact ⟨head.tokens_ne_eof (by decide), body.tokens_ne_eof⟩
  | _, _, .forLoop head body => by
    rw [Statement.tokens, List.forall_mem_append]
    exact ⟨head.tokens_ne_eof, body.tokens_ne_eof⟩
  | _, _, .switch head opening branches closing => by
    rw [Statement.tokens, List.forall_mem_append, List.forall_mem_cons, List.forall_mem_append,
      List.forall_mem_singleton]
    exact ⟨head.tokens_ne_eof (by decide), opening.ne_eof (by decide), branches.tokens_ne_eof,
      closing.ne_eof (by decide)⟩
  | _, _, .breakLoop word semicolon => by
    rw [Statement.tokens, List.forall_mem_cons, List.forall_mem_singleton]
    exact ⟨word.ne_eof (by decide), semicolon.ne_eof (by decide)⟩
  | _, _, .continueLoop word semicolon => by
    rw [Statement.tokens, List.forall_mem_cons, List.forall_mem_singleton]
    exact ⟨word.ne_eof (by decide), semicolon.ne_eof (by decide)⟩
  | _, _, .exitProgram word semicolon => by
    rw [Statement.tokens, List.forall_mem_cons, List.forall_mem_singleton]
    exact ⟨word.ne_eof (by decide), semicolon.ne_eof (by decide)⟩

theorem Grammar.Sequence.tokens_ne_eof :
    {inLoop : Bool} → (q : Sequence inLoop) → ∀ t ∈ q.tokens, t.kind ≠ .eof
  | _, .nil => by simp [Sequence.tokens]
  | _, .declaration first more => by
    rw [Sequence.tokens, List.forall_mem_append]
    exact ⟨first.tokens_ne_eof, more.tokens_ne_eof⟩
  | _, .statement first more => by
    rw [Sequence.tokens, List.forall_mem_append]
    exact ⟨first.tokens_ne_eof, more.tokens_ne_eof⟩

theorem Grammar.Branches.tokens_ne_eof :
    {inLoop seen : Bool} → (b : Branches inLoop seen) → ∀ t ∈ b.tokens, t.kind ≠ .eof
  | _, _, .nil => by simp [Branches.tokens]
  | _, _, .case word value colon body more => by
    rw [Branches.tokens, List.forall_mem_cons, List.forall_mem_append, List.forall_mem_cons,
      List.forall_mem_append]
    exact ⟨word.ne_eof (by decide), value.tokens_ne_eof, colon.ne_eof (by decide),
      body.tokens_ne_eof, more.tokens_ne_eof⟩
  | _, _, .default word colon body more => by
    rw [Branches.tokens, List.forall_mem_cons, List.forall_mem_cons, List.forall_mem_append]
    exact ⟨word.ne_eof (by decide), colon.ne_eof (by decide), body.tokens_ne_eof,
      more.tokens_ne_eof⟩

end

/-- Every statement has a semicolon or a closing brace. -/
theorem Grammar.Statement.exists_end :
    {inLoop dangling : Bool} → (s : Statement inLoop dangling) →
      ∃ t ∈ s.tokens, t.kind ∈ [.semicolon, .rightBrace]
  | _, _, .expression _ semicolon => ⟨semicolon.val, by simp [tokens], by simp [semicolon.kind_eq]⟩
  | _, _, .print _ _ semicolon => ⟨semicolon.val, by simp [tokens], by simp [semicolon.kind_eq]⟩
  | _, _, .block _ _ closing => ⟨closing.val, by simp [tokens], by simp [closing.kind_eq]⟩
  | _, _, .ifThen _ thenBranch => by
    obtain ⟨t, ht, hkind⟩ := thenBranch.exists_end
    exact ⟨t, by simp [tokens, ht], hkind⟩
  | _, _, .ifElse _ _ _ elseBranch => by
    obtain ⟨t, ht, hkind⟩ := elseBranch.exists_end
    exact ⟨t, by simp [tokens, ht], hkind⟩
  | _, _, .whileLoop _ body => by
    obtain ⟨t, ht, hkind⟩ := body.exists_end
    exact ⟨t, by simp [tokens, ht], hkind⟩
  | _, _, .forLoop _ body => by
    obtain ⟨t, ht, hkind⟩ := body.exists_end
    exact ⟨t, by simp [tokens, ht], hkind⟩
  | _, _, .switch _ _ _ closing => ⟨closing.val, by simp [tokens], by simp [closing.kind_eq]⟩
  | _, _, .breakLoop _ semicolon => ⟨semicolon.val, by simp [tokens], by simp [semicolon.kind_eq]⟩
  | _, _, .continueLoop _ semicolon => ⟨semicolon.val, by simp [tokens], by simp [semicolon.kind_eq]⟩
  | _, _, .exitProgram _ semicolon => ⟨semicolon.val, by simp [tokens], by simp [semicolon.kind_eq]⟩

theorem Grammar.Sequence.exists_end {inLoop : Bool} (q : Sequence inLoop) (h : q.tokens ≠ []) :
    ∃ t ∈ q.tokens, t.kind ∈ [.semicolon, .rightBrace] := by
  cases q with
  | nil => exact absurd (by rw [Sequence.tokens]) h
  | declaration first more =>
    exact ⟨first.semicolon.val, by simp [Sequence.tokens, Declaration.tokens],
      by simp [first.semicolon.kind_eq]⟩
  | statement first more =>
    obtain ⟨t, ht, hkind⟩ := first.exists_end
    exact ⟨t, by simp [Sequence.tokens, ht], hkind⟩

/-- No tokens spell an expression and a program. -/
theorem Grammar.Sequence.tokens_ne {inLoop : Bool} (q : Sequence inLoop) (e : Expression 0) :
    q.tokens ≠ e.tokens := by
  intro heq
  obtain ⟨first, more, htokens, -⟩ := e.exists_head
  have hne : q.tokens ≠ [] := by
    rw [heq, htokens]
    exact List.cons_ne_nil first more
  obtain ⟨t, ht, hend⟩ := q.exists_end hne
  rw [heq] at ht
  have disjoint : ∀ k ∈ expressionKinds, k ∉ [Kind.semicolon, .rightBrace] := by decide
  exact disjoint t.kind (e.kind_mem t ht) hend

/-- The tokens in front of the first end-of-input token. -/
def beforeEnd (tokens : List Token) : List Token :=
  tokens.takeWhile (·.kind ≠ .eof)

theorem beforeEnd_ne_eof (tokens : List Token) : ∀ t ∈ beforeEnd tokens, t.kind ≠ .eof := by
  intro t ht
  have hkind := List.all_eq_true.mp List.all_takeWhile t ht
  simpa using hkind

theorem finishOf_kind (tokens : List Token) : (finishOf tokens).kind = .eof := by
  unfold finishOf
  split
  · next t ht =>
    have hkind := List.find?_some ht
    simpa using hkind
  · rfl

theorem beforeEnd_append_finish {tokens : List Token} (hf : finish.kind = .eof)
    (h : ∀ t ∈ tokens, t.kind ≠ .eof) (after : List Token) :
    beforeEnd (tokens ++ finish :: after) = tokens := by
  rw [beforeEnd, List.takeWhile_append_of_pos (by simpa using h)]
  simp [hf]

/-- Of a source that was scanned all tokens but the last are read. -/
theorem beforeEnd_tokens (source : String) :
    beforeEnd (Scan.ofSource source).tokens = (Scan.ofSource source).found :=
  beforeEnd_append_finish rfl (Scan.found_ne_eof source) []

/-- The parts of a token sequence that a reader is given. -/
theorem run_append_finish {α : Type} (p : Parser α) {tokens : List Token}
    (hf : finish.kind = .eof) (h : ∀ t ∈ tokens, t.kind ≠ .eof) (after : List Token) :
    p.run (tokens ++ finish :: after) = p finish tokens := by
  have hfind : (tokens ++ finish :: after).find? (·.kind = .eof) = some finish := by
    rw [List.find?_append, List.find?_eq_none.mpr (by simpa using h)]
    simp [hf]
  have htake : (tokens ++ finish :: after).takeWhile (·.kind ≠ .eof) = tokens :=
    beforeEnd_append_finish hf h after
  rw [run, finishOf, hfind, htake]

/-- The reader of declarations is never stopped. -/
theorem declarations_outcome (n : Nat) (inLoop : Bool) (ends : List Kind) (tokens : List Token) :
    ∃ ss, (declarations n inLoop ends finish tokens).outcome = .ok ss := by
  have declared : ∀ (m : Nat) (tokens : List Token),
      ∃ o, (declaration m inLoop finish tokens).outcome = .ok o := by
    intro m tokens
    cases m with
    | zero => exact ⟨none, rfl⟩
    | succ m =>
      rw [declaration, recover]
      split
      · exact ⟨_, rfl⟩
      · exact ⟨_, rfl⟩
  induction n generalizing tokens with
  | zero => exact ⟨[], rfl⟩
  | succ n ih =>
    have hkind : currentKind.Reads finish tokens (tokens.headD finish).kind tokens := .currentKind _
    rw [declarations, hkind.bind_eq]
    split
    · exact ⟨[], rfl⟩
    · obtain ⟨o, ho⟩ := declared n tokens
      obtain ⟨more, hmore⟩ := ih (declaration n inLoop finish tokens).pending
      rw [bind_ok ho, bind_ok hmore]
      exact ⟨_, rfl⟩

/-- A budget above the number of tokens lets the reader of declarations come to an end. -/
theorem declarations_ends {n : Nat} {inLoop : Bool} {ends : List Kind} {tokens rest : List Token}
    {ss : List Stmt} (hf : finish.kind = .eof) (hends : .eof ∈ ends) (hn : tokens.length < n)
    (h : (declarations n inLoop ends).Reads finish tokens ss rest) :
    (rest.headD finish).kind ∈ ends := by
  induction n generalizing tokens ss with
  | zero => exact absurd hn (Nat.not_lt_zero _)
  | succ n ih =>
    obtain ⟨next, mid, hnext, h₁⟩ := reads_bind.mp h
    obtain ⟨rfl, rfl⟩ := reads_currentKind.mp hnext
    split at h₁
    · next hmem =>
      obtain ⟨-, rfl⟩ := reads_pure.mp h₁
      exact hmem
    · next hmem =>
      obtain ⟨first, mid, hfirst, h₂⟩ := reads_bind.mp h₁
      obtain ⟨more, mid', hmore, h₃⟩ := reads_bind.mp h₂
      obtain ⟨-, rfl⟩ := reads_pure.mp h₃
      have hne : tokens ≠ [] := by
        rintro rfl
        rw [List.headD_nil, hf] at hmem
        exact hmem hends
      have hlt : (declaration n inLoop finish tokens).pending.length < tokens.length :=
        declaration_length_lt n inLoop hne
      have he : declaration n inLoop finish tokens = ⟨.ok first, mid, []⟩ := hfirst
      rw [he] at hlt
      have hlt' : mid.length < tokens.length := hlt
      exact ih (by omega) hmore

theorem reads_program_iff (hf : finish.kind = .eof) {tokens : List Token}
    (h : ∀ t ∈ tokens, t.kind ≠ .eof) {ss rest} :
    program.Reads finish tokens ss rest ↔
      rest = [] ∧ ∃ p : Grammar.Program, p.tokens = tokens ∧ p.tree = ss := by
  have hprogram : program.Reads finish tokens ss rest ↔
      (declarations (8 * (tokens.length + 1)) false [.eof]).Reads finish tokens ss rest := by
    simp only [Reads, program]
  rw [hprogram]
  constructor
  · intro hread
    obtain ⟨p, hp, rfl⟩ := (statement_sound hf _).2.2.1 _ _ _ _ _ hread
    have hend := declarations_ends hf (List.mem_singleton.mpr rfl) (by omega) hread
    have hrest : rest = [] := by
      cases rest with
      | nil => rfl
      | cons t ts =>
        have ht : t ∈ tokens := by
          rw [hp]
          simp
        exact absurd (List.mem_singleton.mp hend) (h t ht)
    subst hrest
    rw [List.append_nil] at hp
    exact ⟨rfl, p, hp.symm, rfl⟩
  · rintro ⟨rfl, p, rfl, rfl⟩
    have hread : (declarations (8 * (p.tokens.length + 1)) false [.eof]).Reads finish
        (p.tokens ++ []) p.tree [] :=
      (sequenceIsRead hf p).reads (by decide) (by simp [hf])
        (by rw [List.append_nil]; omega)
    rwa [List.append_nil] at hread

/-- Reading a program is never stopped, so that without reports it is a reading without errors. -/
theorem reads_program_of_diagnostics_eq_nil {tokens : List Token}
    (h : (parseProgram tokens).diagnostics = []) :
    program.Reads (finishOf tokens) (beforeEnd tokens) (parseProgram tokens).program
      (program.run tokens).pending := by
  obtain ⟨ss, hok⟩ : ∃ ss, (program.run tokens).outcome = .ok ss := declarations_outcome ..
  have hrecorded : (program.run tokens).recorded = [] := List.map_eq_nil_iff.mp h
  have hprogram : (parseProgram tokens).program = ss := by
    simp only [parseProgram, hok]
  have hreading : program.run tokens = ⟨.ok ss, (program.run tokens).pending, []⟩ := by
    rw [← hok, ← hrecorded]
  rw [hprogram]
  exact hreading

/-- A source without a report from the parser is the text of a program of the grammar. -/
theorem exists_program_of_source {source : String}
    (h : (parseProgram (Scan.ofSource source).tokens).diagnostics = []) :
    ∃ p : Grammar.Program, p.tokens = (Scan.ofSource source).found ∧
      p.tree = (parseProgram (Scan.ofSource source).tokens).program := by
  obtain ⟨-, p, htokens, htree⟩ := (reads_program_iff (finishOf_kind _) (beforeEnd_ne_eof _)).mp
    (reads_program_of_diagnostics_eq_nil h)
  exact ⟨p, htokens.trans (beforeEnd_tokens source), htree⟩

/-- Every program of the grammar is read, whole and without a report, as the program that it
stands for. -/
theorem parseProgram_tokens (p : Grammar.Program) (finish : Terminal [.eof]) :
    parseProgram (p.tokens ++ [finish.val]) = ⟨p.tree, []⟩ := by
  have hread : program finish.val p.tokens = ⟨.ok p.tree, [], []⟩ :=
    (reads_program_iff finish.kind_eq p.tokens_ne_eof).mpr ⟨rfl, p, rfl, rfl⟩
  rw [parseProgram, run_append_finish program finish.kind_eq p.tokens_ne_eof, hread]
  rfl

/-- Nothing is dropped, made up or moved without a report: what is read without one is a program of
the grammar that is spelled by all of the tokens before the end, and stands for the result. -/
theorem exists_program_of_diagnostics_eq_nil {tokens : List Token}
    (h : (parseProgram tokens).diagnostics = []) :
    ∃ p : Grammar.Program,
      p.tokens = beforeEnd tokens ∧ p.tree = (parseProgram tokens).program := by
  obtain ⟨-, p, hp, htree⟩ :=
    (reads_program_iff (finishOf_kind tokens) (beforeEnd_ne_eof tokens)).mp
      (reads_program_of_diagnostics_eq_nil h)
  exact ⟨p, hp, htree⟩

/-- `for (;;) if (x) if (y) x = y = nil; else break;` has no report. -/
theorem exists_program_of_dangling_else :
    let tokens := [Kind.forWord, .leftParen, .semicolon, .semicolon, .rightParen,
      .ifWord, .leftParen, .identifier, .rightParen, .ifWord, .leftParen, .identifier, .rightParen,
      .identifier, .equal, .identifier, .equal, .nilWord, .semicolon,
      .elseWord, .breakWord, .semicolon, .eof].map (⟨·, "", none, 1⟩)
    (parseProgram tokens).diagnostics = [] ∧
      ∃ p : Grammar.Program,
        p.tokens = beforeEnd tokens ∧ p.tree = (parseProgram tokens).program :=
  have h := by decide +kernel
  ⟨h, exists_program_of_diagnostics_eq_nil h⟩

end Treewalk
