import Treewalk.Proofs.Grammar.Listing
import Treewalk.Proofs.Scan.Layout
import Treewalk.Proofs.Session.Prompt

set_option autoImplicit false
set_option relaxedAutoImplicit false

/-!
What the expressions of a source are made of.

Operators and names are tokens of the text, and so have the form of their kind. A literal that is
written has the value of such a token, so no number is negative. Apart from that there are only the
values that stand for expressions left out.
-/

namespace Treewalk

/-- Operators and names are tokens as they are found in a text, and no literal is negative. -/
structure Expr.IsSourced (e : Expr) : Prop where
  tokens : e.AllFit Token.IsLexical
  literals : ∀ v ∈ e.literals, v.IsUnsigned

theorem Expr.IsSourced.of_mem_parts {part e : Expr} (h : e.IsSourced) (hpart : part ∈ e.parts) :
    part.IsSourced where
  tokens := fun inner hinner => h.tokens inner (Expr.parts_subset hpart hinner)
  literals := fun v hv => h.literals v
    (Expr.mem_literals_iff.mpr (Expr.parts_subset hpart (Expr.mem_literals_iff.mp hv)))

theorem IsLexeme.isUnsigned {kind : Kind} {lexeme : List Char} {literal : Option Value}
    (h : IsLexeme kind lexeme literal) : ∀ v ∈ literal, v.IsUnsigned := by
  intro v hv
  cases h with
  | symbol _ => contradiction
  | keyword _ => contradiction
  | identifier _ _ => contradiction
  | integer _ =>
    obtain rfl := Option.some.inj hv
    exact Number.isNegative_ofDigits _ _
  | decimal _ _ =>
    obtain rfl := Option.some.inj hv
    exact Number.isNegative_ofDigits _ _
  | string _ =>
    obtain rfl := Option.some.inj hv
    trivial

theorem Token.IsLexical.isUnsigned_literalValue {t : Token} (h : t.IsLexical) :
    (Grammar.literalValue t).IsUnsigned := by
  unfold Grammar.literalValue
  split
  · trivial
  · trivial
  · trivial
  · cases hliteral : t.literal with
    | none => trivial
    | some v => exact IsLexeme.isUnsigned h v hliteral

namespace Grammar

/-- The kinds of operators between two operands that are always evaluated. -/
theorem mem_binaryOperators {k : Kind} {q : Nat} (h : binding? k = some q)
    (hlogical : k ∉ [.orWord, .andWord]) : k ∈ Kind.binaryOperators := by
  cases k <;> simp_all [binding?, Kind.binaryOperators]

/-- A binary operator with the operands that it stands between. -/
theorem isSourced_operation {left right : Expr} {operator : Token} {q : Nat}
    (hbinds : binding? operator.kind = some q) (hoperator : operator.IsLexical)
    (hleft : left.IsSourced) (hright : right.IsSourced) :
    (operation left operator right).IsSourced := by
  have hliterals : ∀ v ∈ left.literals ++ right.literals, v.IsUnsigned :=
    List.forall_mem_append.mpr ⟨hleft.literals, hright.literals⟩
  unfold operation
  split
  · next hlogical =>
    have hkind : operator.kind ∈ Kind.logicalOperators := by
      simpa [Kind.logicalOperators, or_comm] using hlogical
    refine ⟨Expr.allFit_logical.mpr ⟨.of_some rfl hkind hoperator, hleft.tokens, hright.tokens⟩, ?_⟩
    exact hliterals
  · next hlogical =>
    have hkind := mem_binaryOperators hbinds hlogical
    refine ⟨Expr.allFit_binary.mpr ⟨.of_some rfl hkind hoperator, hleft.tokens, hright.tokens⟩, ?_⟩
    exact hliterals

/-- The tree of an expression whose tokens were found in a text. -/
theorem Expression.isSourced_tree {p : Nat} {e : Expression p} (h : ∀ t ∈ e.tokens, t.IsLexical) :
    e.tree.IsSourced := by
  induction e with
  | literal word =>
    have hword := (h word.val List.mem_cons_self).isUnsigned_literalValue
    exact ⟨Expr.allFit_literal _, List.forall_mem_singleton.mpr hword⟩
  | reference name =>
    have hname : (Expr.reference name.val).Fits Token.IsLexical :=
      .of_some rfl name.property (h _ List.mem_cons_self)
    exact ⟨Expr.allFit_reference.mpr hname, by simp [tree, Expr.literals]⟩
  | grouping opening inner closing ih =>
    have hinner : inner.tree.IsSourced := ih fun t ht => h t (by simp [tokens, ht])
    exact ⟨Expr.allFit_grouping.mpr hinner.tokens, hinner.literals⟩
  | unary loose operator operand ih =>
    rw [tokens, List.forall_mem_cons] at h
    have hoperand : operand.tree.IsSourced := ih h.2
    have hoperator : (Expr.unary operator.val operand.tree).Fits Token.IsLexical :=
      .of_some rfl operator.property h.1
    exact ⟨Expr.allFit_unary.mpr ⟨hoperator, hoperand.tokens⟩, hoperand.literals⟩
  | binary loose left operator binds right ihl ihr =>
    rw [tokens, List.forall_mem_append, List.forall_mem_cons] at h
    exact isSourced_operation binds h.2.1 (ihl h.1) (ihr h.2.2)
  | conditional loose condition question ifTrue colon ifFalse ihc iht ihf =>
    simp only [tokens, List.forall_mem_append, List.forall_mem_cons] at h
    obtain ⟨hcondition, -, htrue, -, hfalse⟩ := h
    have hcondition := ihc hcondition
    have htrue := iht htrue
    have hfalse := ihf hfalse
    exact ⟨Expr.allFit_ternary.mpr ⟨hcondition.tokens, htrue.tokens, hfalse.tokens⟩,
      List.forall_mem_append.mpr ⟨hcondition.literals,
        List.forall_mem_append.mpr ⟨htrue.literals, hfalse.literals⟩⟩⟩
  | assignment name equals value ih =>
    rw [tokens, List.forall_mem_cons, List.forall_mem_cons] at h
    have hvalue : value.tree.IsSourced := ih h.2.2
    have hname : (Expr.assign name.val value.tree).Fits Token.IsLexical :=
      .of_some rfl name.property h.1
    exact ⟨Expr.allFit_assign.mpr ⟨hname, hvalue.tokens⟩, hvalue.literals⟩

/-- The outermost expressions of a program whose tokens were found in a text. -/
theorem Sequence.isSourced_expressions {inLoop : Bool} {q : Sequence inLoop}
    (h : ∀ t ∈ q.tokens, t.IsLexical) : ∀ e ∈ Stmt.expressionsOfAll q.tree, e.IsSourced := by
  rw [← q.map_tree_lines]
  intro e he
  obtain ⟨l, hl, rfl⟩ := List.mem_map.mp he
  cases l with
  | written start value =>
    have hwritten : (start, value) ∈ written (q.lines false) :=
      List.mem_filterMap.mpr ⟨_, q.rearranged.perm.mem_iff.mp hl, rfl⟩
    have hinside := (q.places.inside _ hwritten).subset
    exact value.isSourced_tree fun t ht => h t (List.mem_of_mem_drop (hinside ht))
  | implied omission =>
    refine ⟨Expr.allFit_literal _, List.forall_mem_singleton.mpr ?_⟩
    cases omission <;> trivial

end Grammar

/-- The outermost expressions of a source that is read as a program without a report. -/
theorem isSourced_of_mem_program {source : String}
    (h : (parseProgram (Scan.ofSource source).tokens).diagnostics = []) :
    ∀ e ∈ Stmt.expressionsOfAll (parseProgram (Scan.ofSource source).tokens).program,
      e.IsSourced := by
  obtain ⟨q, htokens, htree⟩ := exists_program_of_source h
  rw [← htree]
  exact q.isSourced_expressions fun t ht => Scan.isLexical_of_mem_found (htokens ▸ ht)

/-- A line that is no expression is read as a program. -/
theorem parseProgram_of_parseEntry {tokens : List Token} {p : Program}
    (h : (parseEntry tokens).entry = .program p) :
    parseProgram tokens = ⟨p, (parseEntry tokens).diagnostics⟩ := by
  unfold parseEntry at h ⊢
  split at h
  · contradiction
  · cases h
    rfl

/-- The outermost expressions of a source that is read as a line without a report. -/
theorem isSourced_of_mem_entry {source : String}
    (h : (parseEntry (Scan.ofSource source).tokens).diagnostics = []) :
    ∀ e ∈ (parseEntry (Scan.ofSource source).tokens).entry.expressions, e.IsSourced := by
  cases hentry : (parseEntry (Scan.ofSource source).tokens).entry with
  | expression e =>
    obtain ⟨g, htokens, rfl⟩ := run_expression_iff.mp (run_expression_of_parseEntry hentry)
    rw [beforeEnd_tokens] at htokens
    refine List.forall_mem_singleton.mpr (g.isSourced_tree fun t ht => ?_)
    exact Scan.isLexical_of_mem_found (htokens ▸ ht)
  | program p =>
    have hprogram := parseProgram_of_parseEntry hentry
    have hnone : (parseProgram (Scan.ofSource source).tokens).diagnostics = [] := by
      rw [hprogram, h]
    have hsourced := isSourced_of_mem_program hnone
    rw [hprogram] at hsourced
    exact hsourced

end Treewalk
