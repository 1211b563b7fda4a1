import Treewalk.Proofs.Grammar.Basic
import Treewalk.Proofs.Parse.Level
import Treewalk.Proofs.Parse.Reads

set_option autoImplicit false
set_option relaxedAutoImplicit false

/-!
The expression reader accepts exactly the expressions of the grammar.

The levels of the reader are matched with the indices of the grammar by `Level.strength`. Reading is
greedy, so an expression is read as a whole only if the token behind it does not take it as an
operand; `Closed` says that it does not.
-/

namespace Treewalk

open Treewalk.Grammar Treewalk.Parser

theorem Tier.mem_operators {t : Tier} {k : Kind} :
    k ∈ t.operators ↔ binding? k = some t.strength := by
  cases t <;> cases k <;> decide

theorem Tier.combine_eq {t : Tier} {operator : Token} (h : operator.kind ∈ t.operators)
    (left right : Expr) : t.combine left operator right = operation left operator right := by
  cases t <;> simp only [Tier.operators, List.mem_cons, List.not_mem_nil, or_false] at h <;>
    simp [Tier.combine, operation, h] <;> grind

theorem exists_tier {k : Kind} {q : Nat} (h : binding? k = some q) :
    ∃ t : Tier, t.strength = q ∧ k ∈ t.operators := by
  cases k with
  | orWord => exact ⟨.disjunction, Option.some.inj h, by decide⟩
  | andWord => exact ⟨.conjunction, Option.some.inj h, by decide⟩
  | bangEqual => exact ⟨.equality, Option.some.inj h, by decide⟩
  | equalEqual => exact ⟨.equality, Option.some.inj h, by decide⟩
  | greater => exact ⟨.comparison, Option.some.inj h, by decide⟩
  | greaterEqual => exact ⟨.comparison, Option.some.inj h, by decide⟩
  | less => exact ⟨.comparison, Option.some.inj h, by decide⟩
  | lessEqual => exact ⟨.comparison, Option.some.inj h, by decide⟩
  | minus => exact ⟨.term, Option.some.inj h, by decide⟩
  | plus => exact ⟨.term, Option.some.inj h, by decide⟩
  | slash => exact ⟨.factor, Option.some.inj h, by decide⟩
  | star => exact ⟨.factor, Option.some.inj h, by decide⟩
  | _ => cases h

/-- How tightly a token would hold an expression before it. -/
def holds? : Kind → Option Nat
  | .equal => some 0
  | .question => some 3
  | k => binding? k

/-- The next token does not take an expression with the index `p` before it as an operand. -/
def Closed (p : Nat) (tokens : List Token) : Prop :=
  ∀ t ∈ tokens.head?, ∀ q ∈ holds? t.kind, q < p

theorem closed_cons {p : Nat} {t : Token} {tokens : List Token} :
    Closed p (t :: tokens) ↔ ∀ q ∈ holds? t.kind, q < p := by
  simp [Closed]

theorem Closed.mono {p q : Nat} {tokens : List Token} (h : Closed p tokens) (le : p ≤ q) :
    Closed q tokens := by
  intro t ht r hr
  exact Nat.lt_of_lt_of_le (h t ht r hr) le

theorem holds_of_binding {k : Kind} {q : Nat} (h : binding? k = some q) : holds? k = some q := by
  cases k <;> first | exact h | cases h

theorem closed_eight (tokens : List Token) : Closed 8 tokens := by
  intro t _ q hq
  generalize t.kind = k at hq
  cases k <;> cases hq <;> decide

theorem Closed.nextNot {p : Nat} {kinds : List Kind} {tokens : List Token}
    (h : Closed p tokens) (hold : ∀ k ∈ kinds, ∃ q ∈ holds? k, p ≤ q) : NextNot kinds tokens := by
  intro t ht hk
  obtain ⟨q, hq, le⟩ := hold t.kind hk
  exact absurd (h t ht q hq) (Nat.not_lt.mpr le)

theorem Closed.nextNot_operators {t : Tier} {tokens : List Token}
    (h : Closed t.strength tokens) : NextNot t.operators tokens :=
  h.nextNot fun _ hk => ⟨t.strength, holds_of_binding (Tier.mem_operators.mp hk), Nat.le_refl _⟩

/-- A level is done when the level below it is and none of its own tokens is next. -/
theorem Closed.of_nextNot {p : Nat} {kinds : List Kind} {tokens : List Token}
    (h : Closed (p + 1) tokens) (next : NextNot kinds tokens)
    (own : ∀ k, holds? k = some p → k ∈ kinds) : Closed p tokens := by
  intro t ht q hq
  have hlt : q < p + 1 := h t ht q hq
  have hne : q ≠ p := by
    rintro rfl
    exact next t ht (own t.kind hq)
  omega

variable {finish : Token}

theorem reads_operations_nil {n : Nat} {t : Tier} {left : Expr} {rest : List Token} (hn : 0 < n)
    (hc : NextNot t.operators rest) : (operations n t left).Reads finish rest left rest := by
  obtain ⟨n, rfl⟩ := Nat.exists_eq_succ_of_ne_zero (Nat.ne_of_gt hn)
  exact (Reads.decline hc).bind (.pure _ _)

/-- What the next level reads is read by a level that finds none of its own tokens behind it. -/
theorem reads_of_next {n : Nat} {l : Level} {tokens rest : List Token} {e : Expr}
    (hl : l.strength < 8) (hc : Closed l.strength rest)
    (h : (expressionAt n l.next).Reads finish tokens e rest) :
    (expressionAt (n + 1) l).Reads finish tokens e rest := by
  cases l with
  | assignment =>
    have hnext : NextNot [.equal] rest := hc.nextNot (by simp [holds?, Level.strength])
    exact h.bind ((Reads.decline hnext).bind (.pure _ _))
  | tier t =>
    have hn : 0 < n := by
      rcases Nat.eq_zero_or_pos n with rfl | hn
      · exact absurd h not_reads_unexpected
      · exact hn
    exact h.bind (reads_operations_nil hn hc.nextNot_operators)
  | conditional =>
    have hnext : NextNot [.question] rest := hc.nextNot (by simp [holds?, Level.strength])
    exact h.bind ((Reads.decline hnext).bind (.pure _ _))
  | unary => simp [Level.strength] at hl
  | primary => simp [Level.strength] at hl

theorem reads_of_tighter {n d : Nat} {l k : Level} {tokens rest : List Token} {e : Expr}
    (hd : l.strength + d = k.strength) (hk : k.strength ≤ 8) (hc : Closed l.strength rest)
    (h : (expressionAt n k).Reads finish tokens e rest) :
    (expressionAt (n + d) l).Reads finish tokens e rest := by
  induction d generalizing l with
  | zero =>
    obtain rfl := Level.strength_inj hd
    exact h
  | succ d ih =>
    have hl : l.strength < 8 := by omega
    have hnext : l.next.strength = l.strength + 1 := Level.strength_next hl
    exact reads_of_next hl hc (ih (by omega) (hc.mono (by omega)))

/-- The index of the outermost operator of an expression; without one, that of unary operators. -/
def Grammar.Expression.outer : {p : Nat} → Expression p → Nat
  | _, .literal _ => 8
  | _, .reference _ => 8
  | _, .grouping _ _ _ => 8
  | _, .unary _ _ _ => 8
  | _, .binary (q := q) _ _ _ _ _ => q
  | _, .conditional _ _ _ _ _ _ => 3
  | _, .assignment _ _ _ => 0

theorem Grammar.Expression.le_outer {p : Nat} (e : Expression p) (hp : p ≤ 8) : p ≤ e.outer := by
  cases e with
  | literal _ => exact hp
  | reference _ => exact hp
  | grouping _ _ _ => exact hp
  | unary loose _ _ => exact loose
  | binary loose _ _ _ _ => exact loose
  | conditional loose _ _ _ _ _ => exact loose
  | assignment _ _ _ => exact Nat.le_refl 0

/-- Every level that is loose enough reads the expression, whatever closes it. -/
def IsRead (finish : Token) {p : Nat} (e : Expression p) : Prop :=
  ∀ (l : Level) (n : Nat) (rest : List Token), l.strength ≤ e.outer → Closed l.strength rest →
    11 * (e.tokens ++ rest).length + l.rank ≤ n →
    (expressionAt n l).Reads finish (e.tokens ++ rest) e.tree rest

/-- A tier that reads the expression goes on to its operators with the expression on the left. -/
def IsOperand (finish : Token) {p : Nat} (e : Expression p) : Prop :=
  ∀ (t : Tier) (n : Nat) (rest : List Token), t.strength ≤ e.outer → Closed (t.strength + 1) rest →
    11 * (e.tokens ++ rest).length + (Level.tier t).rank ≤ n →
    ∃ m, 11 * rest.length + 1 ≤ m ∧
      expressionAt n (.tier t) finish (e.tokens ++ rest) = operations m t e.tree finish rest

theorem isRead_of_outer {p : Nat} {e : Expression p} {k : Level} (hk : k.strength = e.outer)
    (hk' : k.strength ≤ 8)
    (own : ∀ (n : Nat) (rest : List Token), Closed k.strength rest →
      11 * (e.tokens ++ rest).length + k.rank ≤ n →
      (expressionAt n k).Reads finish (e.tokens ++ rest) e.tree rest) : IsRead finish e := by
  intro l n rest hl hc hn
  have hrank : l.rank = k.rank + (k.strength - l.strength) := by
    simp only [Level.rank]
    omega
  have h := own (n - (k.strength - l.strength)) rest (hc.mono (by omega)) (by omega)
  have hread := reads_of_tighter (by omega) hk' hc h (d := k.strength - l.strength)
  rwa [Nat.sub_add_cancel (by omega)] at hread

theorem IsRead.operands_eq {p : Nat} {e : Expression p} (h : IsRead finish e) {t : Tier} {n : Nat}
    {rest : List Token} (ht : t.strength < e.outer) (hc : Closed (t.strength + 1) rest)
    (hn : 11 * (e.tokens ++ rest).length + (Level.tier t).rank ≤ n) :
    ∃ m, 11 * rest.length + 1 ≤ m ∧
      expressionAt n (.tier t) finish (e.tokens ++ rest) = operations m t e.tree finish rest := by
  have hop : t.operand.strength = t.strength + 1 := t.strength_operand
  have hle : t.operand.strength ≤ 9 := t.operand.strength_le
  have hrank : (Level.tier t).rank = t.operand.rank + 1 := by
    simp only [Level.rank, hop]
    simp only [Level.strength]
    omega
  obtain ⟨m, rfl⟩ : ∃ m, n = m + 1 := ⟨n - 1, by omega⟩
  have hread := h t.operand m rest (by omega) (by rw [hop]; exact hc) (by omega)
  refine ⟨m, ?_, hread.bind_eq (operations m t)⟩
  have hpos : 0 < t.operand.rank := by
    simp only [Level.rank]
    omega
  simp only [List.length_append] at hn
  omega

theorem isRead_of_primary {p : Nat} {e : Expression p} (hout : e.outer = 8)
    (hhead : ∀ rest, NextNot [.bang, .minus] (e.tokens ++ rest))
    (own : ∀ (n : Nat) (rest : List Token), 11 * (e.tokens ++ rest).length + 1 ≤ n →
      (expressionAt n .primary).Reads finish (e.tokens ++ rest) e.tree rest) : IsRead finish e := by
  apply isRead_of_outer (k := .unary) hout.symm (Nat.le_refl 8)
  intro n rest _ hn
  obtain ⟨m, rfl⟩ : ∃ m, n = m + 1 :=
    ⟨n - 1, by simp only [Level.rank, Level.strength] at hn; omega⟩
  have hread := own m rest (by simp only [Level.rank, Level.strength] at hn; omega)
  exact (Reads.decline (hhead rest)).bind hread

theorem IsRead.isOperand {p : Nat} {e : Expression p} (h : IsRead finish e)
    (hout : ∀ t : Tier, t.strength ≠ e.outer) : IsOperand finish e := by
  intro t n rest ht hc hn
  exact h.operands_eq (Nat.lt_of_le_of_ne ht (hout t)) hc hn

theorem reads_literal {n : Nat} {word : Token} {rest : List Token}
    (hk : word.kind ∈ [.falseWord, .trueWord, .nilWord, .number, .string]) :
    (expressionAt (n + 1) .primary).Reads finish (word :: rest)
      (.literal (literalValue word)) rest := by
  refine (Reads.current _).bind ?_
  simp only [List.mem_cons, List.not_mem_nil, or_false] at hk
  rcases hk with hk | hk | hk | hk | hk <;>
    simp only [List.headD_cons, hk, literalValue] <;>
    exact (Reads.advance _ _).bind (.pure _ _)

theorem reads_reference {n : Nat} {name : Token} {rest : List Token}
    (hk : name.kind = .identifier) :
    (expressionAt (n + 1) .primary).Reads finish (name :: rest) (.reference name) rest := by
  refine (Reads.current _).bind ?_
  simp only [List.headD_cons, hk]
  exact (Reads.advance _ _).bind (.pure _ _)

theorem reads_grouping {n : Nat} {opening closing : Token} {tokens rest : List Token} {e : Expr}
    (ho : opening.kind = .leftParen) (hc : closing.kind = .rightParen)
    (h : (expressionAt n .assignment).Reads finish tokens e (closing :: rest)) :
    (expressionAt (n + 1) .primary).Reads finish (opening :: tokens) (.grouping e) rest := by
  refine (Reads.current _).bind ?_
  simp only [List.headD_cons, ho]
  refine (Reads.advance _ _).bind (h.bind ?_)
  exact (reads_expect.mpr ⟨closing, hc, rfl⟩).bind (.pure _ _)

theorem reads_operations_cons {n : Nat} {t : Tier} {left right : Expr} {operator : Token}
    {tokens rest : List Token} (ho : operator.kind ∈ t.operators)
    (h : (expressionAt n t.operand).Reads finish tokens right rest) :
    operations (n + 1) t left finish (operator :: tokens) =
      operations n t (operation left operator right) finish rest := by
  have hacc : (accept? t.operators).Reads finish (operator :: tokens) (some operator) tokens :=
    reads_accept_some.mpr ⟨rfl, ho⟩
  have hright := h.bind_eq fun right => operations n t (t.combine left operator right)
  rw [Tier.combine_eq ho] at hright
  rw [operations, hacc.bind_eq]
  exact hright

/-- The operators of one tier are read from left to right. -/
theorem operands_eq_binary {p : Nat} {t : Tier} {left : Expression t.strength} {operator : Token}
    {right : Expression (t.strength + 1)} (loose : p ≤ t.strength)
    (binds : binding? operator.kind = some t.strength) (hleft : IsOperand finish left)
    (hright : IsRead finish right) {n : Nat} {rest : List Token}
    (hc : Closed (t.strength + 1) rest)
    (hn : 11 * ((Expression.binary (p := p) loose left operator binds right).tokens ++ rest).length
      + (Level.tier t).rank ≤ n) :
    ∃ m, 11 * rest.length + 1 ≤ m ∧
      expressionAt n (.tier t) finish
          ((Expression.binary (p := p) loose left operator binds right).tokens ++ rest) =
        operations m t (operation left.tree operator right.tree) finish rest := by
  have hop : t.operand.strength = t.strength + 1 := t.strength_operand
  have hlt : t.strength < 8 := t.strength_lt
  have hclosed : Closed (t.strength + 1) (operator :: (right.tokens ++ rest)) := by
    rw [closed_cons, holds_of_binding binds]
    simp
  simp only [Expression.tokens, List.append_assoc, List.cons_append] at hn ⊢
  obtain ⟨m, hm, heq⟩ := hleft t n _ (left.le_outer (by omega)) hclosed hn
  simp only [List.length_cons, List.length_append] at hm
  obtain ⟨m, rfl⟩ : ∃ k, m = k + 1 := ⟨m - 1, by omega⟩
  have hrank : t.operand.rank ≤ 10 := by
    simp only [Level.rank]
    omega
  have hout : t.operand.strength ≤ right.outer := by
    rw [hop]
    exact right.le_outer (by omega)
  have hread := hright t.operand m rest hout (by rw [hop]; exact hc)
    (by simp only [List.length_append]; omega)
  refine ⟨m, by omega, ?_⟩
  rw [heq, reads_operations_cons (Tier.mem_operators.mpr binds) hread]

theorem isRead_literal {p : Nat}
    (word : Terminal [.falseWord, .trueWord, .nilWord, .number, .string]) :
    IsRead finish (.literal word : Expression p) := by
  refine isRead_of_primary rfl (fun rest => ?_) (fun n rest hn => ?_)
  · have hk := word.property
    simp only [List.mem_cons, List.not_mem_nil, or_false] at hk
    simp only [Expression.tokens, List.cons_append, nextNot_cons]
    rcases hk with hk | hk | hk | hk | hk <;> simp [hk]
  · obtain ⟨m, rfl⟩ : ∃ k, n = k + 1 := ⟨n - 1, by omega⟩
    exact reads_literal word.property

theorem isRead_reference {p : Nat} (name : Terminal [.identifier]) :
    IsRead finish (.reference name : Expression p) := by
  have hk : name.val.kind = .identifier := List.mem_singleton.mp name.property
  refine isRead_of_primary rfl (fun rest => ?_) (fun n rest hn => ?_)
  · simp [Expression.tokens, hk]
  · obtain ⟨m, rfl⟩ : ∃ k, n = k + 1 := ⟨n - 1, by omega⟩
    exact reads_reference hk

theorem isRead_grouping {p : Nat} {inner : Expression 0} (h : IsRead finish inner)
    (opening : Terminal [.leftParen]) (closing : Terminal [.rightParen]) :
    IsRead finish (.grouping opening inner closing : Expression p) := by
  have ho : opening.val.kind = .leftParen := List.mem_singleton.mp opening.property
  have hc : closing.val.kind = .rightParen := List.mem_singleton.mp closing.property
  refine isRead_of_primary rfl (fun rest => ?_) (fun n rest hn => ?_)
  · simp [Expression.tokens, ho]
  · simp only [Expression.tokens, List.cons_append, List.append_assoc, List.nil_append] at hn ⊢
    simp only [List.length_cons, List.length_append] at hn
    obtain ⟨m, rfl⟩ : ∃ k, n = k + 1 := ⟨n - 1, by omega⟩
    have hclosed : Closed 0 (closing.val :: rest) := by
      simp [closed_cons, hc, holds?, binding?]
    have hread := h .assignment m (closing.val :: rest) (Nat.zero_le _) hclosed (by
      simp only [List.length_cons, List.length_append, Level.rank, Level.strength]
      omega)
    exact reads_grouping ho hc hread

theorem isRead_unary {p : Nat} {operand : Expression 8} (h : IsRead finish operand)
    (loose : p ≤ 8) (operator : Terminal [.bang, .minus]) :
    IsRead finish (.unary loose operator operand : Expression p) := by
  apply isRead_of_outer (k := .unary) rfl (Nat.le_refl 8)
  intro n rest hc hn
  simp only [Expression.tokens, List.length_cons, List.cons_append] at hn
  obtain ⟨m, rfl⟩ : ∃ k, n = k + 1 := ⟨n - 1, by omega⟩
  have hread := h .unary m rest (operand.le_outer (Nat.le_refl 8)) hc (by omega)
  exact (Reads.accept operator.property _).bind
    (hread.bind (.pure _ _))

theorem isRead_binary {p : Nat} {t : Tier} {left : Expression t.strength} {operator : Token}
    {right : Expression (t.strength + 1)} (loose : p ≤ t.strength)
    (binds : binding? operator.kind = some t.strength) (hleft : IsOperand finish left)
    (hright : IsRead finish right) :
    IsRead finish (.binary loose left operator binds right : Expression p) := by
  apply isRead_of_outer (k := .tier t) rfl (Nat.le_of_lt t.strength_lt)
  intro n rest hc hn
  obtain ⟨m, hm, heq⟩ := operands_eq_binary loose binds hleft hright (hc.mono (Nat.le_succ _)) hn
  have hread : (operations m t (operation left.tree operator right.tree)).Reads finish rest
      (operation left.tree operator right.tree) rest :=
    reads_operations_nil (by omega) hc.nextNot_operators
  exact heq.trans hread

theorem isRead_conditional {p : Nat} {condition : Expression 4} {ifTrue ifFalse : Expression 3}
    (hcondition : IsRead finish condition) (htrue : IsRead finish ifTrue)
    (hfalse : IsRead finish ifFalse) (loose : p ≤ 3) (question : Terminal [.question])
    (colon : Terminal [.colon]) :
    IsRead finish (.conditional loose condition question ifTrue colon ifFalse : Expression p) := by
  apply isRead_of_outer (k := .conditional) rfl (by decide)
  intro n rest hc hn
  have hq : question.val.kind = .question := List.mem_singleton.mp question.property
  have hcolon : colon.val.kind = .colon := List.mem_singleton.mp colon.property
  simp only [Expression.tokens, List.append_assoc, List.cons_append] at hn ⊢
  simp only [List.length_append, List.length_cons, Level.rank, Level.strength] at hn
  obtain ⟨m, rfl⟩ : ∃ k, n = k + 1 := ⟨n - 1, by omega⟩
  have readCondition := hcondition (.tier .equality) m
    (question.val :: (ifTrue.tokens ++ colon.val :: (ifFalse.tokens ++ rest)))
    (condition.le_outer (by decide))
    (by simp [closed_cons, hq, holds?, Level.strength, Tier.strength])
    (by
      simp only [List.length_append, List.length_cons, Level.rank, Level.strength, Tier.strength]
      omega)
  have readTrue := htrue .conditional m (colon.val :: (ifFalse.tokens ++ rest))
    (ifTrue.le_outer (by decide)) (by simp [closed_cons, hcolon, holds?, binding?])
    (by
      simp only [List.length_append, List.length_cons, Level.rank, Level.strength]
      omega)
  have readFalse := hfalse .conditional m rest (ifFalse.le_outer (by decide)) hc
    (by
      simp only [List.length_append, Level.rank, Level.strength]
      omega)
  refine readCondition.bind
    ((Reads.accept question.property _).bind (readTrue.bind ?_))
  exact (reads_expect.mpr ⟨colon.val, hcolon, rfl⟩).bind
    (readFalse.bind (.pure _ _))

theorem isRead_assignment {value : Expression 0} (h : IsRead finish value)
    (name : Terminal [.identifier]) (equals : Terminal [.equal]) :
    IsRead finish (.assignment name equals value) := by
  apply isRead_of_outer (k := .assignment) rfl (by decide)
  intro n rest hc hn
  have he : equals.val.kind = .equal := List.mem_singleton.mp equals.property
  simp only [Expression.tokens, List.cons_append, List.length_append, List.length_cons, Level.rank,
    Level.strength] at hn ⊢
  obtain ⟨m, rfl⟩ : ∃ k, n = k + 1 := ⟨n - 1, by omega⟩
  have hname : IsRead finish (.reference name : Expression 1) := isRead_reference name
  have readName := hname (.tier .disjunction) m (equals.val :: (value.tokens ++ rest))
    (Nat.le_of_ble_eq_true rfl)
    (by simp [closed_cons, he, holds?, Level.strength, Tier.strength])
    (by
      simp only [Expression.tokens, List.length_append, List.length_cons, List.length_nil,
        Level.rank, Level.strength, Tier.strength]
      omega)
  have readValue := h .assignment m rest (Nat.zero_le _) hc
    (by
      simp only [List.length_append, Level.rank, Level.strength]
      omega)
  exact readName.bind ((Reads.accept equals.property _).bind
    (readValue.bind (.pure _ _)))

/-- Every expression of the grammar is read back as its tree. The two halves carry each other: a
left operand has to be seen as the start of a row of operators, a right one as a whole. -/
theorem isRead_and_isOperand {p : Nat} (e : Expression p) :
    IsRead finish e ∧ IsOperand finish e := by
  induction e with
  | literal word =>
    exact ⟨isRead_literal word, (isRead_literal word).isOperand fun t => Nat.ne_of_lt t.strength_lt⟩
  | reference name =>
    exact ⟨isRead_reference name,
      (isRead_reference name).isOperand fun t => Nat.ne_of_lt t.strength_lt⟩
  | @grouping p opening inner closing ih =>
    have h := isRead_grouping (p := p) ih.1 opening closing
    exact ⟨h, h.isOperand fun t => Nat.ne_of_lt t.strength_lt⟩
  | unary loose operator operand ih =>
    have h := isRead_unary ih.1 loose operator
    exact ⟨h, h.isOperand fun t => Nat.ne_of_lt t.strength_lt⟩
  | binary loose left operator binds right ihl ihr =>
    obtain ⟨t, rfl, -⟩ := exists_tier binds
    have h := isRead_binary loose binds ihl.2 ihr.1
    refine ⟨h, fun t' n rest ht hc hn => ?_⟩
    rcases Nat.lt_or_eq_of_le ht with hlt | heq
    · exact h.operands_eq hlt hc hn
    · have htier : Level.tier t' = Level.tier t := Level.strength_inj heq
      obtain rfl := Level.tier.inj htier
      exact operands_eq_binary loose binds ihl.2 ihr.1 hc hn
  | conditional loose condition question ifTrue colon ifFalse ihc iht ihf =>
    have h := isRead_conditional ihc.1 iht.1 ihf.1 loose question colon
    exact ⟨h, h.isOperand fun t => t.strength_ne_three⟩
  | assignment name equals value ih =>
    have h := isRead_assignment ih.1 name equals
    exact ⟨h, h.isOperand fun t => Nat.ne_of_gt t.strength_pos⟩

/-- An expression of the grammar as one that is allowed to hold less tightly. -/
def Grammar.Expression.weaken {p q : Nat} (le : p ≤ q) : Expression q → Expression p
  | .literal word => .literal word
  | .reference name => .reference name
  | .grouping opening inner closing => .grouping opening inner closing
  | .unary loose operator operand => .unary (Nat.le_trans le loose) operator operand
  | .binary loose left operator binds right =>
    .binary (Nat.le_trans le loose) left operator binds right
  | .conditional loose condition question ifTrue colon ifFalse =>
    .conditional (Nat.le_trans le loose) condition question ifTrue colon ifFalse
  | .assignment name equals value =>
    Nat.eq_zero_of_le_zero le ▸ .assignment name equals value

theorem Grammar.Expression.tokens_weaken {p q : Nat} (le : p ≤ q) (e : Expression q) :
    (e.weaken le).tokens = e.tokens := by
  cases e with
  | assignment name equals value =>
    obtain rfl := Nat.eq_zero_of_le_zero le
    rfl
  | _ => rfl

theorem Grammar.Expression.tree_weaken {p q : Nat} (le : p ≤ q) (e : Expression q) :
    (e.weaken le).tree = e.tree := by
  cases e with
  | assignment name equals value =>
    obtain rfl := Nat.eq_zero_of_le_zero le
    rfl
  | _ => rfl

/-- Only a bare variable is read as a reference. -/
theorem Grammar.Expression.eq_reference {p : Nat} {e : Expression p} {name : Token}
    (h : e.tree = .reference name) : name.kind = .identifier ∧ e.tokens = [name] := by
  cases e with
  | reference n =>
    obtain rfl := Expr.reference.inj h
    exact ⟨List.mem_singleton.mp n.property, rfl⟩
  | binary loose left operator binds right =>
    simp only [Expression.tree, operation] at h
    split at h <;> cases h
  | _ => cases h

/-- Reading `tokens` gives the tree of an expression that they begin with and that nothing behind it
goes on with. -/
def Spells (p : Nat) (tokens : List Token) (e : Expr) (rest : List Token) : Prop :=
  ∃ s : Expression p, tokens = s.tokens ++ rest ∧ s.tree = e ∧ Closed p rest

theorem Spells.weaken {p q : Nat} {tokens rest : List Token} {e : Expr}
    (h : Spells q tokens e rest) (le : p ≤ q) (hc : Closed p rest) : Spells p tokens e rest := by
  obtain ⟨s, rfl, rfl, -⟩ := h
  exact ⟨s.weaken le, by rw [s.tokens_weaken], s.tree_weaken le, hc⟩

theorem Spells.closed {p : Nat} {tokens rest : List Token} {e : Expr}
    (h : Spells p tokens e rest) : Closed p rest := by
  obtain ⟨_, _, _, hc⟩ := h
  exact hc

theorem holds_eq_zero {k : Kind} (h : holds? k = some 0) : k ∈ [Kind.equal] := by
  cases k <;> first | decide | cases h

theorem holds_eq_three {k : Kind} (h : holds? k = some 3) : k ∈ [Kind.question] := by
  cases k <;> first | decide | cases h

theorem holds_eq_strength {t : Tier} {k : Kind} (h : holds? k = some t.strength) :
    k ∈ t.operators := by
  cases t <;> cases k <;> first | decide | cases h

/-- What the reader makes of a level with the given budget is spelled by the tokens it consumes. -/
def SoundAt (finish : Token) (n : Nat) : Prop :=
  ∀ (l : Level) (tokens rest : List Token) (e : Expr),
    (expressionAt n l).Reads finish tokens e rest → Spells l.strength tokens e rest

/-- The same for the operators behind a left operand. -/
def SoundBehind (finish : Token) (n : Nat) : Prop :=
  ∀ (t : Tier) (left : Expression t.strength) (tokens rest : List Token) (e : Expr),
    Closed (t.strength + 1) tokens → (operations n t left.tree).Reads finish tokens e rest →
    Spells t.strength (left.tokens ++ tokens) e rest

theorem sound_assignment {n : Nat} (ih : SoundAt finish n) {tokens rest : List Token} {e : Expr}
    (h : (expressionAt (n + 1) .assignment).Reads finish tokens e rest) :
    Spells 0 tokens e rest := by
  obtain ⟨left, mid, hleft, h₁⟩ := reads_bind.mp h
  have hspell := ih _ _ _ _ hleft
  obtain ⟨o, mid', ho, h₂⟩ := reads_bind.mp h₁
  cases o with
  | none =>
    obtain ⟨rfl, hnext⟩ := reads_accept_none.mp ho
    obtain ⟨rfl, rfl⟩ := reads_pure.mp h₂
    exact hspell.weaken (Nat.zero_le _) (hspell.closed.of_nextNot hnext fun _ => holds_eq_zero)
  | some equals =>
    obtain ⟨rfl, hequals⟩ := reads_accept_some.mp ho
    obtain ⟨value, mid, hvalue, h₃⟩ := reads_bind.mp h₂
    obtain ⟨v, rfl, rfl, hc⟩ := ih _ _ _ _ hvalue
    obtain ⟨s, rfl, hs, -⟩ := hspell
    cases left with
    | reference name =>
      obtain ⟨rfl, rfl⟩ := reads_pure.mp h₃
      obtain ⟨hname, htokens⟩ := s.eq_reference hs
      refine ⟨.assignment ⟨name, List.mem_singleton.mpr hname⟩ ⟨equals, hequals⟩ v, ?_, rfl, hc⟩
      rw [htokens]
      rfl
    | _ =>
      obtain ⟨_, _, hrecord, _⟩ := reads_bind.mp h₃
      exact absurd hrecord not_reads_record

theorem sound_tier {n : Nat} (ih : SoundAt finish n) (ihOperations : SoundBehind finish n)
    (t : Tier) {tokens rest : List Token} {e : Expr}
    (h : (expressionAt (n + 1) (.tier t)).Reads finish tokens e rest) :
    Spells t.strength tokens e rest := by
  obtain ⟨left, mid, hleft, h₁⟩ := reads_bind.mp h
  have hop : t.operand.strength = t.strength + 1 := t.strength_operand
  have hspell : Spells (t.strength + 1) tokens left mid := hop ▸ ih _ _ _ _ hleft
  obtain ⟨s, rfl, rfl, hc⟩ := hspell
  have hle : t.strength ≤ t.strength + 1 := Nat.le_succ _
  rw [← s.tokens_weaken hle]
  rw [← s.tree_weaken hle] at h₁
  exact ihOperations t (s.weaken hle) mid rest e hc h₁

theorem sound_operations {n : Nat} (ih : SoundAt finish n) (ihOperations : SoundBehind finish n) :
    SoundBehind finish (n + 1) := by
  intro t left tokens rest e hc h
  obtain ⟨o, mid, ho, h₁⟩ := reads_bind.mp h
  cases o with
  | none =>
    obtain ⟨rfl, hnext⟩ := reads_accept_none.mp ho
    obtain ⟨rfl, rfl⟩ := reads_pure.mp h₁
    exact ⟨left, rfl, rfl, hc.of_nextNot hnext fun _ => holds_eq_strength⟩
  | some operator =>
    obtain ⟨rfl, hoperator⟩ := reads_accept_some.mp ho
    obtain ⟨right, mid', hright, h₂⟩ := reads_bind.mp h₁
    have hop : t.operand.strength = t.strength + 1 := t.strength_operand
    have hspell : Spells (t.strength + 1) mid right mid' := hop ▸ ih _ _ _ _ hright
    obtain ⟨r, rfl, rfl, hc'⟩ := hspell
    let whole : Expression t.strength :=
      .binary (Nat.le_refl _) left operator (Tier.mem_operators.mp hoperator) r
    rw [Tier.combine_eq hoperator] at h₂
    have hspelled := ihOperations t whole mid' rest e hc' h₂
    simpa only [whole, Expression.tokens, List.append_assoc, List.cons_append] using hspelled

theorem sound_conditional {n : Nat} (ih : SoundAt finish n) {tokens rest : List Token} {e : Expr}
    (h : (expressionAt (n + 1) .conditional).Reads finish tokens e rest) :
    Spells 3 tokens e rest := by
  obtain ⟨condition, mid, hcondition, h₁⟩ := reads_bind.mp h
  have hspell : Spells 4 tokens condition mid := ih _ _ _ _ hcondition
  obtain ⟨o, mid', ho, h₂⟩ := reads_bind.mp h₁
  cases o with
  | none =>
    obtain ⟨rfl, hnext⟩ := reads_accept_none.mp ho
    obtain ⟨rfl, rfl⟩ := reads_pure.mp h₂
    exact hspell.weaken (Nat.le_succ 3) (hspell.closed.of_nextNot hnext fun _ => holds_eq_three)
  | some question =>
    obtain ⟨rfl, hquestion⟩ := reads_accept_some.mp ho
    obtain ⟨ifTrue, mid, htrue, h₃⟩ := reads_bind.mp h₂
    obtain ⟨_, mid₂, hcolon, h₄⟩ := reads_bind.mp h₃
    obtain ⟨ifFalse, mid₃, hfalse, h₅⟩ := reads_bind.mp h₄
    obtain ⟨rfl, rfl⟩ := reads_pure.mp h₅
    obtain ⟨c, rfl, rfl, -⟩ := hspell
    obtain ⟨a, rfl, rfl, -⟩ : Spells 3 mid' ifTrue mid := ih _ _ _ _ htrue
    obtain ⟨colon, hk, rfl⟩ := reads_expect.mp hcolon
    obtain ⟨b, rfl, rfl, hc⟩ : Spells 3 mid₂ ifFalse mid₃ := ih _ _ _ _ hfalse
    refine ⟨.conditional (Nat.le_refl 3) c ⟨question, hquestion⟩ a
      ⟨colon, List.mem_singleton.mpr hk⟩ b, ?_, rfl, hc⟩
    simp only [Expression.tokens, List.append_assoc, List.cons_append]

theorem sound_unary {n : Nat} (ih : SoundAt finish n) {tokens rest : List Token} {e : Expr}
    (h : (expressionAt (n + 1) .unary).Reads finish tokens e rest) :
    Spells 8 tokens e rest := by
  obtain ⟨o, mid, ho, h₁⟩ := reads_bind.mp h
  cases o with
  | none =>
    obtain ⟨rfl, -⟩ := reads_accept_none.mp ho
    have hspell : Spells 9 tokens e rest := ih _ _ _ _ h₁
    exact hspell.weaken (Nat.le_succ 8) (closed_eight rest)
  | some operator =>
    obtain ⟨rfl, hoperator⟩ := reads_accept_some.mp ho
    obtain ⟨operand, mid', hoperand, h₂⟩ := reads_bind.mp h₁
    obtain ⟨rfl, rfl⟩ := reads_pure.mp h₂
    obtain ⟨s, rfl, rfl, hc⟩ := ih _ _ _ _ hoperand
    exact ⟨.unary (Nat.le_refl 8) ⟨operator, hoperator⟩ s, rfl, rfl, hc⟩

theorem sound_literal {word : Token} {tokens rest : List Token} {e value : Expr}
    (hk : word.kind ∈ [.falseWord, .trueWord, .nilWord, .number, .string])
    (hvalue : value = .literal (literalValue word))
    (h : (do advance; pure value : Parser Expr).Reads finish (word :: tokens) e rest) :
    Spells 9 (word :: tokens) e rest := by
  obtain ⟨_, mid, hadvance, h₁⟩ := reads_bind.mp h
  obtain rfl := reads_advance.mp hadvance
  obtain ⟨rfl, rfl⟩ := reads_pure.mp h₁
  exact ⟨.literal ⟨word, hk⟩, rfl, hvalue.symm, (closed_eight _).mono (Nat.le_succ 8)⟩

theorem sound_primary {n : Nat} (hf : finish.kind = .eof) (ih : SoundAt finish n)
    {tokens rest : List Token} {e : Expr}
    (h : (expressionAt (n + 1) .primary).Reads finish tokens e rest) :
    Spells 9 tokens e rest := by
  have hclosed : Closed 9 rest := (closed_eight rest).mono (Nat.le_succ 8)
  obtain ⟨token, mid, hcurrent, h₁⟩ := reads_bind.mp h
  obtain ⟨rfl, rfl⟩ := reads_current.mp hcurrent
  cases tokens with
  | nil =>
    simp only [List.headD_nil, hf] at h₁
    exact absurd h₁ not_reads_unexpected
  | cons word tokens =>
    simp only [List.headD_cons] at h₁
    split at h₁
    case h_1 hk => exact sound_literal (by simp [hk]) (by simp [literalValue, hk]) h₁
    case h_2 hk => exact sound_literal (by simp [hk]) (by simp [literalValue, hk]) h₁
    case h_3 hk => exact sound_literal (by simp [hk]) (by simp [literalValue, hk]) h₁
    case h_4 hk => exact sound_literal (by simp [hk]) (by simp [literalValue, hk]) h₁
    case h_5 hk => exact sound_literal (by simp [hk]) (by simp [literalValue, hk]) h₁
    case h_6 hk =>
      obtain ⟨_, mid, hadvance, h₂⟩ := reads_bind.mp h₁
      obtain rfl := reads_advance.mp hadvance
      obtain ⟨rfl, rfl⟩ := reads_pure.mp h₂
      exact ⟨.reference ⟨word, List.mem_singleton.mpr hk⟩, rfl, rfl, hclosed⟩
    case h_7 hk =>
      obtain ⟨_, mid, hadvance, h₂⟩ := reads_bind.mp h₁
      obtain rfl := reads_advance.mp hadvance
      obtain ⟨inner, mid, hinner, h₃⟩ := reads_bind.mp h₂
      obtain ⟨_, mid', hclosing, h₄⟩ := reads_bind.mp h₃
      obtain ⟨rfl, rfl⟩ := reads_pure.mp h₄
      obtain ⟨closing, hclose, rfl⟩ := reads_expect.mp hclosing
      obtain ⟨s, hs, rfl, -⟩ : Spells 0 tokens inner (closing :: mid') := ih _ _ _ _ hinner
      refine ⟨.grouping ⟨word, List.mem_singleton.mpr hk⟩ s
        ⟨closing, List.mem_singleton.mpr hclose⟩, ?_, rfl, hclosed⟩
      simp [Expression.tokens, hs]
    case h_8 => exact absurd h₁ not_reads_unexpected

theorem sound_expressionAt (hf : finish.kind = .eof) (n : Nat) :
    SoundAt finish n ∧ SoundBehind finish n := by
  induction n with
  | zero =>
    constructor
    · intro l tokens rest e h
      exact absurd h not_reads_unexpected
    · intro t left tokens rest e _ h
      exact absurd h not_reads_unexpected
  | succ n ih =>
    refine ⟨fun l tokens rest e h => ?_, sound_operations ih.1 ih.2⟩
    cases l with
    | assignment => exact sound_assignment ih.1 h
    | tier t => exact sound_tier ih.1 ih.2 t h
    | conditional => exact sound_conditional ih.1 h
    | unary => exact sound_unary ih.1 h
    | primary => exact sound_primary hf ih.1 h

theorem reads_expression_eq {tokens rest : List Token} {e : Expr} :
    expression.Reads finish tokens e rest ↔
      (expressionAt (12 * (tokens.length + 1)) .assignment).Reads finish tokens e rest := by
  simp only [Reads, expression]

/-- The expression reader accepts what the grammar spells, and nothing else. -/
theorem reads_expression_iff (hf : finish.kind = .eof) {tokens rest : List Token} {e : Expr} :
    expression.Reads finish tokens e rest ↔ Spells 0 tokens e rest := by
  rw [reads_expression_eq]
  constructor
  · intro h
    exact (sound_expressionAt hf _).1 .assignment tokens rest e h
  · rintro ⟨s, rfl, rfl, hc⟩
    refine (isRead_and_isOperand s).1 .assignment _ rest (Nat.zero_le _) hc ?_
    simp only [Level.rank, Level.strength]
    omega

end Treewalk
