import Treewalk.Proofs.Grammar.Programs
import Treewalk.Proofs.Parse.Level
import Treewalk.Proofs.Parse.Relocation

set_option autoImplicit false
set_option relaxedAutoImplicit false

/-!
Statements that end at their semicolon, right or wrong.

No expression goes past a semicolon. So what a reader makes of the tokens up to one, and what it
complains about, does not depend on the tokens behind it. If there is an error in a simple statement,
reading goes on right behind its semicolon, as if the statement had been read.
-/

namespace Treewalk

theorem SyntaxError.mapLines_id (e : SyntaxError) : e.mapLines id = e := by
  cases e <;> rw [mapLines, Token.mapLine_id]

theorem Reading.mapLines_id {α : Type} {φ : α → α} (hφ : ∀ a, φ a = a) (r : Reading α) :
    r.mapLines id φ = r := by
  obtain ⟨outcome, pending, recorded⟩ := r
  have hpending : pending.map (Token.mapLine id) = pending := List.map_id pending
  have hrecorded : recorded.map (SyntaxError.mapLines id) = recorded :=
    List.map_id'' SyntaxError.mapLines_id recorded
  cases outcome with
  | ok a => simp only [mapLines, hφ, hpending, hrecorded]
  | error e => simp only [mapLines, SyntaxError.mapLines_id, hpending, hrecorded]

namespace Parser

/-- The last of the tokens is a semicolon, and no other one is. -/
def IsClosed : List Token → Prop
  | [] => False
  | t :: rest => if t.kind = .semicolon then rest = [] else IsClosed rest

section Segments

variable {α β : Type} {k : Nat} {segment : List Token} {Q : List Token → Prop}

theorem IsClosed.exists_cons (h : IsClosed segment) : ∃ t rest, segment = t :: rest := by
  cases segment with
  | nil => exact h.elim
  | cons t rest => exact ⟨t, rest, rfl⟩

theorem IsClosed.tail {t : Token} {rest : List Token} (h : IsClosed (t :: rest))
    (ht : t.kind ≠ .semicolon) : IsClosed rest := by
  rwa [IsClosed, if_neg ht] at h

theorem IsClosed.eq_nil {t : Token} {rest : List Token} (h : IsClosed (t :: rest))
    (ht : t.kind = .semicolon) : rest = [] := by
  rwa [IsClosed, if_pos ht] at h

/-- What a reader leaves of a segment: it has to stop before the semicolon if there is an error. -/
def Leaves (Q : List Token → Prop) (left : List Token) : Except SyntaxError α → Prop
  | .ok _ => Q left
  | .error _ => IsClosed left

/-- With a budget of at least `k`, the readers do the same with the segment whatever is behind it, and
what they leave of it has the property `Q`. -/
def Confined (k : Nat) (segment : List Token) (Q : List Token → Prop) (p : Nat → Parser α) : Prop :=
  ∃ outcome left recorded, left <:+ segment ∧ Leaves Q left outcome ∧
    ∀ n, k ≤ n → ∀ finish rest,
      p n finish (segment ++ rest) = ⟨outcome, left ++ rest, recorded⟩

theorem Confined.pure (h : Q segment) (a : α) : Confined k segment Q fun _ => Pure.pure a :=
  ⟨.ok a, segment, [], List.suffix_refl segment, h, fun _ _ _ _ => rfl⟩

theorem Confined.record (h : Q segment) (e : SyntaxError) :
    Confined k segment Q fun _ => Parser.record e :=
  ⟨.ok (), segment, [e], List.suffix_refl segment, h, fun _ _ _ _ => rfl⟩

theorem Confined.unexpected (h : IsClosed segment) (expected : Expected) :
    Confined k segment Q fun _ => (Parser.unexpected expected : Parser α) := by
  obtain ⟨t, rest, rfl⟩ := h.exists_cons
  exact ⟨.error (.unexpected expected t), t :: rest, [], List.suffix_refl _, h,
    fun _ _ _ _ => rfl⟩

theorem Confined.bind {p : Nat → Parser α} {f : α → Nat → Parser β}
    (hp : Confined k segment IsClosed p)
    (hf : ∀ a left, left <:+ segment → IsClosed left → Confined k left Q (f a)) :
    Confined k segment Q fun n => p n >>= fun a => f a n := by
  obtain ⟨outcome, left, recorded, hleft, hclosed, hp⟩ := hp
  cases outcome with
  | error e =>
    refine ⟨.error e, left, recorded, hleft, hclosed, fun n hn finish rest => ?_⟩
    simp only [bind_apply, hp n hn]
  | ok a =>
    obtain ⟨outcome, left', recorded', hleft', hends, hf⟩ := hf a left hleft hclosed
    refine ⟨outcome, left', recorded ++ recorded', hleft'.trans hleft, hends,
      fun n hn finish rest => ?_⟩
    simp only [bind_apply, hp n hn, hf n hn]

/-- A reader that takes tokens off the segment without errors leaves the others to what follows. -/
theorem Confined.of_reads {p : Parser α} {a : α} {f : α → Nat → Parser β} {left : List Token}
    (hleft : left <:+ segment)
    (hp : ∀ finish rest, p.Reads finish (segment ++ rest) a (left ++ rest))
    (hf : Confined k left Q (f a)) : Confined k segment Q fun n => p >>= fun a => f a n := by
  obtain ⟨outcome, left', recorded, hleft', hends, hf⟩ := hf
  refine ⟨outcome, left', recorded, hleft'.trans hleft, hends, fun n hn finish rest => ?_⟩
  have hread := (hp finish rest).bind_eq fun a => f a n
  exact hread.trans (hf n hn finish rest)

/-- One more for the budget of a reader that lowers it once. -/
theorem Confined.succ {p : Nat → Parser α} (h : Confined k segment Q fun n => p (n + 1)) :
    Confined (k + 1) segment Q p := by
  obtain ⟨outcome, left, recorded, hleft, hends, h⟩ := h
  refine ⟨outcome, left, recorded, hleft, hends, fun n hn finish rest => ?_⟩
  obtain ⟨n, rfl⟩ : ∃ m, n = m + 1 := ⟨n - 1, by omega⟩
  exact h n (by omega) finish rest

/-- The next token of the segment, if it is of one of the kinds, and then what follows. -/
theorem Confined.accept {kinds : List Kind} (hkinds : .semicolon ∉ kinds)
    (h : IsClosed segment) {f : Option Token → Nat → Parser β}
    (hsome : ∀ t rest, segment = t :: rest → IsClosed rest → Confined k rest Q (f (some t)))
    (hnone : Confined k segment Q (f none)) :
    Confined k segment Q fun n => accept? kinds >>= fun o => f o n := by
  obtain ⟨t, rest, rfl⟩ := h.exists_cons
  by_cases ht : t.kind ∈ kinds
  · have hsemicolon : t.kind ≠ .semicolon := fun heq => hkinds (heq ▸ ht)
    exact .of_reads (List.suffix_cons t rest) (fun finish more => .accept ht _)
      (hsome t rest rfl (h.tail hsemicolon))
  · exact .of_reads (List.suffix_refl _) (fun finish more => .decline (by simpa using ht)) hnone

theorem Confined.expect {kind : Kind} (hkind : .semicolon ≠ kind) (h : IsClosed segment)
    (context : String) : Confined k segment IsClosed fun _ => Parser.expect kind context :=
  .accept (by simpa using hkind) h (fun _ _ _ hrest => .pure hrest ()) (.unexpected h _)

theorem Confined.assignTo (h : IsClosed segment) (left : Expr) (equals : Token) (value : Expr) :
    Confined k segment IsClosed fun _ => Parser.assignTo left equals value := by
  cases left with
  | reference name => exact .pure h _
  | _ => exact (Confined.record h _).bind fun _ _ _ h => .pure h _

theorem Confined.primary (h : IsClosed segment)
    (ih : ∀ t rest, segment = t :: rest → IsClosed rest →
      Confined k rest IsClosed fun n => expressionAt n .assignment) :
    Confined k segment IsClosed fun n => expressionAt (n + 1) .primary := by
  obtain ⟨t, rest, rfl⟩ := h.exists_cons
  have hadvance : ∀ finish more, advance.Reads finish (t :: rest ++ more) () (rest ++ more) :=
    fun finish more => .advance t _
  have hsuffix : rest <:+ t :: rest := List.suffix_cons t rest
  refine .of_reads (List.suffix_refl _) (fun finish more => .current _) ?_
  by_cases ht : t.kind = .semicolon
  · simp only [ht]
    exact .unexpected h _
  have hrest := h.tail ht
  split
  case h_7 =>
    refine .of_reads hsuffix hadvance ((ih t rest rfl hrest).bind fun inner left _ hleft => ?_)
    exact (Confined.expect (by decide) hleft _).bind fun _ _ _ h => .pure h _
  case h_8 => exact .unexpected h _
  all_goals exact .of_reads hsuffix hadvance (.pure hrest _)

/-- Twelve for each token and one for each level are budget enough for an expression. -/
theorem confined_expressionAt (k : Nat) :
    (∀ (l : Level) (segment : List Token), IsClosed segment → 12 * segment.length + l.rank ≤ k →
      Confined k segment IsClosed fun n => expressionAt n l) ∧
    ∀ (t : Tier) (left : Expr) (segment : List Token), IsClosed segment →
      12 * segment.length + 1 ≤ k → Confined k segment IsClosed fun n => operations n t left := by
  induction k with
  | zero =>
    refine ⟨fun l segment _ hk => ?_, fun t left segment _ hk => by omega⟩
    have hpos := l.rank_pos
    omega
  | succ k ih =>
    obtain ⟨ihLevel, ihOperations⟩ := ih
    -- Behind a token that was consumed there is budget enough for any level.
    have ihShorter : ∀ (l : Level) {segment left : List Token}, 12 * segment.length ≤ k →
        left.length < segment.length → IsClosed left →
        Confined k left IsClosed fun n => expressionAt n l := by
      intro l segment left hk hlength hleft
      have hrank : l.rank ≤ 10 := Nat.sub_le 10 l.strength
      exact ihLevel l left hleft (by omega)
    constructor
    · intro l segment h hk
      apply Confined.succ
      have hpos := l.rank_pos
      have hsegment : 12 * segment.length ≤ k := by omega
      cases l with
      | assignment =>
        have hrank : (Level.tier .disjunction).rank + 1 = Level.assignment.rank := rfl
        refine (ihLevel _ _ h (by omega)).bind fun left rest hrest hclosed => ?_
        refine .accept (by decide) hclosed (fun equals more hmore hclosed' => ?_) (.pure hclosed _)
        have hlength := hrest.length_le
        rw [hmore, List.length_cons] at hlength
        exact (ihShorter _ hsegment (by omega) hclosed').bind fun value _ _ h =>
          .assignTo h left equals value
      | tier t =>
        have hrank := t.rank_operand
        have hpos := t.operand.rank_pos
        refine (ihLevel _ _ h (by omega)).bind fun left rest hrest hclosed => ?_
        have hlength := hrest.length_le
        exact ihOperations t left rest hclosed (by omega)
      | conditional =>
        have hrank : (Level.tier .equality).rank + 1 = Level.conditional.rank := rfl
        refine (ihLevel _ _ h (by omega)).bind fun condition rest hrest hclosed => ?_
        refine .accept (by decide) hclosed (fun question more hmore hclosed' => ?_)
          (.pure hclosed _)
        have hlength := hrest.length_le
        rw [hmore, List.length_cons] at hlength
        refine (ihShorter _ hsegment (by omega) hclosed').bind fun ifTrue rest' hrest' h' => ?_
        refine (Confined.expect (by decide) h' _).bind fun _ rest'' hrest'' h'' => ?_
        have hlength'' := (hrest''.trans hrest').length_le
        exact (ihShorter _ hsegment (by omega) h'').bind fun ifFalse _ _ h => .pure h _
      | unary =>
        have hrank : Level.primary.rank + 1 = Level.unary.rank := rfl
        refine .accept (by decide) h (fun operator rest hrest hclosed => ?_)
          (ihLevel _ _ h (by omega))
        subst hrest
        exact (ihShorter _ hsegment (Nat.lt_succ_self _) hclosed).bind fun operand _ _ h =>
          .pure h _
      | primary =>
        refine .primary h fun t rest hrest hclosed => ?_
        subst hrest
        exact ihShorter _ hsegment (Nat.lt_succ_self _) hclosed
    · intro t left segment h hk
      apply Confined.succ
      have hsegment : 12 * segment.length ≤ k := by omega
      have hoperators : Kind.semicolon ∉ t.operators := by
        cases t <;> decide
      refine .accept hoperators h (fun operator rest hrest hclosed => ?_) (.pure h _)
      subst hrest
      refine (ihShorter _ hsegment (Nat.lt_succ_self _) hclosed).bind fun right more hmore h' => ?_
      have hlength := hmore.length_le
      rw [List.length_cons] at hk
      exact ihOperations _ _ more h' (by omega)

theorem Confined.expression (h : IsClosed segment) :
    Confined k segment IsClosed fun _ => Parser.expression := by
  obtain ⟨outcome, left, recorded, hleft, hends, hread⟩ :=
    (confined_expressionAt _).1 .assignment segment h (Nat.le_refl _)
  refine ⟨outcome, left, recorded, hleft, hends, fun n hn finish rest => hread _ ?_ finish rest⟩
  have hrank : Level.assignment.rank = 10 := rfl
  rw [List.length_append, hrank]
  omega

/-- The semicolon at the end of a segment, and then the result. -/
theorem Confined.close (h : IsClosed segment) (context : String) (a : α) :
    Confined k segment (· = []) fun _ => (do
      Parser.expect .semicolon context
      Pure.pure a) := by
  obtain ⟨t, rest, rfl⟩ := h.exists_cons
  by_cases ht : t.kind = .semicolon
  · obtain rfl := h.eq_nil ht
    exact .of_reads (List.suffix_cons t []) (fun finish more => reads_expect.mpr ⟨t, ht, rfl⟩)
      (Confined.pure (Q := (· = [])) rfl a)
  · refine ⟨.error (.unexpected (.token .semicolon context) t), t :: rest, [],
      List.suffix_refl _, h, fun n _ finish more => ?_⟩
    have hdecline : (accept? [.semicolon]).Reads finish (t :: rest ++ more) none
        (t :: rest ++ more) := .decline (by simpa using ht)
    have hexpect : Parser.expect .semicolon context finish (t :: rest ++ more) =
        ⟨.error (.unexpected (.token .semicolon context) t), t :: rest ++ more, []⟩ :=
      hdecline.bind_eq _
    simp only [bind_apply, hexpect]

theorem Confined.variableDeclaration (h : IsClosed segment) :
    Confined k segment (· = []) fun _ => Parser.variableDeclaration := by
  refine .accept (by decide) h (fun name rest _ hrest => ?_) (.unexpected h _)
  refine .accept (by decide) hrest (fun equals more _ hmore => ?_) (.close hrest _ _)
  exact (Confined.expression hmore).bind fun value _ _ hleft => .close hleft _ _

theorem Confined.expressionStatement (h : IsClosed segment) :
    Confined k segment (· = []) fun _ => Parser.expressionStatement :=
  (Confined.expression h).bind fun _ _ _ hleft => .close hleft _ _

theorem Confined.checkInLoop (h : IsClosed segment) (inLoop : Bool) (keyword : Token) :
    Confined k segment IsClosed fun _ => Parser.checkInLoop inLoop keyword := by
  cases inLoop with
  | true => exact .pure h ()
  | false => exact .record h _

/-- The kinds of the tokens that begin statements with other statements in them. -/
def compoundStarts : List Kind :=
  [.leftBrace, .forWord, .ifWord, .whileWord, .switchWord]

/-- A statement without other statements in it ends with the segment. -/
theorem Confined.statement (inLoop : Bool) (h : IsClosed segment)
    (hstart : NextNot compoundStarts segment) :
    Confined (k + 1) segment (· = []) fun n => Parser.statement n inLoop := by
  apply Confined.succ
  obtain ⟨t, rest, rfl⟩ := h.exists_cons
  rw [nextNot_cons] at hstart
  have hadvance : ∀ finish more, advance.Reads finish (t :: rest ++ more) () (rest ++ more) :=
    fun finish more => .advance t _
  have hcurrent : ∀ finish more, current.Reads finish (t :: rest ++ more) t (t :: rest ++ more) :=
    fun finish more => .current _
  have hnext : ∀ finish more,
      currentKind.Reads finish (t :: rest ++ more) t.kind (t :: rest ++ more) :=
    fun finish more => .currentKind _
  have hsuffix : rest <:+ t :: rest := List.suffix_cons t rest
  refine .of_reads (List.suffix_refl _) hnext ?_
  by_cases ht : t.kind = .semicolon
  · simp only [ht]
    exact .expressionStatement h
  have hrest := h.tail ht
  split
  case h_3 =>
    refine .of_reads hsuffix hadvance ?_
    exact (Confined.expression hrest).bind fun value _ _ hleft => .close hleft _ _
  case h_6 => exact .of_reads hsuffix hadvance (.close hrest _ _)
  case h_7 | h_8 =>
    refine .of_reads (List.suffix_refl _) hcurrent (.of_reads hsuffix hadvance ?_)
    exact (Confined.checkInLoop hrest inLoop t).bind fun _ _ _ hleft => .close hleft _ _
  case h_10 => exact .expressionStatement h
  all_goals
    next hkind =>
    have hmem : t.kind ∈ compoundStarts := by
      rw [hkind]
      decide
    exact absurd hmem hstart

/-- After an error in a segment reading goes on behind it, if nothing in between looks like the
beginning of a statement. -/
theorem dropToBoundary_append {t : Token} {left : List Token} (h : IsClosed (t :: left))
    (hlater : ∀ u ∈ left, startsStatement u.kind = false) (rest : List Token) :
    dropToBoundary t (left ++ rest) = rest := by
  induction left generalizing t with
  | nil =>
    by_cases ht : t.kind = .semicolon
    · cases rest with
      | nil => rfl
      | cons u rest => rw [List.nil_append, dropToBoundary, if_pos (.inl ht)]
    · exact (h.tail ht).elim
  | cons u left ih =>
    rw [List.forall_mem_cons] at hlater
    have ht : t.kind ≠ .semicolon := by
      intro ht
      exact absurd (h.eq_nil ht) (List.cons_ne_nil u left)
    have hno : ¬ (t.kind = .semicolon ∨ startsStatement u.kind = true) := by
      simp [ht, hlater.1]
    rw [List.cons_append, dropToBoundary, if_neg hno]
    exact ih (h.tail ht) hlater.2

theorem Confined.recover {p : Nat → Parser α} (h : Confined k segment (· = []) p)
    (hlater : ∀ t ∈ segment.tail, startsStatement t.kind = false) :
    ∃ o recorded, ∀ n, k ≤ n → ∀ finish rest,
      Parser.recover (p n) finish (segment ++ rest) = ⟨.ok o, rest, recorded⟩ := by
  obtain ⟨outcome, left, recorded, hleft, hends, hp⟩ := h
  cases outcome with
  | ok a =>
    obtain rfl : left = [] := hends
    refine ⟨some a, recorded, fun n hn finish rest => ?_⟩
    simp only [Parser.recover, hp n hn, List.nil_append]
  | error e =>
    have hclosed : IsClosed left := hends
    obtain ⟨t, more, rfl⟩ := hclosed.exists_cons
    -- What is left behind its first token lies in the tail of the segment.
    have hmore : ∀ u ∈ more, startsStatement u.kind = false := by
      obtain ⟨front, rfl⟩ := hleft
      intro u hu
      apply hlater u
      cases front with
      | nil => exact hu
      | cons first front => simp [hu]
    refine ⟨none, recorded ++ [e], fun n hn finish rest => ?_⟩
    simp only [Parser.recover, hp n hn, List.cons_append, resume,
      dropToBoundary_append hclosed hmore]

end Segments

/-- Tokens that look like one simple statement: they end with their only semicolon, do not begin a
statement with other statements in it, and nothing behind the first token looks like the beginning of
a statement. -/
structure IsSimple (segment : List Token) : Prop where
  last : segment.getLast?.map Token.kind = some .semicolon
  others : ∀ t ∈ segment.dropLast, t.kind ∉ [.semicolon, .eof]
  start : ∀ t ∈ segment.head?, t.kind ∉ compoundStarts
  later : ∀ t ∈ segment.tail, t.kind ∉ [.classWord, .funWord, .varWord, .forWord, .ifWord,
    .whileWord, .printWord, .switchWord, .returnWord]

instance (segment : List Token) : Decidable (IsSimple segment) :=
  decidable_of_iff (_ ∧ _ ∧ _ ∧ _)
    ⟨fun ⟨last, others, start, later⟩ => ⟨last, others, start, later⟩,
      fun h => ⟨h.last, h.others, h.start, h.later⟩⟩

section Simple

variable {segment : List Token}

theorem isClosed_of_getLast {segment : List Token}
    (hlast : segment.getLast?.map Token.kind = some .semicolon)
    (hothers : ∀ t ∈ segment.dropLast, t.kind ≠ .semicolon) : IsClosed segment := by
  induction segment with
  | nil => simp at hlast
  | cons t rest ih =>
    rw [IsClosed]
    cases rest with
    | nil =>
      have ht : t.kind = .semicolon := by simpa using hlast
      rw [if_pos ht]
    | cons u rest =>
      rw [List.dropLast_cons_cons, List.forall_mem_cons] at hothers
      rw [if_neg hothers.1]
      exact ih (by simpa using hlast) hothers.2

theorem IsSimple.isClosed (h : IsSimple segment) : IsClosed segment :=
  isClosed_of_getLast h.last fun t ht hkind => h.others t ht (by simp [hkind])

theorem IsSimple.ne_eof (h : IsSimple segment) : ∀ t ∈ segment, t.kind ≠ .eof := by
  obtain ⟨last, hlast, hsemicolon⟩ := Option.map_eq_some_iff.mp h.last
  obtain ⟨front, rfl⟩ := List.getLast?_eq_some_iff.mp hlast
  have hfront := h.others
  rw [List.dropLast_concat] at hfront
  rw [List.forall_mem_append, List.forall_mem_singleton, hsemicolon]
  exact ⟨fun t ht hkind => hfront t ht (by simp [hkind]), by decide⟩

theorem IsSimple.startsStatement_eq (h : IsSimple segment) :
    ∀ t ∈ segment.tail, startsStatement t.kind = false := by
  intro t ht
  simpa [startsStatement] using h.later t ht

/-- A simple segment is read as a statement or reported, and reading goes on behind it. -/
theorem IsSimple.declaration (h : IsSimple segment) (inLoop : Bool) :
    ∃ o recorded, ∀ n, 2 ≤ n → ∀ finish rest,
      Parser.declaration n inLoop finish (segment ++ rest) = ⟨.ok o, rest, recorded⟩ := by
  have hread : ∃ o recorded, ∀ n, 1 ≤ n → ∀ finish rest,
      Parser.declaration (n + 1) inLoop finish (segment ++ rest) = ⟨.ok o, rest, recorded⟩ :=
    Confined.recover (.accept (by decide) h.isClosed
      (fun _ _ _ hrest => .variableDeclaration hrest) (.statement inLoop h.isClosed h.start))
      h.startsStatement_eq
  obtain ⟨o, recorded, hread⟩ := hread
  refine ⟨o, recorded, fun n hn finish rest => ?_⟩
  obtain ⟨n, rfl⟩ : ∃ m, n = m + 1 := ⟨n - 1, by omega⟩
  exact hread n (by omega) finish rest

end Simple

/-- Any two budgets that are large enough read the same declarations. -/
theorem declarations_budget {n m : Nat} {finish : Token} {tokens : List Token}
    (hfinish : finish.kind = .eof) (hn : 4 * tokens.length + 3 ≤ n)
    (hm : 4 * tokens.length + 3 ≤ m) :
    declarations m false [.eof] finish tokens = declarations n false [.eof] finish tokens := by
  have hlines := declarations_mapLines id false (List.mem_singleton.mpr rfl) hfinish hn hm
  have hmap : tokens.map (Token.mapLine id) = tokens := List.map_id tokens
  rw [hmap, Token.mapLine_id] at hlines
  rw [hlines]
  exact Reading.mapLines_id (List.map_id'' Stmt.mapLines_id) _

/-- In front of other tokens a simple segment adds what it always adds. -/
theorem IsSimple.program {segment : List Token} (h : IsSimple segment) :
    ∃ ss recorded, ∀ finish rest, finish.kind = .eof →
      Parser.program finish (segment ++ rest) =
        ⟨(Parser.program finish rest).outcome.map (ss ++ ·), (Parser.program finish rest).pending,
          recorded ++ (Parser.program finish rest).recorded⟩ := by
  obtain ⟨o, recorded, hdeclaration⟩ := h.declaration false
  refine ⟨o.toList, recorded, fun finish rest hfinish => ?_⟩
  obtain ⟨t, more, rfl⟩ := h.isClosed.exists_cons
  have hnext : currentKind.Reads finish (t :: more ++ rest) t.kind (t :: more ++ rest) :=
    .currentKind _
  have ht : t.kind ∉ [.eof] := by
    simpa using h.ne_eof t (List.mem_cons_self ..)
  -- The budget is at least two and more than enough for the tokens behind the segment.
  obtain ⟨n, hn, hbudget⟩ : ∃ n, 8 * ((t :: more ++ rest).length + 1) = n + 1 ∧
      8 * (rest.length + 1) ≤ n := by
    refine ⟨8 * ((t :: more ++ rest).length + 1) - 1, ?_, ?_⟩ <;> simp <;> omega
  have hrest : declarations n false [.eof] finish rest = Parser.program finish rest :=
    declarations_budget hfinish (by omega) (by omega)
  obtain ⟨ss, hss⟩ : ∃ ss, (Parser.program finish rest).outcome = .ok ss := declarations_outcome ..
  rw [Parser.program, hn, declarations, hnext.bind_eq, if_neg ht, bind_apply,
    hdeclaration n (by omega)]
  rcases hprogram : Parser.program finish rest with ⟨outcome, pending, recorded'⟩
  rw [hprogram] at hss
  obtain rfl : outcome = .ok ss := hss
  simp only [bind_apply, hrest, hprogram, pure_apply, List.append_nil]
  rfl

theorem program_nil {finish : Token} (h : finish.kind = .eof) :
    Parser.program finish [] = ⟨.ok [], [], []⟩ := by
  have hprogram : Parser.program finish [] = declarations (7 + 1) false [.eof] finish [] := rfl
  have hnext : currentKind.Reads finish [] finish.kind [] := .currentKind []
  have hmem : finish.kind ∈ [.eof] := List.mem_singleton.mpr h
  rw [hprogram, declarations, hnext.bind_eq, if_pos hmem]
  rfl

theorem finishOf_append {segment rest : List Token} (h : ∀ t ∈ segment, t.kind ≠ .eof)
    (hrest : rest ≠ []) : finishOf (segment ++ rest) = finishOf rest := by
  have hnone : segment.find? (·.kind = .eof) = none := List.find?_eq_none.mpr (by simpa using h)
  have hlast : (segment ++ rest).getLast? = rest.getLast? := by
    rw [List.getLast?_append, List.getLast?_eq_some_getLast hrest, Option.some_or]
  rw [finishOf, finishOf, List.find?_append, hnone, Option.none_or, hlast]

theorem run_eq {α : Type} (p : Parser α) (tokens : List Token) :
    p.run tokens = p (finishOf tokens) (beforeEnd tokens) := rfl

/-- The tokens behind a segment are read as they are on their own. -/
theorem program_finishOf_append {segment rest : List Token} (h : ∀ t ∈ segment, t.kind ≠ .eof) :
    Parser.program (finishOf (segment ++ rest)) (beforeEnd rest) = Parser.program.run rest := by
  cases rest with
  | nil =>
    -- Only here do the two ends differ, by their lines.
    have hbefore : beforeEnd [] = [] := rfl
    rw [run_eq, hbefore, program_nil (finishOf_kind _), program_nil (finishOf_kind _)]
  | cons t rest => rw [run_eq, finishOf_append h (List.cons_ne_nil t rest)]

end Parser

open Treewalk.Parser

theorem parseProgram_of_run {tokens pending : List Token} {ss : List Stmt}
    {recorded : List SyntaxError} (h : Parser.program.run tokens = ⟨.ok ss, pending, recorded⟩) :
    parseProgram tokens = ⟨ss, recorded.map SyntaxError.diagnostic⟩ := by
  simp only [parseProgram, h]

theorem parseProgram_of_head_eof {ending : List Token} (h : ∀ t ∈ ending.head?, t.kind = .eof) :
    parseProgram ending = ⟨[], []⟩ := by
  have hbefore : beforeEnd ending = [] := by
    cases ending with
    | nil => rfl
    | cons t rest =>
      have ht : t.kind = .eof := h t rfl
      rw [beforeEnd, List.takeWhile_cons_of_neg (by simp [ht])]
  have hrun : Parser.program.run ending = ⟨.ok [], [], []⟩ := by
    rw [run_eq, hbefore, program_nil (finishOf_kind ending)]
  exact parseProgram_of_run hrun

/-- What a simple segment adds to a program and to the reports about it does not depend on the tokens
behind it. -/
theorem exists_parseProgram_append {segment : List Token} (h : IsSimple segment) :
    ∃ alone : ParsedProgram, ∀ rest, parseProgram (segment ++ rest) =
      ⟨alone.program ++ (parseProgram rest).program,
        alone.diagnostics ++ (parseProgram rest).diagnostics⟩ := by
  obtain ⟨ss, recorded, hsegment⟩ := h.program
  refine ⟨⟨ss, recorded.map SyntaxError.diagnostic⟩, fun rest => ?_⟩
  have hbefore : beforeEnd (segment ++ rest) = segment ++ beforeEnd rest :=
    List.takeWhile_append_of_pos (by simpa using h.ne_eof)
  obtain ⟨ss', hss'⟩ : ∃ ss', (Parser.program.run rest).outcome = .ok ss' :=
    declarations_outcome ..
  rcases hrest : Parser.program.run rest with ⟨outcome, pending, recorded'⟩
  rw [hrest] at hss'
  obtain rfl : outcome = .ok ss' := hss'
  have hrun : Parser.program.run (segment ++ rest) =
      ⟨.ok (ss ++ ss'), pending, recorded ++ recorded'⟩ := by
    rw [run_eq, hbefore, hsegment _ _ (finishOf_kind _), program_finishOf_append h.ne_eof, hrest]
    rfl
  rw [parseProgram_of_run hrun, parseProgram_of_run hrest, List.map_append]

/-- Simple segments, right or wrong, are read one by one: the program is that of each of them alone,
one behind the other, and so are the reports. The segments may stand in front of an end-of-input
token or not. -/
theorem parseProgram_flatten {segments : List (List Token)} (h : ∀ s ∈ segments, IsSimple s)
    {ending endingAlone : List Token} (hending : ∀ t ∈ ending.head?, t.kind = .eof)
    (halone : ∀ t ∈ endingAlone.head?, t.kind = .eof) :
    parseProgram (segments.flatten ++ ending) =
      ⟨segments.flatMap fun s => (parseProgram (s ++ endingAlone)).program,
        segments.flatMap fun s => (parseProgram (s ++ endingAlone)).diagnostics⟩ := by
  induction segments with
  | nil => exact parseProgram_of_head_eof hending
  | cons s segments ih =>
    rw [List.forall_mem_cons] at h
    obtain ⟨alone, hsegment⟩ := exists_parseProgram_append h.1
    have hs : parseProgram (s ++ endingAlone) = alone := by
      rw [hsegment, parseProgram_of_head_eof halone]
      simp only [List.append_nil]
    rw [List.flatten_cons, List.append_assoc, hsegment, ih h.2, List.flatMap_cons,
      List.flatMap_cons, hs]

/-- `break;`, `1 + = ( x;`, `var x = nil;` and `;` are two statements and three reports. -/
theorem parseProgram_flatten_broken :
    let segments := [[Kind.breakWord, .semicolon],
      [.number, .plus, .equal, .leftParen, .identifier, .semicolon],
      [.varWord, .identifier, .equal, .nilWord, .semicolon], [.semicolon]].map
        (List.map (⟨·, "", none, 1⟩))
    (∀ s ∈ segments, IsSimple s) ∧
      (parseProgram (segments.flatten ++ [.eof 1])).program.length = 2 ∧
      (parseProgram (segments.flatten ++ [.eof 1])).diagnostics.length = 3 ∧
      parseProgram (segments.flatten ++ [.eof 1]) =
        ⟨segments.flatMap fun s => (parseProgram (s ++ [])).program,
          segments.flatMap fun s => (parseProgram (s ++ [])).diagnostics⟩ := by
  intro segments
  have hsimple : ∀ s ∈ segments, IsSimple s := by decide
  exact ⟨hsimple, by decide +kernel, by decide +kernel,
    parseProgram_flatten hsimple (by decide) (by decide)⟩

end Treewalk
