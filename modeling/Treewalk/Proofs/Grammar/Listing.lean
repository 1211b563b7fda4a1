import Treewalk.Proofs.Grammar.Programs
import Treewalk.Proofs.Syntax.Expressions

set_option autoImplicit false
set_option relaxedAutoImplicit false

/-!
The expressions of a program in the order of its text, and in the order in which they are listed.

The listing of a program has a line for each of its outermost expressions, and one for each value that
stands for an expression that was left out. It follows the text with two exceptions: the increment of
a `for` loop comes behind the body, and the default branch of a switch behind all cases.
-/

namespace Treewalk

namespace Grammar

/-- An expression that may be left out. -/
inductive Omission where
  | initializer
  | condition

/-- What stands for an expression that was left out: a variable starts as `nil`, and a `for` loop goes
on. -/
def Omission.value : Omission → Value
  | .initializer => .nil
  | .condition => .boolean true

/-- A line of a listing: an outermost expression of a text, with the number of tokens in front of it,
or one that was left out. -/
inductive Line where
  | written (start : Nat) (value : Expression 0)
  | implied (omission : Omission)

namespace Line

/-- The expression that a line shows. -/
def tree : Line → Expr
  | .written _ value => value.tree
  | .implied omission => .literal omission.value

/-- The expression of the text that a line shows, with its place. -/
def written? : Line → Option (Nat × Expression 0)
  | .written start value => some (start, value)
  | .implied _ => none

/-- The line with more tokens in front of it. -/
def shift (n : Nat) : Line → Line
  | .written start value => .written (n + start) value
  | .implied omission => .implied omission

/-- Two groups of lines. A first group that comes late is listed behind the second. -/
def arranged (late : Bool) (first second : List Line) : List Line :=
  if late then second ++ first else first ++ second

end Line

/-- The expressions of the text that the lines show, with their places. -/
def written (ls : List Line) : List (Nat × Expression 0) :=
  ls.filterMap Line.written?

/-- The line of a declaration. -/
def Declaration.line (d : Declaration) : Line :=
  match d.initializer with
  | none => .implied .initializer
  | some i => .written 3 i.2

/-- The lines of what stands before the first semicolon of a `for` loop. -/
def Initializer.lines : Initializer → List Line
  | .absent _ => []
  | .declaration d => [d.line]
  | .expression value _ => [.written 0 value]

namespace ForHead

/-- The line of the condition of a `for` loop. -/
def conditionLine (h : ForHead) : Line :=
  match h.condition with
  | none => .implied .condition
  | some e => .written (2 + h.initializer.tokens.length) e

/-- The line of the increment of a `for` loop, if there is one. -/
def incrementLines (h : ForHead) : List Line :=
  match h.increment with
  | none => []
  | some e =>
    [.written (2 + h.initializer.tokens.length
      + ((h.condition.map Expression.tokens).getD []).length + 1) e]

end ForHead

mutual

/-- The lines of a statement: in the order of the text, or with increments and defaults late, as they
are listed. -/
def Statement.lines (late : Bool) : {inLoop dangling : Bool} → Statement inLoop dangling → List Line
  | _, _, .expression value _ => [.written 0 value]
  | _, _, .print _ value _ => [.written 1 value]
  | _, _, .block _ body _ => (body.lines late).map (.shift 1)
  | _, _, .ifThen head thenBranch =>
    .written 2 head.value :: (thenBranch.lines late).map (.shift head.tokens.length)
  | _, _, .ifElse head thenBranch _ elseBranch =>
    .written 2 head.value :: ((thenBranch.lines late).map (.shift head.tokens.length)
      ++ (elseBranch.lines late).map (.shift (head.tokens.length + thenBranch.tokens.length + 1)))
  | _, _, .whileLoop head body =>
    .written 2 head.value :: (body.lines late).map (.shift head.tokens.length)
  | _, _, .forLoop head body =>
    head.initializer.lines.map (.shift 2) ++ head.conditionLine ::
      Line.arranged late head.incrementLines ((body.lines late).map (.shift head.tokens.length))
  | _, _, .switch head _ branches _ =>
    .written 2 head.value :: (branches.lines late).map (.shift (head.tokens.length + 1))
  | _, _, .breakLoop _ _ => []
  | _, _, .continueLoop _ _ => []
  | _, _, .exitProgram _ _ => []

/-- The lines of declarations and statements in a row. -/
def Sequence.lines (late : Bool) : {inLoop : Bool} → Sequence inLoop → List Line
  | _, .nil => []
  | _, .declaration first rest => first.line :: (rest.lines late).map (.shift first.tokens.length)
  | _, .statement first rest =>
    first.lines late ++ (rest.lines late).map (.shift first.tokens.length)

/-- The lines of the branches of a switch. -/
def Branches.lines (late : Bool) : {inLoop seen : Bool} → Branches inLoop seen → List Line
  | _, _, .nil => []
  | _, _, .case _ value _ body rest =>
    .written 1 value :: ((body.lines late).map (.shift (value.tokens.length + 2))
      ++ (rest.lines late).map (.shift (value.tokens.length + 2 + body.tokens.length)))
  | _, _, .default _ _ body rest =>
    Line.arranged late ((body.lines late).map (.shift 2))
      ((rest.lines late).map (.shift (2 + body.tokens.length)))

end

mutual

/-- No increment has a body with an expression behind it, and no default branch with an expression has
a case behind it. -/
def Statement.IsStraight : {inLoop dangling : Bool} → Statement inLoop dangling → Prop
  | _, _, .expression _ _ => True
  | _, _, .print _ _ _ => True
  | _, _, .block _ body _ => body.IsStraight
  | _, _, .ifThen _ thenBranch => thenBranch.IsStraight
  | _, _, .ifElse _ thenBranch _ elseBranch => thenBranch.IsStraight ∧ elseBranch.IsStraight
  | _, _, .whileLoop _ body => body.IsStraight
  | _, _, .forLoop head body =>
    (head.increment = none ∨ written (body.lines false) = []) ∧ body.IsStraight
  | _, _, .switch _ _ branches _ => branches.IsStraight
  | _, _, .breakLoop _ _ => True
  | _, _, .continueLoop _ _ => True
  | _, _, .exitProgram _ _ => True

/-- All statements in a row are straight. -/
def Sequence.IsStraight : {inLoop : Bool} → Sequence inLoop → Prop
  | _, .nil => True
  | _, .declaration _ rest => rest.IsStraight
  | _, .statement first rest => first.IsStraight ∧ rest.IsStraight

/-- All branches are straight, and the default is the last one or has no expression. -/
def Branches.IsStraight : {inLoop seen : Bool} → Branches inLoop seen → Prop
  | _, _, .nil => True
  | _, _, .case _ _ _ body rest => body.IsStraight ∧ rest.IsStraight
  | _, _, .default _ _ body rest =>
    (written (body.lines false) = [] ∨ written (rest.lines false) = []) ∧
      body.IsStraight ∧ rest.IsStraight

end

/-! ### The lines that are listed -/

@[simp] theorem map_tree_shift (n : Nat) (ls : List Line) :
    (ls.map (Line.shift n)).map Line.tree = ls.map Line.tree := by
  have htree : Line.tree ∘ Line.shift n = Line.tree := by
    funext l
    cases l <;> rfl
  rw [List.map_map, htree]

theorem Declaration.tree_line (d : Declaration) : [d.line.tree] = d.tree.expressions := by
  unfold Declaration.line Declaration.tree
  cases d.initializer <;> rfl

theorem Initializer.map_tree_lines (i : Initializer) :
    i.lines.map Line.tree = Stmt.expressionsOfOption i.tree := by
  cases i with
  | absent semicolon => rfl
  | declaration d => exact d.tree_line
  | expression value semicolon => rfl

theorem ForHead.tree_conditionLine (h : ForHead) :
    h.conditionLine.tree = (h.condition.map Expression.tree).getD (.literal (.boolean true)) := by
  unfold ForHead.conditionLine
  cases h.condition <;> rfl

theorem ForHead.expressions_round (h : ForHead) (body : Stmt) :
    (h.round body).expressions = body.expressions ++ h.incrementLines.map Line.tree := by
  unfold ForHead.round ForHead.incrementLines
  cases h.increment <;> rfl

theorem ForHead.expressions_tree (h : ForHead) (body : Stmt) :
    (h.tree body).expressions =
      h.initializer.lines.map Line.tree ++ h.conditionLine.tree ::
        (body.expressions ++ h.incrementLines.map Line.tree) := by
  rw [Initializer.map_tree_lines, ForHead.tree_conditionLine, ← ForHead.expressions_round]
  unfold ForHead.tree
  cases h.initializer.tree with
  | none => rfl
  | some initializer => simp [Stmt.expressions, Stmt.expressionsOfAll, Stmt.expressionsOfOption]

theorem Branches.fallback_eq_none : {inLoop : Bool} → (b : Branches inLoop true) → b.fallback = none
  | _, .nil => rfl
  | _, .case _ _ _ _ rest => rest.fallback_eq_none

mutual

/-- With increments and defaults late, the lines show the outermost expressions of the tree. -/
theorem Statement.map_tree_lines : {inLoop dangling : Bool} → (s : Statement inLoop dangling) →
    (s.lines true).map Line.tree = s.tree.expressions
  | _, _, .expression _ _ => rfl
  | _, _, .print _ _ _ => rfl
  | _, _, .block _ body _ => by
    rw [Statement.lines, map_tree_shift, body.map_tree_lines]
    rfl
  | _, _, .ifThen head thenBranch => by
    rw [Statement.lines, List.map_cons, map_tree_shift, thenBranch.map_tree_lines, Statement.tree,
      Stmt.expressions, Stmt.expressionsOfOption, List.append_nil]
    rfl
  | _, _, .ifElse head thenBranch _ elseBranch => by
    rw [Statement.lines, List.map_cons, List.map_append, map_tree_shift, map_tree_shift,
      thenBranch.map_tree_lines, elseBranch.map_tree_lines]
    rfl
  | _, _, .whileLoop head body => by
    rw [Statement.lines, List.map_cons, map_tree_shift, body.map_tree_lines]
    rfl
  | _, _, .forLoop head body => by
    rw [Statement.lines, List.map_append, List.map_cons, map_tree_shift, Line.arranged, if_pos rfl,
      List.map_append, map_tree_shift, body.map_tree_lines, Statement.tree, head.expressions_tree]
  | _, _, .switch head _ branches _ => by
    rw [Statement.lines, List.map_cons, map_tree_shift, branches.map_tree_lines]
    rfl
  | _, _, .breakLoop _ _ => rfl
  | _, _, .continueLoop _ _ => rfl
  | _, _, .exitProgram _ _ => rfl

theorem Sequence.map_tree_lines : {inLoop : Bool} → (q : Sequence inLoop) →
    (q.lines true).map Line.tree = Stmt.expressionsOfAll q.tree
  | _, .nil => rfl
  | _, .declaration first rest => by
    rw [Sequence.lines, List.map_cons, map_tree_shift, rest.map_tree_lines, Sequence.tree,
      Stmt.expressionsOfAll, ← first.tree_line]
    rfl
  | _, .statement first rest => by
    rw [Sequence.lines, List.map_append, map_tree_shift, first.map_tree_lines, rest.map_tree_lines]
    rfl

theorem Branches.map_tree_lines : {inLoop seen : Bool} → (b : Branches inLoop seen) →
    (b.lines true).map Line.tree =
      Stmt.expressionsOfCases b.cases ++ Stmt.expressionsOfOption b.fallback
  | _, _, .nil => rfl
  | _, _, .case _ value _ body rest => by
    rw [Branches.lines, List.map_cons, List.map_append, map_tree_shift, map_tree_shift,
      body.map_tree_lines, rest.map_tree_lines, ← List.append_assoc]
    rfl
  | _, _, .default _ _ body rest => by
    rw [Branches.lines, Line.arranged, if_pos rfl, List.map_append, map_tree_shift, map_tree_shift,
      body.map_tree_lines, rest.map_tree_lines, rest.fallback_eq_none, Stmt.expressionsOfOption,
      List.append_nil]
    rfl

end

/-! ### Places in the text -/

@[simp] theorem written_nil : written [] = [] := rfl

@[simp] theorem written_cons_written (start : Nat) (value : Expression 0) (ls : List Line) :
    written (.written start value :: ls) = (start, value) :: written ls := rfl

@[simp] theorem written_cons_implied (omission : Omission) (ls : List Line) :
    written (.implied omission :: ls) = written ls := rfl

@[simp] theorem written_append (ls ms : List Line) :
    written (ls ++ ms) = written ls ++ written ms :=
  List.filterMap_append

@[simp] theorem written_shift (n : Nat) (ls : List Line) :
    written (ls.map (Line.shift n)) = (written ls).map (Prod.map (n + ·) id) := by
  induction ls with
  | nil => rfl
  | cons l ls ih =>
    cases l with
    | written start value => exact congrArg _ ih
    | implied omission => exact ih

/-- The expressions that the lines show stand in the text at their places, and each one ends before the
next one begins. -/
structure Places (tokens : List Token) (ls : List Line) : Prop where
  inside : ∀ x ∈ written ls, x.2.tokens <+: tokens.drop x.1
  order : (written ls).Pairwise fun x y => x.1 + x.2.tokens.length ≤ y.1

theorem Expression.length_tokens_pos {p : Nat} (e : Expression p) : 0 < e.tokens.length := by
  obtain ⟨first, more, htokens, -⟩ := e.exists_head
  rw [htokens]
  exact Nat.succ_pos _

namespace Places

variable {ts us : List Token} {ls ms : List Line}

theorem nil (ts : List Token) : Places ts [] :=
  ⟨by simp, by simp⟩

theorem implied (ts : List Token) (omission : Omission) : Places ts [.implied omission] :=
  ⟨by simp, by simp⟩

theorem written (value : Expression 0) : Places value.tokens [.written 0 value] :=
  ⟨by simp, by simp⟩

theorem end_le (h : Places ts ls) : ∀ x ∈ Grammar.written ls, x.1 + x.2.tokens.length ≤ ts.length := by
  intro x hx
  have hle := (h.inside x hx).length_le
  have hpos := x.2.length_tokens_pos
  rw [List.length_drop] at hle
  omega

theorem sublist (h : Places ts ls) (hsub : ms.Sublist ls) : Places ts ms :=
  ⟨fun x hx => h.inside x ((hsub.filterMap _).subset hx), h.order.sublist (hsub.filterMap _)⟩

/-- No place is in two groups of lines. -/
theorem disjoint (h : Places ts (ls ++ ms)) : ∀ x ∈ Grammar.written ls, x ∉ Grammar.written ms := by
  intro x hls hms
  have horder := h.order
  rw [written_append, List.pairwise_append] at horder
  have hle := horder.2.2 x hls x hms
  have hpos := x.2.length_tokens_pos
  omega

/-- Two texts, one behind the other. -/
theorem append (h : Places ts ls) (h' : Places us ms) {n : Nat} (hn : ts.length = n) :
    Places (ts ++ us) (ls ++ ms.map (.shift n)) := by
  subst hn
  constructor
  · rw [written_append, written_shift, List.forall_mem_append]
    constructor
    · intro x hx
      rw [List.drop_append]
      exact (h.inside x hx).trans (List.prefix_append _ _)
    · intro _ hshifted
      obtain ⟨x, hx, rfl⟩ := List.mem_map.mp hshifted
      have hdrop : (ts ++ us).drop (ts.length + x.1) = us.drop x.1 := List.drop_length_add_append ..
      rw [Prod.map_fst, hdrop]
      exact h'.inside x hx
  · rw [written_append, written_shift, List.pairwise_append, List.pairwise_map]
    refine ⟨h.order, h'.order.imp fun {x y} hxy => ?_, fun x hx _ hy => ?_⟩
    · simp only [Prod.map_fst, Prod.map_snd, id_eq]
      omega
    · obtain ⟨y, -, rfl⟩ := List.mem_map.mp hy
      have hle := h.end_le x hx
      simp only [Prod.map_fst]
      omega

/-- A text in which more tokens follow. -/
theorem before (h : Places ts ls) (us : List Token) : Places (ts ++ us) ls := by
  have happend := h.append (nil us) rfl
  rwa [List.map_nil, List.append_nil] at happend

/-- A text behind other tokens. -/
theorem behind (ts : List Token) (h : Places us ms) {n : Nat} (hn : ts.length = n) :
    Places (ts ++ us) (ms.map (.shift n)) :=
  (nil ts).append h hn

end Places

theorem Declaration.places (d : Declaration) : Places d.tokens [d.line] := by
  unfold Declaration.tokens Declaration.line
  cases d.initializer with
  | none => exact .implied _ _
  | some i =>
    have hvalue : Places ([d.keyword.val, d.name.val, i.1.val] ++ i.2.tokens) [.written 3 i.2] :=
      .behind _ (.written i.2) rfl
    simpa using hvalue.before [d.semicolon.val]

theorem Initializer.places (i : Initializer) : Places i.tokens i.lines := by
  cases i with
  | absent semicolon => exact .nil _
  | declaration d => exact d.places
  | expression value semicolon => exact (Places.written value).before [semicolon.val]

theorem Head.places {keyword : Kind} (h : Head keyword) :
    Places h.tokens [.written 2 h.value] := by
  have hvalue : Places ([h.word.val, h.opening.val] ++ h.value.tokens) [.written 2 h.value] :=
    .behind _ (.written h.value) rfl
  simpa [Head.tokens] using hvalue.before [h.closing.val]

theorem ForHead.places (h : ForHead) : Places h.tokens
    (h.initializer.lines.map (.shift 2) ++ h.conditionLine :: h.incrementLines) := by
  let opening := [h.word.val, h.opening.val] ++ h.initializer.tokens
  have hopening : Places opening (h.initializer.lines.map (.shift 2)) :=
    .behind _ h.initializer.places rfl
  have hlength : opening.length = 2 + h.initializer.tokens.length := by
    simp [opening]
    omega
  have hcondition : Places (opening ++ (h.condition.map Expression.tokens).getD [])
      (h.initializer.lines.map (.shift 2) ++ [h.conditionLine]) := by
    unfold ForHead.conditionLine
    cases h.condition with
    | none => exact hopening.append (.implied _ _) hlength
    | some e => exact hopening.append (.written e) hlength
  have hincrement : Places
      (opening ++ (h.condition.map Expression.tokens).getD [] ++ [h.semicolon.val]
        ++ (h.increment.map Expression.tokens).getD [])
      (h.initializer.lines.map (.shift 2) ++ [h.conditionLine] ++ h.incrementLines) := by
    unfold ForHead.incrementLines
    cases h.increment with
    | none => simpa using hcondition.before [h.semicolon.val]
    | some e =>
      refine (hcondition.before [h.semicolon.val]).append (.written e) ?_
      simp only [List.length_append, List.length_singleton, hlength]
  simpa [ForHead.tokens, opening] using hincrement.before [h.closing.val]

mutual

theorem Statement.places : {inLoop dangling : Bool} → (s : Statement inLoop dangling) →
    Places s.tokens (s.lines false)
  | _, _, .expression value semicolon => (Places.written value).before [semicolon.val]
  | _, _, .print word value semicolon =>
    (Places.behind [word.val] (.written value) rfl).before [semicolon.val]
  | _, _, .block opening body closing =>
    (Places.behind [opening.val] body.places rfl).before [closing.val]
  | _, _, .ifThen head thenBranch => head.places.append thenBranch.places rfl
  | _, _, .ifElse head thenBranch word elseBranch => by
    have hthen := (head.places.append thenBranch.places rfl).before [word.val]
    have helse := hthen.append elseBranch.places rfl
    simpa [Statement.tokens, Statement.lines, Nat.add_assoc] using helse
  | _, _, .whileLoop head body => head.places.append body.places rfl
  | _, _, .forLoop head body => by
    have hbody := head.places.append body.places rfl
    simpa [Statement.tokens, Statement.lines, Line.arranged] using hbody
  | _, _, .switch head opening branches closing => by
    have hbranches := (head.places.before [opening.val]).append branches.places rfl
    simpa [Statement.tokens, Statement.lines] using hbranches.before [closing.val]
  | _, _, .breakLoop _ _ => .nil _
  | _, _, .continueLoop _ _ => .nil _
  | _, _, .exitProgram _ _ => .nil _

theorem Sequence.places : {inLoop : Bool} → (q : Sequence inLoop) → Places q.tokens (q.lines false)
  | _, .nil => .nil _
  | _, .declaration first rest => first.places.append rest.places rfl
  | _, .statement first rest => first.places.append rest.places rfl

theorem Branches.places : {inLoop seen : Bool} → (b : Branches inLoop seen) →
    Places b.tokens (b.lines false)
  | _, _, .nil => .nil _
  | _, _, .case word value colon body rest => by
    have hvalue := (Places.behind [word.val] (.written value) rfl).before [colon.val]
    have hbody := hvalue.append (n := value.tokens.length + 2) body.places (by simp)
    have hrest := hbody.append (n := value.tokens.length + 2 + body.tokens.length) rest.places
      (by simp; omega)
    simpa [Branches.tokens, Branches.lines, Line.shift] using hrest
  | _, _, .default word colon body rest => by
    have hbody := Places.behind [word.val, colon.val] body.places rfl
    have hrest := hbody.append (n := 2 + body.tokens.length) rest.places (by simp; omega)
    simpa [Branches.tokens, Branches.lines, Line.arranged] using hrest

end

/-! ### Lines in another order -/

/-- The first lines are the second ones in some order, and those that are written are in the same order
exactly if a condition holds. -/
structure Rearranged (ls ms : List Line) (straight : Prop) : Prop where
  perm : ls.Perm ms
  written_eq_iff : written ls = written ms ↔ straight

namespace Rearranged

variable {ls ms ls' ms' : List Line} {P Q : Prop}

theorem refl (ls : List Line) : Rearranged ls ls True :=
  ⟨.refl _, iff_of_true rfl trivial⟩

theorem congr (h : Rearranged ls ms P) (hiff : P ↔ Q) : Rearranged ls ms Q :=
  ⟨h.perm, h.written_eq_iff.trans hiff⟩

theorem perm_written (h : Rearranged ls ms P) : (written ls).Perm (written ms) :=
  h.perm.filterMap _

theorem written_eq_nil_iff (h : Rearranged ls ms P) : written ls = [] ↔ written ms = [] := by
  rw [← List.length_eq_zero_iff, h.perm_written.length_eq, List.length_eq_zero_iff]

theorem append (h : Rearranged ls ms P) (h' : Rearranged ls' ms' Q) :
    Rearranged (ls ++ ls') (ms ++ ms') (P ∧ Q) := by
  refine ⟨h.perm.append h'.perm, ?_⟩
  rw [written_append, written_append, ← h.written_eq_iff, ← h'.written_eq_iff]
  constructor
  · intro heq
    exact List.append_inj heq h.perm_written.length_eq
  · rintro ⟨hfirst, hsecond⟩
    rw [hfirst, hsecond]

theorem cons (l : Line) (h : Rearranged ls ms P) : Rearranged (l :: ls) (l :: ms) P :=
  ((refl [l]).append h).congr (by rw [true_and])

theorem shift (n : Nat) (h : Rearranged ls ms P) :
    Rearranged (ls.map (.shift n)) (ms.map (.shift n)) P := by
  have hinjective : ∀ x y : Nat × Expression 0,
      Prod.map (n + ·) id x = Prod.map (n + ·) id y → x = y := by
    rintro ⟨i, d⟩ ⟨j, e⟩ heq
    simpa using heq
  refine ⟨h.perm.map _, ?_⟩
  rw [written_shift, written_shift, List.map_inj_right hinjective, h.written_eq_iff]

/-- Of two groups that share no written line, the first can come late without a trace only if one of
them has no written line. -/
theorem arranged (h : Rearranged ls ms P) (h' : Rearranged ls' ms' Q)
    (hdisjoint : ∀ x ∈ written ms, x ∉ written ms') :
    Rearranged (Line.arranged true ls ls') (Line.arranged false ms ms')
      ((written ms = [] ∨ written ms' = []) ∧ P ∧ Q) := by
  refine ⟨(h'.perm.append h.perm).trans List.perm_append_comm, ?_⟩
  rw [← h.written_eq_iff, ← h'.written_eq_iff]
  show written (ls' ++ ls) = written (ms ++ ms') ↔ _
  rw [written_append, written_append]
  cases hms : written ms with
  | nil => simp [h.written_eq_nil_iff.mpr hms]
  | cons x xs =>
    cases hls' : written ls' with
    | nil => simp [h'.written_eq_nil_iff.mp hls']
    | cons y ys =>
      -- the line that comes first in the new order would be one of both groups
      have hne : x ≠ y := by
        rintro rfl
        refine hdisjoint x (hms ▸ List.mem_cons_self) (h'.perm_written.mem_iff.mp ?_)
        exact hls' ▸ List.mem_cons_self
      have hnonempty : written ms' ≠ [] := by
        intro heq
        rw [h'.written_eq_nil_iff.mpr heq] at hls'
        contradiction
      simp [hne.symm, hnonempty]

end Rearranged

theorem written_shift_eq_nil_iff (n : Nat) (ls : List Line) :
    written (ls.map (.shift n)) = [] ↔ written ls = [] := by
  rw [written_shift, List.map_eq_nil_iff]

theorem ForHead.written_incrementLines_eq_nil_iff (h : ForHead) :
    written h.incrementLines = [] ↔ h.increment = none := by
  unfold ForHead.incrementLines
  cases h.increment <;> simp

mutual

/-- The listing has the lines of the text in another order, in which a written line has moved unless
the statement is straight. -/
theorem Statement.rearranged : {inLoop dangling : Bool} → (s : Statement inLoop dangling) →
    Rearranged (s.lines true) (s.lines false) s.IsStraight
  | _, _, .expression _ _ => .refl _
  | _, _, .print _ _ _ => .refl _
  | _, _, .block _ body _ => body.rearranged.shift 1
  | _, _, .ifThen head thenBranch => (thenBranch.rearranged.shift _).cons _
  | _, _, .ifElse head thenBranch _ elseBranch =>
    ((thenBranch.rearranged.shift _).append (elseBranch.rearranged.shift _)).cons _
  | _, _, .whileLoop head body => (body.rearranged.shift _).cons _
  | _, _, .forLoop head body => by
    have hplaces := head.places.append body.places rfl
    rw [List.append_assoc, List.cons_append] at hplaces
    have hbehind := hplaces.sublist
      ((List.sublist_cons_self _ _).trans (List.sublist_append_right _ _))
    have hmoved := (Rearranged.refl head.incrementLines).arranged
      (body.rearranged.shift head.tokens.length) hbehind.disjoint
    refine ((Rearranged.refl _).append (hmoved.cons head.conditionLine)).congr ?_
    rw [written_shift_eq_nil_iff, head.written_incrementLines_eq_nil_iff, true_and, true_and]
    rfl
  | _, _, .switch head _ branches _ => (branches.rearranged.shift _).cons _
  | _, _, .breakLoop _ _ => .refl _
  | _, _, .continueLoop _ _ => .refl _
  | _, _, .exitProgram _ _ => .refl _

theorem Sequence.rearranged : {inLoop : Bool} → (q : Sequence inLoop) →
    Rearranged (q.lines true) (q.lines false) q.IsStraight
  | _, .nil => .refl _
  | _, .declaration _ rest => (rest.rearranged.shift _).cons _
  | _, .statement first rest => first.rearranged.append (rest.rearranged.shift _)

theorem Branches.rearranged : {inLoop seen : Bool} → (b : Branches inLoop seen) →
    Rearranged (b.lines true) (b.lines false) b.IsStraight
  | _, _, .nil => .refl _
  | _, _, .case word value colon body rest =>
    ((body.rearranged.shift _).append (rest.rearranged.shift _)).cons _
  | _, _, .default word colon body rest => by
    have hplaces := (Branches.default word colon body rest).places
    refine ((body.rearranged.shift 2).arranged (rest.rearranged.shift _) hplaces.disjoint).congr ?_
    rw [written_shift_eq_nil_iff, written_shift_eq_nil_iff]
    rfl

end

end Grammar

namespace Stmt

mutual

/-- A listing has one line for each outermost expression. -/
theorem rpn_eq_map : (s : Stmt) → s.rpn = s.expressions.map Expr.rpn
  | .expression _ => rfl
  | .print _ => rfl
  | .declare _ _ => rfl
  | .block statements => rpnOfAll_eq_map statements
  | .branch condition thenBranch elseBranch => by
    rw [rpn, expressions, List.map_cons, List.map_append, thenBranch.rpn_eq_map,
      rpnOfOption_eq_map elseBranch]
  | .loop _ condition body => congrArg (condition.rpn :: ·) body.rpn_eq_map
  | .switch subject cases fallback => by
    rw [rpn, expressions, List.map_cons, List.map_append, rpnOfCases_eq_map cases,
      rpnOfOption_eq_map fallback]
  | .breakLoop => rfl
  | .continueLoop => rfl
  | .exitProgram => rfl

theorem rpnOfAll_eq_map : (ss : List Stmt) → rpnOfAll ss = (expressionsOfAll ss).map Expr.rpn
  | [] => rfl
  | s :: rest => by
    rw [rpnOfAll, expressionsOfAll, List.map_append, s.rpn_eq_map, rpnOfAll_eq_map rest]

theorem rpnOfCases_eq_map : (cases : List (Expr × Stmt)) →
    rpnOfCases cases = (expressionsOfCases cases).map Expr.rpn
  | [] => rfl
  | (condition, body) :: rest => by
    rw [rpnOfCases, expressionsOfCases, List.map_cons, List.map_append, body.rpn_eq_map,
      rpnOfCases_eq_map rest]

theorem rpnOfOption_eq_map : (o : Option Stmt) →
    rpnOfOption o = (expressionsOfOption o).map Expr.rpn
  | none => rfl
  | some s => s.rpn_eq_map

end

end Stmt

/-- **The listing and the source.** A program without a report is listed with one line for each
outermost expression of its text, and one for each value that stands for an expression left out. The
lines are those of the text, where each expression has its place behind the one before, and they are in
the order of the text exactly if the program is straight: no increment of a `for` loop is in front of a
body with an expression, and no default branch with an expression is in front of a case. -/
theorem listing_in_order_iff {source : String}
    (h : (parseProgram (Scan.ofSource source).tokens).diagnostics = []) :
    ∃ p : Grammar.Program,
      p.tokens = (Scan.ofSource source).found ∧
      p.tree = (parseProgram (Scan.ofSource source).tokens).program ∧
      (parseProgram (Scan.ofSource source).tokens).program.rpn = (p.lines true).map (·.tree.rpn) ∧
      (p.lines true).Perm (p.lines false) ∧
      Grammar.Places p.tokens (p.lines false) ∧
      (Grammar.written (p.lines true) = Grammar.written (p.lines false) ↔ p.IsStraight) := by
  obtain ⟨p, htokens, htree⟩ := exists_program_of_source h
  refine ⟨p, htokens, htree, ?_, p.rearranged.perm, p.places, p.rearranged.written_eq_iff⟩
  rw [← htree, Program.rpn, Stmt.rpnOfAll_eq_map, ← p.map_tree_lines, List.map_map]
  rfl

/-- `switch (x) { default: var y; case 1: b; }` lists the default behind the case, but the only line
that moves is the one of the value that was left out. -/
theorem listing_in_order_iff_default :
    let source := "switch (x) \x7b default: var y; case 1: b; \x7d"
    let scanned := Scan.ofSource source
    (parseProgram scanned.tokens).diagnostics = [] ∧
    (parseProgram scanned.tokens).program.rpn = ["x", "1", "b", "nil"] ∧
    ∃ p : Grammar.Program, p.tokens = scanned.found ∧
      p.tree = (parseProgram scanned.tokens).program ∧
      (p.lines true).Perm (p.lines false) ∧ Grammar.Places p.tokens (p.lines false) ∧
      (Grammar.written (p.lines true) = Grammar.written (p.lines false) ↔ p.IsStraight) := by
  intro source scanned
  have h : (parseProgram scanned.tokens).diagnostics = [] := by decide +kernel
  obtain ⟨p, htokens, htree, -, hperm, hplaces, hiff⟩ := listing_in_order_iff h
  exact ⟨h, by decide +kernel, p, htokens, htree, hperm, hplaces, hiff⟩

/-- The lines of `for (;a;b) print c;` are `a`, `c` and `b`. -/
theorem increment_listed_late :
    let source := "for (;a;b) print c;"
    let scanned := Scan.ofSource source
    scanned.diagnostics = [] ∧ (parseProgram scanned.tokens).diagnostics = [] ∧
    (parseProgram scanned.tokens).program.rpn = ["a", "c", "b"] ∧
    ∃ p : Grammar.Program, p.tokens = scanned.found ∧
      (Grammar.written (p.lines false)).map (fun x => (x.1, x.2.tree.rpn)) =
        [(3, "a"), (5, "b"), (8, "c")] := by
  refine ⟨by decide +kernel, by decide +kernel, by decide +kernel, ?_⟩
  let name (lexeme : String) : Grammar.Expression 0 :=
    .reference ⟨⟨.identifier, lexeme, none, 1⟩, by simp⟩
  let semicolon : Grammar.Terminal [.semicolon] := ⟨⟨.semicolon, ";", none, 1⟩, by simp⟩
  let head : Grammar.ForHead :=
    { word := ⟨⟨.forWord, "for", none, 1⟩, by simp⟩
      opening := ⟨⟨.leftParen, "(", none, 1⟩, by simp⟩
      initializer := .absent semicolon
      condition := some (name "a")
      semicolon := semicolon
      increment := some (name "b")
      closing := ⟨⟨.rightParen, ")", none, 1⟩, by simp⟩ }
  let body : Grammar.Statement true false :=
    .print ⟨⟨.printWord, "print", none, 1⟩, by simp⟩ (name "c") semicolon
  exact ⟨.statement (.forLoop head body) .nil, by decide +kernel, by decide +kernel⟩

end Treewalk
