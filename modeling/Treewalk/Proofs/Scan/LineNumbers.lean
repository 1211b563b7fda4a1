import Treewalk.Proofs.Scan.Pieces

set_option autoImplicit false
set_option relaxedAutoImplicit false

/-!
Line numbers.

A scan counts the lines as it goes, at line ends between tokens and inside strings. `Passage.line` gives
the line of a piece from its place in the text alone, by the number of line ends up to there.
`lines_are_exact` says that the two agree for every source.
-/

namespace Treewalk

/-- A piece of a text, with the characters in front of it and behind it. -/
structure Passage where
  before : List Char
  piece : Piece
  after : List Char

namespace Passage

/-- The whole text. -/
def text (a : Passage) : List Char :=
  a.before ++ a.piece.text ++ a.after

/-- The line of a piece: where it ends, for a stray character where it stands, and for a string that
is not closed the last line of the text. -/
def line (a : Passage) : Nat :=
  match a.piece with
  | .stray _ => 1 + a.before.count '\n'
  | .unterminated _ => 1 + a.text.count '\n'
  | _ => 1 + (a.before ++ a.piece.text).count '\n'

/-- The item that the piece gives, if any. -/
def item (a : Passage) : Option ScanItem :=
  a.piece.item a.line

end Passage

/-- Pieces in a row, each in the text that they make up behind the characters `before`. -/
def passagesOf (before : List Char) : List Piece → List Passage
  | [] => []
  | p :: rest => ⟨before, p, textOf rest⟩ :: passagesOf (before ++ p.text) rest

theorem text_of_mem_passagesOf {before : List Char} {pieces : List Piece} {a : Passage}
    (h : a ∈ passagesOf before pieces) : a.text = before ++ textOf pieces := by
  induction pieces generalizing before with
  | nil => contradiction
  | cons p rest ih =>
    have htext : before ++ textOf (p :: rest) = before ++ p.text ++ textOf rest :=
      (List.append_assoc before p.text (textOf rest)).symm
    rcases List.mem_cons.mp h with rfl | hrest
    · exact htext.symm
    · rw [ih hrest, htext]

theorem Piece.ne_newline_of_fits {c : Char} {rest : List Char} (h : (stray c).Fits rest) :
    c ≠ '\n' := by
  cases h with
  | regular hstray _ => exact hstray.elim
  | stray _ hno =>
    have hblank : (blank '\n').IsRegular := by simp [IsRegular]
    rintro rfl
    exact hno _ hblank rfl

/-- Where pieces fit, each of them ends on its line: no stray character is a line end, and nothing
stands behind a string that is not closed. -/
theorem Passage.line_of_fits {a : Passage} (h : a.piece.Fits a.after) :
    a.line = 1 + Scan.lineBreaks (a.before ++ a.piece.text) := by
  obtain ⟨before, piece, after⟩ := a
  cases piece with
  | stray c =>
    have hbreaks : Scan.lineBreaks [c] = 0 :=
      Scan.lineBreaks_eq_zero (List.forall_mem_singleton.mpr (Piece.ne_newline_of_fits h))
    calc 1 + before.count '\n'
      _ = 1 + (Scan.lineBreaks before + Scan.lineBreaks [c]) := by rw [hbreaks]; rfl
      _ = 1 + Scan.lineBreaks (before ++ [c]) := by rw [Scan.lineBreaks_append]
  | unterminated body =>
    cases h with
    | regular hopen _ => exact hopen.elim
    | unterminated _ =>
      have htext : before ++ '"' :: body ++ [] = before ++ '"' :: body := List.append_nil _
      exact congrArg (fun cs => 1 + Scan.lineBreaks cs) htext
  | _ => rfl

/-- To count the lines along the pieces is to count them from the beginning for each piece. -/
theorem AllFit.itemsOf_eq_passages {pieces : List Piece} (h : AllFit pieces) (before : List Char) :
    itemsOf (1 + Scan.lineBreaks before) pieces = (passagesOf before pieces).filterMap Passage.item := by
  induction pieces generalizing before with
  | nil => rfl
  | cons p rest ih =>
    have hline : (Passage.mk before p (textOf rest)).line =
        1 + Scan.lineBreaks (before ++ p.text) := Passage.line_of_fits h.1
    have hnext : 1 + Scan.lineBreaks before + Scan.lineBreaks p.text =
        1 + Scan.lineBreaks (before ++ p.text) := by
      rw [Scan.lineBreaks_append, Nat.add_assoc]
    have hitem : (Passage.mk before p (textOf rest)).item =
        p.item (1 + Scan.lineBreaks (before ++ p.text)) := congrArg p.item hline
    rw [itemsOf, hnext, ih h.2, passagesOf, List.filterMap_cons, hitem]
    cases p.item (1 + Scan.lineBreaks (before ++ p.text)) <;> rfl

namespace Scan

/-- Lines never decrease along a scan, up to the line on which it ends. -/
theorem ofChars_lines_pairwise (line : Nat) (cs : List Char) :
    ((ofChars line cs).items.map ScanItem.line ++ [(ofChars line cs).line]).Pairwise (· ≤ ·) := by
  induction line, cs using Scan.induction with
  | nil line => exact List.pairwise_singleton _ _
  | cons line c rest ih =>
    let later := ofChars (step line c rest).line (step line c rest).rest
    -- All that follows is found from the line on that this step ends on.
    have hlater : ∀ n ∈ later.items.map ScanItem.line ++ [later.line], (step line c rest).line ≤ n := by
      intro n hn
      rcases List.mem_append.mp hn with hfound | hlast
      · obtain ⟨i, hi, rfl⟩ := List.mem_map.mp hfound
        exact (ofChars_item_line _ _ i hi).1
      · rw [List.mem_singleton.mp hlast, ofChars_line]
        exact Nat.le_add_right _ _
    rw [ofChars_cons]
    change (((step line c rest).item.toList ++ later.items).map ScanItem.line ++
      [later.line]).Pairwise _
    cases hitem : (step line c rest).item with
    | none => exact ih
    | some i =>
      rw [← (step_sound line c rest).item_line i hitem] at hlater
      exact List.pairwise_cons.mpr ⟨hlater, ih⟩

end Scan

/-- Line numbers are exact. Every source is made of pieces that fit, and what its scan finds is what
its pieces give, each on its own line: a token on line 1 plus the number of line ends in front of the
end of its lexeme, a stray character on line 1 plus the number of those in front of it, a string that
is not closed and the end of the input on line 1 plus the number of those in the whole source. In
particular no item is on an earlier line than the item before it. -/
theorem lines_are_exact (source : String) :
    let scan := Scan.ofSource source
    ∃ pieces : List Piece,
      (textOf pieces = source.toList ∧ AllFit pieces) ∧
      (∀ a ∈ passagesOf [] pieces, a.text = source.toList) ∧
      scan.items = (passagesOf [] pieces).filterMap Passage.item ∧
      scan.tokens =
        scan.items.filterMap ScanItem.token? ++ [.eof (1 + source.toList.count '\n')] ∧
      (scan.items.map ScanItem.line ++ [scan.line]).Pairwise (· ≤ ·) := by
  intro scan
  obtain ⟨pieces, hfit, htext⟩ := exists_allFit source.toList
  have hline : scan.line = 1 + source.toList.count '\n' := Scan.ofChars_line 1 source.toList
  refine ⟨pieces, ⟨htext, hfit⟩, fun a ha => ?_, ?_, ?_, Scan.ofChars_lines_pairwise 1 source.toList⟩
  · rw [text_of_mem_passagesOf ha, htext]
    rfl
  · calc scan.items
      _ = itemsOf 1 pieces := hfit.ofSource_items htext
      _ = (passagesOf [] pieces).filterMap Passage.item := hfit.itemsOf_eq_passages []
  · rw [Scan.tokens, hline]

/-- A comment, a line end behind a backslash inside a string, and one behind a carriage return. -/
example :
    (Scan.ofSource "// \"\n\"a\\\n\" b\r\n@ \"\n").items.map ScanItem.line = [3, 3, 4, 5] := by
  decide +kernel

end Treewalk
