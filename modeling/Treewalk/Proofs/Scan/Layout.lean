import Treewalk.Proofs.Scan.Append
import Treewalk.Proofs.Scan.Printed
import Treewalk.Proofs.Syntax.Spelling

set_option autoImplicit false
set_option relaxedAutoImplicit false

/-!
Layout between tokens.

The lexeme of a token is a piece that fits in front of white space, whatever follows. White space and
comments that end with their line fit in front of everything and give no item. So lexemes with such
separators between them are scanned one by one, and the scan finds the tokens that they came from.
-/

namespace Treewalk

/-- White space and comments with the ends of their lines, in any order. -/
inductive IsLayout : List Char → Prop where
  | nil : IsLayout []
  | blank {c : Char} {rest : List Char} (hc : c ∈ [' ', '\r', '\t', '\n']) (h : IsLayout rest) :
      IsLayout (c :: rest)
  | comment {words rest : List Char} (hwords : '\n' ∉ words) (h : IsLayout rest) :
      IsLayout ('/' :: '/' :: words ++ '\n' :: rest)

/-- Layout that begins with white space. -/
inductive IsSeparator : List Char → Prop where
  | blank {c : Char} {rest : List Char} (hc : c ∈ [' ', '\r', '\t', '\n']) (h : IsLayout rest) :
      IsSeparator (c :: rest)

/-- The text is made of the lexemes of the tokens in order, with a separator between any two. -/
inductive Separated : List Token → List Char → Prop where
  | nil : Separated [] []
  | single (t : Token) : Separated [t] t.lexeme.toList
  | cons {t next : Token} {rest : List Token} {separator text : List Char}
      (hseparator : IsSeparator separator) (h : Separated (next :: rest) text) :
      Separated (t :: next :: rest) (t.lexeme.toList ++ (separator ++ text))

/-- The token has the form of its kind. -/
def Token.IsLexical (t : Token) : Prop :=
  IsLexeme t.kind t.lexeme.toList t.literal

/-- The item on line 0, so that items can be compared without their lines. -/
def ScanItem.withoutLine : ScanItem → ScanItem :=
  mapLine fun _ => 0

namespace Scan

/-- Items that come from pieces that fit are lexical. -/
theorem isLexical_of_mem_itemsOf {pieces : List Piece} (h : AllFit pieces) {line : Nat} {t : Token}
    (ht : .token t ∈ itemsOf line pieces) : t.IsLexical := by
  induction pieces generalizing line with
  | nil => contradiction
  | cons p rest ih =>
    rcases List.mem_append.mp ht with hhere | hlater
    · cases p with
      | token kind lexeme literal =>
        have hlexeme : IsLexeme kind lexeme literal := by
          cases h.1 with
          | regular hp _ => exact hp
        obtain rfl : t = _ := by simpa [Piece.item] using hhere
        simpa [Token.IsLexical] using hlexeme
      | _ => simp [Piece.item] at hhere
    · exact ih h.2 hlater

/-- Every token of a source but the last has the form of its kind. -/
theorem isLexical_of_mem_found {source : String} {t : Token} (h : t ∈ (ofSource source).found) :
    t.IsLexical := by
  obtain ⟨pieces, hfit, htext⟩ := exists_allFit source.toList
  have hitems : (ofSource source).items = itemsOf 1 pieces := hfit.ofSource_items htext
  obtain ⟨i, hi, htoken⟩ := List.mem_filterMap.mp h
  cases i with
  | token t' =>
    obtain rfl : t' = t := Option.some.inj htoken
    exact isLexical_of_mem_itemsOf hfit (hitems ▸ hi)
  | error e => contradiction

end Scan

/-- The piece gives no item. -/
def Piece.IsSilent (p : Piece) : Prop :=
  ∀ line, p.item line = none

theorem Piece.fits_blank_of_mem {c : Char} (hc : c ∈ [' ', '\r', '\t', '\n']) (rest : List Char) :
    (blank c).Fits rest := by
  refine fits_of_rest hc ?_
  simp only [List.mem_cons, List.not_mem_nil, or_false] at hc
  rcases hc with rfl | rfl | rfl | rfl <;> rfl

/-- A comment goes on up to the end of its line. -/
theorem Piece.fits_comment {words : List Char} (hwords : '\n' ∉ words) (rest : List Char) :
    (comment words).Fits ('\n' :: rest) := by
  refine fits_of_rest hwords ?_
  have hline : ∀ c ∈ words, (c != '\n') = true := fun c hc =>
    bne_iff_ne.mpr (ne_of_mem_of_not_mem hc hwords)
  calc (Scan.stepAt 1 ('/' :: '/' :: words ++ '\n' :: rest)).rest
    _ = (words ++ '\n' :: rest).dropWhile (· != '\n') := rfl
    _ = ('\n' :: rest).dropWhile (· != '\n') := List.dropWhile_append_of_pos hline
    _ = '\n' :: rest := rfl

/-- Layout is made of silent pieces that fit in front of everything. -/
theorem IsLayout.exists_pieces {layout : List Char} (h : IsLayout layout) :
    ∃ pieces, textOf pieces = layout ∧ (∀ p ∈ pieces, p.IsSilent) ∧
      ∀ rest, AllFit rest → AllFit (pieces ++ rest) := by
  induction h with
  | nil => exact ⟨[], rfl, by simp, fun _ hrest => hrest⟩
  | @blank c _ hc h ih =>
    obtain ⟨pieces, htext, hsilent, hfit⟩ := ih
    refine ⟨.blank c :: pieces, ?_, List.forall_mem_cons.mpr ⟨fun _ => rfl, hsilent⟩, ?_⟩
    · rw [textOf_cons, htext]
      rfl
    · exact fun rest hrest => ⟨Piece.fits_blank_of_mem hc _, hfit rest hrest⟩
  | @comment words _ hwords h ih =>
    obtain ⟨pieces, htext, hsilent, hfit⟩ := ih
    refine ⟨.comment words :: .blank '\n' :: pieces, ?_, ?_, fun rest hrest => ?_⟩
    · rw [textOf_cons, textOf_cons, htext]
      rfl
    · exact List.forall_mem_cons.mpr ⟨fun _ => rfl, List.forall_mem_cons.mpr ⟨fun _ => rfl, hsilent⟩⟩
    · have hbreak : (Piece.blank '\n').Fits (textOf (pieces ++ rest)) :=
        Piece.fits_blank_of_mem (by simp) _
      exact ⟨Piece.fits_comment hwords _, hbreak, hfit rest hrest⟩

/-- A separator moreover ends the token in front of it. -/
theorem IsSeparator.exists_pieces {separator : List Char} (h : IsSeparator separator) :
    ∃ pieces, textOf pieces = separator ∧ (∀ p ∈ pieces, p.IsSilent) ∧
      (∀ rest, Stops (textOf (pieces ++ rest))) ∧ ∀ rest, AllFit rest → AllFit (pieces ++ rest) := by
  obtain @⟨c, layout, hc, hlayout⟩ := h
  obtain ⟨pieces, htext, hsilent, hfit⟩ := hlayout.exists_pieces
  have hstop : c ∈ stops := List.mem_append_left [')', ';', ':'] hc
  refine ⟨.blank c :: pieces, ?_, List.forall_mem_cons.mpr ⟨fun _ => rfl, hsilent⟩,
    fun rest => .cons hstop _, fun rest hrest => ⟨Piece.fits_blank_of_mem hc _, hfit rest hrest⟩⟩
  rw [textOf_cons, htext]
  rfl

/-- The token as a piece of a text. -/
def Token.lexicalPiece (t : Token) : Piece :=
  .token t.kind t.lexeme.toList t.literal

theorem itemsOf_silent_append {pieces : List Piece} (h : ∀ p ∈ pieces, p.IsSilent) (line : Nat)
    (rest : List Piece) : ∃ next, itemsOf line (pieces ++ rest) = itemsOf next rest := by
  induction pieces generalizing line with
  | nil => exact ⟨line, rfl⟩
  | cons p pieces ih =>
    obtain ⟨hp, hpieces⟩ := List.forall_mem_cons.mp h
    obtain ⟨next, hnext⟩ := ih hpieces (line + Scan.lineBreaks p.text)
    refine ⟨next, ?_⟩
    rw [List.cons_append, itemsOf, hp]
    exact hnext

theorem itemsOf_lexicalPiece (line : Nat) (t : Token) (rest : List Piece) :
    ∃ next, (itemsOf line (t.lexicalPiece :: rest)).map ScanItem.withoutLine =
      .token t.withoutLine :: (itemsOf next rest).map ScanItem.withoutLine := by
  obtain ⟨last, hitems⟩ := itemsOf_token line t.kind t.lexeme.toList t.literal rest
  rw [String.ofList_toList] at hitems
  exact ⟨last, congrArg (List.map ScanItem.withoutLine) hitems⟩

/-- Lexemes with separators between them are pieces that fit, and give their tokens on some lines. -/
theorem Separated.exists_pieces {ts : List Token} {text : List Char} (h : Separated ts text)
    (hlexical : ∀ t ∈ ts, t.IsLexical) :
    ∃ pieces, textOf pieces = text ∧ AllFit pieces ∧ ∀ line,
      (itemsOf line pieces).map ScanItem.withoutLine = ts.map fun t => .token t.withoutLine := by
  induction h with
  | nil => exact ⟨[], rfl, trivial, fun _ => rfl⟩
  | single t =>
    have ht : t.IsLexical := List.forall_mem_singleton.mp hlexical
    have hfit : t.lexicalPiece.Fits [] := Piece.fits_of_stops ht .nil
    refine ⟨[t.lexicalPiece], List.append_nil _, ⟨hfit, trivial⟩, fun line => ?_⟩
    obtain ⟨next, hitems⟩ := itemsOf_lexicalPiece line t []
    exact hitems
  | @cons t next rest separator text hseparator h ih =>
    obtain ⟨ht, hrest⟩ := List.forall_mem_cons.mp hlexical
    obtain ⟨pieces, htext, hfit, hitems⟩ := ih hrest
    obtain ⟨gap, hgap, hsilent, hstops, hgapfit⟩ := hseparator.exists_pieces
    refine ⟨t.lexicalPiece :: (gap ++ pieces), ?_,
      ⟨Piece.fits_of_stops ht (hstops pieces), hgapfit pieces hfit⟩, fun line => ?_⟩
    · rw [textOf_cons, textOf_append, hgap, htext]
      rfl
    · obtain ⟨after, htoken⟩ := itemsOf_lexicalPiece line t (gap ++ pieces)
      obtain ⟨start, hstart⟩ := itemsOf_silent_append hsilent after pieces
      rw [htoken, hstart, hitems start]
      rfl

namespace Scan

/-- A scan that finds the given tokens, on whatever lines, and nothing else. -/
theorem of_items_withoutLine {s : Scan} {ts : List Token}
    (h : s.items.map ScanItem.withoutLine = ts.map fun t => .token t.withoutLine) :
    s.diagnostics = [] ∧ s.tokens.map Token.withoutLine = ts.map Token.withoutLine ++ [.eof 0] := by
  have herrors : (s.items.map ScanItem.withoutLine).filterMap ScanItem.error? = [] := by
    rw [h, List.filterMap_map]
    exact List.filterMap_eq_nil_iff.mpr fun _ _ => rfl
  have htokens : (s.items.map ScanItem.withoutLine).filterMap ScanItem.token? =
      ts.map Token.withoutLine := by
    rw [h, List.filterMap_map, ← List.filterMap_eq_map]
    rfl
  rw [ScanItem.withoutLine, filterMap_error?_mapLine, List.map_eq_nil_iff] at herrors
  rw [ScanItem.withoutLine, filterMap_token?_mapLine] at htokens
  constructor
  · rw [diagnostics, herrors]
    rfl
  · rw [tokens, List.map_append]
    exact congrArg (· ++ _) htokens

/-- Lexemes of tokens are scanned to these tokens, whatever separates them. -/
theorem ofSource_separated {ts : List Token} {text : List Char} (h : Separated ts text)
    (hlexical : ∀ t ∈ ts, t.IsLexical) :
    (ofSource (String.ofList text)).diagnostics = [] ∧
      (ofSource (String.ofList text)).tokens.map Token.withoutLine =
        ts.map Token.withoutLine ++ [.eof 0] := by
  obtain ⟨pieces, htext, hfit, hitems⟩ := h.exists_pieces hlexical
  have hscan : (ofSource (String.ofList text)).items = itemsOf 1 pieces :=
    hfit.ofSource_items (by rw [htext, String.toList_ofList])
  exact of_items_withoutLine (by rw [hscan, hitems])

/-- A token that a source has besides the last has the form of its kind. -/
theorem isLexical_of_mem_tokens {source : String} {t : Token} (h : t ∈ (ofSource source).tokens)
    (hkind : t.kind ≠ .eof) : t.IsLexical := by
  rcases List.mem_append.mp h with hfound | hlast
  · exact isLexical_of_mem_found hfound
  · obtain rfl := List.mem_singleton.mp hlast
    exact absurd rfl hkind

end Scan

/-- Where tokens begin and end does not depend on layout. The lexeme of every token of a source but
the last is, as a source of its own, scanned to this token only. And lexemes of tokens of any sources,
with separators between them, are scanned to these tokens in this order. Kinds, lexemes and literals
are the same, and there are no reports. -/
theorem tokens_keep_apart :
    (∀ source, ∀ t ∈ (Scan.ofSource source).tokens, t.kind ≠ .eof →
      (Scan.ofSource t.lexeme).diagnostics = [] ∧
        (Scan.ofSource t.lexeme).tokens.map Token.withoutLine = [t.withoutLine, .eof 0]) ∧
    ∀ (ts : List Token) (text : List Char),
      (∀ t ∈ ts, t.kind ≠ .eof ∧ ∃ source, t ∈ (Scan.ofSource source).tokens) →
      Separated ts text →
      (Scan.ofSource (String.ofList text)).diagnostics = [] ∧
        (Scan.ofSource (String.ofList text)).tokens.map Token.withoutLine =
          ts.map Token.withoutLine ++ [.eof 0] := by
  constructor
  · intro source t ht hkind
    have hlexical : ∀ u ∈ [t], u.IsLexical :=
      List.forall_mem_singleton.mpr (Scan.isLexical_of_mem_tokens ht hkind)
    have hscan := Scan.ofSource_separated (.single t) hlexical
    rwa [String.ofList_toList] at hscan
  · intro ts text hts htext
    refine Scan.ofSource_separated htext fun t ht => ?_
    obtain ⟨hkind, source, hsource⟩ := hts t ht
    exact Scan.isLexical_of_mem_tokens hsource hkind

/-- A slash keeps its meaning in front of a blank and a comment, and so do two equals signs. -/
theorem tokens_keep_apart_comment :
    let slash : Token := ⟨.slash, "/", none, 1⟩
    let equal : Token := ⟨.equal, "=", none, 1⟩
    let text := "/ //=\n=\t="
    Separated [slash, equal, equal] text.toList ∧
      (Scan.ofSource text).diagnostics = [] ∧
      (Scan.ofSource text).tokens.map Token.withoutLine =
        [slash.withoutLine, equal.withoutLine, equal.withoutLine, .eof 0] := by
  intro slash equal text
  have hfound : ∀ t ∈ [slash, equal, equal],
      t.kind ≠ .eof ∧ ∃ source, t ∈ (Scan.ofSource source).tokens := by
    have hkinds : ∀ t ∈ [slash, equal, equal], t.kind ≠ .eof := by decide
    have hsource : ∀ t ∈ [slash, equal, equal], t ∈ (Scan.ofSource "/ =").tokens := by decide +kernel
    exact fun t ht => ⟨hkinds t ht, "/ =", hsource t ht⟩
  have hcomment : IsLayout ('/' :: '/' :: ['='] ++ '\n' :: []) := .comment (by simp) .nil
  have hblank : IsSeparator (' ' :: ('/' :: '/' :: ['='] ++ '\n' :: [])) := .blank (by simp) hcomment
  have htab : IsSeparator ['\t'] := .blank (by simp) .nil
  have hseparated : Separated [slash, equal, equal] text.toList := by
    have hcons := Separated.cons (t := slash) hblank (Separated.cons (t := equal) htab (.single equal))
    simpa [text, slash, equal] using hcons
  have hscan := tokens_keep_apart.2 _ _ hfound hseparated
  rw [String.ofList_toList] at hscan
  exact ⟨hseparated, hscan⟩

end Treewalk
