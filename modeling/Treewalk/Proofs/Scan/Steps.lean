import Treewalk.Token.Scan

set_option autoImplicit false
set_option relaxedAutoImplicit false

/-!
Scans as repeated steps.

A step takes at least one character, counts the line ends among those that it takes, and puts what
it finds on the line that it ends on. `Scan.ofChars` is a scan from any line on, without a bound on
the number of steps, and `Scan.induction` is the induction along its steps.
-/

namespace Treewalk

/-- The line that an item belongs to. -/
def ScanItem.line : ScanItem → Nat
  | .token t => t.line
  | .error e => e.line

namespace Scan

@[simp] theorem lineBreaks_append (cs ds : List Char) :
    lineBreaks (cs ++ ds) = lineBreaks cs + lineBreaks ds :=
  List.count_append

theorem lineBreaks_eq_zero {cs : List Char} (h : ∀ c ∈ cs, c ≠ '\n') : lineBreaks cs = 0 :=
  List.count_eq_zero.mpr fun hmem => h _ hmem rfl

theorem takeWhile_ne_newline {p : Char → Bool} (hp : p '\n' = false) (cs : List Char) :
    ∀ c ∈ cs.takeWhile p, c ≠ '\n' := by
  rintro c hc rfl
  have hall := List.all_eq_true.mp List.all_takeWhile _ hc
  rw [hp] at hall
  contradiction

/-- What each step keeps to: it takes a piece off the front, its line is that of the end of the
piece, and so is the line of what it finds, which is never the end of the input. -/
structure Step.Sound (line : Nat) (cs : List Char) (s : Step) : Prop where
  taken : ∃ piece, piece ≠ [] ∧ cs = piece ++ s.rest ∧ s.line = line + lineBreaks piece
  item_line : ∀ i ∈ s.item, i.line = s.line
  kind_ne_eof : ∀ i ∈ s.item, ∀ t ∈ i.token?, t.kind ≠ .eof

theorem Step.Sound.skip {line line' : Nat} {cs rest : List Char}
    (h : ∃ piece, piece ≠ [] ∧ cs = piece ++ rest ∧ line' = line + lineBreaks piece) :
    Step.Sound line cs (.skip line' rest) where
  taken := h
  item_line := by simp [Step.skip]
  kind_ne_eof := by simp [Step.skip]

theorem Step.Sound.plain {line : Nat} {kind : Kind} {lexeme rest : List Char} (hkind : kind ≠ .eof)
    (hne : lexeme ≠ []) (hlexeme : ∀ c ∈ lexeme, c ≠ '\n') :
    Step.Sound line (lexeme ++ rest) (.plain kind lexeme line rest) where
  taken := ⟨lexeme, hne, rfl, by rw [lineBreaks_eq_zero hlexeme]; rfl⟩
  item_line := by simp [Step.plain, ScanItem.line]
  kind_ne_eof := by simp [Step.plain, ScanItem.token?, hkind]

theorem slashStep_sound (line : Nat) (rest : List Char) :
    Step.Sound line ('/' :: rest) (slashStep line rest) := by
  unfold slashStep
  split
  · next rest =>
    apply Step.Sound.skip
    refine ⟨'/' :: '/' :: rest.takeWhile (· != '\n'), by simp, by simp, ?_⟩
    have hbreaks : lineBreaks ('/' :: '/' :: rest.takeWhile (· != '\n')) = 0 := by
      apply lineBreaks_eq_zero
      have hcomment := takeWhile_ne_newline (p := (· != '\n')) rfl rest
      simpa using hcomment
    rw [hbreaks]
    rfl
  · have hslash : Step.Sound line (['/'] ++ rest) (.plain .slash ['/'] line rest) :=
      .plain (by decide) (by simp) (by simp)
    exact hslash

/-- The characters of a string are those that are read as its body, followed by the rest. -/
theorem stringBody?_eq_append {cs : List Char} {b : StringBody} (h : stringBody? cs = some b) :
    cs = b.raw ++ b.rest := by
  fun_induction stringBody? cs generalizing b with
  | case1 => contradiction
  | case2 rest =>
    obtain rfl := Option.some.inj h
    rfl
  | case3 rest ih =>
    obtain ⟨body, hbody, rfl⟩ := Option.map_eq_some_iff.mp h
    rw [ih hbody]
    rfl
  | case4 rest ih =>
    obtain ⟨body, hbody, rfl⟩ := Option.map_eq_some_iff.mp h
    rw [ih hbody]
    rfl
  | case5 c rest _ _ _ ih =>
    obtain ⟨body, hbody, rfl⟩ := Option.map_eq_some_iff.mp h
    rw [ih hbody]
    rfl

theorem stringStep_sound (line : Nat) (cs : List Char) :
    Step.Sound line ('"' :: cs) (stringStep line cs) := by
  unfold stringStep
  split
  · next b hb =>
    refine ⟨⟨'"' :: b.raw, by simp, by rw [stringBody?_eq_append hb]; rfl, rfl⟩, ?_, ?_⟩
    · simp [ScanItem.line]
    · simp [ScanItem.token?]
  · refine ⟨⟨'"' :: cs, by simp, by simp, rfl⟩, ?_, ?_⟩
    · simp [ScanItem.line, LexicalError.line]
    · simp [ScanItem.token?]

theorem numeral_eq_append (cs : List Char) :
    cs = numeralLexeme (numeral cs).1 (numeral cs).2.1 ++ (numeral cs).2.2 := by
  have hsplit : cs = cs.takeWhile Char.isDigit ++ cs.dropWhile Char.isDigit :=
    List.takeWhile_append_dropWhile.symm
  unfold numeral
  split
  · next d rest hrest =>
    rw [hrest] at hsplit
    split
    · simpa [numeralLexeme] using hsplit
    · simpa [numeralLexeme] using hsplit
  · simp [numeralLexeme]

theorem numeral_whole (cs : List Char) : (numeral cs).1 = cs.takeWhile Char.isDigit := by
  unfold numeral
  split
  · split
    · rfl
    · rfl
  · rfl

theorem numeral_fraction_ne_newline (cs : List Char) : ∀ c ∈ (numeral cs).2.1, c ≠ '\n' := by
  unfold numeral
  split
  · next d rest hrest =>
    split
    · next hd =>
      intro c hc
      rcases List.mem_cons.mp hc with rfl | hrest
      · rintro rfl
        contradiction
      · exact takeWhile_ne_newline (p := Char.isDigit) rfl rest c hrest
    · simp
  · simp

theorem numeralLexeme_ne_newline (cs : List Char) :
    ∀ c ∈ numeralLexeme (numeral cs).1 (numeral cs).2.1, c ≠ '\n' := by
  have hwhole : ∀ c ∈ (numeral cs).1, c ≠ '\n' := by
    rw [numeral_whole]
    exact takeWhile_ne_newline rfl cs
  unfold numeralLexeme
  split
  · exact hwhole
  · intro c hc
    rcases List.mem_append.mp hc with hc | hc
    · exact hwhole c hc
    · rcases List.mem_cons.mp hc with rfl | hc
      · decide
      · exact numeral_fraction_ne_newline cs c hc

theorem numberStep_sound (line : Nat) {c : Char} (hc : c.isDigit) (rest : List Char) :
    Step.Sound line (c :: rest) (numberStep line (c :: rest)) := by
  have hne : numeralLexeme (numeral (c :: rest)).1 (numeral (c :: rest)).2.1 ≠ [] := by
    have hwhole : (numeral (c :: rest)).1 = c :: rest.takeWhile Char.isDigit := by
      rw [numeral_whole, List.takeWhile_cons_of_pos hc]
    unfold numeralLexeme
    split
    · simp [hwhole]
    · simp
  refine ⟨⟨_, hne, numeral_eq_append _, ?_⟩, ?_, ?_⟩
  · rw [lineBreaks_eq_zero (numeralLexeme_ne_newline _)]
    rfl
  · simp [numberStep, ScanItem.line]
  · simp [numberStep, ScanItem.token?]

theorem keyword?_ne_eof (word : String) : (Kind.keyword? word).getD .identifier ≠ .eof := by
  cases h : Kind.keyword? word with
  | none => decide
  | some kind =>
    have hmem : kind ∈ Kind.keywords := List.mem_of_find?_eq_some h
    rintro rfl
    revert hmem
    decide

theorem wordStep_sound (line : Nat) {c : Char} (hc : isLetter c) (rest : List Char) :
    Step.Sound line (c :: rest) (wordStep line (c :: rest)) := by
  have hpart : isWordPart c := by simp [isWordPart, hc]
  have hsplit : c :: rest =
      (c :: rest).takeWhile isWordPart ++ (c :: rest).dropWhile isWordPart :=
    List.takeWhile_append_dropWhile.symm
  have hne : (c :: rest).takeWhile isWordPart ≠ [] := by
    simp [List.takeWhile_cons_of_pos hpart]
  have hword : Step.Sound line
      ((c :: rest).takeWhile isWordPart ++ (c :: rest).dropWhile isWordPart)
      (wordStep line (c :: rest)) :=
    .plain (keyword?_ne_eof _) hne (takeWhile_ne_newline rfl (c :: rest))
  rwa [← hsplit] at hword

theorem equalStep_sound (alone paired : Kind) (line : Nat) {c : Char} (ha : alone ≠ .eof)
    (hp : paired ≠ .eof) (hc : c ≠ '\n') (rest : List Char) :
    Step.Sound line (c :: rest) (equalStep alone paired line c rest) := by
  unfold equalStep
  split
  · next rest =>
    have hpair : Step.Sound line ([c, '='] ++ rest) (.plain paired [c, '='] line rest) :=
      .plain hp (by simp) (by simp [hc])
    exact hpair
  · have hsingle : Step.Sound line ([c] ++ rest) (.plain alone [c] line rest) :=
      .plain ha (by simp) (by simp [hc])
    exact hsingle

theorem punctuation?_ne_eof {c : Char} {kind : Kind} (h : punctuation? c = some kind) :
    kind ≠ .eof := by
  rintro rfl
  unfold punctuation? at h
  split at h <;> contradiction

theorem equalPair?_ne_eof {c : Char} {alone paired : Kind}
    (h : equalPair? c = some (alone, paired)) : alone ≠ .eof ∧ paired ≠ .eof := by
  unfold equalPair? at h
  split at h
  case h_5 => contradiction
  all_goals
    obtain ⟨rfl, rfl⟩ := Prod.mk.inj (Option.some.inj h)
    decide

theorem step_sound (line : Nat) (c : Char) (rest : List Char) :
    Step.Sound line (c :: rest) (step line c rest) := by
  unfold step
  split
  · next hblank =>
    apply Step.Sound.skip
    have hbreaks : lineBreaks [c] = 0 := by
      apply lineBreaks_eq_zero
      rcases hblank with rfl | rfl | rfl <;> simp
    exact ⟨[c], by simp, rfl, by rw [hbreaks]; rfl⟩
  split
  · next hnewline =>
    subst hnewline
    apply Step.Sound.skip
    exact ⟨['\n'], by simp, rfl, rfl⟩
  split
  · next hslash =>
    subst hslash
    exact slashStep_sound line rest
  split
  · next hquote =>
    subst hquote
    exact stringStep_sound line rest
  split
  · next hdigit => exact numberStep_sound line hdigit rest
  split
  · next hletter => exact wordStep_sound line hletter rest
  next hnewline _ _ _ _ =>
  have hlexeme : ∀ d ∈ [c], d ≠ '\n' := by simpa using hnewline
  split
  · next _ kind hkind =>
    have hplain : Step.Sound line ([c] ++ rest) (.plain kind [c] line rest) :=
      .plain (punctuation?_ne_eof hkind) (by simp) hlexeme
    exact hplain
  · next alone paired _ hpair =>
    obtain ⟨ha, hp⟩ := equalPair?_ne_eof hpair
    exact equalStep_sound alone paired line ha hp hnewline rest
  · refine ⟨⟨[c], by simp, rfl, ?_⟩, ?_, ?_⟩
    · rw [lineBreaks_eq_zero hlexeme]
      rfl
    · simp [ScanItem.line, LexicalError.line]
    · simp [ScanItem.token?]

theorem step_rest_length (line : Nat) (c : Char) (rest : List Char) :
    (step line c rest).rest.length ≤ rest.length := by
  obtain ⟨piece, hne, hcs, -⟩ := (step_sound line c rest).taken
  have hlength := congrArg List.length hcs
  have hpos : 0 < piece.length := List.length_pos_iff.mpr hne
  rw [List.length_cons, List.length_append] at hlength
  omega

/-- A scan of characters from the given line on. -/
def ofChars (line : Nat) (cs : List Char) : Scan :=
  steps cs.length line cs

/-- More steps than characters are not needed. -/
theorem steps_eq_ofChars {n : Nat} {cs : List Char} (line : Nat) (h : cs.length ≤ n) :
    steps n line cs = ofChars line cs := by
  have hagree : ∀ (m n line : Nat) (cs : List Char), cs.length ≤ n → cs.length ≤ m →
      steps n line cs = steps m line cs := by
    intro m
    induction m with
    | zero =>
      intro n line cs _ hm
      obtain rfl := List.length_eq_zero_iff.mp (Nat.le_zero.mp hm)
      cases n <;> rfl
    | succ m ih =>
      intro n line cs hn hm
      cases cs with
      | nil => cases n <;> rfl
      | cons c rest =>
        cases n with
        | zero => contradiction
        | succ n =>
          have hrest := step_rest_length line c rest
          rw [List.length_cons] at hn hm
          simp only [steps]
          rw [ih n _ _ (by omega) (by omega)]
  exact hagree _ _ _ _ h (Nat.le_refl _)

@[simp] theorem ofChars_nil (line : Nat) : ofChars line [] = ⟨[], line⟩ := rfl

theorem ofChars_cons (line : Nat) (c : Char) (rest : List Char) :
    ofChars line (c :: rest) =
      let here := step line c rest
      let later := ofChars here.line here.rest
      ⟨here.item.toList ++ later.items, later.line⟩ := by
  simp only [← steps_eq_ofChars _ (step_rest_length line c rest)]
  rfl

/-- Induction along the steps of a scan. -/
theorem induction {P : Nat → List Char → Prop} (nil : ∀ line, P line [])
    (cons : ∀ line c rest, P (step line c rest).line (step line c rest).rest →
      P line (c :: rest)) (line : Nat) (cs : List Char) : P line cs := by
  induction hn : cs.length using Nat.strongRecOn generalizing line cs with
  | ind n ih =>
    cases cs with
    | nil => exact nil line
    | cons c rest =>
      have hrest := step_rest_length line c rest
      rw [List.length_cons] at hn
      exact cons line c rest (ih _ (by omega) _ _ rfl)

/-- A scan ends on the line that the line ends in the source lead to. -/
theorem ofChars_line (line : Nat) (cs : List Char) :
    (ofChars line cs).line = line + lineBreaks cs := by
  induction line, cs using Scan.induction with
  | nil line => rfl
  | cons line c rest ih =>
    obtain ⟨piece, -, hcs, hline⟩ := (step_sound line c rest).taken
    rw [ofChars_cons]
    calc (ofChars (step line c rest).line (step line c rest).rest).line
      _ = (step line c rest).line + lineBreaks (step line c rest).rest := ih
      _ = line + lineBreaks (piece ++ (step line c rest).rest) := by
        rw [lineBreaks_append, hline, Nat.add_assoc]
      _ = line + lineBreaks (c :: rest) := by rw [← hcs]

/-- What is found stands on a line of the source. -/
theorem ofChars_item_line (line : Nat) (cs : List Char) :
    ∀ i ∈ (ofChars line cs).items, line ≤ i.line ∧ i.line ≤ line + lineBreaks cs := by
  induction line, cs using Scan.induction with
  | nil line => simp
  | cons line c rest ih =>
    obtain ⟨piece, -, hcs, hline⟩ := (step_sound line c rest).taken
    have hbreaks : lineBreaks (c :: rest) = lineBreaks piece + lineBreaks (step line c rest).rest := by
      rw [← lineBreaks_append, ← hcs]
    rw [ofChars_cons]
    intro i hi
    rcases List.mem_append.mp hi with hhere | hlater
    · have hi_line := (step_sound line c rest).item_line i (Option.mem_toList.mp hhere)
      omega
    · have hbounds := ih i hlater
      omega

/-- The end-of-input token is not among the tokens that are found. -/
theorem ofChars_kind_ne_eof (line : Nat) (cs : List Char) :
    ∀ t ∈ (ofChars line cs).items.filterMap ScanItem.token?, t.kind ≠ .eof := by
  induction line, cs using Scan.induction with
  | nil line => simp
  | cons line c rest ih =>
    rw [ofChars_cons]
    intro t ht
    rw [List.filterMap_append] at ht
    rcases List.mem_append.mp ht with hhere | hlater
    · obtain ⟨i, hi, hit⟩ := List.mem_filterMap.mp hhere
      exact (step_sound line c rest).kind_ne_eof i (Option.mem_toList.mp hi) t hit
    · exact ih t hlater

end Scan

end Treewalk
