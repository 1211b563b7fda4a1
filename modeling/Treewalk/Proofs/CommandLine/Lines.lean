import Treewalk.CommandLine.Prompt

set_option autoImplicit false
set_option relaxedAutoImplicit false

/-!
The lines of a text.

The prompt cuts its input into lines byte by byte. Where the input is a text, these are the lines of
the text, cut character by character, since the bytes of a line feed and of a carriage return occur
in no other character.
-/

namespace Treewalk.CommandLine

/-- A line without the carriage return that may end it. -/
def withoutReturn (line : List Char) : List Char :=
  if line.getLast? = some '\r' then line.dropLast else line

/-- The lines of the given characters, behind the beginning of a line. -/
def charLines (line : List Char) : List Char → List (List Char)
  | [] => if line.isEmpty then [] else [line]
  | c :: rest =>
    if c = '\n' then withoutReturn line :: charLines [] rest else charLines (line ++ [c]) rest

/-- The lines of a text. A line ends with a line feed, and a carriage return before it is dropped; the
last line may also end with the text. -/
def textLines (text : String) : List String :=
  (charLines [] text.toList).map String.ofList

/-- Induction along the lines of characters. -/
theorem charLines_induction {P : List Char → List (List Char) → Prop} (nil : P [] [])
    (last : ∀ line, line ≠ [] → '\n' ∉ line → P line [line])
    (cons : ∀ line rest, '\n' ∉ line → P rest (charLines [] rest) →
      P (line ++ '\n' :: rest) (withoutReturn line :: charLines [] rest)) (cs : List Char) :
    P cs (charLines [] cs) := by
  have hbegun : ∀ line : List Char, '\n' ∉ line → P (line ++ cs) (charLines line cs) := by
    induction cs with
    | nil =>
      intro line hline
      rw [List.append_nil]
      cases line with
      | nil => exact nil
      | cons c line => exact last _ (List.cons_ne_nil c line) hline
    | cons c rest ih =>
      intro line hline
      by_cases hc : c = '\n'
      · subst hc
        exact cons line rest hline (ih [] List.not_mem_nil)
      · have hmore : '\n' ∉ line ++ [c] := by simp [hline, Ne.symm hc]
        rw [charLines, if_neg hc, List.append_cons]
        exact ih (line ++ [c]) hmore
  exact hbegun [] List.not_mem_nil

/-- The bytes of characters. -/
def bytes (cs : List Char) : List UInt8 :=
  cs.flatMap String.utf8EncodeChar

@[simp] theorem bytes_append (cs ds : List Char) : bytes (cs ++ ds) = bytes cs ++ bytes ds :=
  List.flatMap_append

theorem bytes_ne_nil {cs : List Char} (h : cs ≠ []) : bytes cs ≠ [] := by
  cases cs with
  | nil => contradiction
  | cons c cs =>
    intro hnil
    exact String.utf8EncodeChar_ne_nil (List.append_eq_nil_iff.mp hnil).1

theorem utf8EncodeChar_of_lt {c : Char} (h : c.toNat < 128) :
    String.utf8EncodeChar c = [UInt8.ofNat c.toNat] := by
  have hle : c.val.toNat ≤ 127 := Nat.le_of_lt_succ h
  simp only [String.utf8EncodeChar, if_pos hle]
  rfl

theorem le_of_mem_utf8EncodeChar {c : Char} (h : 128 ≤ c.toNat) :
    ∀ b ∈ String.utf8EncodeChar c, 128 ≤ b.toNat := by
  have hnot : ¬ c.val.toNat ≤ 127 := Nat.not_le_of_lt h
  simp only [String.utf8EncodeChar, if_neg hnot]
  have hofNat : ∀ n : Nat, 128 ≤ n → n < 256 → 128 ≤ (UInt8.ofNat n).toNat := by
    intro n hlow hhigh
    rw [UInt8.toNat_ofNat']
    omega
  intro b hb
  split at hb
  · simp only [List.mem_cons, List.not_mem_nil, or_false] at hb
    rcases hb with rfl | rfl <;> exact hofNat _ (by omega) (by omega)
  split at hb
  · simp only [List.mem_cons, List.not_mem_nil, or_false] at hb
    rcases hb with rfl | rfl | rfl <;> exact hofNat _ (by omega) (by omega)
  · simp only [List.mem_cons, List.not_mem_nil, or_false] at hb
    rcases hb with rfl | rfl | rfl | rfl <;> exact hofNat _ (by omega) (by omega)

/-- A byte below 128 is that of one character alone. -/
theorem eq_of_mem_utf8EncodeChar {c d : Char} (hd : d.toNat < 128)
    (h : UInt8.ofNat d.toNat ∈ String.utf8EncodeChar c) : c = d := by
  have hbyte : (UInt8.ofNat d.toNat).toNat = d.toNat := by
    rw [UInt8.toNat_ofNat']
    omega
  by_cases hc : c.toNat < 128
  · rw [utf8EncodeChar_of_lt hc, List.mem_singleton] at h
    have hnat := congrArg UInt8.toNat h
    rw [hbyte, UInt8.toNat_ofNat'] at hnat
    apply Char.toNat_inj.mp
    omega
  · have hhigh := le_of_mem_utf8EncodeChar (Nat.le_of_not_lt hc) _ h
    omega

theorem not_mem_bytes {d : Char} (hd : d.toNat < 128) {cs : List Char} (h : d ∉ cs) :
    UInt8.ofNat d.toNat ∉ bytes cs := by
  intro hmem
  obtain ⟨c, hc, hbyte⟩ := List.mem_flatMap.mp hmem
  exact h (eq_of_mem_utf8EncodeChar hd hbyte ▸ hc)

theorem inputLines_cons (line : List UInt8) (byte : UInt8) (rest : List UInt8) :
    inputLines line (byte :: rest) =
      if byte = 10 then finishLine line :: inputLines [] rest
      else inputLines (byte :: line) rest := by
  split
  · next h =>
    subst h
    cases line <;> rfl
  · cases line <;> simp [inputLines]

theorem inputLines_nil {line : List UInt8} (h : line ≠ []) :
    inputLines line [] = [line.reverse] := by
  cases line with
  | nil => contradiction
  | cons byte line => rfl

/-- Bytes without a line feed are those of one line. -/
theorem inputLines_append {piece : List UInt8} (h : 10 ∉ piece) (line rest : List UInt8) :
    inputLines line (piece ++ rest) = inputLines (piece.reverse ++ line) rest := by
  induction piece generalizing line with
  | nil => rfl
  | cons byte piece ih =>
    have hbyte : byte ≠ 10 := fun heq => h (heq ▸ List.mem_cons_self)
    have hpiece : 10 ∉ piece := fun hmem => h (List.mem_cons_of_mem byte hmem)
    rw [List.cons_append, inputLines_cons, if_neg hbyte, ih hpiece, List.reverse_cons,
      List.append_assoc]
    rfl

theorem finishLine_of_head? {line : List UInt8} (h : line.head? ≠ some 13) :
    finishLine line = line.reverse := by
  unfold finishLine
  split
  · contradiction
  · rfl

/-- Dropping a carriage return from the bytes of a line drops it from the line. -/
theorem finishLine_bytes (line : List Char) :
    finishLine (bytes line).reverse = bytes (withoutReturn line) := by
  rcases List.eq_nil_or_concat line with rfl | ⟨start, c, hline⟩
  · rfl
  rw [List.concat_eq_append] at hline
  subst hline
  by_cases hc : c = '\r'
  · subst hc
    have hdrop : withoutReturn (start ++ ['\r']) = start := by
      simp [withoutReturn]
    have hbytes : (bytes (start ++ ['\r'])).reverse = 13 :: (bytes start).reverse := by
      rw [bytes_append, List.reverse_append]
      rfl
    rw [hdrop, hbytes, finishLine, List.reverse_reverse]
  · have hkeep : withoutReturn (start ++ [c]) = start ++ [c] := by
      simp [withoutReturn, hc]
    rw [hkeep, finishLine_of_head?, List.reverse_reverse]
    intro hhead
    rw [List.head?_reverse, bytes_append, List.getLast?_append] at hhead
    have hbytes : bytes [c] = String.utf8EncodeChar c := List.flatMap_singleton ..
    cases hlast : (bytes [c]).getLast? with
    | none =>
      rw [hbytes] at hlast
      exact String.utf8EncodeChar_ne_nil (List.getLast?_eq_none_iff.mp hlast)
    | some byte =>
      rw [hlast, Option.some_or, Option.some.injEq] at hhead
      have hmem : 13 ∈ String.utf8EncodeChar c := by
        rw [← hbytes, ← hhead]
        exact List.mem_of_getLast? hlast
      exact hc (eq_of_mem_utf8EncodeChar (d := '\r') (by decide) hmem)

/-- The lines that the prompt finds in the bytes of characters. -/
theorem inputLines_bytes (cs : List Char) : inputLines [] (bytes cs) = (charLines [] cs).map bytes := by
  refine charLines_induction (P := fun cs lines => inputLines [] (bytes cs) = lines.map bytes) rfl
    (fun line hne hline => ?_) (fun line rest hline ih => ?_) cs
  · have hfeed : 10 ∉ bytes line := not_mem_bytes (d := '\n') (by decide) hline
    have hlast := inputLines_append hfeed [] []
    rw [List.append_nil, List.append_nil] at hlast
    have hreverse : (bytes line).reverse ≠ [] := by simpa using bytes_ne_nil hne
    rw [hlast, inputLines_nil hreverse, List.reverse_reverse]
    rfl
  · have hfeed : 10 ∉ bytes line := not_mem_bytes (d := '\n') (by decide) hline
    have hbytes : bytes (line ++ '\n' :: rest) = bytes line ++ 10 :: bytes rest := bytes_append _ _
    rw [hbytes, inputLines_append hfeed, List.append_nil, inputLines_cons, if_pos rfl,
      finishLine_bytes, ih, List.map_cons]

/-- The bytes of an array are taken one by one, from the first to the last. -/
theorem toList_loop_eq (b : ByteArray) (i : Nat) (front : List UInt8) :
    ByteArray.toList.loop b i front = front.reverse ++ b.data.toList.drop i := by
  fun_induction ByteArray.toList.loop b i front with
  | case1 i front hi ih =>
    have hlength : i < b.data.toList.length := by simpa using hi
    have hdrop : b.data.toList.drop i = b.get! i :: b.data.toList.drop (i + 1) := by
      rw [List.drop_eq_getElem_cons hlength]
      simp [ByteArray.get!, hi]
    rw [ih, hdrop, List.reverse_cons, List.append_assoc]
    rfl
  | case2 i front hi =>
    have hlength : b.data.toList.length ≤ i := by simpa using hi
    rw [List.drop_of_length_le hlength, List.append_nil]

theorem toUTF8_toList (text : String) : text.toUTF8.toList = bytes text.toList := by
  rw [String.toUTF8_eq_toByteArray, ← String.utf8Encode_toList, ByteArray.toList, toList_loop_eq]
  exact List.toList_data_toByteArray

theorem inputLines_toUTF8 (text : String) :
    inputLines [] text.toUTF8.toList = (textLines text).map fun line => line.toUTF8.toList := by
  have hline : (fun line : String => line.toUTF8.toList) ∘ String.ofList = bytes := by
    funext cs
    rw [Function.comp_apply, toUTF8_toList, String.toList_ofList]
  rw [toUTF8_toList, inputLines_bytes, textLines, List.map_map, hline]

theorem fromUTF8?_toUTF8 (text : String) : String.fromUTF8? text.toUTF8 = some text := by
  have hvalid : text.toUTF8.IsValidUTF8 := text.isValidUTF8
  rw [String.fromUTF8?, dif_pos hvalid]
  rfl

theorem lineText?_toUTF8 (line : String) : lineText? line.toUTF8.toList = some line := by
  have hbytes : (⟨line.toUTF8.toList.toArray⟩ : ByteArray) = line.toUTF8 := by
    rw [ByteArray.toList, toList_loop_eq]
    rfl
  rw [lineText?, hbytes, fromUTF8?_toUTF8]

end Treewalk.CommandLine
